import Mathlib.Data.List.Sort

/-!
# Comparators, and lists kept sorted by one

A comparator is a `Bool`-valued "less than", as it is handed to a sorting routine.  `StrictTotal`
is what such a routine needs of it and a little more: ties only between equal elements.  The usual
way to write one is to compare by one key and fall through to the next on a tie; `StrictTotal.lex`
says when that is sound.

`Ascending lt l` says that `l` is strictly increasing under `lt`.  An ascending list is nothing but
a finite set written down: it has no duplicates, two of them with the same members are equal
(`Ascending.ext`), and sorting the result of appending a new element gives the ascending list of
the larger set (`ascending_listSort_append`).
-/

set_option autoImplicit false

namespace RfcNet
namespace Lib

variable {α β κ : Type*}

/-! ## Comparators -/

/-- `lt` is irreflexive and transitive, and elements it does not separate agree under `f`. -/
structure StrictVia (f : α → β) (lt : α → α → Bool) : Prop where
  /-- Nothing is less than itself. -/
  irrefl : ∀ a, lt a a = false
  /-- Less than is transitive. -/
  trans : ∀ a b c, lt a b = true → lt b c = true → lt a c = true
  /-- A tie is a tie under `f`. -/
  tie : ∀ a b, lt a b = false → lt b a = false → f a = f b

/-- `lt` is a strict total order. -/
abbrev StrictTotal (lt : α → α → Bool) : Prop := StrictVia id lt

/-- The comparator of an order. -/
theorem strictTotal_decide_lt [LT α] [LE α] [DecidableLT α] [Std.LawfulOrderLT α]
    [Std.IsLinearOrder α] : StrictTotal fun a b : α ↦ decide (a < b) where
  irrefl a := by simpa using Std.lt_irrefl
  trans a b c hab hbc := by
    simp only [decide_eq_true_eq] at hab hbc ⊢
    exact Std.lt_trans hab hbc
  tie a b hab hba := by
    simp only [decide_eq_false_iff_not, Std.not_lt] at hab hba
    exact Std.le_antisymm hba hab

/-- Comparing by a key. -/
theorem StrictTotal.comap {ltκ : κ → κ → Bool} (h : StrictTotal ltκ) (key : α → κ) :
    StrictVia key fun a b ↦ ltκ (key a) (key b) where
  irrefl a := h.irrefl (key a)
  trans a b c := h.trans (key a) (key b) (key c)
  tie a b := h.tie (key a) (key b)

/-- **Falling through on a tie.**  Compare by `key` first and by `rest` where the keys agree. -/
theorem StrictVia.lex [DecidableEq κ] {ltκ : κ → κ → Bool} (hκ : StrictTotal ltκ) (key : α → κ)
    {f : α → β} {rest : α → α → Bool} (hrest : StrictVia f rest) :
    StrictVia (fun a ↦ (key a, f a))
      fun a b ↦ if key a ≠ key b then ltκ (key a) (key b) else rest a b where
  irrefl a := by simpa using hrest.irrefl a
  trans a b c hab hbc := by
    by_cases h₁ : key a = key b
    · by_cases h₂ : key b = key c
      · rw [if_neg (by simp [h₁])] at hab
        rw [if_neg (by simp [h₂])] at hbc
        rw [if_neg (by simp [h₁, h₂])]
        exact hrest.trans a b c hab hbc
      · rw [if_pos h₂] at hbc
        rwa [h₁, if_pos h₂]
    · rw [if_pos h₁] at hab
      have hac : ltκ (key a) (key c) = true := by
        by_cases h₂ : key b = key c
        · rwa [← h₂]
        · rw [if_pos h₂] at hbc
          exact hκ.trans _ _ _ hab hbc
      rw [if_pos fun h ↦ by rw [h, hκ.irrefl] at hac; exact absurd hac (by simp)]
      exact hac
  tie a b hab hba := by
    by_cases h : key a = key b
    · rw [if_neg (by simp [h])] at hab hba
      rw [h, hrest.tie a b hab hba]
    · rw [if_pos h] at hab
      rw [if_pos (Ne.symm h)] at hba
      exact absurd (hκ.tie _ _ hab hba) h

theorem StrictVia.strictTotal {f : α → β} {lt : α → α → Bool} (h : StrictVia f lt)
    (hf : Function.Injective f) : StrictTotal lt :=
  ⟨h.irrefl, h.trans, fun a b hab hba ↦ hf (h.tie a b hab hba)⟩

/-! ## Lists sorted by a comparator -/

/-- Stable sorting by a comparator: no element ends up after one it is less than. -/
def listSort (lt : α → α → Bool) (l : List α) : List α :=
  l.insertionSort fun a b ↦ lt b a = false

@[simp] theorem mem_listSort {lt : α → α → Bool} {l : List α} {a : α} :
    a ∈ listSort lt l ↔ a ∈ l :=
  List.mem_insertionSort _

/-- `l` is strictly increasing under `lt`. -/
abbrev Ascending (lt : α → α → Bool) (l : List α) : Prop := l.Pairwise fun a b ↦ lt a b = true

variable {lt : α → α → Bool}

theorem Ascending.nodup (h : StrictTotal lt) {l : List α} (hl : Ascending lt l) : l.Nodup :=
  hl.imp fun {a b} hab heq ↦ by rw [heq, h.irrefl] at hab; exact absurd hab (by simp)

/-- **An ascending list is determined by its members.** -/
theorem Ascending.ext (h : StrictTotal lt) {l m : List α} (hl : Ascending lt l)
    (hm : Ascending lt m) (hlm : ∀ a, a ∈ l ↔ a ∈ m) : l = m := by
  have : Std.Irrefl fun a b ↦ lt a b = true := ⟨fun a ↦ by simp [h.irrefl a]⟩
  have : Std.Antisymm fun a b ↦ lt a b = true := ⟨fun a b hab hba ↦ by
    have hlt := h.trans a b a hab hba
    rw [h.irrefl] at hlt
    exact absurd hlt (by simp)⟩
  exact List.Pairwise.eq_of_mem_iff hl hm hlm

/-- Sorting a list without duplicates makes it ascending. -/
theorem ascending_listSort (h : StrictTotal lt) {l : List α} (hl : l.Nodup) :
    Ascending lt (listSort lt l) := by
  have : Std.Total fun a b ↦ lt b a = false := ⟨fun a b ↦ by
    by_cases hba : lt b a = false
    · exact .inl hba
    · refine .inr (Bool.eq_false_iff.mpr fun hab ↦ ?_)
      have hlt := h.trans a b a hab (by simpa using hba)
      rw [h.irrefl] at hlt
      exact absurd hlt (by simp)⟩
  have : IsTrans α fun a b ↦ lt b a = false := ⟨fun a b c hba hcb ↦ by
    refine Bool.eq_false_iff.mpr fun hca ↦ ?_
    by_cases hbc : lt b c = true
    · rw [h.trans b c a hbc hca] at hba
      exact absurd hba (by simp)
    · obtain rfl : b = c := h.tie b c (by simpa using hbc) hcb
      rw [hba] at hca
      exact absurd hca (by simp)⟩
  have hnd : (listSort lt l).Nodup := (List.perm_insertionSort _ l).nodup_iff.mpr hl
  have hle : (listSort lt l).Pairwise fun a b ↦ lt b a = false := List.pairwise_insertionSort _ l
  refine (hle.and hnd).imp fun {a b} hab ↦ ?_
  by_contra hlt
  exact hab.2 (h.tie a b (by simpa using hlt) hab.1)

/-- **Inserting by appending and sorting.** -/
theorem ascending_listSort_append (h : StrictTotal lt) {l : List α} (hl : Ascending lt l) {a : α}
    (ha : a ∉ l) : Ascending lt (listSort lt (l ++ [a])) :=
  ascending_listSort h (List.nodup_append'.mpr ⟨hl.nodup h, List.nodup_singleton a, by simpa⟩)

/-- The images of an ascending list, if the map is strictly monotone on it. -/
theorem Ascending.map {ltβ : β → β → Bool} {l : List α} (hl : Ascending lt l) (f : α → β)
    (hf : ∀ a ∈ l, ∀ b ∈ l, lt a b = true → ltβ (f a) (f b) = true) :
    Ascending ltβ (l.map f) := by
  rw [Ascending, List.pairwise_map]
  exact hl.imp_of_mem fun ha hb hab ↦ hf _ ha _ hb hab

end Lib
end RfcNet
