import RfcNet.Lib.Cursor

/-!
# The grammar of a decoder

`Reads get bs a` says that `get` reads the bytes `bs` where it meets them.  `Spells get L` says in
addition that it reads nothing else: it succeeds exactly where the buffer goes on with bytes that
the relation `L` takes for a value.  A sequence of reads has a grammar when its parts have one
(`Get.Spells.bind`), and a counted loop spells so many elements, one after the other
(`Get.Spells.getAll`).
-/

set_option autoImplicit false

namespace RfcNet
namespace Lib

variable {α β ρ : Type}

/-- `get` succeeds where the buffer goes on with bytes that `L` takes for a value, comes to the end
of these, and fails everywhere else. -/
def Get.Spells (get : Get α) (L : Frame → α → Prop) : Prop :=
  ∀ (before tail : Frame) (pos : UInt32), pos.toNat = before.length →
    (before ++ tail).length < 2 ^ 32 → ∀ a pos', get (before ++ tail) pos = .ok (a, pos') ↔
      ∃ bs rest, tail = bs ++ rest ∧ L bs a ∧ pos'.toNat = (before ++ bs).length

namespace Get.Spells

variable {L L' : Frame → α → Prop} {M : α → Frame → β → Prop} {get : Get α}

/-- Grammars that accept the same are the same. -/
theorem congr (h : get.Spells L) (hL : ∀ bs a, L bs a ↔ L' bs a) : get.Spells L' := by
  have heq : L = L' := funext₂ fun bs a ↦ propext (hL bs a)
  rwa [← heq]

/-- A copy of `n` bytes spells any `n` bytes. -/
theorem getBytes (n : ℕ) : (getBytes n).Spells fun bs f ↦ bs = f ∧ f.length = n := by
  intro before tail pos hpos hlt f pos'
  constructor
  · intro h
    obtain ⟨tail', htail, hlen, hpos'⟩ := getBytes_split hpos hlt h
    exact ⟨f, tail', htail, ⟨rfl, hlen⟩, hpos'⟩
  · rintro ⟨bs, rest, rfl, ⟨rfl, rfl⟩, hpos'⟩
    simp only [List.length_append] at hlt hpos'
    rw [reads_getBytes bs before rest pos hpos (by omega)]
    have hend : pos + UInt32.ofNat bs.length = pos' := by
      rw [← UInt32.toNat_inj, toNat_add_ofNat hpos (by omega), hpos']
    rw [hend]

/-- Reading nothing spells the empty word. -/
theorem pure (a : α) : (Get.pure a).Spells fun bs b ↦ bs = [] ∧ b = a := by
  intro before tail pos hpos _ b pos'
  constructor
  · intro h
    obtain ⟨hb, hpos'⟩ := Prod.mk.inj (Except.ok.inj h)
    refine ⟨[], tail, (List.nil_append tail).symm, ⟨rfl, hb.symm⟩, ?_⟩
    rw [← hpos', hpos, List.append_nil]
  · rintro ⟨bs, rest, rfl, ⟨rfl, rfl⟩, hpos'⟩
    rw [List.append_nil, ← hpos, UInt32.toNat_inj] at hpos'
    rw [hpos', Get.pure]

/-- What fails spells nothing. -/
theorem fail (e : Fault) : (Get.fail e : Get α).Spells fun _ _ ↦ False := by
  intro before tail pos _ _ a pos'
  constructor
  · exact nofun
  · rintro ⟨bs, rest, -, hbs, -⟩
    exact hbs.elim

/-- A choice spells what the chosen part spells. -/
theorem ite {p : Prop} [Decidable p] {get' : Get α} (h : get.Spells L) (h' : get'.Spells L') :
    (if p then get else get').Spells fun bs a ↦ (p ∧ L bs a) ∨ (¬ p ∧ L' bs a) := by
  by_cases hp : p
  · rw [if_pos hp]
    exact h.congr fun bs a ↦ by simp [hp]
  · rw [if_neg hp]
    exact h'.congr fun bs a ↦ by simp [hp]

/-- **Sequencing**: a word of the first, and a word of the second for what the first has read. -/
theorem bind {g : α → Get β} (h : get.Spells L) (hg : ∀ a, (g a).Spells (M a)) :
    (get.bind g).Spells fun bs b ↦ ∃ cs ds a, bs = cs ++ ds ∧ L cs a ∧ M a ds b := by
  intro before tail pos hpos hlt b pos'
  rw [Get.bind_eq_ok]
  constructor
  · rintro ⟨a, m, hfirst, hrest⟩
    obtain ⟨cs, rest, rfl, hcs, hm⟩ := (h before tail pos hpos hlt a m).mp hfirst
    rw [← List.append_assoc] at hrest hlt
    obtain ⟨ds, rest', rfl, hds, hend⟩ := (hg a (before ++ cs) rest m hm hlt b pos').mp hrest
    refine ⟨cs ++ ds, rest', (List.append_assoc cs ds rest').symm, ⟨cs, ds, a, rfl, hcs, hds⟩, ?_⟩
    rw [hend, List.append_assoc]
  · rintro ⟨bs, rest, rfl, ⟨cs, ds, a, rfl, hcs, hds⟩, hend⟩
    have hm : (UInt32.ofNat (before ++ cs).length).toNat = (before ++ cs).length := by
      refine UInt32.toNat_ofNat_of_lt' (lt_of_le_of_lt ?_ hlt)
      simp only [List.length_append]
      omega
    rw [← List.append_assoc] at hend
    rw [List.append_assoc cs] at hlt ⊢
    refine ⟨a, UInt32.ofNat (before ++ cs).length, ?_, ?_⟩
    · exact (h before (cs ++ (ds ++ rest)) pos hpos hlt a _).mpr ⟨cs, ds ++ rest, rfl, hcs, hm⟩
    · rw [← List.append_assoc] at hlt ⊢
      exact (hg a (before ++ cs) (ds ++ rest) _ hm hlt b pos').mpr ⟨ds, rest, rfl, hds, hend⟩

/-- The same with the result passed on through a function. -/
theorem map (h : get.Spells L) (g : α → β) :
    (get.bind fun a ↦ Get.pure (g a)).Spells fun bs b ↦ ∃ a, L bs a ∧ b = g a := by
  refine (h.bind fun a ↦ pure (g a)).congr fun bs b ↦ ?_
  constructor
  · rintro ⟨cs, ds, a, hbs, hcs, rfl, hb⟩
    rw [List.append_nil] at hbs
    exact ⟨a, hbs ▸ hcs, hb⟩
  · rintro ⟨a, hbs, hb⟩
    exact ⟨bs, [], a, (List.append_nil bs).symm, hbs, rfl, hb⟩

/-- **A counted loop** spells so many elements.  An element is read from the bytes of some `r`, of
which the reader keeps `view r`. -/
theorem getAll {ok : ρ → Prop} {bytes : ρ → Frame} {view : ρ → α}
    (h : get.Spells fun bs a ↦ ∃ r, ok r ∧ bs = bytes r ∧ a = view r) (n : ℕ) (acc : List α) :
    (getAll get n acc).Spells fun bs l ↦ ∃ rs : List ρ,
      rs.length = n ∧ (∀ r ∈ rs, ok r) ∧ bs = rs.flatMap bytes ∧ l = acc ++ rs.map view := by
  induction n generalizing acc with
  | zero =>
    refine (pure acc).congr fun bs l ↦ ?_
    constructor
    · rintro ⟨hbs, hl⟩
      exact ⟨[], rfl, nofun, hbs, by rw [hl, List.map_nil, List.append_nil]⟩
    · rintro ⟨rs, hlen, -, hbs, hl⟩
      obtain rfl := List.eq_nil_of_length_eq_zero hlen
      exact ⟨hbs, by rw [hl, List.map_nil, List.append_nil]⟩
  | succ n ih =>
    refine (h.bind fun a ↦ ih (acc ++ [a])).congr fun bs l ↦ ?_
    constructor
    · rintro ⟨cs, ds, a, hbs, ⟨r, hr, hcs, ha⟩, rs, hlen, hrs, hds, hl⟩
      refine ⟨r :: rs, ?_, List.forall_mem_cons.mpr ⟨hr, hrs⟩, ?_, ?_⟩
      · rw [List.length_cons, hlen]
      · rw [hbs, hcs, hds, List.flatMap_cons]
      · rw [hl, ha, List.map_cons, List.append_assoc, List.singleton_append]
    · rintro ⟨rs, hlen, hrs, hbs, hl⟩
      obtain ⟨r, rs', rfl⟩ := List.exists_cons_of_length_eq_add_one hlen
      obtain ⟨hr, hrs'⟩ := List.forall_mem_cons.mp hrs
      refine ⟨bytes r, rs'.flatMap bytes, view r, ?_, ⟨r, hr, rfl, rfl⟩, rs', ?_, hrs', rfl, ?_⟩
      · rw [hbs, List.flatMap_cons]
      · rw [List.length_cons] at hlen
        omega
      · rw [hl, List.map_cons, List.append_assoc, List.singleton_append]

/-- From the start of a buffer. -/
theorem run (h : get.Spells L) {bytes : Frame} (hlt : bytes.length < 2 ^ 32) (a : α) :
    (∃ pos', get bytes 0 = .ok (a, pos')) ↔ ∃ bs rest, bytes = bs ++ rest ∧ L bs a := by
  have hstart := h [] bytes 0 rfl hlt a
  rw [List.nil_append] at hstart
  constructor
  · rintro ⟨pos', hget⟩
    obtain ⟨bs, rest, hbytes, hbs, -⟩ := (hstart pos').mp hget
    exact ⟨bs, rest, hbytes, hbs⟩
  · rintro ⟨bs, rest, hbytes, hbs⟩
    refine ⟨UInt32.ofNat bs.length, (hstart _).mpr ⟨bs, rest, hbytes, hbs, ?_⟩⟩
    refine UInt32.toNat_ofNat_of_lt' (lt_of_le_of_lt ?_ hlt)
    rw [hbytes, List.length_append]
    omega

end Get.Spells

/-! ## What is made of it -/

section
variable {ε π : Type}

theorem map_eq_ok_iff {x : Except ε α} {g : α → β} {b : β} :
    x.map g = .ok b ↔ ∃ a, x = .ok a ∧ g a = b := by
  cases x with
  | error e => simp [Except.map]
  | ok a => simp [Except.map]

/-- A decoder that makes an object of what it reads, and forgets the position, comes to the object of
exactly what it reads. -/
theorem map_fst_eq_ok_iff {x : Except ε (α × π)} {g : α → β} (hg : Function.Injective g) (a : α) :
    x.map (fun r ↦ g r.1) = .ok (g a) ↔ ∃ p, x = .ok (a, p) := by
  rw [map_eq_ok_iff]
  constructor
  · rintro ⟨⟨b, p⟩, hx, heq⟩
    obtain rfl : b = a := hg heq
    exact ⟨p, hx⟩
  · rintro ⟨p, hx⟩
    exact ⟨(a, p), hx, rfl⟩

end

end Lib
end RfcNet
