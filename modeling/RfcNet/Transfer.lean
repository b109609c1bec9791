import Mathlib.Algebra.BigOperators.Intervals
import Mathlib.Algebra.BigOperators.Ring.Finset
import Mathlib.Data.Nat.Count
import RfcNet.Words

/-!
# Moving bytes through a socket

`ClientSocket::send`, `ClientSocket::recv`, `ServerSocket::send` and `ServerSocket::recv` call the system
until `len` bytes are through.  They add what the call returned to a position of type `size_t`, the `-1` of
a failed call with the rest, so that a failed call moves the position backwards.

A socket function does what it is for on a sequence of results exactly when those results never set its
position back (`MoveLoop.exact_iff`).
-/

set_option autoImplicit false

namespace RfcNet

/-! ## The four functions -/

/-- What tells the four functions apart. -/
structure MoveLoop where
  /-- Whether the condition of the loop looks at `retries`. -/
  limited : Bool
  /-- What the function says, and does no more about, when its socket is not connected. -/
  disconnected : Option String
  /-- What it says after ten retries. -/
  tooMany : String

/-- `ClientSocket::send`. -/
def ClientSocket.send : MoveLoop where
  limited := true
  disconnected := none
  tooMany := "Too many retries while sending bytes"

/-- `ClientSocket::recv`, whose loop runs for as long as bytes are missing. -/
def ClientSocket.recv : MoveLoop where
  limited := false
  disconnected := none
  tooMany := "Too many retries while receiving bytes"

/-- `ServerSocket::send`. -/
def ServerSocket.send : MoveLoop where
  limited := true
  disconnected := some "Cannot send to disconnected socket"
  tooMany := "Too many retries while sending bytes"

/-- `ServerSocket::recv`. -/
def ServerSocket.recv : MoveLoop where
  limited := true
  disconnected := some "Cannot receive from disconnected socket"
  tooMany := "Too many retries while receiving bytes"

/-- The variables of a loop, and the places of the buffer that the calls so far have moved. -/
structure Moving where
  /-- `sent`, or `received`. -/
  position : UInt64
  /-- `retries`. -/
  retries : ℕ
  /-- The places of the buffer that were moved, in the order of the stream. -/
  moved : List ℕ

/-- Before the first call. -/
def Moving.start : Moving := ⟨0, 0, []⟩

/-- One round of the loop: the call was given the rest of the buffer, returned `r` of type `ssize_t`, and
`int s` keeps the lower half of that.  A call that returns `-1` or `0` has moved nothing. -/
def Moving.round (t : Moving) (r : Int64) : Moving :=
  let s := r.toInt32
  { position := t.position + s.toInt64.toUInt64
    retries := if s < 1 then t.retries + 1 else t.retries
    moved := t.moved ++ List.range' t.position.toNat r.toInt.toNat }

/-- What a function has returned, and said on the way. -/
structure Moved where
  ok : Bool
  stderr : List String

namespace MoveLoop

/-- The condition of the loop. -/
def goesOn (f : MoveLoop) (len : UInt64) (t : Moving) : Bool :=
  (!f.limited || decide (t.retries < 10)) && decide (t.position < len)

/-- The variables of the loop after `k` rounds, or where it has stopped. -/
def after (f : MoveLoop) (len : UInt64) (results : ℕ → Int64) : ℕ → Moving
  | 0 => .start
  | k + 1 =>
    let t := f.after len results k
    if f.goesOn len t then t.round (results k) else t

/-- What the function does after its loop. -/
def finish (f : MoveLoop) (connected : Bool) (t : Moving) : Moved :=
  let warning := if connected then [] else f.disconnected.toList
  if t.retries = 10 then ⟨false, warning ++ [f.tooMany]⟩ else ⟨true, warning⟩

/-- What the function has returned after `k` rounds. -/
def returned (f : MoveLoop) (connected : Bool) (len : UInt64) (results : ℕ → Int64) (k : ℕ) :
    Option Moved :=
  let t := f.after len results k
  if f.goesOn len t then none else some (f.finish connected t)

/-- **What the system may return**: each call fails, or moves no more than it was asked to. -/
def Possible (f : MoveLoop) (len : UInt64) (results : ℕ → Int64) : Prop :=
  ∀ k, f.goesOn len (f.after len results k) = true → -1 ≤ (results k).toInt ∧
    (results k).toInt ≤ (len - (f.after len results k).position).toNat

/-- **A transfer is exact** when the function returns `true` only if it has moved every byte of the buffer
once and in order, and returns `false` if fewer bytes than that were moved. -/
structure Exact (f : MoveLoop) (connected : Bool) (len : UInt64) (results : ℕ → Int64) : Prop where
  success : ∀ k said, f.returned connected len results k = some ⟨true, said⟩ →
    (f.after len results k).moved = List.range len.toNat
  failure : (∀ k, (f.after len results k).moved.length < len.toNat) →
    ∃ k said, f.returned connected len results k = some ⟨false, said⟩

end MoveLoop

/-! ## What the results amount to -/

section
variable (results : ℕ → Int64)

/-- What the first `k` results add to the position. -/
def advance (k : ℕ) : ℤ := ∑ i ∈ Finset.range k, (results i).toInt32.toInt

/-- How many bytes the first `k` calls moved. -/
def brought (k : ℕ) : ℕ := ∑ i ∈ Finset.range k, (results i).toInt.toNat

/-- How many of the first `k` results count as a retry. -/
def misses (k : ℕ) : ℕ := Nat.count (fun i ↦ (results i).toInt32 < 1) k

/-- **How far a result sets the position back** behind the bytes that the call moved. -/
def setback (r : Int64) : ℤ := r.toInt.toNat - r.toInt32.toInt

/-- How far the first `k` results have set the position back. -/
def setbacks (k : ℕ) : ℤ := ∑ i ∈ Finset.range k, setback (results i)

/-- The position is where the bytes have got to, as it is as long as nothing has set it back. -/
def InStep (k : ℕ) : Prop := (2 : ℤ) ^ 64 ∣ setbacks results k

/-- No call among the first `k` moved bytes out of step. -/
def Straight (k : ℕ) : Prop := ∀ i < k, 0 < (results i).toInt → InStep results i

/-- The first `k` results leave the loop running. -/
def MoveLoop.Open (f : MoveLoop) (len : UInt64) (k : ℕ) : Prop :=
  advance results k % 2 ^ 64 < len.toNat ∧ (f.limited = true → misses results k < 10)

instance (f : MoveLoop) (len : UInt64) (k : ℕ) : Decidable (f.Open results len k) :=
  inferInstanceAs (Decidable (_ ∧ _))

/-- **The results suit a loop** when, at the first of them that ends it, ten calls have missed, or no call
moved bytes out of step and the last one either is in step or was the one to fill the buffer.  A
loop without a limit must be brought its bytes. -/
structure MoveLoop.Suited (f : MoveLoop) (len : UInt64) : Prop where
  stops : ∀ k, (∀ j < k, f.Open results len j) → ¬f.Open results len k → misses results k = 10 ∨
    Straight results k ∧ (InStep results k ∨ brought results k = len.toNat)
  ends : f.limited = false → (∀ k, f.Open results len k) → ∃ k, len.toNat ≤ brought results k

end

/-! ## The position -/

/-- An `int` is added to a position as its value, modulo `2 ^ 64`. -/
theorem toNat_toUInt64_toInt64 (s : Int32) : (s.toInt64.toUInt64.toNat : ℤ) = s.toInt % 2 ^ 64 := by
  have hint : s.toInt = Int.bmod s.toInt64.toUInt64.toNat (2 ^ 64) := by
    rw [← s.toInt_toInt64]
    exact BitVec.toInt_eq_toNat_bmod _
  have hlt := s.toInt64.toUInt64.toNat_lt
  rw [hint]
  have hmod := Int.bmod_emod (x := s.toInt64.toUInt64.toNat) (m := 2 ^ 64)
  omega

section
variable {results : ℕ → Int64} {f : MoveLoop} {len : UInt64} {connected : Bool} {k : ℕ}

theorem advance_succ : advance results (k + 1) = advance results k + (results k).toInt32.toInt :=
  Finset.sum_range_succ _ k

theorem brought_succ : brought results (k + 1) = brought results k + (results k).toInt.toNat :=
  Finset.sum_range_succ _ k

theorem misses_succ : misses results (k + 1) =
    misses results k + if (results k).toInt32 < 1 then 1 else 0 :=
  Nat.count_succ _ k

theorem setbacks_eq : setbacks results k = brought results k - advance results k := by
  rw [setbacks, brought, advance, Nat.cast_sum, ← Finset.sum_sub_distrib]
  rfl

/-- The variables of the loop are what the results amount to. -/
structure MoveLoop.Counts (results : ℕ → Int64) (k : ℕ) (t : Moving) : Prop where
  position : (t.position.toNat : ℤ) = advance results k % 2 ^ 64
  retries : t.retries = misses results k
  moved : t.moved.length = brought results k

namespace MoveLoop

theorem Counts.start : Counts results 0 .start := ⟨rfl, rfl, rfl⟩

theorem Counts.round {t : Moving} (h : Counts results k t) :
    Counts results (k + 1) (t.round (results k)) := by
  refine ⟨?_, ?_, ?_⟩
  · have hadd : (t.position + (results k).toInt32.toInt64.toUInt64).toNat =
        (t.position.toNat + (results k).toInt32.toInt64.toUInt64.toNat) % 2 ^ 64 :=
      UInt64.toNat_add _ _
    have hint := toNat_toUInt64_toInt64 (results k).toInt32
    have hpos := h.position
    rw [Moving.round, advance_succ]
    dsimp only
    omega
  · rw [Moving.round, misses_succ, ← h.retries]
    dsimp only
    split <;> rfl
  · rw [Moving.round, brought_succ, ← h.moved, List.length_append, List.length_range']

theorem Counts.goesOn_iff {t : Moving} (h : Counts results k t) :
    f.goesOn len t = true ↔ f.Open results len k := by
  have hpos := h.position
  rw [goesOn, Open, Bool.and_eq_true, Bool.or_eq_true, decide_eq_true_iff, decide_eq_true_iff,
    h.retries, UInt64.lt_iff_toNat_lt]
  cases f.limited <;> simp <;> omega

/-- **The loop runs for as long as its results leave it open.** -/
theorem counts_after (h : ∀ j < k, f.Open results len j) : Counts results k (f.after len results k) := by
  induction k with
  | zero => exact .start
  | succ k ih =>
    have hcounts := ih fun j hj ↦ h j (by omega)
    rw [after, if_pos (hcounts.goesOn_iff.mpr (h k (by omega)))]
    exact hcounts.round

end MoveLoop

/-! ## The bytes -/

theorem range_append_range' (m n : ℕ) : List.range m ++ List.range' m n = List.range (m + n) := by
  have h := List.range'_append_1 (s := 0) (m := m) (n := n)
  rwa [Nat.zero_add, ← List.range_eq_range', ← List.range_eq_range'] at h

theorem straight_succ : Straight results (k + 1) ↔
    Straight results k ∧ (0 < (results k).toInt → InStep results k) := by
  constructor
  · intro h
    exact ⟨fun i hi ↦ h i (by omega), h k (by omega)⟩
  · rintro ⟨h, hk⟩ i hi
    rcases Nat.lt_succ_iff_lt_or_eq.mp hi with hlt | rfl
    · exact h i hlt
    · exact hk

/-- What was moved does not start with the buffer, nor does it become so. -/
def Spoiled (moved : List ℕ) : Prop :=
  ∃ n place rest, moved = List.range n ++ place :: rest ∧ place ≠ n

theorem Spoiled.append {moved : List ℕ} (h : Spoiled moved) (more : List ℕ) : Spoiled (moved ++ more) := by
  obtain ⟨n, place, rest, rfl, hne⟩ := h
  exact ⟨n, place, rest ++ more, by rw [List.append_assoc, List.cons_append], hne⟩

theorem Spoiled.ne_range {moved : List ℕ} (h : Spoiled moved) (m : ℕ) : moved ≠ List.range m := by
  obtain ⟨n, place, rest, rfl, hne⟩ := h
  intro heq
  have hlen := congrArg List.length heq
  have hn := congrArg (fun l ↦ l[n]?) heq
  simp only [List.length_append, List.length_range, List.length_cons] at hlen
  simp only [List.getElem?_append_right, List.length_range, le_refl, Nat.sub_self,
    List.getElem?_cons_zero, List.getElem?_range (show n < m by omega), Option.some_inj] at hn
  exact hne hn

namespace MoveLoop

/-- In step, the position is the number of bytes moved. -/
theorem Counts.position_eq {t : Moving} (h : Counts results k t) (hle : brought results k ≤ len.toNat) :
    InStep results k ↔ t.position.toNat = brought results k := by
  have hpos := h.position
  have hlen := len.toNat_lt
  rw [InStep, setbacks_eq]
  omega

/-- **What has been moved after `k` calls** is a beginning of the buffer if no call moved bytes out of step,
and spoiled otherwise. -/
theorem moved_after (hpossible : f.Possible len results) (h : ∀ j < k, f.Open results len j) :
    (Straight results k ∧ (f.after len results k).moved = List.range (brought results k) ∧
        brought results k ≤ len.toNat) ∨
      (¬Straight results k ∧ Spoiled (f.after len results k).moved) := by
  induction k with
  | zero => exact .inl ⟨fun i hi ↦ by omega, rfl, Nat.zero_le _⟩
  | succ k ih =>
    have hopen := h k (by omega)
    have hcounts : Counts results k (f.after len results k) :=
      counts_after fun j hj ↦ h j (by omega)
    have hgo := hcounts.goesOn_iff.mpr hopen
    obtain ⟨hge, hle⟩ := hpossible k hgo
    rw [after, if_pos hgo, straight_succ, brought_succ]
    dsimp only [Moving.round]
    rcases ih fun j hj ↦ h j (by omega) with ⟨hstraight, hmoved, hbrought⟩ | ⟨hnot, hspoiled⟩
    · rw [hmoved]
      by_cases hpos : 0 < (results k).toInt
      · by_cases hstep : InStep results k
        · have hat := (hcounts.position_eq hbrought).mp hstep
          have hlt : (f.after len results k).position < len := by
            rw [goesOn, Bool.and_eq_true, decide_eq_true_iff (p := _ < _)] at hgo
            exact hgo.2
          rw [UInt64.toNat_sub_of_le _ _ (UInt64.le_of_lt hlt), hat] at hle
          refine .inl ⟨⟨hstraight, fun _ ↦ hstep⟩, ?_, by omega⟩
          rw [hat, range_append_range']
        · have hne := mt (hcounts.position_eq hbrought).mpr hstep
          obtain ⟨n, hn⟩ : ∃ n, (results k).toInt.toNat = n + 1 := Nat.exists_eq_add_one.mpr (by omega)
          rw [hn, List.range'_succ]
          exact .inr ⟨fun hall ↦ hstep (hall.2 hpos), _, _, _, rfl, hne⟩
      · have hnone : (results k).toInt.toNat = 0 := by omega
        rw [hnone, List.range'_zero, List.append_nil, Nat.add_zero]
        exact .inl ⟨⟨hstraight, fun h ↦ absurd h hpos⟩, rfl, hbrought⟩
    · exact .inr ⟨fun hall ↦ hnot hall.1, hspoiled.append _⟩

/-! ## The end of the loop -/

/-- The loop stops before its `k`th call. -/
structure StopsAt (f : MoveLoop) (len : UInt64) (results : ℕ → Int64) (k : ℕ) : Prop where
  opened : ∀ j < k, f.Open results len j
  shut : ¬f.Open results len k

theorem open_or_stops (f : MoveLoop) (len : UInt64) (results : ℕ → Int64) :
    (∀ k, f.Open results len k) ∨ ∃ k, f.StopsAt len results k := by
  by_cases h : ∀ k, f.Open results len k
  · exact .inl h
  · classical
    obtain hex : ∃ k, ¬f.Open results len k := not_forall.mp h
    exact .inr ⟨Nat.find hex, fun j hj ↦ not_not.mp (Nat.find_min hex hj), Nat.find_spec hex⟩

theorem StopsAt.goesOn (h : f.StopsAt len results k) :
    f.goesOn len (f.after len results k) = false := by
  rw [← Bool.not_eq_true, (counts_after h.opened).goesOn_iff]
  exact h.shut

/-- A loop that has stopped changes nothing any more. -/
theorem StopsAt.after_eq (h : f.StopsAt len results k) {m : ℕ} (hkm : k ≤ m) :
    f.after len results m = f.after len results k := by
  induction m, hkm using Nat.le_induction with
  | base => rfl
  | succ m hkm ih =>
    rw [after, ih, h.goesOn]
    exact if_neg Bool.false_ne_true

theorem returned_of_open (h : ∀ j ≤ k, f.Open results len j) :
    f.returned connected len results k = none := by
  have hcounts : Counts results k (f.after len results k) := counts_after fun j hj ↦ h j (by omega)
  rw [returned, if_pos (hcounts.goesOn_iff.mpr (h k le_rfl))]

theorem StopsAt.returned (h : f.StopsAt len results k) {m : ℕ} (hkm : k ≤ m) :
    f.returned connected len results m = some (f.finish connected (f.after len results k)) := by
  rw [MoveLoop.returned, h.after_eq hkm, h.goesOn]
  exact if_neg Bool.false_ne_true

/-- What a function has returned, it returned because its loop had stopped. -/
theorem exists_stop_of_returned {moved : Moved} (h : f.returned connected len results k = some moved) :
    ∃ m ≤ k, f.StopsAt len results m ∧ moved = f.finish connected (f.after len results m) := by
  rcases open_or_stops f len results with hopen | ⟨m, hm⟩
  · rw [returned_of_open fun j _ ↦ hopen j] at h
    cases h
  · rcases Nat.lt_or_ge k m with hlt | hge
    · rw [returned_of_open fun j hj ↦ hm.opened j (by omega)] at h
      cases h
    · rw [hm.returned hge] at h
      exact ⟨m, hge, hm, (Option.some_inj.mp h).symm⟩

theorem ok_finish {t : Moving} : (f.finish connected t).ok = true ↔ t.retries ≠ 10 := by
  rw [finish]
  split
  · rename_i hten
    simp [hten]
  · rename_i hten
    simp [hten]

/-- A loop with a limit has missed ten calls at most. -/
theorem misses_le (h : ∀ j < k, f.Open results len j) (hlimited : f.limited = true) :
    misses results k ≤ 10 := by
  cases k with
  | zero => exact Nat.zero_le _
  | succ k =>
    have hlt := (h k (by omega)).2 hlimited
    rw [misses_succ]
    split <;> omega

/-- A call that is no miss moves at least as many bytes as the position. -/
theorem toInt_toInt32_le {r : Int64} (hge : -1 ≤ r.toInt) (hmiss : ¬r.toInt32 < 1) :
    1 ≤ r.toInt32.toInt ∧ r.toInt32.toInt ≤ r.toInt := by
  have hone : 1 ≤ r.toInt32.toInt := by
    have hle := Int32.not_lt.mp hmiss
    exact Int32.le_iff_toInt_le.mp hle
  refine ⟨hone, ?_⟩
  rw [Int64.toInt_toInt32] at hone ⊢
  have hlt := Int.bmod_lt (x := r.toInt) (m := 2 ^ 32) (by omega)
  have hmod := Int.bmod_emod (x := r.toInt) (m := 2 ^ 32)
  omega

/-- While the loop is open, a call returns `-1`, or no more than what is left of the buffer. -/
theorem Possible.result_le (hpossible : f.Possible len results) (h : ∀ j ≤ k, f.Open results len j) :
    -1 ≤ (results k).toInt ∧ (results k).toInt ≤ len.toNat - advance results k % 2 ^ 64 := by
  have hcounts : Counts results k (f.after len results k) := counts_after fun j hj ↦ h j (by omega)
  have hopen := h k le_rfl
  obtain ⟨hge, hle⟩ := hpossible k (hcounts.goesOn_iff.mpr hopen)
  have hpos := hcounts.position
  have hlt := hopen.1
  rw [UInt64.toNat_sub_of_le _ _ (UInt64.le_iff_toNat_le.mpr (by omega))] at hle
  exact ⟨hge, by omega⟩

/-- Each call brings the position forward or is one more miss. -/
theorem calls_le (hpossible : f.Possible len results) (h : ∀ j < k, f.Open results len j) :
    (k : ℤ) ≤ advance results k % 2 ^ 64 + misses results k * 2 ^ 64 := by
  induction k with
  | zero => exact Int.add_nonneg (Int.emod_nonneg _ (by omega)) (by omega)
  | succ k ih =>
    obtain ⟨hge, hle⟩ := hpossible.result_le (k := k) fun j hj ↦ h j (by omega)
    have hcalls := ih fun j hj ↦ h j (by omega)
    have hlen := len.toNat_lt
    rw [misses_succ, advance_succ]
    split
    · omega
    · rename_i hmiss
      obtain ⟨hone, hsmall⟩ := toInt_toInt32_le hge hmiss
      omega

/-- A loop with a limit stops. -/
theorem exists_stop (hpossible : f.Possible len results) (hlimited : f.limited = true) :
    ∃ k, f.StopsAt len results k := by
  refine (open_or_stops f len results).resolve_left fun h ↦ ?_
  have hcalls := calls_le (k := 10 * 2 ^ 64) hpossible fun j _ ↦ h j
  have hfew := (h (10 * 2 ^ 64)).2 hlimited
  omega

/-! ## When a transfer is exact -/

/-- A loop that stops without ten misses has moved the buffer if no call moved bytes out of step and the
last one is in step or has filled it. -/
theorem StopsAt.moved_eq_iff (hpossible : f.Possible len results) (h : f.StopsAt len results k)
    (hten : misses results k ≠ 10) :
    (f.after len results k).moved = List.range len.toNat ↔
      Straight results k ∧ (InStep results k ∨ brought results k = len.toNat) := by
  have hcounts := counts_after h.opened
  rcases moved_after hpossible h.opened with ⟨hstraight, hmoved, hle⟩ | ⟨hnot, hspoiled⟩
  · rw [hmoved]
    constructor
    · intro hrange
      have hlength := congrArg List.length hrange
      rw [List.length_range, List.length_range] at hlength
      exact ⟨hstraight, .inr hlength⟩
    · rintro ⟨-, hstep | hfull⟩
      · have hat := (hcounts.position_eq hle).mp hstep
        have hpos := hcounts.position
        have hge : len.toNat ≤ brought results k := by
          by_contra hlt
          refine h.shut ⟨by omega, fun hlimited ↦ ?_⟩
          have hmost := misses_le h.opened hlimited
          omega
        rw [Nat.le_antisymm hle hge]
      · rw [hfull]
  · constructor
    · intro hrange
      exact absurd hrange (hspoiled.ne_range _)
    · rintro ⟨hstraight, -⟩
      exact absurd hstraight hnot

/-- **A transfer is exact exactly on the results that suit it**: for each of the four functions, every
length and every sequence of results that the system may return. -/
theorem exact_iff (hpossible : f.Possible len results) :
    f.Exact connected len results ↔ f.Suited results len := by
  constructor
  · intro hexact
    refine ⟨fun k hopened hshut ↦ or_iff_not_imp_left.mpr fun hten ↦ ?_, fun _ hopen ↦ ?_⟩
    · have hstop : f.StopsAt len results k := ⟨hopened, hshut⟩
      have hok : (f.finish connected (f.after len results k)).ok = true := by
        rwa [ok_finish, (counts_after hopened).retries]
      refine (hstop.moved_eq_iff hpossible hten).mp
        (hexact.success k (f.finish connected (f.after len results k)).stderr ?_)
      rw [hstop.returned le_rfl, ← hok]
    · by_contra hnever
      obtain ⟨k, said, hreturned⟩ := hexact.failure fun k ↦ by
        rw [(counts_after fun j _ ↦ hopen j).moved]
        exact Nat.lt_of_not_le fun hle ↦ hnever ⟨k, hle⟩
      rw [returned_of_open fun j _ ↦ hopen j] at hreturned
      cases hreturned
  · intro hsuited
    have hsuccess : ∀ k said, f.returned connected len results k = some ⟨true, said⟩ →
        (f.after len results k).moved = List.range len.toNat := by
      intro k said hreturned
      obtain ⟨m, hmk, hstop, hmoved⟩ := exists_stop_of_returned hreturned
      have hok : (f.finish connected (f.after len results m)).ok = true := by rw [← hmoved]
      have hten : misses results m ≠ 10 := by
        rwa [ok_finish, (counts_after hstop.opened).retries] at hok
      rw [hstop.after_eq hmk]
      exact (hstop.moved_eq_iff hpossible hten).mpr
        ((hsuited.stops m hstop.opened hstop.shut).resolve_left hten)
    refine ⟨hsuccess, fun hfewer ↦ ?_⟩
    rcases open_or_stops f len results with hopen | ⟨k, hstop⟩
    · cases hlimited : f.limited with
      | true =>
        obtain ⟨k, hstop⟩ := exists_stop hpossible hlimited
        exact absurd (hopen k) hstop.shut
      | false =>
        obtain ⟨k, hk⟩ := hsuited.ends hlimited hopen
        have hlt := hfewer k
        rw [(counts_after fun j _ ↦ hopen j).moved] at hlt
        omega
    · have hreturned : f.returned connected len results k = _ := hstop.returned le_rfl
      cases hfinish : f.finish connected (f.after len results k) with
      | mk ok said =>
        rw [hfinish] at hreturned
        cases ok with
        | false => exact ⟨k, said, hreturned⟩
        | true =>
          have hlt := hfewer k
          rw [hsuccess k said hreturned, List.length_range] at hlt
          omega

/-! ## Buffers of less than two gigabytes -/

theorem toInt_toInt32_of_lt {r : Int64} (hge : -1 ≤ r.toInt) (hlt : r.toInt < 2 ^ 31) :
    r.toInt32.toInt = r.toInt := by
  rw [Int64.toInt_toInt32]
  exact Int.bmod_eq_of_le (by omega) (by omega)

/-- Only a failed call, and one that moves more bytes than an `int` can count, sets the position back. -/
theorem setback_eq_zero {r : Int64} (hge : 0 ≤ r.toInt) (hlt : r.toInt < 2 ^ 31) : setback r = 0 := by
  rw [setback, toInt_toInt32_of_lt (by omega) hlt]
  omega

theorem setbacks_eq_zero (hplain : ∀ i < k, 0 ≤ (results i).toInt ∧ (results i).toInt < 2 ^ 31) :
    setbacks results k = 0 :=
  Finset.sum_eq_zero fun i hi ↦ by
    obtain ⟨hge, hlt⟩ := hplain i (Finset.mem_range.mp hi)
    exact setback_eq_zero hge hlt

theorem inStep_of_eq_zero (h : setbacks results k = 0) : InStep results k := by
  rw [InStep, h]
  exact Int.dvd_zero _

/-- A call that the loop makes on a short buffer returns what an `int` can hold. -/
theorem result_lt (hpossible : f.Possible len results) (hshort : len.toNat < 2 ^ 31)
    (h : ∀ j ≤ k, f.Open results len j) :
    -1 ≤ (results k).toInt ∧ (results k).toInt < 2 ^ 31 := by
  obtain ⟨hge, hle⟩ := hpossible.result_le h
  omega

/-- After its first failed call the loop on a short buffer is out of step, and stays so: its position only
falls, and a call that moved anything would move it out of step. -/
theorem behind_of_failed (hpossible : f.Possible len results) (hshort : len.toNat < 2 ^ 31) {j : ℕ}
    (hplain : ∀ i < j, 0 ≤ (results i).toInt) (hfailed : (results j).toInt < 0) (hj : j < k)
    (hopened : ∀ i < k, f.Open results len i) (hstraight : Straight results k) :
    brought results k < len.toNat ∧ -1 ≤ advance results k ∧
      advance results k < brought results k := by
  induction k, hj using Nat.le_induction with
  | base =>
    have hopen := (hopened j (by omega)).1
    obtain ⟨hge, hlt⟩ := result_lt (k := j) hpossible hshort fun m hm ↦ hopened m (by omega)
    have hnone : setbacks results j = 0 := setbacks_eq_zero fun i hi ↦
      ⟨hplain i hi, (result_lt hpossible hshort fun m hm ↦ hopened m (by omega)).2⟩
    have hbefore : Straight results j := fun i hi ↦ hstraight i (by omega)
    rcases moved_after (k := j) hpossible fun i hi ↦ hopened i (by omega) with ⟨-, -, hle⟩ | ⟨hnot, -⟩
    · have hlen := len.toNat_lt
      rw [setbacks_eq] at hnone
      rw [brought_succ, advance_succ, toInt_toInt32_of_lt hge hlt]
      omega
    · exact absurd hbefore hnot
  | succ k hj ih =>
    have hopen := (hopened k (by omega)).1
    obtain ⟨hge, hlt⟩ := result_lt (k := k) hpossible hshort fun m hm ↦ hopened m (by omega)
    obtain ⟨hfull, hlow, hbehind⟩ := ih (fun i hi ↦ hopened i (by omega)) fun i hi ↦
      hstraight i (by omega)
    have hstill : ¬0 < (results k).toInt := by
      intro hpos
      have hstep := hstraight k (by omega) hpos
      rw [InStep, setbacks_eq] at hstep
      omega
    rw [brought_succ, advance_succ, toInt_toInt32_of_lt hge hlt]
    omega

/-- **On a buffer of less than two gigabytes** the results suit a loop when ten calls have missed by the
time it stops, or none has failed. -/
theorem suited_iff_of_short (hpossible : f.Possible len results) (hshort : len.toNat < 2 ^ 31) :
    f.Suited results len ↔
      (∀ k, f.StopsAt len results k → misses results k = 10 ∨ ∀ i < k, 0 ≤ (results i).toInt) ∧
        (f.limited = false → (∀ k, f.Open results len k) → ∃ k, len.toNat ≤ brought results k) := by
  constructor
  · intro hsuited
    refine ⟨fun k hstop ↦ or_iff_not_imp_left.mpr fun hten ↦ ?_, hsuited.ends⟩
    obtain ⟨hstraight, hlast⟩ := (hsuited.stops k hstop.opened hstop.shut).resolve_left hten
    by_contra hfailed
    classical
    have hex : ∃ j, j < k ∧ (results j).toInt < 0 := by
      push Not at hfailed
      exact hfailed
    have hfirst : ∀ i < Nat.find hex, 0 ≤ (results i).toInt := by
      intro i hi
      have hnot := Nat.find_min hex hi
      have hlt := (Nat.find_spec hex).1
      by_contra hneg
      exact hnot ⟨by omega, by omega⟩
    obtain ⟨hlt, hneg⟩ := Nat.find_spec hex
    obtain ⟨hfull, hlow, hbehind⟩ :=
      behind_of_failed hpossible hshort hfirst hneg hlt hstop.opened hstraight
    rw [InStep, setbacks_eq] at hlast
    omega
  · rintro ⟨hstops, hends⟩
    refine ⟨fun k hopened hshut ↦ (hstops k ⟨hopened, hshut⟩).imp_right fun hplain ↦ ?_, hends⟩
    have hzero : ∀ m ≤ k, setbacks results m = 0 := fun m hm ↦ setbacks_eq_zero fun i hi ↦
      ⟨hplain i (by omega), (result_lt hpossible hshort fun j hj ↦ hopened j (by omega)).2⟩
    exact ⟨fun i hi _ ↦ inStep_of_eq_zero (hzero i (by omega)), .inl (inStep_of_eq_zero (hzero k le_rfl))⟩

end MoveLoop

end

/-! ## Three transfers -/

namespace MoveLoop

theorem StopsAt.possible {f : MoveLoop} {len : UInt64} {results : ℕ → Int64} {k : ℕ}
    (h : f.StopsAt len results k)
    (hcalls : ∀ j < k, -1 ≤ (results j).toInt ∧
      (results j).toInt ≤ (len - (f.after len results j).position).toNat) :
    f.Possible len results := by
  intro m hgo
  rcases Nat.lt_or_ge m k with hlt | hge
  · exact hcalls m hlt
  · rw [h.after_eq hge, h.goesOn] at hgo
    cases hgo

/-- Three bytes, received in two pieces with an interruption. -/
def inPieces (k : ℕ) : Int64 := [2, 0, 1].getD k 0

theorem inPieces_stops : ServerSocket.recv.StopsAt 3 inPieces 3 :=
  ⟨by decide, by decide⟩

theorem inPieces_possible : ServerSocket.recv.Possible 3 inPieces :=
  inPieces_stops.possible (by decide)

/-- Three bytes in two pieces are a transfer that is exact. -/
theorem exact_inPieces : ServerSocket.recv.Exact true 3 inPieces := by
  refine (exact_iff inPieces_possible).mpr
    ((suited_iff_of_short inPieces_possible (by decide)).mpr ⟨fun k hstop ↦ .inr fun i _ ↦ ?_, ?_⟩)
  · match i with
    | 0 | 1 | 2 => decide
    | _ + 3 => exact le_rfl
  · intro h
    cases h

theorem possible_failing (f : MoveLoop) (len : UInt64) : f.Possible len fun _ ↦ -1 := by
  intro k _
  have hfailed : (-1 : Int64).toInt = -1 := rfl
  dsimp only
  omega

/-- **A failed call ends a transfer as a success**: the position becomes `SIZE_MAX`. -/
theorem failure_taken_for_success :
    (ClientSocket.send.Possible 1 (fun _ ↦ -1) ∧ ¬ClientSocket.send.Exact true 1 fun _ ↦ -1) ∧
    (ClientSocket.recv.Possible 1 (fun _ ↦ -1) ∧ ¬ClientSocket.recv.Exact true 1 fun _ ↦ -1) ∧
    (ServerSocket.send.Possible 1 (fun _ ↦ -1) ∧ ¬ServerSocket.send.Exact true 1 fun _ ↦ -1) ∧
    (ServerSocket.recv.Possible 1 (fun _ ↦ -1) ∧ ¬ServerSocket.recv.Exact true 1 fun _ ↦ -1) := by
  have hnothing : ([] : List ℕ) ≠ List.range (1 : UInt64).toNat := by decide
  refine ⟨⟨possible_failing _ _, fun h ↦ ?_⟩, ⟨possible_failing _ _, fun h ↦ ?_⟩,
    ⟨possible_failing _ _, fun h ↦ ?_⟩, ⟨possible_failing _ _, fun h ↦ ?_⟩⟩
  · exact hnothing (h.success 1 [] rfl)
  · exact hnothing (h.success 1 [] rfl)
  · exact hnothing (h.success 1 [] rfl)
  · exact hnothing (h.success 1 [] rfl)

/-- **`ClientSocket::recv` does not return from a connection that its peer has closed.** -/
theorem recv_stuck {len : UInt64} (hlen : 0 < len) (connected : Bool) (k : ℕ) :
    ClientSocket.recv.returned connected len (fun _ ↦ 0) k = none := by
  refine returned_of_open fun j _ ↦ ⟨?_, fun h ↦ by cases h⟩
  have hzero : advance (fun _ ↦ 0) j = 0 := Finset.sum_eq_zero fun _ _ ↦ rfl
  rw [hzero]
  exact Int.ofNat_lt.mpr (UInt64.lt_iff_toNat_lt.mp hlen)

end MoveLoop

end RfcNet
