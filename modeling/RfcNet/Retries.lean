import Mathlib.Algebra.Order.BigOperators.Group.Finset
import RfcNet.Transfer

/-!
# Giving up

`ServerSocket::recv` gives up after ten calls without success, and so do the two functions that send.
`ClientSocket::recv` counts such calls as well, but its loop does not look at the count: it goes on for as long
as bytes are missing, and returns `false` only if exactly ten calls had no success by then.

So the two functions that receive do the same exactly when the position gets past the end of the buffer before
ten calls without success have been followed by another one (`recv_alike_iff`).  This is so for every sequence
of results and whatever the calls before that have moved.
-/

set_option autoImplicit false

namespace RfcNet

section
variable (results : ℕ → Int64)

/-- How many of the first `k` calls have returned `0` or `-1`. -/
def fails (k : ℕ) : ℕ := Nat.count (fun i ↦ (results i).toInt < 1) k

/-- How many of them have moved bytes. -/
def hits (k : ℕ) : ℕ := Nat.count (fun i ↦ 0 < (results i).toInt) k

namespace MoveLoop

/-- The function returns after its `k`th call, and not before. -/
structure Returns (f : MoveLoop) (connected : Bool) (len : UInt64) (k : ℕ) (a : Moved) : Prop where
  returned : f.returned connected len results k = some a
  before : ∀ j < k, f.returned connected len results j = none

/-- What a function that gives up in time has done when it returns. -/
structure InTime (len : UInt64) (k : ℕ) (a : Moved) : Prop where
  fails_le : fails results k ≤ 10
  hits_le : hits results k ≤ len.toNat + 10
  gaveUp : fails results k = 10 → a.ok = false

/-- **The function `f` returns in time, and does what `g` does**: it returns the same, and has moved the same
bytes to the same places. -/
def Alike (f g : MoveLoop) (connected : Bool) (len : UInt64) : Prop :=
  ∃ k a, f.Returns results connected len k a ∧ InTime results len k a ∧
    ∃ m b, g.Returns results connected len m b ∧ a.ok = b.ok ∧
      (f.after len results k).moved = (g.after len results m).moved

end MoveLoop

/-- **The results arrive** with the `k`th call: what they add up to is below `len` until then, and no call was
made after ten misses.  Nor were there more than `len + 10` calls that moved bytes, which can only be if one
of them has moved more bytes than an `int` can count (`few_of_fits`). -/
structure Arrives (len : UInt64) (k : ℕ) : Prop where
  before : ∀ j < k, advance results j % 2 ^ 64 < len.toNat ∧ misses results j < 10
  there : len.toNat ≤ advance results k % 2 ^ 64
  few : hits results k ≤ len.toNat + 10

end

section
variable {results : ℕ → Int64} {f g : MoveLoop} {len : UInt64} {connected : Bool} {k : ℕ}

theorem fails_succ : fails results (k + 1) = fails results k + if (results k).toInt < 1 then 1 else 0 :=
  Nat.count_succ _ k

theorem hits_succ : hits results (k + 1) = hits results k + if 0 < (results k).toInt then 1 else 0 :=
  Nat.count_succ _ k

namespace MoveLoop

/-- A call without success counts as a retry. -/
theorem toInt32_lt_one {r : Int64} (hge : -1 ≤ r.toInt) (hlt : r.toInt < 1) : r.toInt32 < 1 := by
  have hint : r.toInt32.toInt = r.toInt := toInt_toInt32_of_lt hge (by omega)
  refine Int32.lt_iff_toInt_lt.mpr ?_
  rw [hint]
  exact hlt

theorem fails_le_misses (hpossible : f.Possible len results) (h : ∀ j < k, f.Open results len j) :
    fails results k ≤ misses results k := by
  induction k with
  | zero => exact Nat.zero_le _
  | succ k ih =>
    obtain ⟨hge, -⟩ := hpossible.result_le (k := k) fun j hj ↦ h j (by omega)
    have hfails := ih fun j hj ↦ h j (by omega)
    rw [fails_succ, misses_succ]
    by_cases hfail : (results k).toInt < 1
    · rw [if_pos hfail, if_pos (toInt32_lt_one hge hfail)]
      omega
    · rw [if_neg hfail]
      omega

/-- **Each call that moves bytes brings the position forward**, and only a miss sets it back, if an `int` can
count what a call moves. -/
theorem hits_le_advance (hpossible : f.Possible len results) (h : ∀ j < k, f.Open results len j)
    (hfits : ∀ j < k, (results j).toInt < 2 ^ 31) :
    (hits results k : ℤ) ≤ advance results k % 2 ^ 64 + misses results k := by
  induction k with
  | zero => exact Int.add_nonneg (Int.emod_nonneg _ (by omega)) (by omega)
  | succ k ih =>
    obtain ⟨hge, hle⟩ := hpossible.result_le (k := k) fun j hj ↦ h j (by omega)
    have hhits := ih (fun j hj ↦ h j (by omega)) fun j hj ↦ hfits j (by omega)
    have hlen := len.toNat_lt
    rw [hits_succ, misses_succ, advance_succ, toInt_toInt32_of_lt hge (hfits k (by omega))]
    by_cases hhit : 0 < (results k).toInt
    · rw [if_pos hhit]
      omega
    · rw [if_neg hhit, if_pos (toInt32_lt_one hge (by omega))]
      omega

/-- So there are not many of them before the loop ends. -/
theorem few_of_fits (hpossible : f.Possible len results) (h : ∀ j < k, f.Open results len j)
    (hfits : ∀ j < k, (results j).toInt < 2 ^ 31) (hmisses : ∀ j < k, misses results j ≤ 10) :
    hits results k ≤ len.toNat + 10 := by
  cases k with
  | zero => exact Nat.zero_le _
  | succ k =>
    have hhits := hits_le_advance (k := k) hpossible (fun j hj ↦ h j (by omega)) fun j hj ↦
      hfits j (by omega)
    have hlt := (h k (by omega)).1
    have hfew := hmisses k (by omega)
    rw [hits_succ]
    split <;> omega

theorem StopsAt.returns (h : f.StopsAt len results k) :
    f.Returns results connected len k (f.finish connected (f.after len results k)) where
  returned := h.returned le_rfl
  before j hj := returned_of_open fun i hi ↦ h.opened i (by omega)

theorem Returns.stopsAt {a : Moved} (h : f.Returns results connected len k a) :
    f.StopsAt len results k ∧ a = f.finish connected (f.after len results k) := by
  obtain ⟨m, hmk, hstop, ha⟩ := exists_stop_of_returned h.returned
  rcases Nat.eq_or_lt_of_le hmk with rfl | hlt
  · exact ⟨hstop, ha⟩
  · have hnone := h.before m hlt
    rw [hstop.returned le_rfl] at hnone
    cases hnone

/-- The functions differ only in when they stop. -/
theorem after_eq_after (hf : ∀ j < k, f.Open results len j) (hg : ∀ j < k, g.Open results len j) :
    f.after len results k = g.after len results k := by
  induction k with
  | zero => exact .refl _
  | succ k ih =>
    have hcounts : Counts results k (f.after len results k) := counts_after fun j hj ↦ hf j (by omega)
    have hsame := ih (fun j hj ↦ hf j (by omega)) fun j hj ↦ hg j (by omega)
    rw [after, if_pos (hcounts.goesOn_iff.mpr (hf k (by omega))), after, ← hsame,
      if_pos (hcounts.goesOn_iff.mpr (hg k (by omega)))]

theorem StopsAt.ok_iff (h : f.StopsAt len results k) :
    (f.finish connected (f.after len results k)).ok = true ↔ misses results k ≠ 10 := by
  rw [ok_finish, (counts_after h.opened).retries]

/-! ## The function that gives up -/

/-- **`ServerSocket::recv` returns in time**, whatever the results are that an `int` can hold. -/
theorem server_recv_inTime (hpossible : ServerSocket.recv.Possible len results)
    (hfits : ∀ j, (results j).toInt < 2 ^ 31) :
    ∃ k a, ServerSocket.recv.Returns results connected len k a ∧ InTime results len k a := by
  obtain ⟨k, hstop⟩ := exists_stop hpossible (show ServerSocket.recv.limited = true from rfl)
  have hfails := fails_le_misses hpossible hstop.opened
  have hmost := misses_le hstop.opened rfl
  refine ⟨k, _, hstop.returns, ⟨hfails.trans hmost, ?_, fun hten ↦ ?_⟩⟩
  · exact few_of_fits hpossible hstop.opened (fun j _ ↦ hfits j) fun j hj ↦
      Nat.le_of_lt ((hstop.opened j hj).2 rfl)
  · rw [← Bool.not_eq_true, hstop.ok_iff]
    omega

/-! ## The function that does not -/

/-- The loop of `ServerSocket::recv` is open where that of `ClientSocket::recv` is, and ten calls have not
missed. -/
theorem server_open_iff : ServerSocket.recv.Open results len k ↔
    ClientSocket.recv.Open results len k ∧ misses results k < 10 := by
  constructor
  · rintro ⟨hpos, hmisses⟩
    exact ⟨⟨hpos, fun h ↦ by cases h⟩, hmisses rfl⟩
  · rintro ⟨⟨hpos, -⟩, hmisses⟩
    exact ⟨hpos, fun _ ↦ hmisses⟩

theorem client_open_iff :
    ClientSocket.recv.Open results len k ↔ advance results k % 2 ^ 64 < len.toNat :=
  ⟨fun h ↦ h.1, fun h ↦ ⟨h, fun h ↦ by cases h⟩⟩

theorem stops_of_arrives (h : Arrives results len k) :
    ClientSocket.recv.StopsAt len results k ∧ ServerSocket.recv.StopsAt len results k := by
  have hshut : ¬ClientSocket.recv.Open results len k := by
    rw [client_open_iff]
    exact Int.not_lt.mpr h.there
  refine ⟨⟨fun j hj ↦ client_open_iff.mpr (h.before j hj).1, hshut⟩, fun j hj ↦ ?_, fun hopen ↦ ?_⟩
  · exact server_open_iff.mpr ⟨client_open_iff.mpr (h.before j hj).1, (h.before j hj).2⟩
  · exact hshut (server_open_iff.mp hopen).1

/-- A call after ten misses, without which the loop has moved just as much, is an eleventh one. -/
theorem misses_lt_of_brought_eq (hpossible : f.Possible len results) (h : ∀ j < k, f.Open results len j)
    {m : ℕ} (hmk : m < k) (hsame : brought results k = brought results m) :
    misses results m < misses results k := by
  have hmono : brought results (m + 1) ≤ brought results k :=
    Finset.sum_le_sum_of_subset (Finset.range_mono hmk)
  obtain ⟨hge, -⟩ := hpossible.result_le (k := m) fun j hj ↦ h j (by omega)
  rw [brought_succ] at hmono
  calc misses results m
      < misses results (m + 1) := by
        rw [misses_succ, if_pos (toInt32_lt_one hge (by omega))]
        omega
    _ ≤ misses results k := Nat.count_monotone _ hmk

/-- **The two functions that receive do the same exactly on the results that arrive**, for every length and
all results that the system may return; and on those `ClientSocket::recv` returns in time. -/
theorem recv_alike_iff (hpossible : ClientSocket.recv.Possible len results) :
    Alike results ClientSocket.recv ServerSocket.recv connected len ↔ ∃ k, Arrives results len k := by
  constructor
  · rintro ⟨k, a, hclient, hintime, m, b, hserver, hok, hmoved⟩
    obtain ⟨hstop, rfl⟩ := hclient.stopsAt
    obtain ⟨hstop', rfl⟩ := hserver.stopsAt
    have hmk : m ≤ k := by
      by_contra hlt
      exact hstop.shut (server_open_iff.mp (hstop'.opened k (by omega))).1
    rw [Bool.eq_iff_iff, hstop.ok_iff, hstop'.ok_iff] at hok
    rcases Nat.eq_or_lt_of_le hmk with rfl | hlt
    · refine ⟨m, fun j hj ↦ ?_, Int.not_lt.mp fun hpos ↦ ?_, hintime.hits_le⟩
      · obtain ⟨hopen, hmisses⟩ := server_open_iff.mp (hstop'.opened j hj)
        exact ⟨client_open_iff.mp hopen, hmisses⟩
      · exact hstop.shut (client_open_iff.mpr hpos)
    · -- The one has given up and the other has not, which then has moved more, or counted an eleventh miss.
      have hten : misses results m = 10 := by
        have hmost := misses_le hstop'.opened rfl
        have hnot := mt server_open_iff.mpr hstop'.shut
        have hopen := hstop.opened m hlt
        by_contra hne
        exact hnot ⟨hopen, by omega⟩
      have hsame := congrArg List.length hmoved
      rw [(counts_after hstop.opened).moved, (counts_after hstop'.opened).moved] at hsame
      have hmore := misses_lt_of_brought_eq hpossible hstop.opened hlt hsame
      exact absurd hten (hok.mp (by omega))
  · rintro ⟨k, harrives⟩
    obtain ⟨hstop, hstop'⟩ := stops_of_arrives harrives
    have hfails := fails_le_misses hpossible hstop.opened
    have hmost := misses_le hstop'.opened rfl
    refine ⟨k, _, hstop.returns, ⟨hfails.trans hmost, harrives.few, fun hten ↦ ?_⟩, k, _,
      hstop'.returns, ?_, ?_⟩
    · rw [← Bool.not_eq_true, hstop.ok_iff]
      omega
    · rw [Bool.eq_iff_iff, hstop.ok_iff, hstop'.ok_iff]
    · rw [after_eq_after hstop.opened hstop'.opened]

/-- Three bytes in two pieces arrive. -/
theorem recv_alike_inPieces : Alike inPieces ClientSocket.recv ServerSocket.recv true 3 := by
  refine (recv_alike_iff (StopsAt.possible (k := 3) ⟨by decide, by decide⟩ (by decide))).mpr ⟨3, ?_, ?_, ?_⟩
  all_goals decide

/-- **On a connection that its peer has closed the two differ**: `ServerSocket::recv` gives up, and
`ClientSocket::recv` does not return. -/
theorem recv_differ_at_end : ClientSocket.recv.Possible 1 (fun _ ↦ 0) ∧
    ¬Alike (fun _ ↦ 0) ClientSocket.recv ServerSocket.recv true 1 := by
  refine ⟨fun k _ ↦ ⟨show -1 ≤ (0 : ℤ) by decide, Int.natCast_nonneg _⟩, ?_⟩
  rintro ⟨k, a, hclient, -⟩
  have hnone := recv_stuck (show (0 : UInt64) < 1 by decide) true k
  rw [hclient.returned] at hnone
  cases hnone

end MoveLoop

end

end RfcNet
