import RfcNet.Crypto.Handshake
import RfcNet.Transfer

/-!
# Where received bytes are stored

`EncryptedClientSocket::recv` and `EncryptedServerSocket::recv` allocate two blocks, one for the ciphertext and
one for the MAC, and receive into one after the other with the loop of the class they extend.  Each call of
`::recv` stores its bytes from the loop's position on.

The position may go backwards, and wrap, but a loop looks at it before each call and asks for no more than what
is left, so that a loop for `len` bytes stores nothing beyond the first `len` places (`MoveLoop.lt_of_mem_moved`).
The block for the MAC has as many bytes as the ciphertext, and `MAC_LEN` are received into it.  So the blocks
are large enough for whatever the calls return exactly when the ciphertext is no shorter than a MAC
(`MoveLoop.contained_iff`).
-/

set_option autoImplicit false

namespace RfcNet

/-! ## The two blocks -/

/-- What `recv` of an encrypted socket receives into. -/
inductive Destination
  | ct
  | mac
  deriving DecidableEq, Repr

namespace Destination

/-- How many bytes are allocated, by `ct(len)` and `mac(len)`. -/
def allocated (len : UInt64) : Destination → UInt64
  | .ct => len
  | .mac => len

/-- How many bytes are asked for. -/
def asked (len : UInt64) : Destination → UInt64
  | .ct => len
  | .mac => UInt64.ofNat Crypto.macLen

end Destination

/-- Where the function has got to. -/
inductive Stage
  /-- It is about to call `::recv`. -/
  | receiving (into : Destination) (t : Moving)
  /-- It has returned `false`. -/
  | refused
  /-- It is about to call `DecryptAndVerify`. -/
  | decrypting

/-- What comes after a block has been received.  `MAC_LEN` is not zero, so there is a call for the MAC. -/
def Destination.next : Destination → Stage
  | .ct => .receiving .mac .start
  | .mac => .decrypting

/-- The function on its way, and the bytes it has stored: into which block, and at which place. -/
structure Receiving where
  /-- Where it has got to. -/
  stage : Stage
  /-- What it has stored. -/
  stores : List (Destination × ℕ)

namespace MoveLoop

/-- The condition of the loop, and what follows the loop. -/
def condition (f : MoveLoop) (connected : Bool) (len : UInt64) (into : Destination) (t : Moving) : Stage :=
  if f.goesOn (into.asked len) t then .receiving into t
  else if !(f.finish connected t).ok then .refused
  else into.next

/-- One call of `::recv`, which returns `r` and has stored as many bytes. -/
def receive (f : MoveLoop) (connected : Bool) (len : UInt64) (s : Receiving) (r : Int64) : Receiving :=
  match s.stage with
  | .receiving into t =>
    ⟨f.condition connected len into (t.round r),
      s.stores ++ (List.range' t.position.toNat r.toInt.toNat).map (into, ·)⟩
  | _ => s

/-- `recv` of an encrypted socket after `k` calls. -/
def encryptedRecv (f : MoveLoop) (connected : Bool) (len : UInt64) (results : ℕ → Int64) : ℕ → Receiving
  | 0 => ⟨f.condition connected len .ct .start, []⟩
  | k + 1 => f.receive connected len (f.encryptedRecv connected len results k) (results k)

end MoveLoop

/-- `EncryptedClientSocket::recv`. -/
def EncryptedClientSocket.recv : Bool → UInt64 → (ℕ → Int64) → ℕ → Receiving :=
  ClientSocket.recv.encryptedRecv

/-- `EncryptedServerSocket::recv`. -/
def EncryptedServerSocket.recv : Bool → UInt64 → (ℕ → Int64) → ℕ → Receiving :=
  ServerSocket.recv.encryptedRecv

/-- **What the system may return** to a function that receives: each call fails, or stores no more bytes than
it was asked for. -/
def Receivable (len : UInt64) (results : ℕ → Int64) (run : ℕ → Receiving) : Prop :=
  ∀ k into t, (run k).stage = .receiving into t →
    -1 ≤ (results k).toInt ∧ (results k).toInt ≤ (into.asked len - t.position).toNat

/-- **The buffers are large enough**: every byte is stored inside the block allocated for it. -/
def Contained (len : UInt64) (run : ℕ → Receiving) : Prop :=
  ∀ k, ∀ store ∈ (run k).stores, store.2 < (store.1.allocated len).toNat

namespace MoveLoop

section
variable (f : MoveLoop) (len : UInt64) (results : ℕ → Int64)

/-- The results from the `k`th call on. -/
def later (k i : ℕ) : Int64 := results (k + i)

/-- **A result brings a byte of the MAC to a place behind the block**: with the first `k` results the ciphertext
has been received, and the bytes that the result `k + m` brings, from where those before it have got to in the
MAC, go beyond `len`. -/
def Overruns : Prop :=
  ∃ k m, f.StopsAt len results k ∧ misses results k ≠ 10 ∧
    (∀ j ≤ m, f.Open (later results k) (Destination.mac.asked len) j) ∧ 0 < (later results k m).toInt ∧
    (len.toNat : ℤ) < advance (later results k) m % 2 ^ 64 + (later results k m).toInt

end

/-! ## What a call stores -/

section
variable {f : MoveLoop} {connected : Bool} {len : UInt64} {results : ℕ → Int64} {k : ℕ}

theorem position_lt_of_goesOn {t : Moving} (h : f.goesOn len t = true) : t.position.toNat < len.toNat := by
  rw [goesOn, Bool.and_eq_true, decide_eq_true_iff (p := _ < _)] at h
  exact UInt64.lt_iff_toNat_lt.mp h.2

/-- **A loop for `len` bytes stores nothing beyond the first `len` places**: it looks at its position, wherever
the calls before have brought it, and asks for no more than what is left. -/
theorem lt_of_mem_call {t : Moving} {r : Int64} {place : ℕ} (hgo : f.goesOn len t = true)
    (hle : r.toInt ≤ (len - t.position).toNat)
    (hplace : place ∈ List.range' t.position.toNat r.toInt.toNat) : place < len.toNat := by
  have hlt := position_lt_of_goesOn hgo
  rw [UInt64.toNat_sub_of_le _ _ (UInt64.le_iff_toNat_le.mpr (by omega))] at hle
  rw [List.mem_range'_1] at hplace
  omega

theorem goesOn_start : f.goesOn (Destination.mac.asked len) .start = true := by
  rw [goesOn, Bool.and_eq_true, Bool.or_eq_true]
  exact ⟨.inr rfl, rfl⟩

/-- Where the function receives, its loop goes on. -/
theorem goesOn_of_condition {into into' : Destination} {t t' : Moving}
    (h : f.condition connected len into t = .receiving into' t') : f.goesOn (into'.asked len) t' = true := by
  rw [condition] at h
  split at h
  · rename_i hgo
    obtain ⟨rfl, rfl⟩ := Stage.receiving.inj h
    exact hgo
  · split at h
    · cases h
    · cases into with
      | ct =>
        obtain ⟨rfl, rfl⟩ := Stage.receiving.inj h
        exact goesOn_start
      | mac => cases h

theorem goesOn_of_receiving {into : Destination} {t : Moving}
    (h : (f.encryptedRecv connected len results k).stage = .receiving into t) :
    f.goesOn (into.asked len) t = true := by
  induction k with
  | zero => exact goesOn_of_condition h
  | succ k ih =>
    rw [encryptedRecv, receive] at h
    split at h
    · exact goesOn_of_condition h
    · exact ih h

/-- **What has been stored** was stored by one of the calls. -/
theorem mem_stores_iff {into : Destination} {place : ℕ} :
    (into, place) ∈ (f.encryptedRecv connected len results k).stores ↔ ∃ j < k, ∃ t,
      (f.encryptedRecv connected len results j).stage = .receiving into t ∧
        place ∈ List.range' t.position.toNat (results j).toInt.toNat := by
  induction k with
  | zero => exact ⟨fun h ↦ absurd h List.not_mem_nil, fun ⟨j, hj, _⟩ ↦ absurd hj (Nat.not_lt_zero j)⟩
  | succ k ih =>
    have hlast : (into, place) ∈ (f.encryptedRecv connected len results (k + 1)).stores ↔
        (into, place) ∈ (f.encryptedRecv connected len results k).stores ∨ ∃ t,
          (f.encryptedRecv connected len results k).stage = .receiving into t ∧
            place ∈ List.range' t.position.toNat (results k).toInt.toNat := by
      rw [encryptedRecv, receive]
      split
      · rename_i into' t hstage
        rw [hstage, List.mem_append, List.mem_map]
        constructor
        · rintro (hold | ⟨place', hplace, heq⟩)
          · exact .inl hold
          · obtain ⟨rfl, rfl⟩ := Prod.mk.inj heq
            exact .inr ⟨t, rfl, hplace⟩
        · rintro (hold | ⟨t', hreceiving, hplace⟩)
          · exact .inl hold
          · obtain ⟨rfl, rfl⟩ := Stage.receiving.inj hreceiving
            exact .inr ⟨place, hplace, rfl⟩
      · rename_i hstage
        exact ⟨.inl, fun h ↦ h.resolve_right fun ⟨t, hreceiving, _⟩ ↦ hstage _ _ hreceiving⟩
    rw [hlast, ih]
    constructor
    · rintro (⟨j, hj, h⟩ | h)
      · exact ⟨j, by omega, h⟩
      · exact ⟨k, by omega, h⟩
    · rintro ⟨j, hj, h⟩
      rcases Nat.lt_succ_iff_lt_or_eq.mp hj with hlt | rfl
      · exact .inl ⟨j, hlt, h⟩
      · exact .inr h

/-! ## Where the function receives -/

theorem condition_of_goesOn (into : Destination) {t : Moving} (h : f.goesOn (into.asked len) t = true) :
    f.condition connected len into t = .receiving into t := by
  rw [condition, if_pos h]

theorem goesOn_after (h : ∀ j ≤ k, f.Open results len j) :
    f.goesOn len (f.after len results k) = true :=
  (counts_after fun j hj ↦ h j (by omega)).goesOn_iff.mpr (h k le_rfl)

/-- The end of a loop. -/
theorem condition_of_stopsAt (into : Destination) (h : f.StopsAt (into.asked len) results k) :
    f.condition connected len into (f.after (into.asked len) results k) =
      if misses results k = 10 then .refused else into.next := by
  rw [condition, h.goesOn, if_neg Bool.false_ne_true]
  have hok : (f.finish connected (f.after (into.asked len) results k)).ok = true ↔ misses results k ≠ 10 := by
    rw [ok_finish, (counts_after h.opened).retries]
  by_cases hten : misses results k = 10
  · rw [if_pos hten, if_pos]
    rw [Bool.not_eq_true', ← Bool.not_eq_true, hok]
    exact not_not.mpr hten
  · rw [if_neg hten, if_neg]
    rw [Bool.not_eq_true', Bool.not_eq_false, hok]
    exact hten

theorem stage_succ {into : Destination} {t : Moving}
    (h : (f.encryptedRecv connected len results k).stage = .receiving into t) :
    (f.encryptedRecv connected len results (k + 1)).stage =
      f.condition connected len into (t.round (results k)) := by
  rw [encryptedRecv, receive, h]

/-- A function that does not receive any more stays where it is. -/
theorem stage_of_le (h : ∀ into t, (f.encryptedRecv connected len results k).stage ≠ .receiving into t)
    {n : ℕ} (hkn : k ≤ n) :
    (f.encryptedRecv connected len results n).stage = (f.encryptedRecv connected len results k).stage := by
  induction n, hkn using Nat.le_induction with
  | base => rfl
  | succ n _ ih =>
    rw [encryptedRecv, receive]
    split
    · rename_i into t hstage
      exact absurd (ih.symm.trans hstage) (h into t)
    · exact ih

/-- **A loop that begins with the call `k`** goes through what `after` says. -/
theorem stage_loop (into : Destination) {m : ℕ}
    (hstart : (f.encryptedRecv connected len results k).stage = f.condition connected len into .start)
    (h : ∀ j < m, f.Open (later results k) (into.asked len) j) :
    (f.encryptedRecv connected len results (k + m)).stage =
      f.condition connected len into (f.after (into.asked len) (later results k) m) := by
  induction m with
  | zero => exact hstart
  | succ m ih =>
    have hgo := goesOn_after (k := m) fun j hj ↦ h j (by omega)
    have hstage := (ih fun j hj ↦ h j (by omega)).trans (condition_of_goesOn into hgo)
    rw [← Nat.add_assoc, stage_succ hstage, after, if_pos hgo]
    rfl

theorem later_zero : later results 0 = results := funext fun i ↦ congrArg results (Nat.zero_add i)

/-- The loop for the ciphertext is the first one. -/
theorem stage_ct (h : ∀ j < k, f.Open results len j) :
    (f.encryptedRecv connected len results k).stage =
      f.condition connected len .ct (f.after len results k) := by
  have hstart : (f.encryptedRecv connected len results 0).stage = f.condition connected len .ct .start := rfl
  have hloop := stage_loop .ct (m := k) hstart (by rwa [later_zero])
  rwa [Nat.zero_add, later_zero] at hloop

/-- The loop for the MAC follows it, unless ten of its calls have missed. -/
theorem stage_mac {m : ℕ} (hstop : f.StopsAt len results k) (hten : misses results k ≠ 10)
    (h : ∀ j < m, f.Open (later results k) (Destination.mac.asked len) j) :
    (f.encryptedRecv connected len results (k + m)).stage =
      f.condition connected len .mac (f.after (Destination.mac.asked len) (later results k) m) := by
  refine stage_loop .mac ?_ h
  rw [stage_ct hstop.opened, condition_of_goesOn .mac goesOn_start]
  exact (condition_of_stopsAt .ct hstop).trans (if_neg hten)

/-- There is no way back to the ciphertext. -/
theorem exists_receiving_ct {t : Moving} (h : (f.encryptedRecv connected len results k).stage = .receiving .ct t)
    {j : ℕ} (hjk : j ≤ k) : ∃ t', (f.encryptedRecv connected len results j).stage = .receiving .ct t' := by
  induction k, hjk using Nat.le_induction generalizing t with
  | base => exact ⟨t, h⟩
  | succ k _ ih =>
    rw [encryptedRecv, receive] at h
    split at h
    · rename_i into t' hstage
      cases into with
      | ct => exact ih hstage
      | mac =>
        dsimp only at h
        rw [condition] at h
        split at h
        · cases h
        · split at h <;> cases h
    · exact ih h

/-- **Where the function receives the ciphertext.** -/
theorem receiving_ct_iff {t : Moving} :
    (f.encryptedRecv connected len results k).stage = .receiving .ct t ↔
      (∀ j ≤ k, f.Open results len j) ∧ t = f.after len results k := by
  constructor
  · intro hstage
    have hopen : ∀ j ≤ k, f.Open results len j := by
      rcases open_or_stops f len results with hopen | ⟨i, hstop⟩
      · exact fun j _ ↦ hopen j
      by_cases hik : i ≤ k
      · obtain ⟨t', hstage'⟩ := exists_receiving_ct hstage hik
        rw [stage_ct hstop.opened] at hstage'
        have hover := (condition_of_stopsAt .ct hstop).symm.trans hstage'
        split at hover <;> cases hover
      · exact fun j hj ↦ hstop.opened j (by omega)
    rw [stage_ct fun j hj ↦ hopen j (by omega)] at hstage
    have hgo : f.condition connected len .ct (f.after len results k) = _ :=
      condition_of_goesOn .ct (goesOn_after hopen)
    exact ⟨hopen, (Stage.receiving.inj (hgo.symm.trans hstage)).2.symm⟩
  · rintro ⟨hopen, rfl⟩
    exact (stage_ct fun j hj ↦ hopen j (by omega)).trans (condition_of_goesOn .ct (goesOn_after hopen))

/-- **Where it receives the MAC.** -/
theorem receiving_mac_iff {n : ℕ} {t : Moving} :
    (f.encryptedRecv connected len results n).stage = .receiving .mac t ↔ ∃ k m, n = k + m ∧
      f.StopsAt len results k ∧ misses results k ≠ 10 ∧
      (∀ j ≤ m, f.Open (later results k) (Destination.mac.asked len) j) ∧
      t = f.after (Destination.mac.asked len) (later results k) m := by
  constructor
  · intro hstage
    have hct : ¬∀ j ≤ n, f.Open results len j := by
      intro hopen
      rw [receiving_ct_iff.mpr ⟨hopen, rfl⟩] at hstage
      cases hstage
    rcases open_or_stops f len results with hopen | ⟨k, hstop⟩
    · exact absurd (fun j _ ↦ hopen j) hct
    have hkn : k ≤ n := by
      by_contra hlt
      exact hct fun j hj ↦ hstop.opened j (by omega)
    obtain ⟨m, rfl⟩ := Nat.exists_eq_add_of_le hkn
    have hten : misses results k ≠ 10 := by
      intro hten
      have hrefused : (f.encryptedRecv connected len results k).stage = .refused :=
        (stage_ct hstop.opened).trans ((condition_of_stopsAt .ct hstop).trans (if_pos hten))
      rw [stage_of_le (by rw [hrefused]; exact nofun) hkn, hrefused] at hstage
      cases hstage
    have hopen : ∀ j ≤ m, f.Open (later results k) (Destination.mac.asked len) j := by
      rcases open_or_stops f (Destination.mac.asked len) (later results k) with hopen | ⟨i, hover⟩
      · exact fun j _ ↦ hopen j
      by_cases him : i ≤ m
      · -- The loop is over, and there is no other one.
        have hdone : (f.encryptedRecv connected len results (k + i)).stage =
            if misses (later results k) i = 10 then .refused else .decrypting :=
          (stage_mac hstop hten hover.opened).trans (condition_of_stopsAt .mac hover)
        have hnot : ∀ into t, (f.encryptedRecv connected len results (k + i)).stage ≠ .receiving into t := by
          rw [hdone]
          split <;> exact fun _ _ ↦ nofun
        exact absurd ((stage_of_le hnot (by omega)).symm.trans hstage) (hnot _ _)
      · exact fun j hj ↦ hover.opened j (by omega)
    refine ⟨k, m, rfl, hstop, hten, hopen, ?_⟩
    rw [stage_mac hstop hten fun j hj ↦ hopen j (by omega), condition_of_goesOn .mac (goesOn_after hopen)] at hstage
    exact (Stage.receiving.inj hstage).2.symm
  · rintro ⟨k, m, rfl, hstop, hten, hopen, rfl⟩
    rw [stage_mac hstop hten fun j hj ↦ hopen j (by omega), condition_of_goesOn .mac (goesOn_after hopen)]

/-! ## Whether the blocks are large enough -/

/-- Nothing is stored beyond what is asked for. -/
theorem lt_asked_of_mem_stores (hreceivable : Receivable len results (f.encryptedRecv connected len results)) {into : Destination}
    {place : ℕ} (h : (into, place) ∈ (f.encryptedRecv connected len results k).stores) :
    place < (into.asked len).toNat := by
  obtain ⟨j, -, t, hstage, hplace⟩ := mem_stores_iff.mp h
  exact lt_of_mem_call (goesOn_of_receiving hstage) (hreceivable j into t hstage).2 hplace

/-- **The bytes are stored inside the blocks** unless a byte of the MAC is brought to a place behind its
block. -/
theorem contained_iff_not_overruns (hreceivable : Receivable len results (f.encryptedRecv connected len results)) :
    Contained len (f.encryptedRecv connected len results) ↔ ¬f.Overruns len results := by
  constructor
  · rintro hcontained ⟨k, m, hstop, hten, hopen, hpos, hbeyond⟩
    have hstage : (f.encryptedRecv connected len results (k + m)).stage = _ :=
      receiving_mac_iff.mpr ⟨k, m, rfl, hstop, hten, hopen, rfl⟩
    have hposition := (counts_after fun j (hj : j < m) ↦ hopen j (by omega)).position
    -- The last byte that the call stores.
    have hlast := hcontained (k + m + 1) (.mac, _) (mem_stores_iff.mpr ⟨k + m, by omega, _, hstage,
      List.mem_range'_1.mpr ⟨Nat.le_add_right _ ((later results k m).toInt.toNat - 1), ?_⟩⟩)
    · rw [Destination.allocated] at hlast
      dsimp only at hlast
      omega
    · change _ < _ + (later results k m).toInt.toNat
      omega
  · rintro hnot n ⟨into, place⟩ hmem
    cases into with
    | ct => exact lt_asked_of_mem_stores hreceivable hmem
    | mac =>
      by_contra hge
      obtain ⟨j, -, t, hstage, hplace⟩ := mem_stores_iff.mp hmem
      obtain ⟨k, m, rfl, hstop, hten, hopen, rfl⟩ := receiving_mac_iff.mp hstage
      have hposition := (counts_after fun j (hj : j < m) ↦ hopen j (by omega)).position
      rw [List.mem_range'_1] at hplace
      change _ ∧ _ < _ + (later results k m).toInt.toNat at hplace
      rw [Destination.allocated] at hge
      dsimp only at hge
      exact hnot ⟨k, m, hstop, hten, hopen, by omega, by omega⟩

/-! ## Calls that bring everything at once -/

/-- There is a call for the ciphertext unless it is empty. -/
def callsForCt (len : UInt64) : ℕ := if len = 0 then 0 else 1

/-- Each call brings all that it is asked for. -/
def atOnce (len : UInt64) (k : ℕ) : Int64 := if k < callsForCt len then Int64.ofNat len.toNat else 16

theorem later_atOnce : later (atOnce len) (callsForCt len) = fun _ ↦ 16 :=
  funext fun i ↦ if_neg (by omega)

theorem stopsAt_ct_atOnce (hshort : len.toNat < 16) :
    f.StopsAt len (atOnce len) (callsForCt len) ∧ misses (atOnce len) (callsForCt len) = 0 := by
  by_cases hzero : len = 0
  · subst hzero
    exact ⟨⟨fun j hj ↦ absurd hj (Nat.not_lt_zero j), fun h ↦ absurd h.1 (by decide)⟩, rfl⟩
  · have hone : callsForCt len = 1 := if_neg hzero
    have hfirst : atOnce len 0 = Int64.ofNat len.toNat := if_pos (by omega)
    have hint : (Int64.ofNat len.toNat).toInt = len.toNat := Int64.toInt_ofNat_of_lt (by omega)
    have hint' := toInt_toInt32_of_lt (r := Int64.ofNat len.toNat) (by omega) (by omega)
    have hpos : 0 < len.toNat := UInt64.lt_iff_toNat_lt.mp (UInt64.pos_iff_ne_zero.mpr hzero)
    rw [hone]
    refine ⟨⟨fun j hj ↦ ?_, fun h ↦ ?_⟩, ?_⟩
    · obtain rfl : j = 0 := by omega
      exact ⟨Int.ofNat_lt.mpr hpos, fun _ ↦ Nat.zero_lt_succ 9⟩
    · have hlt := h.1
      rw [advance_succ, hfirst, hint', hint] at hlt
      have hnone : advance (atOnce len) 0 = 0 := rfl
      omega
    · rw [misses_succ, if_neg]
      · rfl
      · rw [hfirst, Int32.lt_iff_toInt_lt, hint', hint]
        exact Int.not_lt.mpr (Int.ofNat_le.mpr hpos)

/-- The MAC comes with one call. -/
theorem stopsAt_mac_atOnce : f.StopsAt (Destination.mac.asked len) (later (atOnce len) (callsForCt len)) 1 := by
  have hasked : Destination.mac.asked len = 16 := rfl
  rw [later_atOnce, hasked]
  refine ⟨fun j hj ↦ ?_, fun h ↦ absurd h.1 (by decide)⟩
  obtain rfl : j = 0 := by omega
  exact ⟨by decide, fun _ ↦ Nat.zero_lt_succ 9⟩

theorem stops_unique {k m : ℕ} (hk : f.StopsAt len results k) (hm : f.StopsAt len results m) : k = m := by
  by_contra hne
  rcases Nat.lt_or_gt_of_ne hne with hlt | hgt
  · exact hk.shut (hm.opened k hlt)
  · exact hm.shut (hk.opened m hgt)

/-- The system may do so. -/
theorem receivable_atOnce (connected : Bool) (hshort : len.toNat < 16) :
    Receivable len (atOnce len) (f.encryptedRecv connected len (atOnce len)) := by
  obtain ⟨hstop, hnone⟩ := stopsAt_ct_atOnce (f := f) hshort
  intro n into t hstage
  cases into with
  | ct =>
    obtain ⟨hopen, rfl⟩ := receiving_ct_iff.mp hstage
    have hn : n < callsForCt len := by
      by_contra hge
      exact hstop.shut (hopen _ (by omega))
    have hint : (Int64.ofNat len.toNat).toInt = len.toNat := Int64.toInt_ofNat_of_lt (by omega)
    obtain rfl : n = 0 := by
      rw [callsForCt] at hn
      split at hn <;> omega
    rw [atOnce, if_pos hn, hint]
    refine ⟨by omega, ?_⟩
    change (len.toNat : ℤ) ≤ (len - 0).toNat
    rw [UInt64.sub_zero]
  | mac =>
    obtain ⟨k, m, rfl, hstop', -, hopen, rfl⟩ := receiving_mac_iff.mp hstage
    obtain rfl := stops_unique hstop' hstop
    obtain rfl : m = 0 := by
      by_contra hne
      exact stopsAt_mac_atOnce.shut (hopen 1 (by omega))
    rw [atOnce, if_neg (by omega)]
    change -1 ≤ (16 : Int64).toInt ∧ (16 : Int64).toInt ≤ (16 - 0 : UInt64).toNat
    decide

/-- **A short message overruns the block of its MAC.** -/
theorem overruns_atOnce (hshort : len.toNat < 16) : f.Overruns len (atOnce len) := by
  obtain ⟨hstop, hnone⟩ := stopsAt_ct_atOnce (f := f) hshort
  refine ⟨callsForCt len, 0, hstop, by omega, fun j hj ↦ stopsAt_mac_atOnce.opened j (by omega), ?_⟩
  rw [later_atOnce]
  exact ⟨by decide, show (len.toNat : ℤ) < 16 by omega⟩

/-- **A message that is no shorter than a MAC overruns nothing.** -/
theorem not_overruns (hreceivable : Receivable len results (f.encryptedRecv connected len results)) (hlong : 16 ≤ len.toNat) :
    ¬f.Overruns len results := by
  rintro ⟨k, m, hstop, hten, hopen, hpos, hbeyond⟩
  have hstage : (f.encryptedRecv connected len results (k + m)).stage = _ :=
    receiving_mac_iff.mpr ⟨k, m, rfl, hstop, hten, hopen, rfl⟩
  have hle := (hreceivable _ _ _ hstage).2
  have hlt := position_lt_of_goesOn (goesOn_of_receiving hstage)
  have hposition := (counts_after fun j (hj : j < m) ↦ hopen j (by omega)).position
  rw [UInt64.toNat_sub_of_le _ _ (UInt64.le_iff_toNat_le.mpr (by omega))] at hle
  change (later results k m).toInt ≤ _ at hle
  have hasked : (Destination.mac.asked len).toNat = 16 := rfl
  omega

/-- The blocks are large enough for those results that do not overrun the block of the MAC, and for all results
exactly when the ciphertext is no shorter than a MAC. -/
theorem encryptedRecv_contained (f : MoveLoop) (connected : Bool) (len : UInt64) :
    (∀ results, Receivable len results (f.encryptedRecv connected len results) →
      (Contained len (f.encryptedRecv connected len results) ↔ ¬f.Overruns len results)) ∧
    ((∀ results, Receivable len results (f.encryptedRecv connected len results) →
      Contained len (f.encryptedRecv connected len results)) ↔ Crypto.macLen ≤ len.toNat) := by
  refine ⟨fun results ↦ contained_iff_not_overruns, fun h ↦ ?_, fun hlong results hreceivable ↦ ?_⟩
  · by_contra hshort
    have hlt : len.toNat < 16 := Nat.lt_of_not_le hshort
    have hreceivable := receivable_atOnce (f := f) connected hlt
    exact (contained_iff_not_overruns hreceivable).mp (h _ hreceivable) (overruns_atOnce hlt)
  · exact (contained_iff_not_overruns hreceivable).mpr (not_overruns hreceivable hlong)

end

end MoveLoop

/-- **The receive buffers are large enough** for `len` bytes, whatever the calls return, exactly when `len` is
at least `MAC_LEN`; and for fewer bytes, on those results that do not bring a byte of the MAC to a place behind
its block. -/
theorem recv_contained_iff (connected : Bool) (len : UInt64) :
    ((∀ results, Receivable len results (EncryptedClientSocket.recv connected len results) →
        (Contained len (EncryptedClientSocket.recv connected len results) ↔
          ¬ClientSocket.recv.Overruns len results)) ∧
      ((∀ results, Receivable len results (EncryptedClientSocket.recv connected len results) →
        Contained len (EncryptedClientSocket.recv connected len results)) ↔ Crypto.macLen ≤ len.toNat)) ∧
    ((∀ results, Receivable len results (EncryptedServerSocket.recv connected len results) →
        (Contained len (EncryptedServerSocket.recv connected len results) ↔
          ¬ServerSocket.recv.Overruns len results)) ∧
      ((∀ results, Receivable len results (EncryptedServerSocket.recv connected len results) →
        Contained len (EncryptedServerSocket.recv connected len results)) ↔ Crypto.macLen ≤ len.toNat)) :=
  ⟨ClientSocket.recv.encryptedRecv_contained connected len,
    ServerSocket.recv.encryptedRecv_contained connected len⟩

/-- **A command overruns the block of its MAC**: of the sixteen bytes that follow its four, twelve are stored
behind a block of four. -/
theorem mac_of_command_overruns :
    (Receivable 4 (MoveLoop.atOnce 4) (EncryptedClientSocket.recv true 4 (MoveLoop.atOnce 4)) ∧
      ¬Contained 4 (EncryptedClientSocket.recv true 4 (MoveLoop.atOnce 4))) ∧
    (Receivable 4 (MoveLoop.atOnce 4) (EncryptedServerSocket.recv true 4 (MoveLoop.atOnce 4)) ∧
      ¬Contained 4 (EncryptedServerSocket.recv true 4 (MoveLoop.atOnce 4))) := by
  refine ⟨⟨MoveLoop.receivable_atOnce true (by decide), fun h ↦ ?_⟩,
    ⟨MoveLoop.receivable_atOnce true (by decide), fun h ↦ ?_⟩⟩
  · exact absurd (h 2 (.mac, 15) (by decide)) (by decide)
  · exact absurd (h 2 (.mac, 15) (by decide)) (by decide)

end RfcNet
