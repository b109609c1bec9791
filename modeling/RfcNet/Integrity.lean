import Mathlib.Data.Fintype.Basic
import RfcNet.World

/-!
# Referential integrity

Every association in the index should have its client there too.  `add_rfc` checks for the client
and adds the association in one critical section, but `remove_client` takes two, and in between
another session that has announced the same pair may still add.  Its association then outlives the
client (`orphan_reachable`).

That is the only way: `integral_of_noLateAdd` shows integrity in every state of a run in which
nothing is registered for a pair that is half removed.  The invariant is `Guarded`, whose second
half says what the first half of `remove_client` has achieved.
-/

set_option autoImplicit false

namespace RfcNet

open Lib

/-- The peer of every association is one of the clients. -/
def CentralIndex.Integral (ix : CentralIndex) : Prop := ∀ r ∈ ix.rfcs, r.peer ∈ ix.clients

namespace World

variable {ι : Type} [DecidableEq ι]

/-- The session `i` is between the two halves of `remove_client(h, p)`. -/
def Between (w : World ι) (i : ι) (h : StdString) (p : Int32) : Prop :=
  phaseOf w.log i = some (.removing h p)

/-- **Referential integrity** of the index, wherever no `remove_client` is between its two
halves. -/
def Integral (w : World ι) : Prop := (∀ i h p, ¬ w.Between i h p) → w.index.Integral

/-- The critical section would register a new association of a pair that is half removed. -/
def Late (w : World ι) : IndexOp → Prop
  | .addRfc h p n =>
    ⟨h, p⟩ ∈ w.index.clients ∧ ⟨n, ⟨h, p⟩⟩ ∉ w.index.rfcs ∧ ∃ i, w.Between i h p
  | _ => False

/-- The session that moves does not register anything late. -/
def NoLateAdd (w : World ι) (e : Event ι) : Prop := ∀ op ∈ w.pending e.who, ¬ w.Late op

instance (w : World ι) (i : ι) (h : StdString) (p : Int32) : Decidable (w.Between i h p) :=
  inferInstanceAs (Decidable (_ = _))

instance [Fintype ι] (w : World ι) : DecidablePred w.Late
  | .addRfc _ _ _ => inferInstanceAs (Decidable (_ ∧ _ ∧ _))
  | .addClient _ _ | .eraseHolders _ _ | .eraseClient _ _ | .findRfcs _ | .allRfcs => .isFalse id

instance [Fintype ι] (w : World ι) (e : Event ι) : Decidable (w.NoLateAdd e) :=
  inferInstanceAs (Decidable (∀ op ∈ _, _))

/-- What holds throughout a run without late additions: integrity, in every state, and no
association of a pair that is half removed. -/
structure Guarded (w : World ι) : Prop where
  /-- Sessions keep to their phases. -/
  typed : w.Typed
  /-- The peer of every association is one of the clients. -/
  integral : w.index.Integral
  /-- A pair that is half removed has no association. -/
  removed : ∀ i h p, w.Between i h p → ∀ r ∈ w.index.rfcs, r.peer ≠ ⟨h, p⟩

variable {w w' : World ι} {e : Event ι}

/-- A critical section puts the session between the halves of a removal only if it is the first of
them. -/
theorem between_enter {i j : ι} {op : IndexOp} {k : op.Res → handler.Code} {h : StdString}
    {p : Int32} (hb : (w.enter i op k).Between j h p) :
    (j ≠ i ∧ w.Between j h p) ∨ (j = i ∧ op = .eraseHolders h p) := by
  rw [Between, enter_log] at hb
  by_cases hj : j = i
  · subst hj
    rw [phaseOf_append_self rfl] at hb
    obtain ⟨ph, -, hnext⟩ := Option.bind_eq_some_iff.mp hb
    refine .inr ⟨rfl, ?_⟩
    -- the only way into `removing`
    cases Phase.moves_of_next hnext
    rfl
  · rw [phaseOf_append_of_ne (Ne.symm hj)] at hb
    exact .inl ⟨hj, hb⟩

/-- A session that is about to erase the client has erased its associations. -/
theorem Typed.between {i : ι} {h : StdString} {p : Int32} {k : Unit → handler.Code}
    (hw : w.Typed) (hs : w.sess i = .callThen (.index (.eraseClient h p)) k) : w.Between i h p := by
  obtain ⟨ph, ph', hph, hnext, -⟩ := hw.next hs
  cases Phase.moves_of_next hnext
  exact hph

theorem Guarded.step (hw : w.Guarded) (hok : w.NoLateAdd e) (hstep : w.step e = some w') :
    w'.Guarded := by
  have htyped : w'.Typed := hw.typed.step hstep
  rcases step_cases hstep with ⟨-, code, rfl, -⟩ | ⟨op, k, hs, rfl⟩
  · exact ⟨htyped, hw.integral, hw.removed⟩
  refine ⟨htyped, ?_, ?_⟩
  · intro r hr
    rcases IndexOp.mem_rfcs_of_exec hr with hold | ⟨rfl, hc, -⟩
    · rcases IndexOp.mem_clients_exec op (hw.integral r hold) with hc | rfl
      · exact hc
      · -- a client that is erased now has no association left
        exact absurd rfl (hw.removed _ _ _ (hw.typed.between hs) r hold)
    · rcases IndexOp.mem_clients_exec (.addRfc _ _ r.rfc) hc with hc | hop
      · exact hc
      · exact absurd hop (by simp)
  · intro j h p hb r hr
    rcases between_enter hb with ⟨-, hbefore⟩ | ⟨-, rfl⟩
    · rcases IndexOp.mem_rfcs_of_exec hr with hold | ⟨rfl, hc, hnew⟩
      · exact hw.removed j h p hbefore r hold
      · rintro heq
        have hpending : w.pending e.who = some (.addRfc h p r.rfc) := by rw [pending, hs, heq]
        exact hok _ hpending ⟨heq ▸ hc, heq ▸ hnew, j, hbefore⟩
    · exact (CentralIndex.mem_eraseHolders.mp hr).2

theorem guarded_init : (init : World ι).Guarded where
  typed := typed_init
  integral := by rintro r hr; cases hr
  removed := by rintro i h p - r hr; cases hr

/-- **Integrity without late additions**: any number of sessions, any pairs, any interleaving, as
long as nothing is registered for a pair while one of its removals is half done. -/
theorem integral_of_noLateAdd (es : List (Event ι)) (hok : AllSteps step NoLateAdd init es) :
    AllStates step Integral init es :=
  AllStates.of_steps (fun _ _ _ hw he hs ↦ hw.step he hs) (fun _ hw _ ↦ hw.integral)
    guarded_init hok

/-- Two sessions of one pair, the first of which leaves after the second has added an RFC. -/
theorem integral_of_noLateAdd_shared :
    AllSteps step NoLateAdd (init : World Bool)
      (connects false [104] 1 ++ connects true [104] 1 ++
        moves true [wireInt P2SMessage.add.toInt, wireInt 5, []] ++
        moves false [wireInt P2SMessage.disconnect.toInt, [], []]) ∧
    AllStates step Integral (init : World Bool)
      (connects false [104] 1 ++ connects true [104] 1 ++
        moves true [wireInt P2SMessage.add.toInt, wireInt 5, []] ++
        moves false [wireInt P2SMessage.disconnect.toInt, [], []]) :=
  ⟨by decide +kernel, integral_of_noLateAdd _ (by decide +kernel)⟩

/-! ## A late addition -/

/-- Two sessions announce one pair, and the second adds an RFC while the first is leaving. -/
def orphanRun : List (Event Bool) :=
  connects false [104] 1 ++ connects true [104] 1 ++
    moves false [wireInt P2SMessage.disconnect.toInt, []] ++
    moves true [wireInt P2SMessage.add.toInt, wireInt 5, []] ++
    moves false [[]]

/-- The index and the two sessions' phases at the end of it. -/
private theorem orphanRun_end :
    (run step init orphanRun).map (fun w ↦ (w.index, phaseOf w.log false, phaseOf w.log true)) =
      some (⟨[], [⟨5, ⟨[104], 1⟩⟩]⟩, some .gone, some (.serving [104] 1)) := by
  decide +kernel

/-- **An association can outlive its client**: both sessions are between requests, nobody is
removing anything, and the index lists a peer that is not one of its clients. -/
theorem orphan_reachable : ∃ w, run step init orphanRun = some w ∧ ¬ w.Integral := by
  obtain ⟨w, hw, heq⟩ := Option.map_eq_some_iff.mp orphanRun_end
  obtain ⟨hindex, hphases⟩ := Prod.mk.inj heq
  obtain ⟨hfalse, htrue⟩ := Prod.mk.inj hphases
  refine ⟨w, hw, fun hintegral ↦ ?_⟩
  have hquiet : ∀ i h p, ¬ w.Between i h p := by
    intro i h p hb
    cases i with
    | false => rw [Between, hfalse] at hb; simp at hb
    | true => rw [Between, htrue] at hb; simp at hb
  have hmem := hintegral hquiet ⟨5, ⟨[104], 1⟩⟩ (by rw [hindex]; simp)
  rw [hindex] at hmem
  simp at hmem

end World

end RfcNet
