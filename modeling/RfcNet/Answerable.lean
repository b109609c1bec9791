import RfcNet.World

/-!
# Whether the index can be listed

A LIST or LOOKUP reply is encoded only if it is valid, and it is not valid if one host in it is empty
or one port is not positive.  What hosts and ports there are in the index is up to the clients: a
session takes whatever its client announces, and adds it to every association it registers.  One such
association, and `to_bytes` returns a null pointer to every other session (`unanswerable_reachable`).

`answerable_iff_onlyListable` says that nothing else can go wrong with these replies.
-/

set_option autoImplicit false

namespace RfcNet

open Lib

/-- **The replies that `list_rfcs` and `lookup_rfc` build** from the index are valid, and none of
them is encoded as a null pointer. -/
structure CentralIndex.Answerable (ix : CentralIndex) : Prop where
  /-- The reply to LIST is valid. -/
  list_valid : (listReply ix.allRfcs).isValid = true
  /-- So is the reply to LOOKUP, for every number. -/
  lookup_valid : ∀ n, (lookupReply (ix.findRfcs n)).isValid = true
  /-- The buffer with the reply to LIST is one. -/
  list_buffer : ∀ heap, (listReply ix.allRfcs).toBytes heap ≠ .ok none
  /-- So is the buffer with the reply to LOOKUP. -/
  lookup_buffer : ∀ n heap, (lookupReply (ix.findRfcs n)).toBytes heap ≠ .ok none

/-- The index is answerable if every peer in it may be listed. -/
theorem CentralIndex.answerable_iff {ix : CentralIndex} :
    ix.Answerable ↔ ∀ r ∈ ix.rfcs, r.peer.Listable := by
  constructor
  · exact fun h ↦ listReply_isValid.mp h.list_valid
  · intro h
    have hlist : (listReply ix.allRfcs).isValid = true := listReply_isValid.mpr h
    have hlookup : ∀ n, (lookupReply (ix.findRfcs n)).isValid = true := fun n ↦
      lookupReply_isValid.mpr fun c hc ↦ h _ (CentralIndex.mem_findRfcs.mp hc)
    refine ⟨hlist, hlookup, fun heap ↦ ?_, fun n heap ↦ ?_⟩
    · rw [ListRFCResponse.toBytes, hlist]
      exact encodeReply_ne_none _ _ _ heap
    · rw [LookupRFCResponse.toBytes, hlookup n]
      exact encodeReply_ne_none _ _ _ heap

namespace World

variable {ι : Type} [DecidableEq ι]

/-- The index is answerable. -/
def Answerable (w : World ι) : Prop := w.index.Answerable

/-- No session is about to add an RFC for a registered pair that may not be listed. -/
def OnlyListable (w : World ι) (e : Event ι) : Prop :=
  ∀ h p n, w.pending e.who = some (.addRfc h p n) → ⟨h, p⟩ ∈ w.index.clients →
    Client.Listable ⟨h, p⟩

variable {w w' : World ι} {e : Event ι}

theorem Answerable.step (hw : w.Answerable) (hok : w.OnlyListable e)
    (hstep : w.step e = some w') : w'.Answerable := by
  rcases step_cases hstep with ⟨-, code, rfl, -⟩ | ⟨op, k, hs, rfl⟩
  · exact hw
  · refine CentralIndex.answerable_iff.mpr fun r hr ↦ ?_
    rcases IndexOp.mem_rfcs_of_exec hr with hold | ⟨rfl, hc, -⟩
    · exact CentralIndex.answerable_iff.mp hw r hold
    · exact hok _ _ r.rfc (by rw [pending, hs]) hc

/-- An addition for a pair that may not be listed shows in the state after it. -/
theorem onlyListable_of_answerable (hstep : w.step e = some w') (hw' : w'.Answerable) :
    w.OnlyListable e := by
  intro h p n hpending hc
  rcases step_cases hstep with ⟨hnone, -⟩ | ⟨op, k, hs, rfl⟩
  · exact absurd (hnone.symm.trans hpending) (by simp)
  · obtain rfl : op = .addRfc h p n := by
      rw [pending, hs] at hpending
      exact Option.some_inj.mp hpending
    exact CentralIndex.answerable_iff.mp hw' _ (CentralIndex.mem_addRfc.mpr (.inr ⟨hc, rfl⟩))

/-- **When the index can be listed, exactly**: in any run of any number of sessions, every LIST and
LOOKUP reply is valid in every state if and only if no step of the run adds an RFC for a registered
pair with an empty host or a port that is not positive. -/
theorem answerable_iff_onlyListable (es : List (Event ι)) :
    AllStates step Answerable init es ↔ AllSteps step OnlyListable init es := by
  constructor
  · exact AllStates.steps (I := fun _ ↦ True) (fun _ _ _ _ _ ↦ trivial)
      (fun _ _ _ _ hs _ hw' ↦ onlyListable_of_answerable hs hw') trivial
  · refine AllStates.of_steps (fun _ _ _ hw hok hs ↦ hw.step hok hs) (fun _ hw ↦ hw) ?_
    exact CentralIndex.answerable_iff.mpr fun r hr ↦ absurd hr List.not_mem_nil

/-! ## A client without a port -/

/-- A client announces port 0 and adds an RFC. -/
def portlessRun : List (Event Bool) :=
  connects false [104] 0 ++ moves false [wireInt P2SMessage.add.toInt, wireInt 5, []]

private theorem portlessRun_end :
    (run step init portlessRun).map World.index = some ⟨[⟨[104], 0⟩], [⟨5, ⟨[104], 0⟩⟩]⟩ := by
  decide +kernel

/-- **One client can make the index unanswerable.** -/
theorem unanswerable_reachable : ∃ w, run step init portlessRun = some w ∧ ¬ w.Answerable := by
  obtain ⟨w, hw, hindex⟩ := Option.map_eq_some_iff.mp portlessRun_end
  refine ⟨w, hw, fun hanswerable ↦ ?_⟩
  have hlistable := CentralIndex.answerable_iff.mp hanswerable ⟨5, ⟨[104], 0⟩⟩
    (by rw [hindex]; simp)
  exact absurd hlistable.port_pos (by decide)

end World

end RfcNet
