import RfcNet.Visit

/-!
# How a visit ends

A visit should end on both sides: the last thing that the requester says before it hangs up is
DISCONNECT, and the handler answers each GET, never goes on with a command that it did not receive, and
returns.  It does if and only if there is a file that the handler can send (`farewell_iff`), which is
when the code of its reply is 200.  On a 404 the requester hangs up with no DISCONNECT, and with any
other file, or a number that is not positive as a `short`, one of the two is terminated.
-/

set_option autoImplicit false

namespace RfcNet

open Lib RFCManager

namespace Encounter

variable (enc : Encounter) {n : Int32}

/-- The GETs that a requester has sent, after its hello. -/
def gets (said : List Frame) : ℕ := (said.drop 3).count (wireInt P2PMessage.get.toInt)

/-- **A visit ends on both sides**, whatever the order of steps and whatever a receive that fails leaves
in its buffer. -/
structure Farewell (n : Int32) : Prop where
  /-- There are only so many steps. -/
  bounded : ∀ junk, ∃ bound, ∀ sides c, run (Parting.step junk) (.start (enc.visit n)) sides = some c →
    sides.length ≤ bound
  /-- A requester that has hung up has said goodbye. -/
  parts : ∀ junk c, Reaches (Parting.step junk) (.start (enc.visit n)) c →
    c.duet.left.ended = true → c.said.getLast? = some (wireInt P2PMessage.disconnect.toInt)
  /-- The handler goes on with what it has received only. -/
  heard : ∀ junk c, Reaches (Parting.step junk) (.start (enc.visit n)) c → .right ∉ c.failed
  /-- It ends by leaving its loop. -/
  leaves : ∀ junk c, Reaches (Parting.step junk) (.start (enc.visit n)) c →
    c.duet.right.ended = true → c.duet.right.code = .done (.inr true)
  /-- It does end, and has then answered each GET by a size and a response. -/
  answers : ∀ junk c, Reaches (Parting.step junk) (.start (enc.visit n)) c →
    Stuck (Parting.step junk) c →
      c.duet.right.ended = true ∧ c.answered.length = 2 * gets c.said

/-- The handler has a file for the request, and can send it. -/
def Served (n : Int32) : Prop :=
  0 < n.toInt16 ∧ ∃ content, enc.found n = some content ∧ content ≠ [] ∧
    8 + content.length < 2 ^ 31

theorem gets_asking (rest : List Frame) :
    gets (enc.asking n ++ rest) = 1 + rest.count (wireInt P2PMessage.get.toInt) := by
  have hne : wireShort n.toInt16 ≠ wireInt P2PMessage.get.toInt := fun h ↦ by
    simpa using congrArg List.length h
  rw [gets, asking, hello, List.append_assoc, List.cons_append, List.cons_append, List.cons_append]
  simp [hne, Nat.add_comm]

/-- A visit that is over. -/
def finished (n : Int32) (content : StdString) : enc.Parting where
  duet := ⟨enc.satisfied n content, enc.replied n (.done (.inr true)), [], []⟩
  said := enc.asking n ++ [wireInt P2PMessage.disconnect.toInt]
  answered := reply content
  failed := []

/-- **A file that can be sent** ends the visit on both sides. -/
theorem farewell_of_served (h : enc.Served n) : enc.Farewell n := by
  obtain ⟨hn, content, hfound, hne, hsize⟩ := h
  have hends : ∀ junk, EndsIn (Parting.step junk) (.start (enc.visit n)) (enc.finished n content) :=
    fun junk ↦ Parting.diamond.endsIn (enc.reaches_served hn hfound hne hsize)
      (Parting.stuck_of_ended rfl rfl)
  have hover : ∀ junk c, Reaches (Parting.step junk) (.start (enc.visit n)) c →
      Reaches (Parting.step junk) c (enc.finished n content) := fun junk c ⟨sides, hc⟩ ↦ by
    obtain ⟨-, bound, hbound⟩ := hends junk
    exact (hbound sides c hc).2
  constructor
  · intro junk
    obtain ⟨-, bound, hbound⟩ := hends junk
    exact ⟨bound, fun sides c hc ↦ (hbound sides c hc).1⟩
  · intro junk c hc hended
    rw [← Parting.said_of_ended hended (hover junk c hc), finished, List.getLast?_concat]
  · intro junk c hc hmem
    exact absurd ((Parting.failed_prefix (hover junk c hc)).subset hmem) List.not_mem_nil
  · intro junk c hc hended
    rw [← Parting.right_of_ended hended (hover junk c hc)]
    rfl
  · intro junk c hc hst
    rw [(hends junk).eq_of_stuck hc hst]
    refine ⟨rfl, ?_⟩
    rw [finished, gets_asking]
    rfl

/-- Nothing else does. -/
theorem Farewell.served {enc : Encounter} (h : enc.Farewell n) : enc.Served n := by
  have hn : 0 < n.toInt16 := by
    by_contra hn
    have hparts := h.parts (fun _ _ ↦ 0) _ (enc.reaches_null hn) rfl
    rw [commanding, List.getLast?_concat] at hparts
    exact absurd hparts (by decide)
  refine ⟨hn, ?_⟩
  cases hfound : enc.found n with
  | none =>
    have hparts := h.parts (fun _ _ ↦ 0) _ (enc.reaches_missing hn hfound) rfl
    rw [asking, List.append_cons, List.getLast?_concat, Option.some_inj] at hparts
    simpa using congrArg List.length hparts
  | some content =>
    by_cases hbad : content = [] ∨ 2 ^ 31 ≤ 8 + content.length
    · obtain ⟨outs, e, hreach⟩ := enc.reaches_crashed hn hfound hbad
      have hleaves := h.leaves (fun _ _ ↦ 0) _ hreach rfl
      cases hleaves
    · rw [not_or, not_le] at hbad
      exact ⟨content, rfl, hbad⟩

/-- **A visit ends on both sides** if and only if there is a file that the handler can send. -/
theorem farewell_iff : enc.Farewell n ↔ enc.Served n :=
  ⟨Farewell.served, enc.farewell_of_served⟩

end Encounter

/-- A file that the other side does not have is asked for, and the handler is left alone. -/
theorem Encounter.abandoned : ¬ (Encounter.serving ∅).Farewell 5 := by
  intro h
  obtain ⟨-, content, hfound, -⟩ := h.served
  cases hfound

end RfcNet
