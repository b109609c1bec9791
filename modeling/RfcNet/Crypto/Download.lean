import RfcNet.Crypto.Stack
import RfcNet.Retrieval

/-!
# A download over encrypted sockets

`download_lossless` is about frames.  Here the two peers have what they have in reality: a connection that is
encrypted, and below it two streams of bytes that arrive in pieces.  No message of theirs is empty (`visit_full`).
So by `secured_comesTo` the requester still gets exactly the text that the other peer has, and nothing else changes.
-/

set_option autoImplicit false

namespace RfcNet

open Lib RFCManager Crypto

namespace Encounter

variable (enc : Encounter) {C : Primitives} {a b : KeyPair} {n : Int32} {content : StdString}

/-- The two peers, connected by encrypted sockets: the left one asks for the RFC `n`. -/
abbrev Encrypted (C : Primitives) (a b : KeyPair) (iv : Block ivLen) (heap : Side → Heap) :=
  SecureSockets C a b iv iv (heap .left) (heap .right) (Proc.straight peerSig Bool) (enc.env .left)
    peerHandler (enc.env .right)

/-- They have just been connected. -/
def encryptedVisit (C : Primitives) (a b : KeyPair) (iv : Block ivLen) (heap : Side → Heap) (n : Int32) :
    enc.Encrypted C a b iv heap :=
  SecureSockets.start C a b iv iv (heap .left) (heap .right) (enc.visit n).left.code ⟨enc.files .left, 0⟩
    (enc.visit n).right.code ⟨enc.files .right, 0⟩

/-- The visit is over, and the requester has the content. -/
structure Retrieved {iv : Block ivLen} {heap : Side → Heap} (n : Int32) (content : StdString)
    (u : enc.Encrypted C a b iv heap) : Prop where
  /-- Both sides have returned, the requester successfully. -/
  returned : u.left.point.result = some true ∧ u.right.point.result = some true
  /-- No byte is on its way. -/
  received : u.toLeft = [] ∧ u.toRight = []
  /-- The requester has the content. -/
  stored : u.left.point.env.1.files.lookup (fileName n) = some content
  /-- Its other files are as they were. -/
  others : ∀ name, name ≠ fileName n →
    u.left.point.env.1.files.lookup name = (enc.files .left).lookup name
  /-- The files of the other side are as they were. -/
  theirs : u.right.point.env.1.files = enc.files .right

/-- **No message of a download is empty.** -/
theorem visit_full (hhost : enc.myHost ≠ []) (htext : IsText content) (hfound : enc.found n = some content)
    (hreach : Reaches Duet.step (enc.visit n)
      ⟨enc.satisfied n content, enc.replied n (.done (.inr true)), [], []⟩) {c : enc.Duet}
    (hc : Reaches Duet.step (enc.visit n) c) : c.InFlight (· ≠ []) := by
  have hrest : Duet.AtRest
      (⟨enc.satisfied n content, enc.replied n (.done (.inr true)), [], []⟩ : enc.Duet) := ⟨rfl, rfl⟩
  have hsize := htext.length_lt
  have hshort : ShortContent ⟨.getContent (asked n), enc.found n⟩ := by
    rw [hfound]
    exact show 8 + content.length < 2 ^ 31 by omega
  have hgood : Duet.GoodSoFar ShortContent ShortContent
      (⟨enc.satisfied n content, enc.replied n (.done (.inr true)), [], []⟩ : enc.Duet) := by
    refine ⟨fun a ha ↦ ?_, fun a ha ↦ ?_⟩
    · simp only [satisfied, List.mem_cons, List.not_mem_nil, or_false] at ha
      rcases ha with rfl | rfl | rfl <;> trivial
    · simp only [replied, List.mem_cons, List.not_mem_nil, or_false] at ha
      rcases ha with rfl | rfl | rfl
      · trivial
      · exact hshort
      · trivial
  have hstraight : ∀ v, Speaks ShortContent ((Proc.straight peerSig Bool).body v) := fun v ↦ Empty.elim v
  exact full_of_speaks hstraight speaks_peerLoop
    (sized_once (speaks_getFromPeer hhost enc.length_lt enc.myPort n)) speaks_handlePeer hc
    (hgood.of_reaches (Duet.diamond.reaches_stuck hreach hrest.stuck hc))

/-- **A download over encrypted sockets is lossless**, on heaps that have room for every MAC, whatever the pieces
are and in which order the two peers move: there are only so many moves, no program is left by an exception, and at
the end the requester has exactly the content. -/
theorem download_secured (hC : C.Correct) (ha : C.Generates a) (hb : C.Generates b) (iv : Block ivLen)
    (heap : Side → Heap) (hheap : ∀ side, (heap side).Roomy) (hhost : enc.myHost ≠ []) (hn : 1 ≤ n)
    (hle : n ≤ 32767) (htext : IsText content) (hfile : (enc.files .right).lookup (fileName n) = some content)
    (hopen : enc.canOpen .left (fileName n) = true) :
    ∃ bound, ∀ es u, run (Sockets.step clientFunctions serverFunctions) (enc.encryptedVisit C a b iv heap n) es
      = some u → es.length ≤ bound ∧
        ((∀ e, u.left.point.code ≠ .raise e) ∧ ∀ e, u.right.point.code ≠ .raise e) ∧
        (Stuck (Sockets.step clientFunctions serverFunctions) u → enc.Retrieved n content u) := by
  obtain ⟨hpos, hasked⟩ := asked_eq_iff.mpr ⟨Int32.lt_of_lt_of_le (by decide) hn, hle⟩
  have hfound := enc.found_of_text htext (hasked.symm ▸ hfile)
  have hsize := htext.length_lt
  have hreach : Reaches (Parting.step fun _ _ ↦ 0) _ _ :=
    enc.reaches_served hpos hfound htext.ne_nil (by omega)
  have hdownloaded := enc.downloaded_of_text htext hopen
  have hquiet : Duet.Quiet
      (⟨enc.satisfied n content, enc.replied n (.done (.inr true)), [], []⟩ : enc.Duet) :=
    ⟨⟨rfl, nofun⟩, rfl, nofun⟩
  have hstraight : ∀ v, Counted ((Proc.straight peerSig Bool).body v) := fun v ↦ Empty.elim v
  have hreach' := Parting.reaches_duet hreach rfl
  obtain ⟨bound, hbound⟩ := secured_comesTo (C := C) (a := a) (b := b) hC ha hb (hheap .left) (hheap .right)
    hstraight counted_peerLoop (counted_once (counted_getFromPeer enc.myHost enc.myPort n)) counted_handlePeer
    (fun _ hc ↦ enc.visit_full hhost htext hfound hreach' hc) hreach' hquiet
  refine ⟨bound, fun es u hrun ↦ ?_⟩
  obtain ⟨hlen, ⟨hleft, hright⟩, hend⟩ := hbound es u hrun
  refine ⟨hlen, ⟨hleft.noException, hright.noException⟩, fun hst ↦ ?_⟩
  obtain ⟨hfinished, hfinished', s, htoRight, htoLeft⟩ := hend hst
  refine ⟨⟨hfinished.result, hfinished'.result⟩, ⟨htoLeft, htoRight⟩, ?_, fun name hname ↦ ?_, ?_⟩
  · rw [hfinished.env]
    exact hdownloaded.stored
  · rw [hfinished.env]
    exact hdownloaded.others name hname
  · rw [hfinished'.env]
    exact hdownloaded.theirs

end Encounter

/-- Two peers, of which the right one has the RFC 7. -/
def sevenThere : Encounter := Encounter.serving (AList.insert (fileName 7) [104, 105] ∅)

/-- RFC 7 is downloaded over sockets that are encrypted with primitives that hide nothing. -/
theorem Encounter.download_secured_seven :
    ∃ bound, ∀ es (u : sevenThere.Encrypted Honest.plain (Honest.plainPair 1) (Honest.plainPair 2)
        ⟨.replicate ivLen 7, rfl⟩ fun _ ↦ chunked),
      run (Sockets.step clientFunctions serverFunctions) (sevenThere.encryptedVisit Honest.plain
        (Honest.plainPair 1) (Honest.plainPair 2) ⟨.replicate ivLen 7, rfl⟩ (fun _ ↦ chunked) 7) es = some u →
      es.length ≤ bound ∧ ((∀ e, u.left.point.code ≠ .raise e) ∧ ∀ e, u.right.point.code ≠ .raise e) ∧
      (Stuck (Sockets.step clientFunctions serverFunctions) u → sevenThere.Retrieved 7 [104, 105] u) :=
  Encounter.download_secured sevenThere Honest.plain_correct (Honest.plainPair_generated 1)
    (Honest.plainPair_generated 2) ⟨.replicate ivLen 7, rfl⟩ (fun _ ↦ chunked) (fun _ ↦ chunked_roomy)
    (by decide) (by decide) (by decide) ⟨by decide, by decide, by decide, by decide⟩ (AList.lookup_insert _) rfl

end RfcNet
