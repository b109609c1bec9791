import RfcNet.Visit

/-!
# Which RFC is retrieved, and how much of it

Two properties of a visit.  The handler reads the file of the number that the user named if and only if
that number fits into the `short` of a GET (`named_iff`).  And a text, which is a file that has no NUL
and no `0xFF`, is stored by the requester as it is (`download_lossless`).
-/

set_option autoImplicit false

namespace RfcNet

open Lib RFCManager

namespace Encounter

variable (enc : Encounter) {n : Int32}

/-! ## Which RFC -/

/-- **A GET asks for the RFC that the user named**, whatever the order of steps. -/
structure Named (n : Int32) : Prop where
  /-- The request can be encoded. -/
  encodes : ∀ heap, ∃ f, (GetRFCMessage.mk n.toInt16).toBytes heap = .ok (some f)
  /-- The handler calls `get_content` for no other number. -/
  reads : ∀ u, Reaches Duet.step (enc.visit n) u →
    ∀ k r, (⟨.getContent k, r⟩ : peerSig.Call) ∈ u.right.log → k = n
  /-- It does call it, unless it can still move. -/
  answers : ∀ u, Reaches Duet.step (enc.visit n) u → Stuck Duet.step u →
    ∃ r, (⟨.getContent n, r⟩ : peerSig.Call) ∈ u.right.log
  /-- What is stored under a number was read from that number. -/
  stores : ∀ u, Reaches Duet.step (enc.visit n) u → ∀ m content added k r,
    (⟨.addRfc m content, added⟩ : peerSig.Call) ∈ u.left.log →
      (⟨.getContent k, r⟩ : peerSig.Call) ∈ u.right.log → m = k

/-- A number survives the `short` of a GET if and only if it is positive and fits into one. -/
theorem asked_eq_iff : (0 < n.toInt16 ∧ asked n = n) ↔ 0 < n ∧ n ≤ 32767 := by
  have hzero : (0 : Int32).toInt = 0 := rfl
  have hzero' : (0 : Int16).toInt = 0 := rfl
  have hmax : (32767 : Int32).toInt = 32767 := rfl
  rw [asked, ← Int32.toInt_inj, Int16.toInt_toInt32, Int16.lt_iff_toInt_lt, Int32.lt_iff_toInt_lt,
    Int32.le_iff_toInt_le, Int32.toInt_toInt16, hzero, hzero', hmax]
  have hrange : -2 ^ 15 ≤ n.toInt.bmod (2 ^ 16) ∧ n.toInt.bmod (2 ^ 16) < 2 ^ 15 :=
    ⟨Int.le_bmod (by decide), Int.bmod_lt (by decide)⟩
  constructor
  · rintro ⟨hpos, heq⟩
    omega
  · rintro ⟨hpos, hle⟩
    have heq : n.toInt.bmod (2 ^ 16) = n.toInt := Int.bmod_eq_of_le (by omega) (by omega)
    omega

/-- The requester stores nothing under another number. -/
def owns (n : Int32) (_ : Unit) : PeerOp → Option Unit
  | .addRfc m _ => if m = n then some () else none
  | _ => some ()

/-- The program stores nothing under another number than `n`. -/
abbrev Owned {α : Type} (n : Int32) (p : Prog peerSig α) : Prop :=
  p.Follows (.ofCalls (owns n)) (fun _ _ ↦ True) ()

attribute [local irreducible] sizeT

theorem owned_sendAddress (n : Int32) : Owned n (sendAddress enc.myHost enc.myPort) :=
  follows_sendInt (follows_sendBuffer_bind trivial)

theorem owned_askGet (n : Int32) : Owned n (askGet n) := by
  rw [askGet]
  refine follows_sendInt (follows_request rfl fun heap ↦ ?_)
  exact Prog.follows_ofExcept fun buf _ ↦ follows_sendBuffer trivial

theorem owned_awaitGet (n : Int32) : Owned n awaitGet := by
  refine follows_recvInt fun size ↦ ?_
  split
  · trivial
  · refine Prog.follows_recv fun buf ↦ ?_
    cases GetRFCResponse.fromBytes {} buf <;> trivial

theorem owned_storeReply (n : Int32) (res : GetRFCResponse) : Owned n (storeReply n res).once := by
  rw [Prog.once, storeReply]
  split
  · exact follows_request rfl fun _ ↦ trivial
  · exact follows_request (if_pos rfl) fun _ ↦ follows_request rfl fun _ ↦ trivial

theorem owned_getFromPeer (n : Int32) : Owned n (getFromPeer enc.myHost enc.myPort n).once := by
  rw [Prog.once, getFromPeer]
  simp only [Prog.bind_assoc]
  refine Prog.Follows.bind (enc.owned_sendAddress n) fun _ _ _ ↦ ?_
  refine Prog.Follows.bind (owned_askGet n) fun _ _ _ ↦ ?_
  exact Prog.Follows.bind (owned_awaitGet n) fun _ res _ ↦ owned_storeReply n res

/-- What the requester stores, it stores under its own number. -/
theorem number_eq_of_addRfc {u : enc.Duet} (hu : Reaches Duet.step (enc.visit n) u) {m : Int32}
    {content : StdString} {added : Bool}
    (h : (⟨.addRfc m content, added⟩ : peerSig.Call) ∈ u.left.log) : m = n := by
  have hinv := hu.inv (P := fun u ↦
      Owned n u.left.code ∧ ∀ c ∈ u.left.log, owns n () c.1 = some ()) ?_
    ⟨enc.owned_getFromPeer n, by simp [visit]⟩
  · have hm := hinv.2 _ h
    by_contra hne
    simp [owns, hne] at hm
  · rintro u side u' ⟨hcode, hlog⟩ hs
    cases side with
    | right =>
      obtain ⟨e, rest, out, -, rfl⟩ := Duet.step_right_eq_some.mp hs
      exact ⟨hcode, hlog⟩
    | left =>
      obtain ⟨e, rest, out, he, rfl⟩ := Duet.step_left_eq_some.mp hs
      rcases Endpoint.follows_of_act (fun _ v _ ↦ Empty.elim v) he hcode with
        ⟨-, heq, hcode'⟩ | ⟨op, k, r, env, ⟨⟩, -, -, hnext, heq, hcode'⟩
      · exact ⟨hcode', heq ▸ hlog⟩
      · refine ⟨hcode', fun c hc ↦ ?_⟩
        rw [heq, List.mem_append, List.mem_singleton] at hc
        rcases hc with hc | rfl
        · exact hlog c hc
        · exact hnext

/-! ### What the handler is asked for -/

/-- **The handler calls `get_content` once**, for the number as it was sent. -/
theorem log_of_reaches (hn : 0 < n.toInt16) {u : enc.Duet} (hu : Reaches Duet.step (enc.visit n) u) :
    u.right.log <+: (enc.replied n (.done (.inr true))).log ∧ (Stuck Duet.step u →
      u.right.log = (enc.replied n (.done (.inr true))).log) := by
  cases hfound : enc.found n with
  | none =>
    have hreach : Reaches (Parting.step fun _ _ ↦ 0) _ _ := enc.reaches_missing hn hfound
    exact Duet.right_log_of_reaches (Parting.reaches_duet hreach rfl) (.inl (Duet.stuck_of_act
      (Endpoint.act_eq_none_of_returned rfl _) (Endpoint.Blocked.act_eq_none ⟨⟨_, _, rfl⟩, rfl⟩))) hu
  | some content =>
    by_cases hbad : content = [] ∨ 2 ^ 31 ≤ 8 + content.length
    · obtain ⟨outs, e, hreach⟩ :
          ∃ outs e, Reaches (Parting.step fun _ _ ↦ 0) _ (⟨⟨_, enc.replied n (.raise e), [], outs⟩,
            _, _, _⟩ : enc.Parting) := enc.reaches_crashed hn hfound hbad
      exact Duet.right_log_of_reaches (Parting.reaches_duet hreach rfl) (.inr rfl) hu
    · rw [not_or, not_le] at hbad
      have hreach : Reaches (Parting.step fun _ _ ↦ 0) _ _ :=
        enc.reaches_served hn hfound hbad.1 hbad.2
      exact Duet.right_log_of_reaches (Parting.reaches_duet hreach rfl) (.inr rfl) hu

theorem getContent_mem_iff {k : Int32} {r : Option StdString} {code : peerHandler.Code} :
    (⟨.getContent k, r⟩ : peerSig.Call) ∈ (enc.replied n code).log ↔
      k = asked n ∧ r = enc.found n := by
  simp [replied]

/-- A number that a GET carries as it is. -/
theorem named_of_asked (hn : 0 < n.toInt16) (hasked : asked n = n) : enc.Named n where
  encodes heap := ⟨_, GetRFCMessage.toBytes_of_pos hn heap⟩
  reads u hu k r hk := by
    have hk' := ((enc.log_of_reaches hn hu).1.subset hk)
    rw [(enc.getContent_mem_iff.mp hk').1, hasked]
  answers u hu hst := by
    rw [(enc.log_of_reaches hn hu).2 hst]
    exact ⟨_, enc.getContent_mem_iff.mpr ⟨hasked.symm, rfl⟩⟩
  stores u hu m content added k r hm hk := by
    have hk' := ((enc.log_of_reaches hn hu).1.subset hk)
    rw [enc.number_eq_of_addRfc hu hm, (enc.getContent_mem_iff.mp hk').1, hasked]

/-- No other number is named. -/
theorem Named.asked_eq {enc : Encounter} (h : enc.Named n) : 0 < n.toInt16 ∧ asked n = n := by
  have hn : 0 < n.toInt16 := by
    by_contra hneg
    obtain ⟨f, hf⟩ := h.encodes fun _ ↦ 0
    rw [GetRFCMessage.toBytes_of_not_pos hneg] at hf
    cases hf
  have hreach : Reaches (Parting.step fun _ _ ↦ 0) _ _ := enc.reaches_asked hn
  exact ⟨hn, h.reads _ (Parting.reaches_duet hreach rfl) _ (enc.found n) (by simp [answering])⟩

/-- **A GET asks for the RFC that the user named** if and only if its number is positive and fits into a
`short`. -/
theorem named_iff : enc.Named n ↔ 0 < n ∧ n ≤ 32767 := by
  rw [← asked_eq_iff]
  exact ⟨Named.asked_eq, fun h ↦ enc.named_of_asked h.1 h.2⟩

end Encounter

/-- The number 65537 is positive, and asks for RFC 1. -/
theorem Encounter.aliased : 0 < (65537 : Int32) ∧ ¬ (Encounter.serving ∅).Named 65537 := by
  refine ⟨by decide, fun h ↦ ?_⟩
  have hasked := h.asked_eq.2
  exact absurd hasked (by decide)

/-! ## How much of it -/

/-- A file that is stored as it is: it is not empty, its size is an `int`, and it has no byte at which a
C string or the reading of a file ends. -/
structure IsText (content : StdString) : Prop where
  ne_nil : content ≠ []
  length_lt : content.length < 2 ^ 31 - 8
  noNul : (0 : UInt8) ∉ content
  noEof : (255 : UInt8) ∉ content

namespace Encounter

variable (enc : Encounter) {n : Int32} {content : StdString}

/-- The visit is over, and the requester has the content. -/
structure Downloaded (n : Int32) (content : StdString) (c : enc.Duet) : Prop where
  /-- Both sides have returned, the requester successfully. -/
  returned : c.left.code = .done (.inr true) ∧ c.right.code = .done (.inr true)
  /-- All that was sent has been received. -/
  received : c.toLeft = [] ∧ c.toRight = []
  /-- The requester has the content. -/
  stored : c.left.env.files.lookup (fileName n) = some content
  /-- Its other files are as they were. -/
  others : ∀ name, name ≠ fileName n → c.left.env.files.lookup name = (enc.files .left).lookup name
  /-- The files of the other side are as they were. -/
  theirs : c.right.env.files = enc.files .right

theorem found_of_text (htext : IsText content)
    (hfile : (enc.files .right).lookup (fileName (asked n)) = some content) :
    enc.found n = some content := by
  rw [found, getContent, hfile, Option.map_some, untilEof_eq_self htext.noEof]

theorem downloaded_of_text (htext : IsText content)
    (hopen : enc.canOpen .left (fileName n) = true) :
    enc.Downloaded n content ⟨enc.satisfied n content, enc.replied n (.done (.inr true)), [], []⟩ := by
  refine ⟨⟨rfl, rfl⟩, ⟨rfl, rfl⟩, ?_, fun name hname ↦ lookup_addRfc_of_ne hname _, rfl⟩
  have hself : cString content = content := cString_eq_self htext.noNul
  simp only [satisfied, stored, RFCManager.addRfc, hopen, if_true, AList.lookup_insert, hself]

/-- **A download is lossless**, whatever the order of steps: the two sides agree on the length of every
message, there are only so many steps, and at their end the requester has exactly the content. -/
theorem download_lossless (hn : 1 ≤ n) (hle : n ≤ 32767) (htext : IsText content)
    (hfile : (enc.files .right).lookup (fileName n) = some content)
    (hopen : enc.canOpen .left (fileName n) = true) :
    (∀ c, Reaches Duet.step (enc.visit n) c → c.InStep) ∧
      ∃ c, EndsIn Duet.step (enc.visit n) c ∧ enc.Downloaded n content c := by
  obtain ⟨hpos, hasked⟩ := asked_eq_iff.mpr ⟨Int32.lt_of_lt_of_le (by decide) hn, hle⟩
  have hfound := enc.found_of_text htext (hasked.symm ▸ hfile)
  have hsize := htext.length_lt
  have hreach : Reaches (Parting.step fun _ _ ↦ 0) _ _ :=
    enc.reaches_served hpos hfound htext.ne_nil (by omega)
  have hreach' := Parting.reaches_duet hreach rfl
  have hrest : Duet.AtRest
      (⟨enc.satisfied n content, enc.replied n (.done (.inr true)), [], []⟩ : enc.Duet) := ⟨rfl, rfl⟩
  exact ⟨fun c hc ↦ (Duet.settled_all hreach' hrest hc).1, _,
    Duet.diamond.endsIn hreach' hrest.stuck, enc.downloaded_of_text htext hopen⟩

end Encounter

/-- RFC 7 is downloaded, from a peer that has it. -/
theorem Encounter.download_lossless_seven :
    let theirs : Directory := AList.insert (fileName 7) [104, 105] ∅
    ∃ c, EndsIn Duet.step ((Encounter.serving theirs).visit 7) c ∧
      (Encounter.serving theirs).Downloaded 7 [104, 105] c :=
  (Encounter.download_lossless _ (by decide) (by decide)
    ⟨by decide, by decide, by decide, by decide⟩ (AList.lookup_insert _) rfl).2

end RfcNet
