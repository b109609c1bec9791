import RfcNet.Lib.Monitor
import RfcNet.Visiting

/-!
# What two peers send to each other

The requester of an RFC sends its hello, the command GET with a number, and a command that ends the connection.  The
responder answers a GET by the size of a reply and the reply.  `Ask` and `Answer` are the places in the two streams.

`genuine` stands for what a content may be.  If the responder reads genuine contents only, it sends genuine contents
only (`handlePeer_obeys`); and then the requester stores no other, it stores one at most, and it returns `true` only
if it has (`getFromPeer_obeys`).
-/

set_option autoImplicit false

namespace RfcNet

open Lib

/-! ## The streams -/

/-- A place in the stream of the requester. -/
inductive Ask
  | hostLen
  | host
  | port
  | command
  | number

/-- The grammar of it, if it asks for the RFC `k`. -/
inductive Ask.Moves (k : Int16) : Ask → Frame → Ask → Prop
  | hostLen (f : Frame) : Moves k .hostLen f .host
  | host (f : Frame) : Moves k .host f .port
  | port (f : Frame) : Moves k .port f .command
  | get : Moves k .command (wireInt P2PMessage.get.toInt) .number
  | other {x : Int32} (hget : x ≠ P2PMessage.get.toInt) : Moves k .command (wireInt x) .command
  | number : Moves k .number (wireShort k) .command

/-- A place in the stream of the responder. -/
inductive Answer
  | size
  | body

/-- The frame is not a reply with a content that is not genuine. -/
def Good (genuine : StdString → Prop) (f : Frame) : Prop :=
  ∀ res, GetRFCResponse.fromBytes {} f = .ok res → res.code ≠ 404 → genuine res.content

/-- The grammar of it. -/
inductive Answer.Moves (genuine : StdString → Prop) : Answer → Frame → Answer → Prop
  | size (f : Frame) : Moves genuine .size f .body
  | body {f : Frame} (hf : Good genuine f) : Moves genuine .body f .size

section
variable {genuine : StdString → Prop}

/-- The reply with a content. -/
theorem good_contentBytes {content : StdString} (hsize : 8 + content.length < 2 ^ 31)
    (hcontent : genuine (cString content)) : Good genuine (contentBytes content) := by
  intro res hres _
  have hdecode := GetRFCResponse.fromBytes_contentBytes hsize {} []
  rw [List.append_nil, hres] at hdecode
  obtain rfl := Except.ok.inj hdecode
  exact hcontent

/-- The reply without one. -/
theorem good_missing (rest : Frame) : Good genuine (wireInt 404 ++ rest) := by
  intro res hres hcode
  rw [GetRFCResponse.fromBytes_ne (by decide)] at hres
  obtain rfl := Except.ok.inj hres
  exact absurd rfl hcode

end

/-! ## The requester -/

/-- How far a requester has come. -/
structure RequesterPhase where
  /-- Its place in its own stream. -/
  ask : Ask
  /-- Its place in the stream of the responder. -/
  answer : Answer
  /-- It has stored a content. -/
  stored : Bool

/-- It stores at most one content, which is genuine, and under the number it was given. -/
def RequesterPhase.MayCall (n : Int32) (genuine : StdString → Prop) (ph : RequesterPhase) : PeerOp → Prop
  | .addRfc m content => m = n ∧ genuine content ∧ ph.stored = false
  | _ => True

/-- What a call changes. -/
def RequesterPhase.after (ph : RequesterPhase) : PeerOp → RequesterPhase
  | .addRfc _ _ => { ph with stored := true }
  | _ => ph

/-- The requester of the RFC `n`. -/
def requesterMonitor (n : Int32) (genuine : StdString → Prop) : Monitor peerSig RequesterPhase where
  sends ph f ph' := ∃ ask, ph.ask.Moves n.toInt16 f ask ∧ ph' = { ph with ask }
  comes ph f ph' := ∃ answer, ph.answer.Moves genuine f answer ∧ ph' = { ph with answer }
  calls := RequesterPhase.MayCall n genuine
  returns ph c ph' := ph' = ph.after c.1

section
variable {α : Type} {n : Int32} {genuine : StdString → Prop} {fin : RequesterPhase → α → Prop}
  {ph : RequesterPhase}

/-- The requester makes a call. -/
theorem RequesterPhase.obeys_request {op : PeerOp} {g : op.Res → Prog peerSig α} (hop : ph.MayCall n genuine op)
    (hg : ∀ r, (g r).Obeys (requesterMonitor n genuine) fin (ph.after op)) :
    (request op >>= g).Obeys (requesterMonitor n genuine) fin ph := by
  refine ⟨hop, ?_⟩
  rintro r _ rfl
  exact hg r

/-- The requester sends an integer. -/
theorem RequesterPhase.obeys_sendInt {x : Int32} (ask : Ask) {g : Unit → Prog peerSig α}
    (h : ph.ask.Moves n.toInt16 (wireInt x) ask)
    (hg : (g ()).Obeys (requesterMonitor n genuine) fin { ph with ask }) :
    (sendInt x >>= g).Obeys (requesterMonitor n genuine) fin ph :=
  ⟨{ ph with ask }, ⟨ask, h, rfl⟩, hg⟩

/-- The requester receives an integer. -/
theorem RequesterPhase.obeys_recvInt {g : Int32 → Prog peerSig α}
    (hg : ∀ f answer, ph.answer.Moves genuine f answer →
      (g (unwireInt f)).Obeys (requesterMonitor n genuine) fin { ph with answer }) :
    (recvInt >>= g).Obeys (requesterMonitor n genuine) fin ph := by
  rintro f - _ ⟨answer, hmoves, rfl⟩
  exact hg f answer hmoves

attribute [local irreducible] sizeT

/-- The hello, whatever of the host is sent. -/
theorem sendAddress_obeys (myHost : StdString) (myPort : Int32) (hask : ph.ask = .hostLen) :
    (sendAddress myHost myPort).Obeys (requesterMonitor n genuine) (fun ph' _ ↦ ph' = { ph with ask := .command })
      ph := by
  rw [sendAddress]
  refine RequesterPhase.obeys_sendInt .host (hask ▸ .hostLen _) ?_
  simp only [sendBuffer.eq_2]
  split
  · trivial
  · exact ⟨_, ⟨_, .host _, rfl⟩, _, ⟨_, .port _, rfl⟩, rfl⟩

/-- GET, for the number as a `short`. -/
theorem askGet_obeys (hask : ph.ask = .command) : (askGet n).Obeys (requesterMonitor n genuine)
    (fun ph' _ ↦ ph' = { ph with ask := .command }) ph := by
  rw [askGet]
  refine RequesterPhase.obeys_sendInt .number (hask ▸ .get) ?_
  refine RequesterPhase.obeys_request trivial fun heap ↦ ?_
  by_cases hn : 0 < n.toInt16
  · rw [GetRFCMessage.toBytes_of_pos hn]
    simp only [Prog.ofExcept_ok, Prog.done_bind]
    rw [sendBuffer_some (show _ = (GetRFCMessage.mk n.toInt16).messageSize from length_wireShort _)]
    exact ⟨_, ⟨_, .number, rfl⟩, rfl⟩
  · rw [GetRFCMessage.toBytes_of_not_pos hn]
    trivial

/-- **What is decoded is genuine.** -/
theorem awaitGet_obeys (hanswer : ph.answer = .size) : awaitGet.Obeys (requesterMonitor n genuine)
    (fun ph' res ↦ ph' = ph ∧ (res.code ≠ 404 → genuine res.content)) ph := by
  obtain ⟨ask, answer, stored⟩ := ph
  obtain rfl : answer = .size := hanswer
  rw [awaitGet]
  refine RequesterPhase.obeys_recvInt fun size answer hmoves ↦ ?_
  cases hmoves
  split
  · trivial
  refine Prog.obeys_recv ?_
  rintro f - _ ⟨_, hmoves, rfl⟩
  cases hmoves with
  | body hf =>
    cases hres : GetRFCResponse.fromBytes {} f with
    | error e => trivial
    | ok res => exact ⟨rfl, hf res hres⟩

theorem storeReply_obeys {res : GetRFCResponse} (hres : res.code ≠ 404 → genuine res.content)
    (hask : ph.ask = .command) (hstored : ph.stored = false) : (storeReply n res).Obeys (requesterMonitor n genuine)
      (fun ph' b ↦ b = true → ph'.stored = true) ph := by
  obtain ⟨ask, answer, stored⟩ := ph
  obtain rfl : ask = .command := hask
  rw [storeReply]
  split
  · exact RequesterPhase.obeys_request trivial fun _ hb ↦ absurd hb Bool.false_ne_true
  · rename_i hcode
    refine RequesterPhase.obeys_request ⟨rfl, hres hcode, hstored⟩ fun _ ↦ ?_
    have hother : (P2PMessage.disconnect.toInt : Int32) ≠ P2PMessage.get.toInt := by decide
    refine RequesterPhase.obeys_sendInt .command (.other hother) ?_
    exact RequesterPhase.obeys_request trivial fun _ _ ↦ rfl

/-- The requester returns `true` only if it has stored a content. -/
def RequesterPhase.AtEnd (ph : RequesterPhase) : Empty ⊕ Bool → Prop
  | .inl _ => True
  | .inr b => b = true → ph.stored = true

/-- **A requester** stores only what is genuine. -/
theorem getFromPeer_obeys (myHost : StdString) (myPort n : Int32) (genuine : StdString → Prop) :
    (getFromPeer myHost myPort n).once.Obeys (requesterMonitor n genuine) RequesterPhase.AtEnd
      ⟨.hostLen, .size, false⟩ := by
  suffices h : (getFromPeer myHost myPort n).Obeys (requesterMonitor n genuine)
      (fun ph' b ↦ b = true → ph'.stored = true) ⟨.hostLen, .size, false⟩ from h.bind fun _ _ hb ↦ hb
  rw [getFromPeer]
  refine (sendAddress_obeys myHost myPort rfl).bind ?_
  rintro _ - rfl
  refine (askGet_obeys rfl).bind ?_
  rintro _ - rfl
  refine (awaitGet_obeys rfl).bind ?_
  rintro _ res ⟨rfl, hres⟩
  exact storeReply_obeys hres rfl rfl

end

/-! ## The responder -/

/-- How far a responder has come. -/
structure ResponderPhase where
  /-- Its place in the stream of the requester. -/
  ask : Ask
  /-- Its place in its own stream. -/
  answer : Answer

/-- It reads the RFC it is asked for, and stores nothing. -/
def MayRespond (k : Int16) : PeerOp → Prop
  | .getContent m => m = k.toInt32
  | .addRfc _ _ => False
  | _ => True

/-- What it reads is genuine. -/
def GenuineCall (genuine : StdString → Prop) : peerSig.Call → Prop
  | ⟨.getContent _, some content⟩ => genuine content
  | _ => True

/-- The responder of a peer that asks for the RFC `k`. -/
def responderMonitor (k : Int16) (genuine : StdString → Prop) : Monitor peerSig ResponderPhase where
  sends ph f ph' := ∃ answer, ph.answer.Moves genuine f answer ∧ ph' = { ph with answer }
  comes ph f ph' := ∃ ask, ph.ask.Moves k f ask ∧ ph' = { ph with ask }
  calls _ := MayRespond k
  returns ph c ph' := ph' = ph ∧ GenuineCall genuine c

section
variable {α : Type} {k : Int16} {genuine : StdString → Prop} {fin : ResponderPhase → α → Prop}
  {ph : ResponderPhase}

/-- The responder makes a call. -/
theorem ResponderPhase.obeys_request {op : PeerOp} {g : op.Res → Prog peerSig α} (hop : MayRespond k op)
    (hg : ∀ r, GenuineCall genuine ⟨op, r⟩ → (g r).Obeys (responderMonitor k genuine) fin ph) :
    (request op >>= g).Obeys (responderMonitor k genuine) fin ph := by
  refine ⟨hop, ?_⟩
  rintro r _ ⟨rfl, hr⟩
  exact hg r hr

/-- The responder receives an integer. -/
theorem ResponderPhase.obeys_recvInt {g : Int32 → Prog peerSig α}
    (hg : ∀ f ask, ph.ask.Moves k f ask → (g (unwireInt f)).Obeys (responderMonitor k genuine) fin { ph with ask }) :
    (recvInt >>= g).Obeys (responderMonitor k genuine) fin ph := by
  rintro f - _ ⟨ask, hmoves, rfl⟩
  exact hg f ask hmoves

attribute [local irreducible] sizeT

/-- **The reply is genuine**, if the content is. -/
theorem respond_obeys {content : Option StdString} (hanswer : ph.answer = .size)
    (hcontent : ∀ c ∈ content, genuine (cString c)) :
    (respond content).Obeys (responderMonitor k genuine) (fun ph' _ ↦ ph' = ph) ph := by
  obtain ⟨ask, answer⟩ := ph
  obtain rfl : answer = .size := hanswer
  rw [respond]
  refine ResponderPhase.obeys_request trivial fun heap _ ↦ ?_
  cases content with
  | none =>
    simp only [contentReply]
    rw [GetRFCResponse.toBytes_404]
    simp only [Prog.ofExcept_ok, Prog.done_bind, ntohl_htonl]
    refine ⟨_, ⟨_, .size _, rfl⟩, ?_⟩
    rw [sendBuffer_some (by rw [sizeT]; simp; decide)]
    exact ⟨_, ⟨_, .body (good_missing _), rfl⟩, rfl⟩
  | some c =>
    simp only [contentReply]
    by_cases hne : c = []
    · rw [hne, GetRFCResponse.toBytes_nil]
      exact ⟨_, ⟨_, .size _, rfl⟩, trivial⟩
    rcases Nat.lt_or_ge (8 + c.length) (2 ^ 32) with hlt | hge
    · rw [GetRFCResponse.toBytes_200 hne hlt]
      simp only [Prog.ofExcept_ok, Prog.done_bind, ntohl_htonl]
      refine ⟨_, ⟨_, .size _, rfl⟩, ?_⟩
      rcases Nat.lt_or_ge (8 + c.length) (2 ^ 31) with hsmall | hlarge
      · have hint : (GetRFCResponse.mk 200 c).messageSize.toInt32 = Int32.ofNat (contentBytes c).length := by
          rw [length_contentBytes]
          rfl
        rw [hint, sendBuffer_some (sizeT_ofNat (by rw [length_contentBytes]; exact hsmall)).symm]
        exact ⟨_, ⟨_, .body (good_contentBytes hsmall (hcontent c rfl)), rfl⟩, rfl⟩
      · have hneg := toInt32_neg (show 2 ^ 31 ≤ 4 + 4 + c.length by omega) (by omega)
        have hshort : (contentBytes c).length < sizeT (GetRFCResponse.mk 200 c).messageSize.toInt32 := by
          rw [length_contentBytes]
          exact hlt.trans (lt_sizeT_of_neg hneg)
        rw [sendBuffer_short hshort]
        trivial
    · obtain ⟨e, he⟩ := GetRFCResponse.toBytes_of_large hge heap
      rw [he]
      trivial

/-- **Serving a GET.** -/
theorem serveGet_obeys (hgenuine : ∀ c, genuine c → genuine (cString c)) (hask : ph.ask = .number)
    (hanswer : ph.answer = .size) : serveGet.Obeys (responderMonitor k genuine)
      (fun ph' _ ↦ ph' = { ph with ask := .command }) ph := by
  obtain ⟨ask, answer⟩ := ph
  obtain rfl : ask = .number := hask
  rw [serveGet]
  refine Prog.obeys_recv ?_
  rintro f - _ ⟨_, ⟨⟩, rfl⟩
  refine Prog.obeys_ofExcept fun msg hmsg ↦ ?_
  rw [GetRFCMessage.fromBytes_wireShort] at hmsg
  obtain rfl := Except.ok.inj hmsg
  refine ResponderPhase.obeys_request rfl fun content hcontent ↦ ?_
  refine respond_obeys hanswer fun c hc ↦ ?_
  obtain rfl : content = some c := hc
  exact hgenuine c hcontent

/-- The responder is before a command, and has answered all that it was asked. -/
def ResponderPhase.AtLoop (ph : ResponderPhase) : Int32 ⊕ Bool → Prop
  | .inl _ => ph = ⟨.command, .size⟩
  | .inr _ => True

/-- **Each round of the loop** answers with what is genuine. -/
theorem peerLoop_obeys (hgenuine : ∀ c, genuine c → genuine (cString c)) :
    peerHandler.Obeys (responderMonitor k genuine) ResponderPhase.AtLoop := by
  rintro _ message rfl
  refine ResponderPhase.obeys_recvInt fun f ask hmoves ↦ ?_
  cases hmoves with
  | get =>
    rw [unwireInt_wireInt, handlePeerMessage, if_pos rfl]
    refine (serveGet_obeys hgenuine rfl rfl).bind ?_
    rintro _ - rfl
    exact (rfl : (⟨.command, .size⟩ : ResponderPhase) = _)
  | @other x hget =>
    rw [unwireInt_wireInt, handlePeerMessage, if_neg hget]
    simp only [Prog.done_bind]
    split
    · exact (rfl : (⟨.command, .size⟩ : ResponderPhase) = _)
    · trivial

/-- **A responder** answers with what is genuine, if that is what it reads. -/
theorem handlePeer_obeys :
    handlePeer.Obeys (responderMonitor k genuine) ResponderPhase.AtLoop ⟨.hostLen, .size⟩ := by
  suffices h : receivePeerHello.Obeys (responderMonitor k genuine) (fun ph _ ↦ ph = ⟨.command, .size⟩)
      ⟨.hostLen, .size⟩ from h.bind fun _ _ hph ↦ hph
  rw [receivePeerHello]
  refine ResponderPhase.obeys_recvInt fun hostLen ask hmoves ↦ ?_
  cases hmoves
  split
  · trivial
  refine Prog.obeys_recv ?_
  rintro host - _ ⟨_, ⟨⟩, rfl⟩
  refine ResponderPhase.obeys_recvInt fun port ask hmoves ↦ ?_
  cases hmoves
  exact ResponderPhase.obeys_request trivial fun memory _ ↦ rfl

end

end RfcNet
