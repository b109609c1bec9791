import RfcNet.Lib.Parting
import RfcNet.RFCManager
import RfcNet.Visiting

/-!
# One peer gets an RFC from another

An `Encounter` is two peers, each with its directory, of which the left one runs `get_from_peer`
against the handler of the right one.  What becomes of it is decided by the number and by the file
that the right one has under it:

* a number that is not positive as a `short` ends the requester after the command (`reaches_null`);
* for a file that can be sent, the requester stores it and disconnects (`reaches_served`);
* without a file, the requester gets a 404 and leaves the handler waiting (`reaches_missing`);
* for an empty file, or one that is too large, the handler is terminated (`reaches_crashed`).
-/

set_option autoImplicit false

namespace RfcNet

open Lib RFCManager

/-- What a peer has: its files, and how many arrays it has allocated. -/
structure Store where
  /-- The directory of its `RFCManager`. -/
  files : Directory
  /-- The number of arrays allocated so far. -/
  allocated : ℕ

/-- What a call returns, and what it leaves.  The `k`-th array holds `memory k` when it is allocated. -/
def Store.answer (canOpen : StdString → Bool) (memory : ℕ → ℕ → UInt8) (s : Store) :
    (op : PeerOp) → op.Res × Store
  | .newBytes _ => (memory s.allocated, { s with allocated := s.allocated + 1 })
  | .addRfc number content =>
    ((RFCManager.addRfc canOpen s.files number content).1,
      { s with files := (RFCManager.addRfc canOpen s.files number content).2 })
  | .getContent number => (getContent s.files number, s)
  | .disconnect => ((), s)
  | .close => ((), s)

/-- What a peer calls on. -/
@[reducible] def peerEnv (canOpen : StdString → Bool) (memory : ℕ → ℕ → UInt8) : Env peerSig where
  State := Store
  answer s op := some (s.answer canOpen memory op)

/-- Two peers, before one of them gets an RFC from the other. -/
structure Encounter where
  /-- The address of the requester. -/
  myHost : StdString
  /-- It was an argument of `main`, and none is that long. -/
  length_lt : myHost.length < 2 ^ 31
  /-- The port of the requester. -/
  myPort : Int32
  /-- The directory of each of them. -/
  files : Side → Directory
  /-- Which files each of them can open for writing. -/
  canOpen : Side → StdString → Bool
  /-- What memory holds that nobody has written. -/
  memory : Side → ℕ → ℕ → UInt8

namespace Encounter

variable (enc : Encounter)

/-- The environment of one of the two. -/
@[reducible] def env (side : Side) : Env peerSig := peerEnv (enc.canOpen side) (enc.memory side)

/-- The two of them at the various stages of a visit. -/
@[reducible] def Duet : Type :=
  Lib.Duet (Proc.straight peerSig Bool) (enc.env .left) peerHandler (enc.env .right)

/-- The same, with sides that hang up. -/
@[reducible] def Parting : Type :=
  Lib.Parting (Proc.straight peerSig Bool) (enc.env .left) peerHandler (enc.env .right)

/-- The handler before it has received anything. -/
def listening : Endpoint peerHandler (enc.env .right) := ⟨handlePeer, ⟨enc.files .right, 0⟩, []⟩

/-- The left one asks for the RFC `n`. -/
def visit (n : Int32) : enc.Duet where
  left := ⟨(getFromPeer enc.myHost enc.myPort n).once, ⟨enc.files .left, 0⟩, []⟩
  right := enc.listening
  toRight := []
  toLeft := []

/-- The hello. -/
def hello : List Frame :=
  [wireInt (Int32.ofNat enc.myHost.length), enc.myHost, wireInt enc.myPort]


/-- The number that the handler takes a request to be for. -/
def asked (n : Int32) : Int32 := n.toInt16.toInt32

/-- What it finds under it. -/
def found (n : Int32) : Option StdString := getContent (enc.files .right) (asked n)

/-! ## The request -/

variable {n : Int32}

theorem runs_getFromPeer_once (hn : 0 < n.toInt16) (heap : ℕ → UInt8) :
    (getFromPeer enc.myHost enc.myPort n).once.Runs [] [⟨.newBytes sizeofShort, heap⟩]
      (enc.hello ++ [wireInt P2PMessage.get.toInt, wireShort n.toInt16])
      (awaitGet >>= fun res ↦ (storeReply n res).once) := by
  have hget := (runs_getFromPeer enc.length_lt enc.myPort hn heap).bind fun a ↦
    (.done (.inr a) : (Proc.straight peerSig Bool).Code)
  rw [Prog.bind_assoc] at hget
  exact hget

/-- A number that is not positive as a `short`. -/
theorem runs_getFromPeer_once_null (hn : ¬ 0 < n.toInt16) (heap : ℕ → UInt8) :
    (getFromPeer enc.myHost enc.myPort n).once.Runs [] [⟨.newBytes sizeofShort, heap⟩]
      (enc.hello ++ [wireInt P2PMessage.get.toInt]) (.raise .nullBuffer) :=
  (runs_getFromPeer_null enc.length_lt enc.myPort hn heap).bind _

theorem runs_handlePeer (memory : ℕ → UInt8) :
    handlePeer.Runs enc.hello [⟨.newBytes sizeofInt, memory⟩] []
      (.done (.inl (intOfBytes (newBytes memory sizeofInt)))) := by
  rw [handlePeer]
  exact Prog.Runs.bind (exec_receivePeerHello enc.length_lt enc.myPort memory) _

/-- The handler in a round of its loop, once it has received GET. -/
theorem runs_peerLoop_number (message : Int32) (number : Int16) (content : Option StdString) :
    (peerLoop message).Runs [wireInt P2PMessage.get.toInt, wireShort number]
      [⟨.getContent number.toInt32, content⟩] []
      (respond content >>= fun _ ↦ .done (.inl P2PMessage.get.toInt)) :=
  (runs_peerLoop_get message).trans ((runs_serveGet number content).bind _)

/-- The requester when it has asked for `n`. -/
def waiting (n : Int32) : Endpoint (Proc.straight peerSig Bool) (enc.env .left) where
  code := awaitGet >>= fun res ↦ (storeReply n res).once
  env := ⟨enc.files .left, 1⟩
  log := [⟨.newBytes sizeofShort, enc.memory .left 0⟩]

/-- The handler when it has received the hello. -/
def looping : Endpoint peerHandler (enc.env .right) where
  code := peerLoop (intOfBytes (newBytes (enc.memory .right 0) sizeofInt))
  env := ⟨enc.files .right, 1⟩
  log := [⟨.newBytes sizeofInt, enc.memory .right 0⟩]

/-- The handler when it has looked for it. -/
def answering (n : Int32) : Endpoint peerHandler (enc.env .right) where
  code := respond (enc.found n) >>= fun _ ↦ .done (.inl P2PMessage.get.toInt)
  env := ⟨enc.files .right, 1⟩
  log := [⟨.newBytes sizeofInt, enc.memory .right 0⟩, ⟨.getContent (asked n), enc.found n⟩]

/-- What the requester has sent by then. -/
def asking (n : Int32) : List Frame :=
  enc.hello ++ [wireInt P2PMessage.get.toInt, wireShort n.toInt16]

section
variable {junk : ℕ → ℕ → UInt8}

variable {ins outs inbox inbox' outbox outbox' said said' answered answered' : List Frame}
  {calls log log' : List peerSig.Call} {failed : List Side} {s s' : Store}

/-- The requester runs on its own. -/
theorem reaches_left {p q : (Proc.straight peerSig Bool).Code}
    {handler : Endpoint peerHandler (enc.env .right)} (h : p.Runs ins calls outs q)
    (hanswers : (enc.env .left).Answers s calls s') (hinbox : inbox = ins ++ inbox')
    (hlog : log' = log ++ calls) (houtbox : outbox' = outbox ++ outs) (hsaid : said' = said ++ outs) :
    Reaches (Parting.step junk)
      (⟨⟨⟨p, s, log⟩, handler, outbox, inbox⟩, said, answered, failed⟩ : enc.Parting)
      ⟨⟨⟨q, s', log'⟩, handler, outbox', inbox'⟩, said', answered, failed⟩ := by
  subst hinbox hlog houtbox hsaid
  exact Parting.reaches_left h hanswers log handler outbox inbox'

/-- The handler runs on its own. -/
theorem reaches_right {p q : peerHandler.Code}
    {requester : Endpoint (Proc.straight peerSig Bool) (enc.env .left)} (h : p.Runs ins calls outs q)
    (hanswers : (enc.env .right).Answers s calls s') (hinbox : inbox = ins ++ inbox')
    (hlog : log' = log ++ calls) (houtbox : outbox' = outbox ++ outs)
    (hanswered : answered' = answered ++ outs) :
    Reaches (Parting.step junk)
      (⟨⟨requester, ⟨p, s, log⟩, inbox, outbox⟩, said, answered, failed⟩ : enc.Parting)
      ⟨⟨requester, ⟨q, s', log'⟩, inbox', outbox'⟩, said, answered', failed⟩ := by
  subst hinbox hlog houtbox hanswered
  exact Parting.reaches_right h hanswers log requester inbox' outbox

/-- The handler receives the hello and comes to its loop. -/
theorem reaches_looping {requester : Endpoint (Proc.straight peerSig Bool) (enc.env .left)} :
    Reaches (Parting.step junk)
      (⟨⟨requester, enc.listening, enc.hello ++ inbox, []⟩, said, [], []⟩ : enc.Parting)
      ⟨⟨requester, enc.looping, inbox, []⟩, said, [], []⟩ :=
  (enc.reaches_right (enc.runs_handlePeer (enc.memory .right 0)) ⟨_, rfl, rfl⟩ rfl rfl rfl rfl).trans
    (.head (e := .right) Parting.step_right_loop (.refl _))

/-- **The request**, for a number that is positive as a `short`. -/
theorem reaches_asked (hn : 0 < n.toInt16) :
    Reaches (Parting.step junk) (.start (enc.visit n))
      (⟨⟨enc.waiting n, enc.answering n, [], []⟩, enc.asking n, [], []⟩ : enc.Parting) := by
  have hget : Reaches (Parting.step junk) (.start (enc.visit n))
      (⟨⟨enc.waiting n, enc.listening, enc.asking n, []⟩, enc.asking n, [], []⟩ : enc.Parting) :=
    enc.reaches_left (enc.runs_getFromPeer_once hn (enc.memory .left 0)) ⟨_, rfl, rfl⟩ rfl rfl
      (List.nil_append _).symm (List.nil_append _).symm
  have hanswer : Reaches (Parting.step junk)
      (⟨⟨enc.waiting n, enc.looping, [wireInt P2PMessage.get.toInt, wireShort n.toInt16], []⟩,
        enc.asking n, [], []⟩ : enc.Parting)
      ⟨⟨enc.waiting n, enc.answering n, [], []⟩, enc.asking n, [], []⟩ :=
    enc.reaches_right (runs_peerLoop_number _ n.toInt16 (enc.found n)) ⟨_, rfl, rfl⟩ rfl rfl rfl rfl
  exact hget.trans (enc.reaches_looping.trans hanswer)

/-- The requester after a number that it could not send. -/
def nulled : Endpoint (Proc.straight peerSig Bool) (enc.env .left) where
  code := .raise .nullBuffer
  env := ⟨enc.files .left, 1⟩
  log := [⟨.newBytes sizeofShort, enc.memory .left 0⟩]

/-- The handler when it waits for the number. -/
def unasked : Endpoint peerHandler (enc.env .right) where
  code := serveGet >>= fun _ ↦ .done (.inl P2PMessage.get.toInt)
  env := ⟨enc.files .right, 1⟩
  log := [⟨.newBytes sizeofInt, enc.memory .right 0⟩]

/-- What the requester has sent by then. -/
def commanding : List Frame := enc.hello ++ [wireInt P2PMessage.get.toInt]

/-- **The request**, for any other number. -/
theorem reaches_null (hn : ¬ 0 < n.toInt16) :
    Reaches (Parting.step junk) (.start (enc.visit n))
      (⟨⟨enc.nulled, enc.unasked, [], []⟩, enc.commanding, [], []⟩ : enc.Parting) := by
  have hget : Reaches (Parting.step junk) (.start (enc.visit n))
      (⟨⟨enc.nulled, enc.listening, enc.commanding, []⟩, enc.commanding, [], []⟩ : enc.Parting) :=
    enc.reaches_left (enc.runs_getFromPeer_once_null hn (enc.memory .left 0)) ⟨_, rfl, rfl⟩ rfl rfl
      (List.nil_append _).symm (List.nil_append _).symm
  have hloop : Reaches (Parting.step junk)
      (⟨⟨enc.nulled, enc.looping, [wireInt P2PMessage.get.toInt], []⟩, enc.commanding, [], []⟩ :
        enc.Parting)
      ⟨⟨enc.nulled, enc.unasked, [], []⟩, enc.commanding, [], []⟩ :=
    enc.reaches_right (runs_peerLoop_get _) rfl rfl rfl rfl rfl
  exact hget.trans (enc.reaches_looping.trans hloop)

/-! ## The answer -/

variable {content : StdString}

/-- The directory of the requester once it has stored what was sent, and whether it could. -/
def stored (n : Int32) (content : StdString) : Bool × Directory :=
  RFCManager.addRfc (enc.canOpen .left) (enc.files .left) n (cString content)

/-- The requester that has stored a content. -/
def satisfied (n : Int32) (content : StdString) :
    Endpoint (Proc.straight peerSig Bool) (enc.env .left) where
  code := .done (.inr true)
  env := ⟨(enc.stored n content).2, 1⟩
  log := [⟨.newBytes sizeofShort, enc.memory .left 0⟩,
    ⟨.addRfc n (cString content), (enc.stored n content).1⟩, ⟨.disconnect, ()⟩]

/-- The handler that has made its response, and goes on as in `code`. -/
def replied (n : Int32) (code : peerHandler.Code) : Endpoint peerHandler (enc.env .right) where
  code := code
  env := ⟨enc.files .right, 2⟩
  log := [⟨.newBytes sizeofInt, enc.memory .right 0⟩, ⟨.getContent (asked n), enc.found n⟩,
    ⟨.newBytes (contentReply (enc.found n)).messageSize.toNat, enc.memory .right 1⟩]

/-- The requester from the reply to its end. -/
theorem runs_awaitGet (n : Int32) (hsize : 8 + content.length < 2 ^ 31) (added : Bool) :
    (awaitGet >>= fun res ↦ (storeReply n res).once).Runs
      [wireInt (Int32.ofNat (contentBytes content).length), contentBytes content]
      [⟨.addRfc n (cString content), added⟩, ⟨.disconnect, ()⟩]
      [wireInt P2PMessage.disconnect.toInt] (.done (.inr true)) := by
  have hdecode := GetRFCResponse.fromBytes_contentBytes hsize {} []
  rw [List.append_nil] at hdecode
  have hawait := exec_awaitGet (by rw [length_contentBytes]; exact hsize) hdecode
  have hstore := exec_storeReply (show (200 : Int32) ≠ 404 by decide) n (cString content) added
  exact (Prog.Runs.bind hawait _).trans (Prog.Runs.bind hstore _)

/-- The reply with a content. -/
def reply (content : StdString) : List Frame :=
  [wireInt (Int32.ofNat (contentBytes content).length), contentBytes content]

/-- **A file that can be sent** is stored, and both sides return. -/
theorem reaches_served (hn : 0 < n.toInt16) (hfound : enc.found n = some content) (hne : content ≠ [])
    (hsize : 8 + content.length < 2 ^ 31) :
    Reaches (Parting.step junk) (.start (enc.visit n))
      (⟨⟨enc.satisfied n content, enc.replied n (.done (.inr true)), [], []⟩,
        enc.asking n ++ [wireInt P2PMessage.disconnect.toInt], reply content, []⟩ :
        enc.Parting) := by
  have hrespond := Prog.Runs.bind (exec_respond_some hne hsize (enc.memory .right 1)) fun _ ↦
    (.done (.inl P2PMessage.get.toInt) : peerHandler.Code)
  rw [← hfound] at hrespond
  have hreply : Reaches (Parting.step junk)
      (⟨⟨enc.waiting n, enc.answering n, [], []⟩, enc.asking n, [], []⟩ : enc.Parting)
      ⟨⟨enc.waiting n, enc.replied n (.done (.inl P2PMessage.get.toInt)), [], reply content⟩,
        enc.asking n, reply content, []⟩ :=
    enc.reaches_right hrespond ⟨_, rfl, rfl⟩ rfl rfl rfl rfl
  have hstore : Reaches (Parting.step junk)
      (⟨⟨enc.waiting n, enc.replied n (.done (.inl P2PMessage.get.toInt)), [],
        reply content⟩, enc.asking n, reply content, []⟩ : enc.Parting)
      ⟨⟨enc.satisfied n content, enc.replied n (.done (.inl P2PMessage.get.toInt)),
        [wireInt P2PMessage.disconnect.toInt], []⟩,
        enc.asking n ++ [wireInt P2PMessage.disconnect.toInt], reply content, []⟩ :=
    enc.reaches_left (runs_awaitGet n hsize _) ⟨_, rfl, _, rfl, rfl⟩ rfl rfl rfl rfl
  have hend : Reaches (Parting.step junk)
      (⟨⟨enc.satisfied n content, enc.replied n (peerLoop P2PMessage.get.toInt),
        [wireInt P2PMessage.disconnect.toInt], []⟩,
        enc.asking n ++ [wireInt P2PMessage.disconnect.toInt], reply content, []⟩ : enc.Parting)
      ⟨⟨enc.satisfied n content, enc.replied n (.done (.inr true)), [], []⟩,
        enc.asking n ++ [wireInt P2PMessage.disconnect.toInt], reply content, []⟩ :=
    enc.reaches_right (exec_peerLoop_disconnect _) rfl rfl rfl rfl rfl
  exact (enc.reaches_asked hn).trans (hreply.trans (hstore.trans
    (.head (e := .right) Parting.step_right_loop hend)))

/-- The reply without one: the last four bytes are whatever was in memory. -/
def missing : List Frame := [wireInt 8, wireInt 404 ++ (newBytes (enc.memory .right 1) 8).drop 4]

/-- The requester that was told that there is no such file. -/
def refused : Endpoint (Proc.straight peerSig Bool) (enc.env .left) where
  code := .done (.inr false)
  env := ⟨enc.files .left, 1⟩
  log := [⟨.newBytes sizeofShort, enc.memory .left 0⟩, ⟨.disconnect, ()⟩]

/-- The requester from that reply to its end. -/
theorem runs_awaitGet_missing (n : Int32) :
    (awaitGet >>= fun res ↦ (storeReply n res).once).Runs enc.missing [⟨.disconnect, ()⟩] []
      (.done (.inr false)) := by
  have hdecode := GetRFCResponse.fromBytes_ne (show (404 : Int32) ≠ 200 by decide) {}
    ((newBytes (enc.memory .right 1) 8).drop 4)
  have hlen : (wireInt 404 ++ (newBytes (enc.memory .right 1) 8).drop 4).length = 8 := by simp
  have hawait := exec_awaitGet (by rw [hlen]; decide) hdecode
  rw [hlen] at hawait
  have hstore := exec_storeReply_404 n []
  exact (Prog.Runs.bind hawait _).trans (Prog.Runs.bind hstore _)

/-- **A file that does not exist**: the requester returns, and the handler waits for a command. -/
theorem reaches_missing (hn : 0 < n.toInt16) (hfound : enc.found n = none) :
    Reaches (Parting.step junk) (.start (enc.visit n))
      (⟨⟨enc.refused, enc.replied n (peerLoop P2PMessage.get.toInt), [], []⟩, enc.asking n,
        enc.missing, []⟩ : enc.Parting) := by
  have hrespond := Prog.Runs.bind (exec_respond_none (enc.memory .right 1)) fun _ ↦
    (.done (.inl P2PMessage.get.toInt) : peerHandler.Code)
  have hcall : [⟨.newBytes 8, enc.memory .right 1⟩] =
      ([⟨.newBytes (contentReply (enc.found n)).messageSize.toNat, enc.memory .right 1⟩] :
        List peerSig.Call) := by
    rw [hfound]
    rfl
  rw [← hfound, hcall] at hrespond
  have hreply : Reaches (Parting.step junk)
      (⟨⟨enc.waiting n, enc.answering n, [], []⟩, enc.asking n, [], []⟩ : enc.Parting)
      ⟨⟨enc.waiting n, enc.replied n (.done (.inl P2PMessage.get.toInt)), [], enc.missing⟩,
        enc.asking n, enc.missing, []⟩ :=
    enc.reaches_right hrespond ⟨_, rfl, rfl⟩ rfl rfl rfl rfl
  have hrefuse : Reaches (Parting.step junk)
      (⟨⟨enc.waiting n, enc.replied n (.done (.inl P2PMessage.get.toInt)), [], enc.missing⟩,
        enc.asking n, enc.missing, []⟩ : enc.Parting)
      ⟨⟨enc.refused, enc.replied n (.done (.inl P2PMessage.get.toInt)), [], []⟩, enc.asking n,
        enc.missing, []⟩ :=
    enc.reaches_left (enc.runs_awaitGet_missing n) ⟨_, rfl, rfl⟩ rfl rfl rfl rfl
  exact (enc.reaches_asked hn).trans (hreply.trans (hrefuse.trans
    (.head (e := .right) Parting.step_right_loop (.refl _))))

/-- **A file that cannot be sent**: the handler is terminated. -/
theorem reaches_crashed (hn : 0 < n.toInt16) (hfound : enc.found n = some content)
    (hbad : content = [] ∨ 2 ^ 31 ≤ 8 + content.length) : ∃ outs e,
    Reaches (Parting.step junk) (.start (enc.visit n))
      (⟨⟨enc.waiting n, enc.replied n (.raise e), [], outs⟩, enc.asking n, outs, []⟩ :
        enc.Parting) := by
  obtain ⟨outs, e, hrespond⟩ : ∃ outs e, (respond (enc.found n)).Runs []
      [⟨.newBytes (contentReply (enc.found n)).messageSize.toNat, enc.memory .right 1⟩] outs
      (.raise e) := by
    rw [hfound]
    rcases hbad with rfl | hsize
    · exact ⟨_, _, runs_respond_nil _⟩
    · exact runs_respond_large hsize _
  refine ⟨outs, e, (enc.reaches_asked hn).trans ?_⟩
  exact enc.reaches_right (hrespond.bind _) ⟨_, rfl, rfl⟩ rfl rfl rfl rfl

end

end Encounter

/-- Two peers, of which the right one has the files `theirs`. -/
def Encounter.serving (theirs : Directory) : Encounter where
  myHost := [49, 50, 55]
  length_lt := by decide
  myPort := 5000
  files side := if side = .right then theirs else ∅
  canOpen _ _ := true
  memory _ _ _ := 0

end RfcNet
