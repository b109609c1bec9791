import RfcNet.Messages.Get
import RfcNet.Wire

/-!
# The exchange between two peers

`get_from_peer`, from the connection on, and the handler that `main` of `client.cpp` gives to the
listener for connections from other peers.  Both call on their own `RFCManager` and on the allocator.
What they print is not modelled, nor the host and the port of the requester, which are only printed.
The array for that host is on the stack, which is taken as unbounded here.
-/

set_option autoImplicit false

namespace RfcNet

open Lib

/-! ## Calls -/

/-- The commands between peers. -/
inductive P2PMessage
  | hello
  | get
  | disconnect
  deriving DecidableEq, Repr

/-- The enumerator's value. -/
def P2PMessage.toInt : P2PMessage → Int32
  | .hello => 0
  | .get => 1
  | .disconnect => 2

/-- What a peer calls on. -/
inductive PeerOp
  /-- The allocation of memory. -/
  | newBytes (n : ℕ)
  /-- `rfc_manager.add_rfc`. -/
  | addRfc (number : Int32) (content : StdString)
  /-- `rfc_manager.get_content`. -/
  | getContent (number : Int32)
  /-- `sock.disconnect()` of the requester. -/
  | disconnect
  /-- `sock->close()`. -/
  | close
  deriving DecidableEq, Repr

/-- What it returns.  For `get_content`, nothing is a `FileReadException`. -/
@[reducible] def PeerOp.Res : PeerOp → Type
  | .newBytes _ => ℕ → UInt8
  | .addRfc _ _ => Bool
  | .getContent _ => Option StdString
  | .disconnect => Unit
  | .close => Unit

/-- The calls and exceptions of a peer. -/
@[reducible] def peerSig : Sig := ⟨PeerOp, PeerOp.Res, Crash⟩

/-- One call of a peer. -/
def request (op : PeerOp) : Prog peerSig op.Res := .call (S := peerSig) op

/-! ## The requester -/

/-- The hello of `get_from_peer`. -/
def sendAddress (myHost : StdString) (myPort : Int32) : Prog peerSig Unit := do
  let tmp := Int32.ofNat myHost.length
  sendInt tmp
  let tmp := ntohl (htonl tmp)
  sendBuffer (some (myHost ++ [0])) (sizeT tmp)
  sendInt myPort

/-- GET: the command, and the message.  The number becomes a `short`. -/
def askGet (rfcNum : Int32) : Prog peerSig Unit := do
  sendInt P2PMessage.get.toInt
  let getMsg : GetRFCMessage := ⟨rfcNum.toInt16⟩
  let heap ← request (.newBytes getMsg.messageSize)
  let buf ← .ofExcept .memory (getMsg.toBytes heap)
  sendBuffer buf getMsg.messageSize

/-- The reply to GET, with its size before it.  The buffer cannot be negative. -/
def awaitGet : Prog peerSig GetRFCResponse := do
  let tmp ← recvInt
  if tmp < 0 then .raise .badAlloc
  else
    let buf ← .recv (sizeT tmp)
    .ofExcept .memory (GetRFCResponse.fromBytes {} buf)

/-- What `get_from_peer` does with the reply. -/
def storeReply (rfcNum : Int32) (getRes : GetRFCResponse) : Prog peerSig Bool := do
  if getRes.code = 404 then
    request .disconnect
    return false
  else
    let _ ← request (.addRfc rfcNum getRes.content)
    sendInt P2PMessage.disconnect.toInt
    request .disconnect
    return true

/-- `get_from_peer`, once it is connected. -/
def getFromPeer (myHost : StdString) (myPort rfcNum : Int32) : Prog peerSig Bool := do
  sendAddress myHost myPort
  askGet rfcNum
  let getRes ← awaitGet
  storeReply rfcNum getRes

/-! ## The handler -/

/-- The response to a GET. -/
def contentReply (content : Option StdString) : GetRFCResponse :=
  match content with
  | some content => ⟨200, content⟩
  | none => ⟨404, []⟩

/-- The response, with its size before it. -/
def respond (content : Option StdString) : Prog peerSig Unit := do
  let res := contentReply content
  let heap ← request (.newBytes res.messageSize.toNat)
  let buf ← .ofExcept .memory (res.toBytes heap)
  let tmp := res.messageSize.toInt32
  sendInt tmp
  let tmp := ntohl (htonl tmp)
  sendBuffer buf (sizeT tmp)

/-- The case `P2PMessage::GET`. -/
def serveGet : Prog peerSig Unit := do
  let buf ← .recv sizeofShort
  let msg ← .ofExcept .memory (GetRFCMessage.fromBytes {} buf)
  let rfcNum := msg.number
  let content ← request (.getContent rfcNum.toInt32)
  respond content

/-- The `switch` of the handler. -/
def handlePeerMessage (message : Int32) : Prog peerSig Unit :=
  if message = P2PMessage.get.toInt then serveGet else .done ()

/-- One round of the loop of the handler, whose variable is the last command.  The result is what
`*is_finished` becomes. -/
def peerLoop (_ : Int32) : Prog peerSig (Int32 ⊕ Bool) := do
  let message ← recvInt
  handlePeerMessage message
  if message ≠ P2PMessage.disconnect.toInt then return .inl message
  else return .inr true

/-- The handler as a program with a main loop. -/
@[reducible] def peerHandler : Proc peerSig := ⟨Int32, Bool, peerLoop⟩

/-- The hello.  A negative length ends it as it ends a session: it is converted to a size of `2 ^ 63` or more, and
the encrypted socket's `recv` cannot allocate a block of that size. -/
def receivePeerHello : Prog peerSig Int32 := do
  let hostLen ← recvInt
  if hostLen < 0 then .raise .badAlloc
  else
    let _ ← .recv (sizeT hostLen)
    let _ ← recvInt
    let message ← request (.newBytes sizeofInt)
    return intOfBytes (newBytes message sizeofInt)

/-- The handler. -/
def handlePeer : peerHandler.Code := do
  return .inl (← receivePeerHello)

end RfcNet
