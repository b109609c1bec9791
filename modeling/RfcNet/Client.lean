import RfcNet.Serving

/-!
# The client's side of a session

The part of `client.cpp` that talks to the central index: the exchange of versions and the hello in
`main`, `add_available_rfcs`, `get_rfc`, `list_rfcs_remote`, `disconnect`, and the loop of commands.
What it calls on is the user, the RFCs it has stored, its peers (`get_from_peer`), and the
allocator.  What it prints is not modelled, but each reply it has decoded is: `decoded` is a call
that returns nothing.

The requests are the same text wherever they occur in the source.  Each of them is in two parts
here, what is sent (`askAdd`, `askList`, `askLookup`) and what is received (`awaitAdd`,
`awaitList`, `awaitLookup`).
-/

set_option autoImplicit false

namespace RfcNet

open Lib

/-! ## Calls -/

/-- A reply, decoded. -/
inductive Reply
  | added (res : AddRFCResponse)
  | listed (res : ListRFCResponse)
  | lookedUp (res : LookupRFCResponse)
  deriving DecidableEq, Repr

/-- What the user enters: the commands that talk to the index, and everything else. -/
inductive Command
  | list
  | get (rfcNum : Int32)
  | quit
  | other
  deriving DecidableEq, Repr

/-- What the client calls on. -/
inductive ClientOp
  /-- The allocation of memory. -/
  | newBytes (n : ℕ)
  /-- `std::getline` and the regular expression for `get`. -/
  | readCommand
  /-- `check_if_rfc_stored`. -/
  | checkIfRfcStored (rfc : Int32)
  /-- `get_from_peer`. -/
  | getFromPeer (rfcNum : Int32) (client : Client)
  /-- A request has been answered. -/
  | decoded (request : Request) (reply : Reply)
  /-- `sock.disconnect()`. -/
  | disconnect
  deriving DecidableEq, Repr

/-- What it returns. -/
@[reducible] def ClientOp.Res : ClientOp → Type
  | .newBytes _ => ℕ → UInt8
  | .readCommand => Command
  | .checkIfRfcStored _ => Bool
  | .getFromPeer _ _ => Bool
  | .decoded _ _ => Unit
  | .disconnect => Unit

/-- The calls and exceptions of a client. -/
@[reducible] def clientSig : Sig := ⟨ClientOp, ClientOp.Res, Crash⟩

/-- One call of a client. -/
def ask (op : ClientOp) : Prog clientSig op.Res := .call (S := clientSig) op

/-! ## The requests -/

/-- ADD: the command, and the message. -/
def askAdd (rfcNum : Int32) : Prog clientSig Unit := do
  sendInt P2SMessage.add.toInt
  let addMsg : AddRFCMessage := ⟨rfcNum⟩
  let heap ← ask (.newBytes addMsg.messageSize)
  let buf ← .ofExcept .memory (addMsg.toBytes heap)
  sendBuffer buf addMsg.messageSize

/-- The reply to ADD. -/
def awaitAdd (rfcNum : Int32) : Prog clientSig AddRFCResponse := do
  let buf ← .recv sizeofInt
  let addRes ← .ofExcept .memory (AddRFCResponse.fromBytes {} buf)
  ask (.decoded (.add rfcNum) (.added addRes))
  return addRes

/-- A reply with its size before it.  The buffer cannot be negative. -/
def receiveReply : Prog clientSig Frame := do
  let tmp ← recvInt
  if tmp < 0 then .raise .badAlloc
  else .recv (sizeT tmp)

/-- LIST. -/
def askList : Prog clientSig Unit := sendInt P2SMessage.list.toInt

/-- The reply to LIST. -/
def awaitList : Prog clientSig ListRFCResponse := do
  let buf ← receiveReply
  let res ← .ofExcept .memory (ListRFCResponse.fromBytes {} buf)
  ask (.decoded .list (.listed res))
  return res

/-- LOOKUP: the command, and the message. -/
def askLookup (rfcNum : Int32) : Prog clientSig Unit := do
  sendInt P2SMessage.lookup.toInt
  let lookupMsg : LookupRFCMessage := ⟨rfcNum⟩
  let heap ← ask (.newBytes lookupMsg.messageSize)
  let buf ← .ofExcept .memory (lookupMsg.toBytes heap)
  sendBuffer buf lookupMsg.messageSize

/-- The reply to LOOKUP. -/
def awaitLookup (rfcNum : Int32) : Prog clientSig LookupRFCResponse := do
  let buf ← receiveReply
  let lookupRes ← .ofExcept .memory (LookupRFCResponse.fromBytes {} buf)
  ask (.decoded (.lookup rfcNum) (.lookedUp lookupRes))
  return lookupRes

/-! ## The commands -/

/-- `add_available_rfcs`, for the RFCs that `rfc_manager` has. -/
def addAvailableRfcs : List Int32 → Prog clientSig Bool
  | [] => return true
  | it :: rest => do
    askAdd it
    let res ← awaitAdd it
    if res.code ≠ 200 then return false
    else addAvailableRfcs rest

/-- `get_rfc`. -/
def getRfc (rfcNum : Int32) : Prog clientSig Unit := do
  if rfcNum ≤ 0 then return ()
  else
    let stored ← ask (.checkIfRfcStored rfcNum)
    if stored then return ()
    else
      askLookup rfcNum
      let lookupRes ← awaitLookup rfcNum
      if lookupRes.code = 404 then return ()
      else
        match lookupRes.hosts with
        | [] => .raise .emptyList
        | peer :: _ =>
          let got ← ask (.getFromPeer rfcNum peer)
          if !got then return ()
          else
            askAdd rfcNum
            let _ ← awaitAdd rfcNum
            return ()

/-- `list_rfcs_remote`. -/
def listRfcsRemote : Prog clientSig Unit := do
  askList
  let _ ← awaitList
  return ()

/-- `disconnect`. -/
def disconnect : Prog clientSig Unit := do
  sendInt P2SMessage.disconnect.toInt
  ask .disconnect

/-- One round of the loop of `main`, and what follows the loop if it is the last.  The result is
what `main` returns. -/
def commandLoop (_ : Unit) : Prog clientSig (Unit ⊕ Int32) := do
  let input ← ask .readCommand
  match input with
  | .get rfcNum =>
    getRfc rfcNum
    return .inl ()
  | .list =>
    listRfcsRemote
    return .inl ()
  | .other => return .inl ()
  | .quit =>
    disconnect
    return .inr 0

/-- `main` as a program with a main loop. -/
@[reducible] def clientMain : Proc clientSig := ⟨Unit, Int32, commandLoop⟩

/-- The hello: the length of the address, the address, the port. -/
def sendHello (address : StdString) (port : Int32) : Prog clientSig Unit := do
  let hostLen := Int32.ofNat address.length
  sendInt hostLen
  let hostLen := ntohl (htonl hostLen)
  sendBuffer (some (address ++ [0])) (sizeT hostLen)
  sendInt port

/-- `main` from the connection to the loop. -/
def clientStart (address : StdString) (port : Int32) (rfcs : List Int32) : clientMain.Code := do
  sendInt protocolVersion
  let clientVersion := ntohl (htonl protocolVersion)
  let serverVersion ← recvInt
  if serverVersion ≠ clientVersion then return .inr 1
  else
    sendHello address port
    let _ ← addAvailableRfcs rfcs
    return .inl ()

end RfcNet
