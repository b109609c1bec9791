import RfcNet.Messages.Get

/-!
# The eight messages as one type

`AbstMessage` is the interface of every message: whether it is valid, how long it is, and its
translation to bytes and back.  `to_bytes` allocates `message_size()` bytes and copies into them;
the two are computed apart in every class.

The eighth message, `ListRFCMessage`, is defined here.  Neither of the two programs uses it: LIST is
sent as a bare command.  It reads the length of the host as unsigned, where the replies read theirs
as signed.  Its array for the host is on the stack, which is taken as unbounded here.
-/

set_option autoImplicit false

namespace RfcNet

open Lib

/-! ## `ListRFCMessage` -/

/-- A host and a port. -/
structure ListRFCMessage where
  /-- The host. -/
  host : StdString := []
  /-- The port. -/
  port : Int32 := 0
  deriving DecidableEq, Repr

namespace ListRFCMessage

def isValid (msg : ListRFCMessage) : Bool := !(msg.host.length ≤ 0 || msg.port ≤ 0)

def messageSize (msg : ListRFCMessage) : UInt32 := UInt32.ofNat (4 + msg.host.length + 4)

/-- The writes of a message. -/
def put (msg : ListRFCMessage) : Put :=
  (putInt (Int32.ofNat msg.host.length)).andThen ((putBytes msg.host).andThen (putInt msg.port))

/-- The reads of a message.  The array for the host has `len_host + 1` elements, and this is unsigned:
the greatest length is one for which there is no array. -/
def get : Get ListRFCMessage :=
  getInt.bind fun tmp ↦
    let lenHost := tmp.toUInt32
    if (lenHost + 1).toNat ≤ lenHost.toNat then .fail .outOfBounds
    else (getBytes lenHost.toNat).bind fun host ↦ getInt.bind fun port ↦ .pure ⟨cString host, port⟩

def fromBytes (_ : ListRFCMessage) (bytes : Frame) : Except Fault ListRFCMessage :=
  (get bytes 0).map Prod.fst

def toBytes (msg : ListRFCMessage) (heap : ℕ → UInt8) : Except Fault (Option Frame) :=
  if !msg.isValid then .ok none
  else (msg.put ⟨newBytes heap msg.messageSize.toNat, 0⟩).map fun c ↦ some c.buf

end ListRFCMessage

/-! ## The interface -/

/-- A message of any class. -/
inductive AbstMessage
  | addRFCMessage (msg : AddRFCMessage)
  | addRFCResponse (res : AddRFCResponse)
  | getRFCMessage (msg : GetRFCMessage)
  | getRFCResponse (res : GetRFCResponse)
  | lookupRFCMessage (msg : LookupRFCMessage)
  | lookupRFCResponse (res : LookupRFCResponse)
  | listRFCMessage (msg : ListRFCMessage)
  | listRFCResponse (res : ListRFCResponse)
  deriving DecidableEq, Repr

namespace AbstMessage

def isValid : AbstMessage → Bool
  | addRFCMessage msg => msg.isValid
  | addRFCResponse res => res.isValid
  | getRFCMessage msg => msg.isValid
  | getRFCResponse res => res.isValid
  | lookupRFCMessage msg => msg.isValid
  | lookupRFCResponse res => res.isValid
  | listRFCMessage msg => msg.isValid
  | listRFCResponse res => res.isValid

def messageSize : AbstMessage → ℕ
  | addRFCMessage msg => msg.messageSize
  | addRFCResponse res => res.messageSize
  | getRFCMessage msg => msg.messageSize
  | getRFCResponse res => res.messageSize.toNat
  | lookupRFCMessage msg => msg.messageSize
  | lookupRFCResponse res => res.messageSize.toNat
  | listRFCMessage msg => msg.messageSize.toNat
  | listRFCResponse res => res.messageSize.toNat

def toBytes (m : AbstMessage) (heap : ℕ → UInt8) : Except Fault (Option Frame) :=
  match m with
  | addRFCMessage msg => msg.toBytes heap
  | addRFCResponse res => res.toBytes heap
  | getRFCMessage msg => msg.toBytes heap
  | getRFCResponse res => res.toBytes heap
  | lookupRFCMessage msg => msg.toBytes heap
  | lookupRFCResponse res => res.toBytes heap
  | listRFCMessage msg => msg.toBytes heap
  | listRFCResponse res => res.toBytes heap

/-- The object keeps its class. -/
def fromBytes (m : AbstMessage) (bytes : Frame) : Except Fault AbstMessage :=
  match m with
  | addRFCMessage msg => (msg.fromBytes bytes).map addRFCMessage
  | addRFCResponse res => (res.fromBytes bytes).map addRFCResponse
  | getRFCMessage msg => (msg.fromBytes bytes).map getRFCMessage
  | getRFCResponse res => (res.fromBytes bytes).map getRFCResponse
  | lookupRFCMessage msg => (msg.fromBytes bytes).map lookupRFCMessage
  | lookupRFCResponse res => (res.fromBytes bytes).map lookupRFCResponse
  | listRFCMessage msg => (msg.fromBytes bytes).map listRFCMessage
  | listRFCResponse res => (res.fromBytes bytes).map listRFCResponse

/-- A newly constructed object of the same class. -/
def fresh : AbstMessage → AbstMessage
  | addRFCMessage _ => addRFCMessage {}
  | addRFCResponse _ => addRFCResponse {}
  | getRFCMessage _ => getRFCMessage {}
  | getRFCResponse _ => getRFCResponse {}
  | lookupRFCMessage _ => lookupRFCMessage {}
  | lookupRFCResponse _ => lookupRFCResponse {}
  | listRFCMessage _ => listRFCMessage {}
  | listRFCResponse _ => listRFCResponse {}

/-! ## What the classes share -/

/-- The writes of a message. -/
def put : AbstMessage → Put
  | addRFCMessage msg => putInt msg.number
  | addRFCResponse res => putInt res.code
  | getRFCMessage msg => putShort msg.number
  | getRFCResponse res => putResponse res.code res.content
  | lookupRFCMessage msg => putInt msg.number
  | lookupRFCResponse res => putReply putClient res.code res.hosts
  | listRFCMessage msg => msg.put
  | listRFCResponse res => putReply putHolder res.code res.holders

/-- **Every valid message is encoded alike**: its writes, into a new buffer of the size that was
computed. -/
theorem toBytes_of_isValid {m : AbstMessage} (h : m.isValid = true) (heap : ℕ → UInt8) :
    m.toBytes heap = (m.put ⟨newBytes heap m.messageSize, 0⟩).map fun c ↦ some c.buf := by
  cases m with
  | addRFCMessage msg => exact if_pos h
  | addRFCResponse res => exact if_pos h
  | lookupRFCMessage msg => exact if_pos h
  | _ =>
    refine if_neg ?_
    rw [Bool.not_eq_true', Bool.not_eq_false]
    exact h

end AbstMessage

end RfcNet
