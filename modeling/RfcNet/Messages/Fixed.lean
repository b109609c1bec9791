import RfcNet.Words

/-!
# Messages that are one `int`

`AddRFCMessage`, `LookupRFCMessage` and `AddRFCResponse` carry one `int` each and differ only in
what makes them valid.  `encodeInt` and `decodeInt` are the text they share.

`to_bytes` returns `nullptr` for a message that is not valid; here that is `none`.
-/

set_option autoImplicit false

namespace RfcNet

open Lib

/-- The common `to_bytes`: nothing if the message is not valid, else the field in a new buffer. -/
def encodeInt (valid : Bool) (field : Int32) (heap : ℕ → UInt8) : Except Fault (Option Frame) :=
  if valid then (putInt field ⟨newBytes heap sizeofInt, 0⟩).map fun c ↦ some c.buf
  else .ok none

/-- The common `from_bytes`. -/
def decodeInt (bytes : Frame) : Except Fault Int32 := (getInt bytes 0).map Prod.fst

/-- A valid one-`int` message is the bytes of its field, whatever the new buffer contained. -/
theorem encodeInt_true (field : Int32) (heap : ℕ → UInt8) :
    encodeInt true field heap = .ok (some (wireInt field)) := by
  rw [encodeInt, if_pos rfl, (writes_putInt field).fill (by simp [sizeofInt]) (by simp)]
  rfl

/-- Only the first four bytes are read. -/
theorem decodeInt_append (x : Int32) (rest : Frame) : decodeInt (wireInt x ++ rest) = .ok x := by
  rw [decodeInt, (reads_getInt x).run (by simp) rest]
  rfl

theorem decodeInt_wireInt (x : Int32) : decodeInt (wireInt x) = .ok x := by
  have h := decodeInt_append x []
  rwa [List.append_nil] at h

/-- Any four bytes decode. -/
theorem decodeInt_of_length {f : Frame} (h : f.length = 4) : decodeInt f = .ok (unwireInt f) := by
  rw [← wireInt_unwireInt h, decodeInt_wireInt, unwireInt_wireInt]

/-- The codes a response may carry. -/
def isCode (code : Int32) : Bool := code == 200 || code == 400 || code == 404 || code == 505

/-! ## `AddRFCMessage` -/

/-- The request to register an RFC. -/
structure AddRFCMessage where
  /-- The RFC's number. -/
  number : Int32 := 0
  deriving DecidableEq, Repr

namespace AddRFCMessage

def isValid (msg : AddRFCMessage) : Bool := msg.number > 0

def messageSize (_ : AddRFCMessage) : ℕ := sizeofInt

def fromBytes (_ : AddRFCMessage) (bytes : Frame) : Except Fault AddRFCMessage :=
  (decodeInt bytes).map AddRFCMessage.mk

def toBytes (msg : AddRFCMessage) (heap : ℕ → UInt8) : Except Fault (Option Frame) :=
  encodeInt msg.isValid msg.number heap

end AddRFCMessage

/-! ## `AddRFCResponse` -/

/-- The answer to it. -/
structure AddRFCResponse where
  /-- The response code. -/
  code : Int32 := 0
  deriving DecidableEq, Repr

namespace AddRFCResponse

def isValid (res : AddRFCResponse) : Bool := isCode res.code

def messageSize (_ : AddRFCResponse) : ℕ := sizeofInt

def fromBytes (_ : AddRFCResponse) (bytes : Frame) : Except Fault AddRFCResponse :=
  (decodeInt bytes).map AddRFCResponse.mk

def toBytes (res : AddRFCResponse) (heap : ℕ → UInt8) : Except Fault (Option Frame) :=
  encodeInt res.isValid res.code heap

end AddRFCResponse

/-! ## `LookupRFCMessage` -/

/-- The request for the clients that have an RFC. -/
structure LookupRFCMessage where
  /-- The RFC's number. -/
  number : Int32 := 0
  deriving DecidableEq, Repr

namespace LookupRFCMessage

def isValid (msg : LookupRFCMessage) : Bool := msg.number > 0

def messageSize (_ : LookupRFCMessage) : ℕ := sizeofInt

def fromBytes (_ : LookupRFCMessage) (bytes : Frame) : Except Fault LookupRFCMessage :=
  (decodeInt bytes).map LookupRFCMessage.mk

def toBytes (msg : LookupRFCMessage) (heap : ℕ → UInt8) : Except Fault (Option Frame) :=
  encodeInt msg.isValid msg.number heap

end LookupRFCMessage

end RfcNet
