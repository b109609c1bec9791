import Mathlib.Data.List.TakeWhile
import RfcNet.Words

/-!
# The data the two programs share

The records of `common.hpp` and the commands a client sends to the central index.  A `std::string`
is its bytes; one that was built from a `char*` ends at the first NUL, which is what `cString`
says.
-/

set_option autoImplicit false

namespace RfcNet

open Lib

/-- `std::string`: a list of bytes, ordered as `std::string::operator<` orders it, byte by byte as
unsigned characters. -/
abbrev StdString := List UInt8

/-- `std::string(const char*)`: the bytes before the first NUL. -/
def cString (f : Frame) : StdString := f.takeWhile (· ≠ 0)

theorem zero_notMem_cString (f : Frame) : (0 : UInt8) ∉ cString f :=
  fun h ↦ by simpa using List.mem_takeWhile_imp h

theorem cString_eq_self_iff {s : StdString} : cString s = s ↔ (0 : UInt8) ∉ s := by
  rw [cString, List.takeWhile_eq_self_iff]
  constructor
  · intro h h0
    simpa using h 0 h0
  · intro h b hb
    simpa using fun h0 : b = 0 ↦ h (h0 ▸ hb)

theorem cString_eq_self {s : StdString} (h : (0 : UInt8) ∉ s) : cString s = s :=
  cString_eq_self_iff.mpr h

/-- A client, by the address at which other peers reach it. -/
@[ext] structure Client where
  /-- The host. -/
  host : StdString
  /-- The port. -/
  port : Int32
  deriving DecidableEq, Repr

/-- An association between a client and an RFC it has a local copy of. -/
@[ext] structure RFCHolder where
  /-- The RFC's number. -/
  rfc : Int32
  /-- The client. -/
  peer : Client
  deriving DecidableEq, Repr

/-- The commands a client sends to the server. -/
inductive P2SMessage
  | hello
  | add
  | list
  | lookup
  | disconnect
  deriving DecidableEq, Repr

/-- The enumerator's value. -/
def P2SMessage.toInt : P2SMessage → Int32
  | .hello => 0
  | .add => 1
  | .list => 2
  | .lookup => 3
  | .disconnect => 4

/-- The enumerator with this value, if there is one.  A received message is a cast from any
`int`. -/
def P2SMessage.ofInt? (x : Int32) : Option P2SMessage :=
  if x = 0 then some .hello
  else if x = 1 then some .add
  else if x = 2 then some .list
  else if x = 3 then some .lookup
  else if x = 4 then some .disconnect
  else none

@[simp] theorem P2SMessage.ofInt?_toInt (m : P2SMessage) : ofInt? m.toInt = some m := by
  cases m <;> decide

theorem P2SMessage.eq_toInt {x : Int32} {m : P2SMessage} (h : ofInt? x = some m) :
    x = m.toInt := by
  simp only [ofInt?] at h
  repeat' split at h
  all_goals first
    | obtain rfl := Option.some_inj.mp h
      assumption
    | simp at h

/-- A command with its argument, which is a request to the server. -/
inductive Request
  | add (number : Int32)
  | list
  | lookup (number : Int32)
  | disconnect
  /-- A command that is not one. -/
  | other
  deriving DecidableEq, Repr

/-- `PROTOCOL_VERSION`. -/
def protocolVersion : Int32 := 1

end RfcNet
