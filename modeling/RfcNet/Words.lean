import RfcNet.Lib.Cursor

/-!
# Machine integers and byte order

The sources move an `int` about by the address of its four bytes, so what a message carries is the
memory of an `int`, and `htonl` and `ntohl` are byte swaps of that memory.  The machine is
little-endian, as x86-64 is.

The two swaps are one function, which matters once: a variable that is swapped again after a
receive that left it alone does not keep its value.
-/

set_option autoImplicit false

namespace RfcNet

open Lib

/-- `sizeof(int)`. -/
def sizeofInt : ℕ := 4

/-- The memory of an `int`. -/
def intBytes (x : Int32) : Frame := leBytes 4 x.toUInt32.toNat

/-- The `int` whose memory is `f`. -/
def intOfBytes (f : Frame) : Int32 := (UInt32.ofNat (leNat f)).toInt32

/-- `htonl`, on the bits of an `int`. -/
def htonl (x : Int32) : Int32 := intOfBytes (intBytes x).reverse

/-- `ntohl`, on the bits of an `int`. -/
def ntohl (x : Int32) : Int32 := intOfBytes (intBytes x).reverse

@[simp] theorem length_intBytes (x : Int32) : (intBytes x).length = 4 := length_leBytes _ _

@[simp] theorem intOfBytes_intBytes (x : Int32) : intOfBytes (intBytes x) = x := by
  have hx : x.toUInt32.toNat < 256 ^ 4 := x.toUInt32.toNat_lt
  rw [intOfBytes, intBytes, leNat_leBytes, Nat.mod_eq_of_lt hx, UInt32.ofNat_toNat,
    Int32.toInt32_toUInt32]

theorem intBytes_intOfBytes {f : Frame} (h : f.length = 4) : intBytes (intOfBytes f) = f := by
  have hlt : leNat f < 2 ^ 32 := by
    have hf := leNat_lt f
    rw [h] at hf
    omega
  have hx : (intOfBytes f).toUInt32.toNat = leNat f := by
    rw [intOfBytes, UInt32.toUInt32_toInt32, UInt32.toNat_ofNat_of_lt' hlt]
  rw [intBytes, hx, ← h, leBytes_leNat]

/-- Swapping twice is swapping not at all. -/
@[simp] theorem ntohl_htonl (x : Int32) : ntohl (htonl x) = x := by
  rw [ntohl, htonl, intBytes_intOfBytes (by simp), List.reverse_reverse, intOfBytes_intBytes]

/-! ## Integers on the wire -/

/-- The bytes of `htonl(x)`, which is what a message carries of an `int`. -/
def wireInt (x : Int32) : Frame := intBytes (htonl x)

/-- The `int` that four bytes of a message carry. -/
def unwireInt (f : Frame) : Int32 := ntohl (intOfBytes f)

@[simp] theorem length_wireInt (x : Int32) : (wireInt x).length = 4 := length_intBytes _

@[simp] theorem unwireInt_wireInt (x : Int32) : unwireInt (wireInt x) = x := by
  rw [unwireInt, wireInt, intOfBytes_intBytes, ntohl_htonl]

theorem wireInt_unwireInt {f : Frame} (h : f.length = 4) : wireInt (unwireInt f) = f := by
  have hswap : htonl (ntohl (intOfBytes f)) = intOfBytes f := ntohl_htonl _
  rw [wireInt, unwireInt, hswap, intBytes_intOfBytes h]

theorem wireInt_injective : Function.Injective wireInt :=
  Function.LeftInverse.injective unwireInt_wireInt

/-- `tmp = htonl(x); memcpy(buf + pos, &tmp, sizeof(int)); pos += sizeof(int);` -/
def putInt (x : Int32) : Put := putBytes (wireInt x)

/-- `memcpy(&x, bytes + pos, sizeof(int)); x = ntohl(x); pos += sizeof(int);` -/
def getInt : Get Int32 := (getBytes sizeofInt).bind fun f ↦ .pure (unwireInt f)

theorem writes_putInt (x : Int32) : Writes (putInt x) (wireInt x) := writes_putBytes _

theorem reads_getInt (x : Int32) : Reads getInt (wireInt x) x := by
  have h := (reads_getBytes (wireInt x)).map unwireInt
  rwa [unwireInt_wireInt, length_wireInt] at h

theorem ofNat_toNat_toInt {x : Int32} (h : 0 ≤ x) : Int32.ofNat x.toInt.toNat = x := by
  have hnonneg : 0 ≤ x.toInt := Int32.le_iff_toInt_le.mp h
  have hlt := x.toInt_lt
  rw [← Int32.toInt_inj, Int32.toInt_ofNat_of_lt (by omega), Int.toNat_of_nonneg hnonneg]

/-! ## Shorter integers -/

/-- `sizeof(short)`. -/
def sizeofShort : ℕ := 2

/-- The memory of a `short`. -/
def shortBytes (x : Int16) : Frame := leBytes 2 x.toUInt16.toNat

/-- The `short` whose memory is `f`. -/
def shortOfBytes (f : Frame) : Int16 := (UInt16.ofNat (leNat f)).toInt16

/-- `htons`, on the bits of a `short`. -/
def htons (x : Int16) : Int16 := shortOfBytes (shortBytes x).reverse

/-- `ntohs`, on the bits of a `short`. -/
def ntohs (x : Int16) : Int16 := shortOfBytes (shortBytes x).reverse

@[simp] theorem length_shortBytes (x : Int16) : (shortBytes x).length = 2 := length_leBytes _ _

@[simp] theorem shortOfBytes_shortBytes (x : Int16) : shortOfBytes (shortBytes x) = x := by
  have hx : x.toUInt16.toNat < 256 ^ 2 := x.toUInt16.toNat_lt
  rw [shortOfBytes, shortBytes, leNat_leBytes, Nat.mod_eq_of_lt hx, UInt16.ofNat_toNat,
    Int16.toInt16_toUInt16]

theorem shortBytes_shortOfBytes {f : Frame} (h : f.length = 2) : shortBytes (shortOfBytes f) = f := by
  have hlt : leNat f < 2 ^ 16 := by
    have hf := leNat_lt f
    rw [h] at hf
    omega
  have hx : (shortOfBytes f).toUInt16.toNat = leNat f := by
    rw [shortOfBytes, UInt16.toUInt16_toInt16, UInt16.toNat_ofNat_of_lt' hlt]
  rw [shortBytes, hx, ← h, leBytes_leNat]

/-- Swapping twice is swapping not at all. -/
@[simp] theorem ntohs_htons (x : Int16) : ntohs (htons x) = x := by
  rw [ntohs, htons, shortBytes_shortOfBytes (by simp), List.reverse_reverse, shortOfBytes_shortBytes]

/-- The bytes of `htons(x)`. -/
def wireShort (x : Int16) : Frame := shortBytes (htons x)

/-- The `short` that two bytes of a message carry. -/
def unwireShort (f : Frame) : Int16 := ntohs (shortOfBytes f)

@[simp] theorem length_wireShort (x : Int16) : (wireShort x).length = 2 := length_shortBytes _

@[simp] theorem unwireShort_wireShort (x : Int16) : unwireShort (wireShort x) = x := by
  rw [unwireShort, wireShort, shortOfBytes_shortBytes, ntohs_htons]

/-- `tmp = htons(x); memcpy(buf, &tmp, sizeof(short));` -/
def putShort (x : Int16) : Put := putBytes (wireShort x)

/-- `memcpy(&x, bytes, sizeof(short)); x = ntohs(x);` -/
def getShort : Get Int16 := (getBytes sizeofShort).bind fun f ↦ .pure (unwireShort f)

theorem writes_putShort (x : Int16) : Writes (putShort x) (wireShort x) := writes_putBytes _

theorem reads_getShort (x : Int16) : Reads getShort (wireShort x) x := by
  have h := (reads_getBytes (wireShort x)).map unwireShort
  rwa [unwireShort_wireShort, length_wireShort] at h

/-! ## Allocation -/

/-- `new std::byte[n]`: the memory holds whatever `heap` says it held before. -/
def newBytes (heap : ℕ → UInt8) (n : ℕ) : Frame := (List.range n).map heap

@[simp] theorem length_newBytes (heap : ℕ → UInt8) (n : ℕ) : (newBytes heap n).length = n := by
  rw [newBytes, List.length_map, List.length_range]

end RfcNet
