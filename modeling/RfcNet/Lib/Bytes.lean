import Mathlib.Algebra.Order.Ring.Nat
import Mathlib.Tactic.Ring
import RfcNet.Lib.Prog

/-!
# Bytes in memory

Two things a program that assembles messages by hand relies on.

* `leBytes n x` are the `n` bytes of the number `x` as a little-endian machine keeps them in
  memory, and `leNat` reads them back.
* `writeAt` and `readAt` copy bytes into and out of a buffer at a position, and fail when the copy
  would leave the buffer.  The two lemmas the loops over a buffer need are about a buffer that is
  split at the position: `writeAt_append` and `readAt_append`.
-/

set_option autoImplicit false

namespace RfcNet
namespace Lib

/-! ## Little-endian numbers -/

/-- The `n` low bytes of `x`, lowest first. -/
def leBytes : ℕ → ℕ → Frame
  | 0, _ => []
  | n + 1, x => UInt8.ofNat x :: leBytes n (x / 256)

/-- The number whose bytes, lowest first, are `f`. -/
def leNat : Frame → ℕ
  | [] => 0
  | b :: f => b.toNat + 256 * leNat f

@[simp] theorem length_leBytes (n x : ℕ) : (leBytes n x).length = n := by
  induction n generalizing x with
  | zero => rfl
  | succ n ih => rw [leBytes, List.length_cons, ih]

theorem leNat_leBytes (n x : ℕ) : leNat (leBytes n x) = x % 256 ^ n := by
  induction n generalizing x with
  | zero => rw [leBytes, leNat, pow_zero, Nat.mod_one]
  | succ n ih =>
    have hb : (UInt8.ofNat x).toNat = x % 256 := UInt8.toNat_ofNat'
    rw [leBytes, leNat, ih, hb, pow_succ', Nat.mod_mul]

theorem leNat_lt (f : Frame) : leNat f < 256 ^ f.length := by
  induction f with
  | nil => simp [leNat]
  | cons b f ih =>
    have hb := b.toNat_lt
    rw [leNat, List.length_cons, pow_succ']
    omega

theorem leBytes_leNat (f : Frame) : leBytes f.length (leNat f) = f := by
  induction f with
  | nil => rfl
  | cons b f ih =>
    have hb := b.toNat_lt
    have hdiv : (b.toNat + 256 * leNat f) / 256 = leNat f := by omega
    have hmod : UInt8.ofNat (b.toNat + 256 * leNat f) = b := by
      apply UInt8.toNat_inj.mp
      rw [UInt8.toNat_ofNat']
      omega
    rw [List.length_cons, leNat, leBytes, hdiv, hmod, ih]

/-! ## Buffers -/

/-- Copy `bs` into `buf` at position `pos`. -/
def writeAt (buf : Frame) (pos : ℕ) (bs : Frame) : Option Frame :=
  if pos + bs.length ≤ buf.length then
    some (buf.take pos ++ bs ++ buf.drop (pos + bs.length))
  else none

/-- Copy `len` bytes out of `buf` from position `pos`. -/
def readAt (buf : Frame) (pos len : ℕ) : Option Frame :=
  if pos + len ≤ buf.length then some ((buf.drop pos).take len) else none

/-- Writing where the written part of the buffer ends. -/
theorem writeAt_append {before rest bs : Frame} (h : bs.length ≤ rest.length) :
    writeAt (before ++ rest) before.length bs = some (before ++ bs ++ rest.drop bs.length) := by
  rw [writeAt, if_pos (by rw [List.length_append]; omega), List.take_left,
    List.drop_append, List.drop_of_length_le (by omega), List.nil_append,
    Nat.add_sub_cancel_left]

/-- Reading where the part already read ends. -/
theorem readAt_append (before bs after : Frame) :
    readAt (before ++ (bs ++ after)) before.length bs.length = some bs := by
  rw [readAt, if_pos (by rw [List.length_append, List.length_append]; omega), List.drop_left,
    List.take_left]

end Lib
end RfcNet
