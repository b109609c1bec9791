import RfcNet.Lib.Exec
import RfcNet.Words

/-!
# Sockets

What the two programs do with a socket, apart from the messages themselves: they send and receive
single integers, and they send buffers that a `to_bytes` returned.

A receive goes on with whatever its buffer holds afterwards.  The sources look at the buffer whether
or not the receive succeeded, so all that is said of it is its length.  Nor do they look at the
result of a send.
-/

set_option autoImplicit false

namespace RfcNet

open Lib

/-- What ends a program before its time. -/
inductive Crash
  /-- An array of negative length. -/
  | badAlloc
  /-- A null pointer handed to `send`. -/
  | nullBuffer
  /-- A copy that leaves its buffer. -/
  | memory (fault : Fault)
  /-- `front()` of an empty list. -/
  | emptyList
  /-- `Crypto::HandshakeException`. -/
  | handshakeException
  deriving DecidableEq, Repr

/-- The `size_t` that an `int` becomes as an argument. -/
def sizeT (x : Int32) : ℕ := (x.toInt % 2 ^ 64).toNat

theorem sizeT_ofNat {n : ℕ} (h : n < 2 ^ 31) : sizeT (Int32.ofNat n) = n := by
  rw [sizeT, Int32.toInt_ofNat_of_lt h]
  omega

/-- A negative `int` becomes the size of no buffer. -/
theorem lt_sizeT_of_neg {x : Int32} (h : x < 0) : 2 ^ 32 < sizeT x := by
  have hx : x.toInt < 0 := Int32.lt_iff_toInt_lt.mp h
  have hle := x.le_toInt
  rw [sizeT]
  omega

section
variable {Op : Type} {Res : Op → Type}

/-- `tmp = htonl(x); sock.send(&tmp, sizeof(int));` -/
def sendInt (x : Int32) : Prog ⟨Op, Res, Crash⟩ Unit := .send (intBytes (htonl x))

/-- `sock.recv(&x, sizeof(int)); x = ntohl(x);` -/
def recvInt : Prog ⟨Op, Res, Crash⟩ Int32 := .recvThen sizeofInt fun f ↦ .done (unwireInt f)

theorem recvInt_eq : (recvInt : Prog ⟨Op, Res, Crash⟩ Int32) =
    Prog.recv sizeofInt >>= fun f ↦ .done (unwireInt f) := rfl

/-- `sock.send(buf, len);` where `buf` is what a `to_bytes` returned. -/
def sendBuffer (buf : Option Frame) (len : ℕ) : Prog ⟨Op, Res, Crash⟩ Unit :=
  match buf with
  | none => .raise .nullBuffer
  | some f =>
    match readAt f 0 len with
    | none => .raise (.memory .outOfBounds)
    | some bytes => .send bytes

section
variable {β : Type} {ins outs : List Frame} {calls : List (Sig.Call ⟨Op, Res, Crash⟩)}
  {q : Prog ⟨Op, Res, Crash⟩ β}

theorem runs_sendInt {x : Int32} {g : Unit → Prog ⟨Op, Res, Crash⟩ β}
    (h : (g ()).Runs ins calls outs q) : (sendInt x >>= g).Runs ins calls (wireInt x :: outs) q :=
  .send h

theorem runs_recvInt {x : Int32} {g : Int32 → Prog ⟨Op, Res, Crash⟩ β}
    (h : (g x).Runs ins calls outs q) : (recvInt >>= g).Runs (wireInt x :: ins) calls outs q := by
  rw [← unwireInt_wireInt x] at h
  exact .recv (length_wireInt x) h

end

/-- As much of a buffer is sent as is asked for. -/
theorem sendBuffer_append {f : Frame} {len : ℕ} (h : f.length = len) (rest : Frame) :
    (sendBuffer (some (f ++ rest)) len : Prog ⟨Op, Res, Crash⟩ Unit) = .send f := by
  have hread : readAt (f ++ rest) 0 len = some f := by
    have happend := readAt_append [] f rest
    rwa [List.nil_append, h] at happend
  rw [sendBuffer, hread]

/-- A whole buffer is sent as it is. -/
theorem sendBuffer_some {f : Frame} {len : ℕ} (h : f.length = len) :
    (sendBuffer (some f) len : Prog ⟨Op, Res, Crash⟩ Unit) = .send f := by
  have hsend : (sendBuffer (some (f ++ [])) len : Prog ⟨Op, Res, Crash⟩ Unit) = .send f :=
    sendBuffer_append h []
  rwa [List.append_nil] at hsend

/-- A buffer is left by a send that is longer. -/
theorem sendBuffer_short {f : Frame} {len : ℕ} (h : f.length < len) :
    (sendBuffer (some f) len : Prog ⟨Op, Res, Crash⟩ Unit) = .raise (.memory .outOfBounds) := by
  have hread : readAt f 0 len = none := by
    rw [readAt, if_neg (by omega)]
  rw [sendBuffer, hread]

/-! ## Automata -/

section
variable {α Φ : Type} {A : Prog.Automaton ⟨Op, Res, Crash⟩ Φ} {ph : Φ}

theorem follows_sendInt {fin : Φ → α → Prop} {x : Int32} {g : Unit → Prog ⟨Op, Res, Crash⟩ α}
    (hg : (g ()).Follows A fin ph) : (sendInt x >>= g).Follows A fin ph := hg

theorem follows_sendBuffer {fin : Φ → Unit → Prop} {buf : Option Frame} {len : ℕ}
    (hfin : fin ph ()) : (sendBuffer buf len : Prog ⟨Op, Res, Crash⟩ Unit).Follows A fin ph := by
  cases buf with
  | none => trivial
  | some f =>
    rw [sendBuffer.eq_2]
    split
    · trivial
    · exact hfin

/-- A send of a buffer is nothing to an automaton. -/
theorem follows_sendBuffer_bind {fin : Φ → α → Prop} {buf : Option Frame} {len : ℕ}
    {g : Unit → Prog ⟨Op, Res, Crash⟩ α} (hg : (g ()).Follows A fin ph) :
    (sendBuffer buf len >>= g).Follows A fin ph := by
  have hsend : (sendBuffer buf len : Prog ⟨Op, Res, Crash⟩ Unit).Follows A (fun ph' _ ↦ ph' = ph) ph :=
    follows_sendBuffer rfl
  exact hsend.bind fun ph' _ hph ↦ hph ▸ hg

theorem follows_recvInt {next : Φ → Op → Option Φ} {fin : Φ → α → Prop}
    {g : Int32 → Prog ⟨Op, Res, Crash⟩ α} (hg : ∀ x, (g x).Follows (.ofCalls next) fin ph) :
    (recvInt >>= g).Follows (.ofCalls next) fin ph :=
  ⟨trivial, fun f _ _ ↦ hg (unwireInt f)⟩

theorem follows_recvInt_cons {next : Φ → Op → Option Φ} {fin : List Frame × Φ → α → Prop}
    {f : Frame} {inbox : List Frame} {g : Int32 → Prog ⟨Op, Res, Crash⟩ α}
    (hlen : f.length = sizeofInt) (hg : (g (unwireInt f)).Follows (.ofInbox next) fin (inbox, ph)) :
    (recvInt >>= g).Follows (.ofInbox next) fin (f :: inbox, ph) :=
  Prog.follows_recv_cons hlen hg

end

end

end RfcNet
