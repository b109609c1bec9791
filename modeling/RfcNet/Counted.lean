import RfcNet.Crypto.Handshake
import RfcNet.Sizes

/-!
# Sizes that can be counted

A `size_t` has 64 bits, and an `int` that is handed over as one is one of its values.  So whatever a program
sends or asks for at a time is a number of bytes below `2 ^ 64`, also where the `int` was negative and the buffer
does not exist.  This is what the loops of the socket functions rely on.
-/

set_option autoImplicit false

namespace RfcNet

open Lib

attribute [local irreducible] sizeT

/-- The program sends and asks for no more at a time than a `size_t` can count. -/
abbrev Counted {S : Sig} {α : Type} (p : Prog S α) : Prop := p.Within (2 ^ 64)

theorem usual_counted : Usual (· < 2 ^ 64) (· < 2 ^ 64) where
  int := by decide
  short := by decide
  asked _ hn := hn

theorem counted_of_sized {S : Sig} {α : Type} {p : Prog S α}
    (h : Sized (fun _ ↦ True) (· < 2 ^ 64) (· < 2 ^ 64) p) : Counted p := h.within

section
variable {Op : Type} {Res : Op → Type}

theorem counted_sendInt (x : Int32) : Counted (sendInt x : Prog ⟨Op, Res, Crash⟩ Unit) :=
  counted_of_sized (sized_sendInt usual_counted x)

theorem counted_recvInt : Counted (recvInt : Prog ⟨Op, Res, Crash⟩ Int32) :=
  counted_of_sized (sized_recvInt usual_counted)

theorem counted_recv {n : ℕ} (hn : n < 2 ^ 64) : Counted (Prog.recv n : Prog ⟨Op, Res, Crash⟩ Frame) :=
  counted_of_sized (sized_recv usual_counted hn)

theorem counted_sendBuffer {buf : Option Frame} {len : ℕ} (hlen : len < 2 ^ 64) :
    Counted (sendBuffer buf len : Prog ⟨Op, Res, Crash⟩ Unit) :=
  counted_of_sized (sized_sendBuffer hlen)

theorem counted_call (op : Op) : Counted (Prog.call op : Prog ⟨Op, Res, Crash⟩ _) := fun _ ↦ trivial

end

/-- A program that never loops. -/
theorem counted_once {S : Sig} {α : Type} {p : Prog S α} (h : Counted p) : Counted p.once :=
  h.bind fun _ ↦ trivial

/-! ## The programs -/

theorem counted_commandLoop (v : Unit) : Counted (commandLoop v) :=
  counted_of_sized (sized_commandLoop usual_counted v)

theorem counted_clientStart (address : StdString) (port : Int32) (rfcs : List Int32) :
    Counted (clientStart address port rfcs) :=
  counted_of_sized (sized_clientStart usual_counted (sizeT_lt _) port rfcs)

theorem counted_messageLoop (s : Session) : Counted (messageLoop s) :=
  counted_of_sized (sized_messageLoop usual_counted ⟨fun _ _ ↦ sizeT_lt _, fun _ _ _ ↦ sizeT_lt _⟩ s)

theorem counted_clientHandler : Counted clientHandler :=
  counted_of_sized (sized_clientHandler usual_counted)

theorem counted_getFromPeer (myHost : StdString) (myPort rfcNum : Int32) :
    Counted (getFromPeer myHost myPort rfcNum) :=
  counted_of_sized (sized_getFromPeer usual_counted (sizeT_lt _) myPort rfcNum)

theorem counted_peerLoop (message : Int32) : Counted (peerLoop message) :=
  counted_of_sized (sized_peerLoop usual_counted (fun _ _ _ ↦ sizeT_lt _) message)

theorem counted_handlePeer : Counted handlePeer := counted_of_sized (sized_handlePeer usual_counted)

/-! ## The handshake -/

namespace Crypto

theorem counted_send (s : Stream) {data : Frame} (hdata : data.length < 2 ^ 64) : Counted (send s data) :=
  (counted_call _).bind fun _ ↦ (counted_sendBuffer hdata).bind fun _ ↦ counted_sendBuffer (by decide)

theorem counted_handshake (genIv : Bool) : Counted (handshake genIv) := by
  have hoffer : Counted offerKey :=
    (counted_call _).bind fun _ ↦ ((counted_sendInt _).bind fun _ ↦
      counted_sendBuffer (sizeT_lt _)).bind fun _ ↦ trivial
  have hreceive : Counted receivePublicKey := by
    refine counted_recvInt.bind fun size ↦ ?_
    split
    · trivial
    · exact counted_recv (sizeT_lt _)
  have hexchange : Counted (exchangeIv genIv) := by
    cases genIv with
    | false => exact counted_recv (by decide)
    | true => exact (counted_call _).bind fun _ ↦ (counted_sendBuffer (by decide)).bind fun _ ↦ trivial
  have hestablish : ∀ priv pub, Counted (establish genIv priv pub) := by
    refine fun priv pub ↦ (counted_call _).bind fun shared ↦ ?_
    cases shared with
    | none => trivial
    | some shared => exact (counted_call _).bind fun _ ↦ hexchange.bind fun _ ↦ trivial
  have hconfirm : ∀ s, Counted (receiveConfirmation s) := by
    refine fun s ↦ (counted_recv (by decide)).bind fun _ ↦ (counted_recv (by decide)).bind fun _ ↦
      (counted_call _).bind fun opened ↦ ?_
    dsimp only
    split
    · trivial
    · split <;> trivial
  refine hoffer.bind fun pair ↦ Prog.Within.bind ?_ fun s ↦ (hconfirm s).bind fun _ ↦ trivial
  exact hreceive.bind fun _ ↦ (hestablish _ _).bind fun s ↦
    (counted_send s (by decide)).bind fun _ ↦ trivial

end Crypto

end RfcNet
