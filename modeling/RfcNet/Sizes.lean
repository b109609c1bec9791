import RfcNet.Client
import RfcNet.Lib.Layer
import RfcNet.Peer

/-!
# The sizes of the messages

The programs of the repository send and ask for the four bytes of an `int`, the two of a `short`, as much as the other
side has announced, and three things of their own: an address and the two kinds of replies.  This file goes through
the programs once, for any two predicates `sends` and `asks` that hold of the usual sizes (`Usual`), and says of which
others they have to hold as well.

It is used for two of them: `RfcNet/Counted.lean` says that a `size_t` counts all of these sizes, and
`RfcNet/Speaking.lean` says that nothing empty is sent.
-/

set_option autoImplicit false

namespace RfcNet

open Lib

attribute [local irreducible] sizeT

theorem sizeT_lt (x : Int32) : sizeT x < 2 ^ 64 := by
  have h := Int.emod_lt_of_pos x.toInt (show (0 : ℤ) < 2 ^ 64 by decide)
  have h' := Int.emod_nonneg x.toInt (show (2 ^ 64 : ℤ) ≠ 0 by decide)
  rw [sizeT]
  omega

/-- As much is read from a buffer as was asked for. -/
theorem length_of_readAt {buf bytes : Frame} {pos len : ℕ} (h : readAt buf pos len = some bytes) :
    bytes.length = len := by
  rw [readAt] at h
  split at h
  · rename_i hle
    obtain rfl := Option.some_inj.mp h
    rw [List.length_take, List.length_drop]
    omega
  · cases h

/-- The program sends only messages of such sizes as `sends` and asks only for such as `asks`, as long as its calls
return such results as `good`. -/
abbrev Sized {S : Sig} {α : Type} (good : S.Call → Prop) (sends asks : ℕ → Prop) (p : Prog S α) : Prop :=
  p.Says good (fun f ↦ sends f.length) asks

/-- The predicates hold of the sizes that occur in all of the programs. -/
structure Usual (sends asks : ℕ → Prop) : Prop where
  int : sends sizeofInt
  short : sends sizeofShort
  /-- What is asked for is a `size_t`. -/
  asked : ∀ n < 2 ^ 64, asks n

variable {sends asks : ℕ → Prop}

section
variable {Op : Type} {Res : Op → Type} {α : Type} {good : (⟨Op, Res, Crash⟩ : Sig).Call → Prop}

theorem sized_sendInt (hu : Usual sends asks) (x : Int32) :
    Sized good sends asks (sendInt x : Prog ⟨Op, Res, Crash⟩ Unit) := by
  refine ⟨show sends (intBytes (htonl x)).length from ?_, trivial⟩
  rw [length_intBytes]
  exact hu.int

theorem sized_recv (hu : Usual sends asks) {n : ℕ} (hn : n < 2 ^ 64) :
    Sized good sends asks (Prog.recv n : Prog ⟨Op, Res, Crash⟩ Frame) :=
  ⟨hu.asked n hn, fun _ ↦ trivial⟩

theorem sized_recvInt (hu : Usual sends asks) :
    Sized good sends asks (recvInt : Prog ⟨Op, Res, Crash⟩ Int32) :=
  ⟨hu.asked _ (show sizeofInt < 2 ^ 64 by decide), fun _ ↦ trivial⟩

theorem sized_sendBuffer {buf : Option Frame} {len : ℕ} (hlen : sends len) :
    Sized good sends asks (sendBuffer buf len : Prog ⟨Op, Res, Crash⟩ Unit) := by
  cases buf with
  | none => trivial
  | some f =>
    rw [sendBuffer.eq_2]
    split
    · trivial
    · rename_i bytes hread
      refine ⟨show sends bytes.length from ?_, trivial⟩
      rw [length_of_readAt hread]
      exact hlen

theorem sized_ofExcept {ε : Type} (err : ε → Crash) (x : Except ε α) :
    Sized good sends asks (Prog.ofExcept err x : Prog ⟨Op, Res, Crash⟩ α) := by
  cases x <;> trivial

theorem sized_call (op : Op) : Sized good sends asks (Prog.call op : Prog ⟨Op, Res, Crash⟩ _) :=
  fun _ _ ↦ trivial

/-- An address and its port, as both kinds of clients send them. -/
theorem sized_address (hu : Usual sends asks) {address : StdString}
    (haddress : sends (sizeT (Int32.ofNat address.length))) (port : Int32) :
    Sized good sends asks (do
      sendInt (Int32.ofNat address.length)
      sendBuffer (some (address ++ [0])) (sizeT (ntohl (htonl (Int32.ofNat address.length))))
      sendInt port : Prog ⟨Op, Res, Crash⟩ Unit) := by
  rw [ntohl_htonl]
  exact (sized_sendInt hu _).bind fun _ ↦ (sized_sendBuffer haddress).bind fun _ ↦ sized_sendInt hu _

end

/-- A program that never loops. -/
theorem sized_once {S : Sig} {α : Type} {good : S.Call → Prop} {p : Prog S α} (h : Sized good sends asks p) :
    Sized good sends asks p.once := h.bind fun _ ↦ trivial

/-! ## The client -/

section
variable {good : clientSig.Call → Prop}

theorem sized_askAdd (hu : Usual sends asks) (n : Int32) : Sized good sends asks (askAdd n) :=
  (sized_sendInt hu _).bind fun _ ↦ (sized_call _).bind fun _ ↦
    (sized_ofExcept _ _).bind fun _ ↦ sized_sendBuffer hu.int

theorem sized_awaitAdd (hu : Usual sends asks) (n : Int32) : Sized good sends asks (awaitAdd n) :=
  (sized_recv hu (by decide)).bind fun _ ↦ (sized_ofExcept _ _).bind fun _ ↦
    (sized_call _).bind fun _ ↦ trivial

theorem sized_receiveReply (hu : Usual sends asks) : Sized good sends asks receiveReply := by
  refine (sized_recvInt hu).bind fun tmp ↦ ?_
  split
  · trivial
  · exact sized_recv hu (sizeT_lt _)

theorem sized_listRfcsRemote (hu : Usual sends asks) : Sized good sends asks listRfcsRemote := by
  have hawait : Sized good sends asks awaitList :=
    (sized_receiveReply hu).bind fun _ ↦ (sized_ofExcept _ _).bind fun _ ↦ (sized_call _).bind fun _ ↦ trivial
  exact (sized_sendInt hu _).bind fun _ ↦ hawait.bind fun _ ↦ trivial

theorem sized_askLookup (hu : Usual sends asks) (n : Int32) : Sized good sends asks (askLookup n) :=
  (sized_sendInt hu _).bind fun _ ↦ (sized_call _).bind fun _ ↦
    (sized_ofExcept _ _).bind fun _ ↦ sized_sendBuffer hu.int

theorem sized_awaitLookup (hu : Usual sends asks) (n : Int32) : Sized good sends asks (awaitLookup n) :=
  (sized_receiveReply hu).bind fun _ ↦ (sized_ofExcept _ _).bind fun _ ↦ (sized_call _).bind fun _ ↦ trivial

theorem sized_addAvailableRfcs (hu : Usual sends asks) (rfcs : List Int32) :
    Sized good sends asks (addAvailableRfcs rfcs) := by
  induction rfcs with
  | nil => trivial
  | cons n rfcs ih =>
    refine (sized_askAdd hu n).bind fun _ ↦ (sized_awaitAdd hu n).bind fun res ↦ ?_
    split
    · trivial
    · exact ih

theorem sized_getRfc (hu : Usual sends asks) (n : Int32) : Sized good sends asks (getRfc n) := by
  rw [getRfc]
  split
  · trivial
  · refine (sized_call _).bind fun stored ↦ ?_
    split
    · trivial
    · refine (sized_askLookup hu n).bind fun _ ↦ (sized_awaitLookup hu n).bind fun res ↦ ?_
      split
      · trivial
      · split
        · trivial
        · refine (sized_call _).bind fun got ↦ ?_
          split
          · trivial
          · exact (sized_askAdd hu n).bind fun _ ↦ (sized_awaitAdd hu n).bind fun _ ↦ trivial

theorem sized_commandLoop (hu : Usual sends asks) (v : Unit) : Sized good sends asks (commandLoop v) := by
  refine (sized_call _).bind fun input ↦ ?_
  cases input with
  | get n => exact (sized_getRfc hu n).bind fun _ ↦ trivial
  | list => exact (sized_listRfcsRemote hu).bind fun _ ↦ trivial
  | other => trivial
  | quit => exact ((sized_sendInt hu _).bind fun _ ↦ sized_call _).bind fun _ ↦ trivial

theorem sized_clientStart (hu : Usual sends asks) {address : StdString}
    (haddress : sends (sizeT (Int32.ofNat address.length))) (port : Int32) (rfcs : List Int32) :
    Sized good sends asks (clientStart address port rfcs) := by
  have hhello : Sized good sends asks (sendHello address port) := sized_address hu haddress port
  refine (sized_sendInt hu _).bind fun _ ↦ (sized_recvInt hu).bind fun version ↦ ?_
  split
  · trivial
  · exact hhello.bind fun _ ↦ (sized_addAvailableRfcs hu rfcs).bind fun _ ↦ trivial

end

/-! ## The handler of the index -/

section
variable {good : serverSig.Call → Prop}

theorem sized_sendReply (hu : Usual sends asks) (buf : Option Frame) {messageSize : UInt32}
    (hsize : sends (sizeT messageSize.toInt32)) : Sized good sends asks (sendReply buf messageSize) := by
  refine (sized_sendInt hu _).bind fun _ ↦ sized_sendBuffer ?_
  rw [ntohl_htonl]
  exact hsize

/-- `sends` holds of the sizes of the replies, as far as the results of the index are `good`. -/
structure UsualReplies (good : serverSig.Call → Prop) (sends : ℕ → Prop) : Prop where
  list : ∀ l, good ⟨.index .allRfcs, l⟩ → sends (sizeT (listReply l).messageSize.toInt32)
  lookup : ∀ n l, good ⟨.index (.findRfcs n), l⟩ → sends (sizeT (lookupReply l).messageSize.toInt32)

theorem sized_handleMessage (hu : Usual sends asks) (hreplies : UsualReplies good sends) (host : StdString)
    (uploadPort message : Int32) : Sized good sends asks (handleMessage host uploadPort message) := by
  have hadd : Sized good sends asks (addRfc host uploadPort) :=
    (sized_recv hu (by decide)).bind fun _ ↦ (sized_ofExcept _ _).bind fun _ ↦ (sized_call _).bind fun _ ↦
      (sized_call _).bind fun _ ↦ (sized_ofExcept _ _).bind fun _ ↦ sized_sendBuffer hu.int
  have hlist : Sized good sends asks listRfcs := fun l hl ↦
    (sized_call _).bind fun _ ↦ (sized_ofExcept _ _).bind fun _ ↦ sized_sendReply hu _ (hreplies.list l hl)
  have hlookup : Sized good sends asks lookupRfc :=
    (sized_recv hu (by decide)).bind fun _ ↦ (sized_ofExcept _ _).bind fun _ l hl ↦
      (sized_call _).bind fun _ ↦ (sized_ofExcept _ _).bind fun _ ↦
        sized_sendReply hu _ (hreplies.lookup _ l hl)
  rw [handleMessage]
  split
  · exact hadd
  · exact hlist
  · exact hlookup
  · trivial

theorem sized_messageLoop (hu : Usual sends asks) (hreplies : UsualReplies good sends) (s : Session) :
    Sized good sends asks (messageLoop s) := by
  refine (sized_recvInt hu).bind fun message ↦ (sized_handleMessage hu hreplies _ _ _).bind fun _ ↦ ?_
  split
  · trivial
  · exact fun _ _ _ _ _ _ ↦ trivial

theorem sized_clientHandler (hu : Usual sends asks) : Sized good sends asks clientHandler := by
  have hhello : Sized good sends asks receiveHello := by
    refine (sized_recvInt hu).bind fun hostLen ↦ ?_
    split
    · trivial
    · exact (sized_recv hu (sizeT_lt _)).bind fun _ ↦ (sized_recvInt hu).bind fun _ ↦
        (sized_call _).bind fun _ ↦ (sized_call _).bind fun _ ↦ trivial
  refine (sized_sendInt hu _).bind fun _ ↦ (sized_recvInt hu).bind fun version ↦ ?_
  split
  · trivial
  · exact hhello.bind fun _ ↦ trivial

end

/-! ## The visit of a peer -/

section
variable {good : peerSig.Call → Prop}

theorem sized_getFromPeer (hu : Usual sends asks) {myHost : StdString}
    (haddress : sends (sizeT (Int32.ofNat myHost.length))) (myPort rfcNum : Int32) :
    Sized good sends asks (getFromPeer myHost myPort rfcNum) := by
  have hhello : Sized good sends asks (sendAddress myHost myPort) := sized_address hu haddress myPort
  have hask : Sized good sends asks (askGet rfcNum) :=
    (sized_sendInt hu _).bind fun _ ↦ (sized_call _).bind fun _ ↦ (sized_ofExcept _ _).bind fun _ ↦
      sized_sendBuffer hu.short
  have hawait : Sized good sends asks awaitGet := by
    refine (sized_recvInt hu).bind fun size ↦ ?_
    split
    · trivial
    · exact (sized_recv hu (sizeT_lt _)).bind fun _ ↦ sized_ofExcept _ _
  refine hhello.bind fun _ ↦ hask.bind fun _ ↦ hawait.bind fun res ↦ ?_
  rw [storeReply]
  split
  · exact fun _ _ ↦ trivial
  · exact (sized_call _).bind fun _ ↦ (sized_sendInt hu _).bind fun _ ↦ (sized_call _).bind fun _ ↦ trivial

theorem sized_peerLoop (hu : Usual sends asks)
    (hreply : ∀ k content, good ⟨.getContent k, content⟩ → sends (sizeT (contentReply content).messageSize.toInt32))
    (message : Int32) : Sized good sends asks (peerLoop message) := by
  have hserve : Sized good sends asks serveGet := by
    refine (sized_recv hu (by decide)).bind fun _ ↦ (sized_ofExcept _ _).bind fun _ content hcontent ↦
      (sized_call _).bind fun _ ↦ (sized_ofExcept _ _).bind fun _ ↦ (sized_sendInt hu _).bind fun _ ↦
        sized_sendBuffer ?_
    rw [ntohl_htonl]
    exact hreply _ content hcontent
  have hhandle : ∀ message, Sized good sends asks (handlePeerMessage message) := by
    intro message
    rw [handlePeerMessage]
    split
    · exact hserve
    · trivial
  refine (sized_recvInt hu).bind fun message ↦ (hhandle message).bind fun _ ↦ ?_
  split <;> trivial

theorem sized_handlePeer (hu : Usual sends asks) : Sized good sends asks handlePeer := by
  have hhello : Sized good sends asks receivePeerHello := by
    refine (sized_recvInt hu).bind fun hostLen ↦ ?_
    split
    · trivial
    · exact (sized_recv hu (sizeT_lt _)).bind fun _ ↦ (sized_recvInt hu).bind fun _ ↦
        (sized_call _).bind fun _ ↦ trivial
  exact hhello.bind fun _ ↦ trivial

end

end RfcNet
