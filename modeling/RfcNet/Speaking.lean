import RfcNet.Exchange
import RfcNet.Sizes

/-!
# No message is empty

The block that an encrypted socket gives to the MAC of a message has the size of the message, and for an empty one
there is none.  So it matters that neither the programs of the index nor those of the peers send an empty message:
an `int` has four bytes, an address is not empty (`Client.Sound`, or the argument of the requester), and a reply has
a code.

The last of these takes results of the index and of the directory whose replies have an `int` for a size (`Small`,
`ShortContent`), since the size of a larger one may be zero modulo `2 ^ 32`.
-/

set_option autoImplicit false

namespace RfcNet

open Lib

attribute [local irreducible] sizeT

/-- The program sends no empty message, as long as its calls return such results as `good`. -/
abbrev Speaks {S : Sig} {α : Type} (good : S.Call → Prop) (p : Prog S α) : Prop :=
  Sized good (0 < ·) (fun _ ↦ True) p

theorem usual_pos : Usual (0 < ·) fun _ ↦ True where
  int := by decide
  short := by decide
  asked _ _ := trivial

/-- **No frame is empty** in any state that two such programs reach, as far as their calls have returned good
results. -/
theorem full_of_speaks {S T : Sig} {P : Proc S} {E : Env S} {Q : Proc T} {F : Env T} {goodS : S.Call → Prop}
    {goodT : T.Call → Prop} {p : P.Code} {q : Q.Code} {s : E.State} {t : F.State} {c : Duet P E Q F}
    (hP : ∀ v, Speaks goodS (P.body v)) (hQ : ∀ v, Speaks goodT (Q.body v)) (hp : Speaks goodS p)
    (hq : Speaks goodT q) (hc : Reaches Duet.step ⟨⟨p, s, []⟩, ⟨q, t, []⟩, [], []⟩ c)
    (hgood : c.GoodSoFar goodS goodT) : c.InFlight (· ≠ []) :=
  (Duet.inFlight_of_says hP hQ ⟨hp, hq, List.forall_mem_nil _, List.forall_mem_nil _⟩ hc hgood).imp
    fun _ ↦ List.length_pos_iff.mp

theorem sizeT_pos {x : Int32} (h : x ≠ 0) : 0 < sizeT x := by
  have hx : x.toInt ≠ 0 := fun heq ↦ h (Int32.toInt_inj.mp heq)
  have hlt := x.toInt_lt
  have hle := x.le_toInt
  rw [sizeT]
  omega

/-- The size of a message, as an `int`. -/
theorem sizeT_toInt32_pos {x : UInt32} (h : 0 < x.toNat) : 0 < sizeT x.toInt32 := by
  refine sizeT_pos fun heq ↦ ?_
  have hx : x = 0 := by
    rw [← UInt32.toUInt32_toInt32 x, heq]
    rfl
  rw [hx] at h
  exact absurd h (by decide)

/-- The length of an address, as an `int`. -/
theorem sizeT_length_pos {f : Frame} (hne : f ≠ []) (hlt : f.length < 2 ^ 31) :
    0 < sizeT (Int32.ofNat f.length) := by
  rw [sizeT_ofNat hlt]
  exact List.length_pos_iff.mpr hne

/-! ## The session with the index -/

theorem speaks_commandLoop {good : clientSig.Call → Prop} (v : Unit) : Speaks good (commandLoop v) :=
  sized_commandLoop usual_pos v

/-- **The client says nothing empty**, if its address is not. -/
theorem speaks_clientStart {good : clientSig.Call → Prop} {address : StdString} (hne : address ≠ [])
    (hlt : address.length < 2 ^ 31) (port : Int32) (rfcs : List Int32) :
    Speaks good (clientStart address port rfcs) :=
  sized_clientStart usual_pos (sizeT_length_pos hne hlt) port rfcs

/-- A reply has a code. -/
theorem usualReplies_small : UsualReplies Small (0 < ·) where
  list l hl := by
    have hl : listSize l < 2 ^ 31 := hl
    refine sizeT_toInt32_pos ?_
    rw [listReply, ListRFCResponse.toNat_messageSize _ (by omega), listSize]
    omega
  lookup _ l hl := by
    have hl : lookupSize l < 2 ^ 31 := hl
    refine sizeT_toInt32_pos ?_
    rw [lookupReply, LookupRFCResponse.toNat_messageSize _ (by omega), lookupSize]
    omega

theorem speaks_messageLoop (s : Session) : Speaks Small (messageLoop s) :=
  sized_messageLoop usual_pos usualReplies_small s

/-- **The handler says nothing empty.** -/
theorem speaks_clientHandler : Speaks Small clientHandler := sized_clientHandler usual_pos

/-! ## The visit of a peer -/

/-- A file that has been read is so short that its reply has an `int` for a size. -/
def ShortContent : peerSig.Call → Prop
  | ⟨.getContent _, some content⟩ => 8 + content.length < 2 ^ 31
  | _ => True

/-- **The requester says nothing empty**, if its address is not. -/
theorem speaks_getFromPeer {myHost : StdString} (hne : myHost ≠ []) (hlt : myHost.length < 2 ^ 31)
    (myPort rfcNum : Int32) : Speaks ShortContent (getFromPeer myHost myPort rfcNum) :=
  sized_getFromPeer usual_pos (sizeT_length_pos hne hlt) myPort rfcNum

theorem messageSize_contentReply_pos {k : Int32} {content : Option StdString}
    (h : ShortContent ⟨.getContent k, content⟩) : 0 < (contentReply content).messageSize.toNat := by
  cases content with
  | none => exact show 0 < (8 : UInt32).toNat by decide
  | some content =>
    have hsize : 8 + content.length < 2 ^ 31 := h
    rw [contentReply, GetRFCResponse.toNat_messageSize _ (by omega)]
    omega

theorem speaks_peerLoop (message : Int32) : Speaks ShortContent (peerLoop message) :=
  sized_peerLoop usual_pos (fun _ _ h ↦ sizeT_toInt32_pos (messageSize_contentReply_pos h)) message

/-- **The handler for other peers says nothing empty.** -/
theorem speaks_handlePeer : Speaks ShortContent handlePeer := sized_handlePeer usual_pos

end RfcNet
