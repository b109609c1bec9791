import RfcNet.Client
import RfcNet.Serving

/-!
# What making one request amounts to

Each part of the client as one execution: what a request sends, and what the reply to it is taken
for.  These are the counterparts of the lemmas of `Serving`, frame for frame.
-/

set_option autoImplicit false

namespace RfcNet

open Lib

section
variable {α : Type} {ins outs : List Frame} {calls : List clientSig.Call} {q : Prog clientSig α}

theorem runs_ask {op : ClientOp} {r : op.Res} {g : op.Res → Prog clientSig α}
    (h : (g r).Runs ins calls outs q) : (ask op >>= g).Runs ins (⟨op, r⟩ :: calls) outs q :=
  .call h

end

/-! ## Requests -/

/-- ADD. -/
theorem exec_askAdd {n : Int32} (hn : 0 < n) (heap : ℕ → UInt8) :
    (askAdd n).Exec [] [⟨.newBytes sizeofInt, heap⟩] [wireInt P2SMessage.add.toInt, wireInt n]
      () := by
  have hvalid : (AddRFCMessage.mk n).isValid = true := decide_eq_true hn
  simp only [askAdd]
  refine runs_sendInt (runs_ask ?_)
  rw [AddRFCMessage.toBytes, hvalid, encodeInt_true]
  simp only [Prog.ofExcept_ok, Prog.done_bind]
  rw [sendBuffer_some (show _ = (AddRFCMessage.mk n).messageSize from length_wireInt _)]
  exact .send (.refl _)

/-- LIST. -/
theorem exec_askList : askList.Exec [] [] [wireInt P2SMessage.list.toInt] () := .send (.refl _)

/-- LOOKUP. -/
theorem exec_askLookup {n : Int32} (hn : 0 < n) (heap : ℕ → UInt8) :
    (askLookup n).Exec [] [⟨.newBytes sizeofInt, heap⟩]
      [wireInt P2SMessage.lookup.toInt, wireInt n] () := by
  have hvalid : (LookupRFCMessage.mk n).isValid = true := decide_eq_true hn
  simp only [askLookup]
  refine runs_sendInt (runs_ask ?_)
  rw [LookupRFCMessage.toBytes, hvalid, encodeInt_true]
  simp only [Prog.ofExcept_ok, Prog.done_bind]
  rw [sendBuffer_some (show _ = (LookupRFCMessage.mk n).messageSize from length_wireInt _)]
  exact .send (.refl _)

/-! ## Replies -/

/-- The reply to ADD. -/
theorem exec_awaitAdd (n : Int32) (res : AddRFCResponse) :
    (awaitAdd n).Exec [wireInt res.code] [⟨.decoded (.add n) (.added res), ()⟩] [] res := by
  rw [awaitAdd]
  refine .recv_bind (length_wireInt _) ?_
  rw [AddRFCResponse.fromBytes, decodeInt_wireInt]
  exact runs_ask (.refl _)

/-- A reply with its size before it. -/
theorem exec_receiveReply {f : Frame} (hsize : f.length < 2 ^ 31) :
    receiveReply.Exec [wireInt (Int32.ofNat f.length), f] [] [] f := by
  rw [receiveReply]
  refine runs_recvInt ?_
  rw [if_neg (ofNat_not_neg hsize)]
  exact .recv (sizeT_ofNat hsize).symm (.refl _)

/-- The reply to LIST. -/
theorem exec_awaitList {f : Frame} {res : ListRFCResponse} (hsize : f.length < 2 ^ 31)
    (hres : ListRFCResponse.fromBytes {} f = .ok res) :
    awaitList.Exec [wireInt (Int32.ofNat f.length), f] [⟨.decoded .list (.listed res), ()⟩] []
      res := by
  rw [awaitList]
  refine (exec_receiveReply hsize).bind ?_
  rw [hres]
  exact runs_ask (.refl _)

/-- The reply to LOOKUP. -/
theorem exec_awaitLookup {f : Frame} {res : LookupRFCResponse} (n : Int32)
    (hsize : f.length < 2 ^ 31) (hres : LookupRFCResponse.fromBytes {} f = .ok res) :
    (awaitLookup n).Exec [wireInt (Int32.ofNat f.length), f]
      [⟨.decoded (.lookup n) (.lookedUp res), ()⟩] [] res := by
  rw [awaitLookup]
  refine (exec_receiveReply hsize).bind ?_
  rw [hres]
  exact runs_ask (.refl _)

/-! ## The hello -/

theorem exec_sendHello {address : StdString} (haddress : address.length < 2 ^ 31) (port : Int32) :
    (sendHello address port).Exec [] []
      [wireInt (Int32.ofNat address.length), address, wireInt port] () := by
  simp only [sendHello, ntohl_htonl]
  refine runs_sendInt ?_
  rw [sizeT_ofNat haddress, sendBuffer_append rfl]
  exact .send (.send (.refl _))

/-- The exchange of versions and the hello, and then the loop after whatever is added first. -/
theorem runs_clientStart {address : StdString} (haddress : address.length < 2 ^ 31) (port : Int32)
    (rfcs : List Int32) :
    (clientStart address port rfcs).Runs [wireInt protocolVersion] []
      [wireInt protocolVersion, wireInt (Int32.ofNat address.length), address, wireInt port]
      (addAvailableRfcs rfcs >>= fun _ ↦ .done (.inl ())) := by
  rw [clientStart]
  refine runs_sendInt (runs_recvInt ?_)
  rw [ntohl_htonl, if_neg (not_not.mpr rfl)]
  exact Prog.Runs.bind (exec_sendHello haddress port) _

end RfcNet
