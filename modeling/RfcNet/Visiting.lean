import RfcNet.Lib.Exec
import RfcNet.Peer

/-!
# What one exchange between peers amounts to

Each part of `get_from_peer` and of the handler as one execution.  The handler has four ways to answer
a GET, by what it reads from its directory: the content, a 404 if there is no file, a null pointer if
the file is empty, and a fault if the size of the response is no `int`.
-/

set_option autoImplicit false

namespace RfcNet

open Lib

section
variable {α : Type} {ins outs : List Frame} {calls : List peerSig.Call} {q : Prog peerSig α}

theorem runs_request {op : PeerOp} {r : op.Res} {g : op.Res → Prog peerSig α}
    (h : (g r).Runs ins calls outs q) : (request op >>= g).Runs ins (⟨op, r⟩ :: calls) outs q :=
  .call h

end

theorem follows_request {α Φ : Type} {next : Φ → PeerOp → Option Φ} {fin : Φ → α → Prop} {ph ph' : Φ}
    {op : PeerOp} {g : op.Res → Prog peerSig α} (hnext : next ph op = some ph')
    (hg : ∀ r, (g r).Follows (.ofCalls next) fin ph') :
    (request op >>= g).Follows (.ofCalls next) fin ph :=
  ⟨ph', hnext, hg⟩

/-! ## The requester -/

theorem exec_sendAddress {myHost : StdString} (hhost : myHost.length < 2 ^ 31) (myPort : Int32) :
    (sendAddress myHost myPort).Exec [] []
      [wireInt (Int32.ofNat myHost.length), myHost, wireInt myPort] () := by
  simp only [sendAddress, ntohl_htonl]
  refine runs_sendInt ?_
  rw [sizeT_ofNat hhost, sendBuffer_append rfl]
  exact .send (.send (.refl _))

/-- GET, for a number that is positive as a `short`. -/
theorem exec_askGet {n : Int32} (hn : 0 < n.toInt16) (heap : ℕ → UInt8) :
    (askGet n).Exec [] [⟨.newBytes sizeofShort, heap⟩]
      [wireInt P2PMessage.get.toInt, wireShort n.toInt16] () := by
  simp only [askGet]
  refine runs_sendInt (runs_request ?_)
  rw [GetRFCMessage.toBytes_of_pos hn]
  simp only [Prog.ofExcept_ok, Prog.done_bind]
  rw [sendBuffer_some (show _ = (GetRFCMessage.mk n.toInt16).messageSize from length_wireShort _)]
  exact .send (.refl _)

/-- GET, for any other number: the command is sent, and then a null pointer is handed to `send`. -/
theorem runs_askGet_null {n : Int32} (hn : ¬ 0 < n.toInt16) (heap : ℕ → UInt8) :
    (askGet n).Runs [] [⟨.newBytes sizeofShort, heap⟩] [wireInt P2PMessage.get.toInt]
      (.raise .nullBuffer) := by
  simp only [askGet]
  refine runs_sendInt (runs_request ?_)
  rw [GetRFCMessage.toBytes_of_not_pos hn]
  exact .refl _

/-- The reply to GET. -/
theorem exec_awaitGet {f : Frame} {res : GetRFCResponse} (hsize : f.length < 2 ^ 31)
    (hres : GetRFCResponse.fromBytes {} f = .ok res) :
    awaitGet.Exec [wireInt (Int32.ofNat f.length), f] [] [] res := by
  rw [awaitGet]
  refine runs_recvInt ?_
  rw [if_neg (ofNat_not_neg hsize)]
  refine .recv_bind (sizeT_ofNat hsize).symm ?_
  rw [hres]
  exact .refl _

theorem exec_storeReply_404 (n : Int32) (content : StdString) :
    (storeReply n ⟨404, content⟩).Exec [] [⟨.disconnect, ()⟩] [] false := by
  rw [storeReply, if_pos rfl]
  exact runs_request (.refl _)

/-- A reply under another code is stored, and the other side is told. -/
theorem exec_storeReply {code : Int32} (hcode : code ≠ 404) (n : Int32) (content : StdString)
    (added : Bool) :
    (storeReply n ⟨code, content⟩).Exec [] [⟨.addRfc n content, added⟩, ⟨.disconnect, ()⟩]
      [wireInt P2PMessage.disconnect.toInt] true := by
  rw [storeReply, if_neg hcode]
  exact runs_request (runs_sendInt (runs_request (.refl _)))

/-- The requester up to the reply. -/
theorem runs_getFromPeer {myHost : StdString} (hhost : myHost.length < 2 ^ 31) (myPort : Int32)
    {n : Int32} (hn : 0 < n.toInt16) (heap : ℕ → UInt8) :
    (getFromPeer myHost myPort n).Runs [] [⟨.newBytes sizeofShort, heap⟩]
      ([wireInt (Int32.ofNat myHost.length), myHost, wireInt myPort] ++
        [wireInt P2PMessage.get.toInt, wireShort n.toInt16])
      (awaitGet >>= storeReply n) := by
  rw [getFromPeer]
  exact (Prog.Runs.bind (exec_sendAddress hhost myPort) _).trans (Prog.Runs.bind (exec_askGet hn heap) _)

/-- A number that is not positive as a `short`. -/
theorem runs_getFromPeer_null {myHost : StdString} (hhost : myHost.length < 2 ^ 31) (myPort : Int32)
    {n : Int32} (hn : ¬ 0 < n.toInt16) (heap : ℕ → UInt8) :
    (getFromPeer myHost myPort n).Runs [] [⟨.newBytes sizeofShort, heap⟩]
      ([wireInt (Int32.ofNat myHost.length), myHost, wireInt myPort] ++
        [wireInt P2PMessage.get.toInt])
      (.raise .nullBuffer) := by
  rw [getFromPeer]
  exact (Prog.Runs.bind (exec_sendAddress hhost myPort) _).trans ((runs_askGet_null hn heap).bind _)

/-! ## The handler -/

theorem exec_receivePeerHello {host : Frame} (hhost : host.length < 2 ^ 31) (port : Int32)
    (memory : ℕ → UInt8) :
    receivePeerHello.Exec [wireInt (Int32.ofNat host.length), host, wireInt port]
      [⟨.newBytes sizeofInt, memory⟩] [] (intOfBytes (newBytes memory sizeofInt)) := by
  rw [receivePeerHello]
  refine runs_recvInt ?_
  rw [if_neg (ofNat_not_neg hhost)]
  exact .recv_bind (sizeT_ofNat hhost).symm (runs_recvInt (runs_request (.refl _)))

/-- The handler up to the command GET. -/
theorem runs_peerLoop_get (message : Int32) :
    (peerLoop message).Runs [wireInt P2PMessage.get.toInt] [] []
      (serveGet >>= fun _ ↦ .done (.inl P2PMessage.get.toInt)) := by
  rw [peerLoop]
  exact runs_recvInt (.refl _)

/-- The end of the loop. -/
theorem exec_peerLoop_disconnect (message : Int32) :
    (peerLoop message).Exec [wireInt P2PMessage.disconnect.toInt] [] [] (.inr true) := by
  rw [peerLoop]
  exact runs_recvInt (.refl _)

/-- The number of a GET is taken for an `int`, and its content is read. -/
theorem runs_serveGet (number : Int16) (content : Option StdString) :
    serveGet.Runs [wireShort number] [⟨.getContent number.toInt32, content⟩] []
      (respond content) := by
  rw [serveGet]
  refine .recv_bind (length_wireShort _) ?_
  rw [GetRFCMessage.fromBytes_wireShort]
  exact runs_request (.refl _)

/-- The answer with a content. -/
theorem exec_respond_some {content : StdString} (hne : content ≠ [])
    (hsize : 8 + content.length < 2 ^ 31) (heap : ℕ → UInt8) :
    (respond (some content)).Exec []
      [⟨.newBytes (contentReply (some content)).messageSize.toNat, heap⟩]
      [wireInt (Int32.ofNat (contentBytes content).length), contentBytes content] () := by
  have hint : (GetRFCResponse.mk 200 content).messageSize.toInt32 =
      Int32.ofNat (contentBytes content).length := by
    rw [length_contentBytes]
    rfl
  simp only [respond, contentReply]
  refine runs_request ?_
  rw [GetRFCResponse.toBytes_200 hne (by omega)]
  simp only [Prog.ofExcept_ok, Prog.done_bind, hint, ntohl_htonl]
  refine runs_sendInt ?_
  rw [sizeT_ofNat (by rw [length_contentBytes]; exact hsize), sendBuffer_some rfl]
  exact .send (.refl _)

/-- The answer without one. -/
theorem exec_respond_none (heap : ℕ → UInt8) :
    (respond none).Exec [] [⟨.newBytes 8, heap⟩]
      [wireInt 8, wireInt 404 ++ (newBytes heap 8).drop 4] () := by
  simp only [respond, contentReply]
  refine runs_request ?_
  rw [GetRFCResponse.toBytes_404]
  simp only [Prog.ofExcept_ok, Prog.done_bind, ntohl_htonl]
  refine runs_sendInt ?_
  rw [sendBuffer_some (by simp; decide)]
  exact .send (.refl _)

/-- The answer for an empty file: its size, and then a null pointer is handed to `send`. -/
theorem runs_respond_nil (heap : ℕ → UInt8) :
    (respond (some [])).Runs [] [⟨.newBytes 8, heap⟩] [wireInt 8] (.raise .nullBuffer) := by
  simp only [respond, contentReply]
  refine runs_request ?_
  rw [GetRFCResponse.toBytes_nil]
  exact runs_sendInt (.refl _)

/-- An `unsigned int` that is no `int` becomes a negative one. -/
theorem toInt32_neg {n : ℕ} (h : 2 ^ 31 ≤ n) (hlt : n < 2 ^ 32) :
    (UInt32.ofNat n).toInt32 < 0 := by
  have hn : (UInt32.ofNat n).toInt32.toInt = (BitVec.ofNat 32 n).toInt := rfl
  have hzero : (0 : Int32).toInt = 0 := rfl
  rw [Int32.lt_iff_toInt_lt, hn, BitVec.toInt_eq_toNat_cond, BitVec.toNat_ofNat, hzero]
  split <;> omega

/-- The answer for a file that is too large: the buffer is left by a copy, either as it is filled or
as it is sent. -/
theorem runs_respond_large {content : StdString} (hsize : 2 ^ 31 ≤ 8 + content.length)
    (heap : ℕ → UInt8) : ∃ outs e, (respond (some content)).Runs []
      [⟨.newBytes (contentReply (some content)).messageSize.toNat, heap⟩] outs (.raise e) := by
  have hne : content ≠ [] := by
    rintro rfl
    simp at hsize
  simp only [respond, contentReply]
  rcases Nat.lt_or_ge (8 + content.length) (2 ^ 32) with hlt | hge
  · have hneg := toInt32_neg (show 2 ^ 31 ≤ 4 + 4 + content.length by omega) (by omega)
    have hshort : (contentBytes content).length <
        sizeT (GetRFCResponse.mk 200 content).messageSize.toInt32 := by
      rw [length_contentBytes]
      exact hlt.trans (lt_sizeT_of_neg hneg)
    refine ⟨[wireInt (GetRFCResponse.mk 200 content).messageSize.toInt32], .memory .outOfBounds,
      runs_request ?_⟩
    rw [GetRFCResponse.toBytes_200 hne hlt]
    simp only [Prog.ofExcept_ok, Prog.done_bind, ntohl_htonl]
    refine runs_sendInt ?_
    rw [sendBuffer_short hshort]
    exact .refl _
  · obtain ⟨e, he⟩ := GetRFCResponse.toBytes_of_large hge heap
    refine ⟨[], .memory e, runs_request ?_⟩
    rw [he]
    exact .refl _

end RfcNet
