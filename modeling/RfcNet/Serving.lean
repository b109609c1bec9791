import RfcNet.Lib.Exec
import RfcNet.Server

/-!
# What serving one request amounts to

Each function of the server as one execution: what it receives, which calls it makes, and what it
sends.  For the two list requests this rests on the reply surviving the trip: `listReply_roundTrip`
and `lookupReply_roundTrip` say, for an empty list as for any other, that the buffer has the size
that is announced and that decoding it gives back the reply.
-/

set_option autoImplicit false

namespace RfcNet

open Lib

/-- A client that may appear in a reply and comes through it unchanged. -/
structure Client.Sound (c : Client) : Prop extends c.Listable where
  /-- No NUL in the host. -/
  noNul : (0 : UInt8) ∉ c.host

instance (c : Client) : Decidable c.Sound :=
  decidable_of_iff (c.Listable ∧ (0 : UInt8) ∉ c.host) ⟨fun h ↦ ⟨h.1, h.2⟩, fun h ↦ ⟨h.1, h.2⟩⟩

/-! ## The replies -/

/-- **The reply to LIST survives.** -/
theorem listReply_roundTrip {l : List RFCHolder} (hl : ∀ r ∈ l, r.peer.Sound)
    (hsize : listSize l < 2 ^ 31) (heap : ℕ → UInt8) :
    (listReply l).messageSize.toNat = listSize l ∧
    ∃ f, (listReply l).toBytes heap = .ok (some f) ∧ f.length = listSize l ∧
      ListRFCResponse.fromBytes {} f = .ok (listReply l) := by
  refine ⟨ListRFCResponse.toNat_messageSize _ (by omega), ?_⟩
  cases l with
  | nil =>
    refine ⟨_, ListRFCResponse.toBytes_404 heap, ?_, ListRFCResponse.fromBytes_404 0 _⟩
    rw [List.length_append, length_wireInt, List.length_drop, length_newBytes]
    rfl
  | cons r l =>
    refine ⟨_, ListRFCResponse.toBytes_eq (fun r hr ↦ (hl r hr).toListable) (by omega) heap,
      ListRFCResponse.length_bytes _, ?_⟩
    have h := ListRFCResponse.fromBytes_toBytes (fun r hr ↦ (hl r hr).noNul) hsize 0 []
    rwa [List.append_nil] at h

/-- **The reply to LOOKUP survives.** -/
theorem lookupReply_roundTrip {l : List Client} (hl : ∀ c ∈ l, c.Sound)
    (hsize : lookupSize l < 2 ^ 31) (heap : ℕ → UInt8) :
    (lookupReply l).messageSize.toNat = lookupSize l ∧
    ∃ f, (lookupReply l).toBytes heap = .ok (some f) ∧ f.length = lookupSize l ∧
      LookupRFCResponse.fromBytes {} f = .ok (lookupReply l) := by
  refine ⟨LookupRFCResponse.toNat_messageSize _ (by omega), ?_⟩
  cases l with
  | nil =>
    refine ⟨_, LookupRFCResponse.toBytes_404 heap, ?_, LookupRFCResponse.fromBytes_404 _ _⟩
    rw [List.length_append, length_wireInt, List.length_drop, length_newBytes]
    rfl
  | cons c l =>
    refine ⟨_, LookupRFCResponse.toBytes_eq (fun c hc ↦ (hl c hc).toListable) (by omega) heap,
      LookupRFCResponse.length_bytes _, ?_⟩
    have h := LookupRFCResponse.fromBytes_toBytes (fun c hc ↦ (hl c hc).noNul) hsize {} []
    rwa [List.append_nil] at h

/-- A reply whose size is an `int` is sent: its size, and then the reply itself. -/
theorem sendReply_some {size : UInt32} {f : Frame} (hlen : f.length = size.toNat)
    (hsize : f.length < 2 ^ 31) :
    sendReply (some f) size =
      .sendThen (wireInt (Int32.ofNat f.length)) (.sendThen f (.done ())) := by
  have hint : size.toInt32 = Int32.ofNat f.length := by
    rw [← UInt32.toInt32_ofNat', hlen, UInt32.ofNat_toNat]
  simp only [sendReply, ntohl_htonl]
  rw [hint, sizeT_ofNat hsize, sendBuffer_some rfl]
  rfl

theorem exec_sendReply {size : UInt32} {f : Frame} (hlen : f.length = size.toNat)
    (hsize : f.length < 2 ^ 31) :
    (sendReply (some f) size).Exec [] [] [wireInt (Int32.ofNat f.length), f] () := by
  rw [sendReply_some hlen hsize]
  exact .send (.send (.refl _))

/-! ## The requests -/

section
variable {α : Type} {ins outs : List Frame} {calls : List serverSig.Call} {q : Prog serverSig α}

theorem runs_atIndex {op : IndexOp} {r : op.Res} {g : op.Res → Prog serverSig α}
    (h : (g r).Runs ins calls outs q) :
    (atIndex op >>= g).Runs ins (⟨.index op, r⟩ :: calls) outs q := .call h

theorem runs_allocate {n : ℕ} {heap : ℕ → UInt8} {g : (ℕ → UInt8) → Prog serverSig α}
    (h : (g heap).Runs ins calls outs q) :
    (allocate n >>= g).Runs ins (⟨.newBytes n, heap⟩ :: calls) outs q := .call h

end

/-- **ADD**: it receives the number, enters the index, and replies. -/
theorem runs_addRfc (h : StdString) (p n : Int32) :
    ∃ k, (addRfc h p).Runs [wireInt n] [] [] (.callThen (.index (.addRfc h p n)) k) ∧
      ∀ ok heap, (k ok).Exec [] [⟨.newBytes sizeofInt, heap⟩] [wireInt (addReply ok).code] () := by
  simp only [addRfc]
  refine ⟨?k, .recv_bind (length_wireInt n) ?query, fun ok heap ↦ ?reply⟩
  case query =>
    rw [AddRFCMessage.fromBytes, decodeInt_wireInt]
    exact .refl _
  case reply =>
    have hvalid : (addReply ok).isValid = true := by cases ok <;> rfl
    refine runs_allocate ?_
    rw [AddRFCResponse.toBytes, hvalid, encodeInt_true]
    simp only [Prog.ofExcept_ok, Prog.done_bind]
    rw [sendBuffer_some (show _ = (addReply ok).messageSize from length_wireInt _)]
    exact .send (.refl _)

/-- **LIST**: it enters the index, and replies with the size of the reply and the reply. -/
theorem runs_listRfcs :
    ∃ k, listRfcs.Runs [] [] [] (.callThen (.index .allRfcs) k) ∧
      ∀ l heap, (∀ r ∈ l, r.peer.Sound) → listSize l < 2 ^ 31 →
        ∃ f, f.length = listSize l ∧ ListRFCResponse.fromBytes {} f = .ok (listReply l) ∧
          (k l).Exec [] [⟨.newBytes (listSize l), heap⟩] [wireInt (Int32.ofNat f.length), f] () := by
  refine ⟨_, .refl _, fun l heap hl hsize ↦ ?_⟩
  obtain ⟨hnat, f, hf, hlen, hdecode⟩ := listReply_roundTrip hl hsize heap
  refine ⟨f, hlen, hdecode, ?_⟩
  rw [← hnat]
  refine runs_allocate ?_
  rw [hf, Prog.ofExcept_ok, Prog.done_bind]
  exact exec_sendReply (hlen.trans hnat.symm) (hlen ▸ hsize)

/-- **LOOKUP**: it receives the number, and goes on as LIST does. -/
theorem runs_lookupRfc (n : Int32) :
    ∃ k, lookupRfc.Runs [wireInt n] [] [] (.callThen (.index (.findRfcs n)) k) ∧
      ∀ l heap, (∀ c ∈ l, c.Sound) → lookupSize l < 2 ^ 31 →
        ∃ f, f.length = lookupSize l ∧ LookupRFCResponse.fromBytes {} f = .ok (lookupReply l) ∧
          (k l).Exec [] [⟨.newBytes (lookupSize l), heap⟩]
            [wireInt (Int32.ofNat f.length), f] () := by
  simp only [lookupRfc]
  refine ⟨?k, .recv_bind (length_wireInt n) ?query, fun l heap hl hsize ↦ ?reply⟩
  case query =>
    rw [LookupRFCMessage.fromBytes, decodeInt_wireInt]
    exact .refl _
  case reply =>
    obtain ⟨hnat, f, hf, hlen, hdecode⟩ := lookupReply_roundTrip hl hsize heap
    refine ⟨f, hlen, hdecode, ?_⟩
    rw [← hnat]
    refine runs_allocate ?_
    simp only [hf, Prog.ofExcept_ok, Prog.done_bind]
    exact exec_sendReply (hlen.trans hnat.symm) (hlen ▸ hsize)

/-- ADD, from its start to its end. -/
theorem exec_addRfc (h : StdString) (p n : Int32) (ok : Bool) (heap : ℕ → UInt8) :
    (addRfc h p).Exec [wireInt n]
      [⟨.index (.addRfc h p n), ok⟩, ⟨.newBytes sizeofInt, heap⟩]
      [wireInt (addReply ok).code] () := by
  obtain ⟨k, hquery, hreply⟩ := runs_addRfc h p n
  exact hquery.trans (.call (hreply ok heap))

theorem handleMessage_add (h : StdString) (p : Int32) :
    handleMessage h p P2SMessage.add.toInt = addRfc h p := by
  rw [handleMessage, P2SMessage.ofInt?_toInt]

theorem handleMessage_list (h : StdString) (p : Int32) :
    handleMessage h p P2SMessage.list.toInt = listRfcs := by
  rw [handleMessage, P2SMessage.ofInt?_toInt]

theorem handleMessage_lookup (h : StdString) (p : Int32) :
    handleMessage h p P2SMessage.lookup.toInt = lookupRfc := by
  rw [handleMessage, P2SMessage.ofInt?_toInt]

/-! ## Rounds of the loop, and the hello -/

section
variable {s : Session}

/-- A round of the loop with a command that does not end it does what the command does. -/
theorem runs_messageLoop {message : Int32} {ins outs : List Frame} {calls : List serverSig.Call}
    {q : Prog serverSig Unit} (hmessage : message ≠ P2SMessage.disconnect.toInt)
    (h : (handleMessage s.host s.uploadPort message).Runs ins calls outs q) :
    (messageLoop s).Runs (wireInt message :: ins) calls outs
      (q >>= fun _ ↦ .done (.inl { s with message })) := by
  rw [messageLoop]
  refine runs_recvInt ?_
  rw [if_pos hmessage]
  exact h.bind _

theorem exec_messageLoop {message : Int32} {ins outs : List Frame} {calls : List serverSig.Call}
    (hmessage : message ≠ P2SMessage.disconnect.toInt)
    (h : (handleMessage s.host s.uploadPort message).Exec ins calls outs ()) :
    (messageLoop s).Exec (wireInt message :: ins) calls outs (.inl { s with message }) :=
  runs_messageLoop hmessage h

/-- The round that ends it. -/
theorem exec_messageLoop_disconnect (s : Session) :
    (messageLoop s).Exec [wireInt P2SMessage.disconnect.toInt]
      [⟨.index (.eraseHolders s.host s.uploadPort), ()⟩,
        ⟨.index (.eraseClient s.host s.uploadPort), ()⟩, ⟨.close, ()⟩] [] (.inr true) := by
  rw [messageLoop]
  refine runs_recvInt ?_
  exact .call (.call (.call (.refl _)))

/-- The host and the port of a hello. -/
theorem exec_receiveAddress {hostLen : Int32} {host : Frame} (hlen : host.length = sizeT hostLen)
    (port : Int32) (ok : Bool) (memory : ℕ → UInt8) :
    (receiveAddress hostLen).Exec [host, wireInt port]
      [⟨.index (.addClient (cString host) port), ok⟩, ⟨.newBytes sizeofInt, memory⟩] []
      ⟨cString host, port, intOfBytes (newBytes memory sizeofInt)⟩ := by
  rw [receiveAddress]
  exact .recv_bind hlen (runs_recvInt (runs_atIndex (runs_allocate (.refl _))))

/-- The hello. -/
theorem exec_receiveHello {host : Frame} (hhost : host.length < 2 ^ 31) (port : Int32) (ok : Bool)
    (memory : ℕ → UInt8) :
    receiveHello.Exec [wireInt (Int32.ofNat host.length), host, wireInt port]
      [⟨.index (.addClient (cString host) port), ok⟩, ⟨.newBytes sizeofInt, memory⟩] []
      ⟨cString host, port, intOfBytes (newBytes memory sizeofInt)⟩ := by
  rw [receiveHello]
  refine runs_recvInt ?_
  rw [if_neg (ofNat_not_neg hhost)]
  exact exec_receiveAddress (sizeT_ofNat hhost).symm port ok memory

/-- The exchange of versions, and the hello. -/
theorem exec_clientHandler {host : Frame} (hhost : host.length < 2 ^ 31) (port : Int32) (ok : Bool)
    (memory : ℕ → UInt8) :
    clientHandler.Exec
      [wireInt protocolVersion, wireInt (Int32.ofNat host.length), host, wireInt port]
      [⟨.index (.addClient (cString host) port), ok⟩, ⟨.newBytes sizeofInt, memory⟩]
      [wireInt protocolVersion]
      (.inl ⟨cString host, port, intOfBytes (newBytes memory sizeofInt)⟩) := by
  rw [clientHandler]
  refine runs_sendInt (runs_recvInt ?_)
  rw [ntohl_htonl, if_neg (not_not.mpr rfl)]
  exact (exec_receiveHello hhost port ok memory).bind (.refl _)

end

end RfcNet
