import RfcNet.Requesting

/-!
# What comes of a request

A request enters the index in one critical section.  What the client gets to see of that is a reply: a
handler builds it, copies it into memory that the allocator has given it, and sends it, and the client
decodes what it receives.  `CentralIndex.Answers` says that all of this succeeds, whatever there was in the
memory, and with what result.

A list is sent whole or not at all.  `listReturns_iff` says when the whole index is: nobody in it may have
an empty host or a port that is not positive, and the size of the reply has to be an `int`.
-/

set_option autoImplicit false

namespace RfcNet

open Lib

/-! ## Replies that carry a list -/

section
variable {α : Type} {put : α → Put} {ok : α → Bool} {size : α → ℕ} {bytes : α → Frame} {l : List α}
  {f : Frame} {messageSize : UInt32}

/-- The code of a reply that carries a list. -/
def listCode (l : List α) : Int32 := if l.length = 0 then 404 else 200

/-- The `to_bytes` of a reply that carries a list. -/
def encodeList (put : α → Put) (ok : α → Bool) (size : α → ℕ) (l : List α) (heap : ℕ → UInt8) :
    Except Fault (Option Frame) :=
  encodeReply put (replyIsValid (listCode l) (l.all ok)) (replySize (l.map size)) (listCode l) l heap

theorem toBytes_listReply (l : List RFCHolder) (heap : ℕ → UInt8) :
    (listReply l).toBytes heap =
      encodeList putHolder (fun it ↦ !(it.peer.host.length == 0 || it.peer.port ≤ 0))
        (fun it ↦ 4 + 4 + it.peer.host.length + 4) l heap := by
  cases l <;> rfl

theorem toBytes_lookupReply (l : List Client) (heap : ℕ → UInt8) :
    (lookupReply l).toBytes heap =
      encodeList putClient (fun it ↦ !(it.host.length == 0 || it.port ≤ 0))
        (fun it ↦ 4 + it.host.length + 4) l heap := by
  cases l <;> rfl

/-- A list that is valid and short can be sent. -/
theorem encodeList_of_short (hwrites : ∀ a, Writes (put a) (bytes a))
    (hbytes : ∀ a, (bytes a).length = size a) (hok : ∀ a ∈ l, ok a = true)
    (hshort : 8 + (l.map size).sum < 2 ^ 31) (heap : ℕ → UInt8) :
    ∃ f, encodeList put ok size l heap = .ok (some f) ∧
      f.length = (replySize (l.map size)).toNat ∧ f.length < 2 ^ 31 := by
  have hnat : (replySize (l.map size)).toNat = 8 + (l.map size).sum := toNat_replySize (by omega)
  by_cases hnil : l = []
  · subst hnil
    refine ⟨_, encodeReply_ne (show (404 : Int32) ≠ 200 by decide)
      (show 4 ≤ (replySize []).toNat by decide) heap, ?_, ?_⟩
    · rw [List.length_append, length_wireInt, List.length_drop, length_newBytes]
      rfl
    · rw [List.length_append, length_wireInt, List.length_drop, length_newBytes]
      decide
  · have hcode : listCode l = 200 := if_neg fun h ↦ hnil (List.eq_nil_of_length_eq_zero h)
    have hlen : (replyBytes bytes l).length = 8 + (l.map size).sum := by
      simp only [length_replyBytes, hbytes]
    rw [encodeList, hcode, replyIsValid_200, List.all_eq_true.mpr hok]
    exact ⟨_, encodeReply_200 hwrites (hnat.trans hlen.symm) heap, hlen.trans hnat.symm, by omega⟩

/-- A list that has been encoded is valid, and fits. -/
theorem encodeList_eq_ok (htakes : ∀ a, (put a).Takes (size a)) (hne : l ≠ []) {heap : ℕ → UInt8}
    (h : encodeList put ok size l heap = .ok (some f)) :
    (∀ a ∈ l, ok a = true) ∧ f.length = (replySize (l.map size)).toNat ∧
      8 + (l.map size).sum ≤ f.length := by
  have hcode : listCode l = 200 := if_neg fun hnil ↦ hne (List.eq_nil_of_length_eq_zero hnil)
  rw [encodeList, hcode, replyIsValid_200] at h
  obtain ⟨hvalid, hlen, hle⟩ := encodeReply_200_eq_ok htakes h
  exact ⟨List.all_eq_true.mp hvalid, hlen, by omega⟩

/-- A reply of a size that is no `int` is not sent: the size is, and then the copy leaves the buffer. -/
theorem sendReply_long (hlen : f.length = messageSize.toNat) (hlong : 2 ^ 31 ≤ f.length) :
    sendReply (some f) messageSize =
      .sendThen (wireInt messageSize.toInt32) (.raise (.memory .outOfBounds)) := by
  have hlt := messageSize.toNat_lt
  have hint : messageSize.toInt32.toInt = Int.bmod messageSize.toNat (2 ^ 32) :=
    BitVec.toInt_eq_toNat_bmod _
  have hneg : messageSize.toInt32 < 0 := by
    rw [Int32.lt_iff_toInt_lt, hint, Int.bmod_def, if_neg (by omega)]
    show _ < (0 : ℤ)
    omega
  have hsize := lt_sizeT_of_neg hneg
  simp only [sendReply, ntohl_htonl]
  rw [sendBuffer_short (by omega)]
  rfl

/-- **A list that has been sent** is valid and short. -/
theorem short_of_sent (htakes : ∀ a, (put a).Takes (size a)) {heap : ℕ → UInt8} {outs : List Frame}
    (h : ((Prog.ofExcept .memory (encodeList put ok size l heap) : Prog serverSig _) >>= fun buf ↦
      sendReply buf (replySize (l.map size))).Exec [] [] outs ()) :
    (∀ a ∈ l, ok a = true) ∧ 8 + (l.map size).sum < 2 ^ 31 := by
  by_cases hnil : l = []
  · subst hnil
    exact ⟨fun a ha ↦ absurd ha List.not_mem_nil, by simp⟩
  cases hl : encodeList put ok size l heap with
  | error e =>
    rw [hl, Prog.ofExcept_error] at h
    cases h
  | ok buf =>
    rw [hl, Prog.ofExcept_ok, Prog.done_bind] at h
    cases buf with
    | none =>
      obtain ⟨rest, -, hrest⟩ := Prog.Exec.of_send h
      cases hrest
    | some f =>
      obtain ⟨hok, hlen, hle⟩ := encodeList_eq_ok htakes hnil hl
      refine ⟨hok, ?_⟩
      by_contra hlong
      rw [sendReply_long hlen (by omega)] at h
      obtain ⟨rest, -, hrest⟩ := Prog.Exec.of_send h
      cases hrest

end

/-! ## One request -/

theorem addReply_code {ok : Bool} : (addReply ok).code = 200 ↔ ok = true := by
  cases ok <;> decide

namespace CentralIndex

variable {ix : CentralIndex} {n : Int32}

/-- **A request is answered by `res`**: the handler receives `ins`, enters the critical section `op` of the
index, and sends frames that the client decodes as `res`, whatever was in the memory that the handler
allocates for its reply. -/
def Answers {β : Type} (ix : CentralIndex) (op : IndexOp) (serve : Prog serverSig Unit) (ins : List Frame)
    (await : Prog clientSig β) (request : Request) (reply : β → Reply) (res : β) : Prop :=
  ∃ n, ∀ heap, ∃ frames,
    serve.Exec ins [⟨.index op, (op.exec ix).1⟩, ⟨.newBytes n, heap⟩] frames () ∧
    await.Exec frames [⟨.decoded request (reply res), ()⟩] [] res

/-- ADD, by a session that has announced the pair. -/
abbrev AddReturns (ix : CentralIndex) (h : StdString) (p n : Int32) : AddRFCResponse → Prop :=
  ix.Answers (.addRfc h p n) (RfcNet.addRfc h p) [wireInt n] (awaitAdd n) (.add n) .added

/-- LIST, by any session. -/
abbrev ListReturns (ix : CentralIndex) : ListRFCResponse → Prop :=
  ix.Answers .allRfcs listRfcs [] awaitList .list .listed

/-- LOOKUP, by any session. -/
abbrev LookupReturns (ix : CentralIndex) (n : Int32) : LookupRFCResponse → Prop :=
  ix.Answers (.findRfcs n) lookupRfc [wireInt n] (awaitLookup n) (.lookup n) .lookedUp

/-- A request has one answer. -/
theorem Answers.unique {β : Type} {op : IndexOp} {serve : Prog serverSig Unit} {ins : List Frame}
    {await : Prog clientSig β} {request : Request} {reply : β → Reply} {res res' : β}
    (hreply : Function.Injective reply) (h : ix.Answers op serve ins await request reply res)
    (h' : ix.Answers op serve ins await request reply res') : res = res' := by
  obtain ⟨m, hm⟩ := h
  obtain ⟨m', hm'⟩ := h'
  obtain ⟨frames, hserve, hawait⟩ := hm fun _ ↦ 0
  obtain ⟨frames', hserve', hawait'⟩ := hm' fun _ ↦ 0
  obtain rfl : m = m' := by
    exact ServerOp.newBytes.inj (Prog.Exec.op_unique (c := [_]) hserve hserve')
  obtain rfl := (Prog.Exec.unique hserve hserve').1
  exact hreply (ClientOp.decoded.inj (Prog.Exec.op_unique (c := []) hawait hawait')).2

/-- **ADD is always answered.** -/
theorem addReturns_iff {h : StdString} {p : Int32} {res : AddRFCResponse} :
    ix.AddReturns h p n res ↔ res = addReply (ix.addRfc h p n).1 := by
  have hreturns : ix.AddReturns h p n (addReply (ix.addRfc h p n).1) :=
    ⟨sizeofInt, fun heap ↦ ⟨_, exec_addRfc h p n _ heap, exec_awaitAdd n _⟩⟩
  constructor
  · exact fun hres ↦ hres.unique (fun _ _ ↦ Reply.added.inj) hreturns
  · rintro rfl
    exact hreturns

/-- What the replies can carry: every client may be listed, and the reply to LIST is short. -/
structure Fits (ix : CentralIndex) : Prop where
  /-- Every client that is said to have an RFC may be listed. -/
  listable : ∀ r ∈ ix.rfcs, r.peer.Listable
  /-- The size of the reply to LIST is an `int`. -/
  short : listSize ix.rfcs < 2 ^ 31

/-- A new association makes the reply to LIST longer by its own length. -/
theorem listSize_addRfc {h : StdString} {p : Int32} (hnew : (⟨n, ⟨h, p⟩⟩ : RFCHolder) ∉ ix.rfcs)
    (hc : (⟨h, p⟩ : Client) ∈ ix.clients) :
    listSize (ix.addRfc h p n).2.rfcs = listSize ix.rfcs + (h.length + 12) := by
  have hperm : (listSort compareRfcHolders (ix.rfcs ++ [⟨n, ⟨h, p⟩⟩])).Perm
      (ix.rfcs ++ [⟨n, ⟨h, p⟩⟩]) := List.perm_insertionSort _ _
  rw [addRfc_eq, if_pos ⟨hnew, hc⟩, listSize, (hperm.map _).sum_eq, List.map_append, List.sum_append,
    listSize, List.map_singleton, List.sum_singleton, Nat.add_assoc]

theorem Fits.listReturns (hfits : ix.Fits) (hhosts : ∀ r ∈ ix.rfcs, (0 : UInt8) ∉ r.peer.host) :
    ix.ListReturns (listReply ix.allRfcs) := by
  obtain ⟨k, hquery, hreply⟩ := runs_listRfcs
  refine ⟨listSize ix.rfcs, fun heap ↦ ?_⟩
  obtain ⟨f, hlen, hdecode, hsent⟩ :=
    hreply ix.rfcs heap (fun r hr ↦ ⟨hfits.listable r hr, hhosts r hr⟩) hfits.short
  exact ⟨_, hquery.trans (.call hsent), exec_awaitList (hlen ▸ hfits.short) hdecode⟩

/-- The reply to LOOKUP is no longer than the one to LIST. -/
theorem lookupSize_findRfcs_le (ix : CentralIndex) (n : Int32) :
    lookupSize (ix.findRfcs n) ≤ listSize ix.rfcs := by
  have hsub : ((ix.rfcs.filter fun r ↦ r.rfc == n).map fun r ↦ r.peer.host.length + 8).sum ≤
      (ix.rfcs.map fun r ↦ r.peer.host.length + 8).sum :=
    (List.filter_sublist.map _).sum_le_sum fun _ _ ↦ Nat.zero_le _
  have hle : (ix.rfcs.map fun r ↦ r.peer.host.length + 8).sum ≤
      (ix.rfcs.map fun r ↦ r.peer.host.length + 12).sum :=
    List.sum_le_sum fun r _ ↦ by omega
  rw [lookupSize, findRfcs, List.map_map, listSize]
  exact Nat.add_le_add_left (hsub.trans hle) 8

theorem Fits.lookupReturns (hfits : ix.Fits) (hhosts : ∀ r ∈ ix.rfcs, (0 : UInt8) ∉ r.peer.host)
    (n : Int32) : ix.LookupReturns n (lookupReply (ix.findRfcs n)) := by
  have hshort : lookupSize (ix.findRfcs n) < 2 ^ 31 :=
    (lookupSize_findRfcs_le ix n).trans_lt hfits.short
  have hsound : ∀ c ∈ ix.findRfcs n, c.Sound := fun c hc ↦
    ⟨hfits.listable _ (mem_findRfcs.mp hc), hhosts _ (mem_findRfcs.mp hc)⟩
  obtain ⟨k, hquery, hreply⟩ := runs_lookupRfc n
  refine ⟨lookupSize (ix.findRfcs n), fun heap ↦ ?_⟩
  obtain ⟨f, hlen, hdecode, hsent⟩ := hreply _ heap hsound hshort
  exact ⟨_, hquery.trans (.call hsent), exec_awaitLookup n (hlen ▸ hshort) hdecode⟩

/-- Where `list_rfcs` has sent its reply, the index fits. -/
theorem fits_of_exec {m : ℕ} {heap : ℕ → UInt8} {frames : List Frame}
    (h : listRfcs.Exec [] [⟨.index .allRfcs, ix.rfcs⟩, ⟨.newBytes m, heap⟩] frames ()) : ix.Fits := by
  have hsent : ((Prog.ofExcept .memory ((listReply ix.rfcs).toBytes heap) : Prog serverSig _) >>= fun buf ↦
      sendReply buf (listReply ix.rfcs).messageSize).Exec [] [] frames () := by
    rw [listRfcs] at h
    cases h with
    | call h =>
      cases h with
      | call h => exact h
  rw [toBytes_listReply] at hsent
  obtain ⟨hok, hshort⟩ := short_of_sent takes_putHolder hsent
  refine ⟨fun r hr ↦ listable_iff.mp (hok r hr), ?_⟩
  have hmap : (ix.rfcs.map fun r ↦ r.peer.host.length + 12) =
      ix.rfcs.map fun r ↦ 4 + 4 + r.peer.host.length + 4 :=
    List.map_congr_left fun _ _ ↦ by omega
  rwa [listSize, hmap]

/-- **LIST is answered, exactly,** where the index fits, and the answer is all there is in it. -/
theorem listReturns_iff (hhosts : ∀ r ∈ ix.rfcs, (0 : UInt8) ∉ r.peer.host) {res : ListRFCResponse} :
    ix.ListReturns res ↔ ix.Fits ∧ res = listReply ix.allRfcs := by
  constructor
  · intro h
    obtain ⟨m, hm⟩ := id h
    obtain ⟨frames, hserve, -⟩ := hm fun _ ↦ 0
    have hfits : ix.Fits := fits_of_exec hserve
    exact ⟨hfits, h.unique (fun _ _ ↦ Reply.listed.inj) (hfits.listReturns hhosts)⟩
  · rintro ⟨hfits, rfl⟩
    exact hfits.listReturns hhosts

end CentralIndex

end RfcNet
