import RfcNet.Messages.Written
import RfcNet.Serving

/-!
# The sizes of the list replies

The size of a list reply is computed three times: `message_size()` adds up an unsigned 32-bit number,
`to_bytes()` moves an unsigned 32-bit position on, and the handlers turn the first into the `int` that
they send before the reply.  The number of elements and the length of each host become `int`s as well.
Nothing bounds them: the index takes any number of associations, and a host may be as long as an
`int` says.

`measured_iff` is that all of these agree exactly while the reply is not empty and its total fits in
an `int`.  An empty list is answered under code 404, by eight bytes of which four are written.
-/

set_option autoImplicit false

namespace RfcNet

open Lib

/-- The sizes of the reply `m` agree, when `handler` receives `ins`, asks the index `query` and sends
`m`.  The hosts of its elements are `hosts`, one each. -/
structure Measured (handler : Prog serverSig Unit) (ins : List Frame) (query : serverSig.Call)
    (m : AbstMessage) (hosts : List StdString) : Prop where
  /-- Every copy of `to_bytes` stays in the buffer and the last one ends where it does.  The handler
  sends the buffer, and before it an `int` that is not negative and is the number of bytes written. -/
  sent : ∀ heap, ∃ (buf : Frame) (pos : UInt32) (len : Int32),
    m.put ⟨newBytes heap m.messageSize, 0⟩ = .ok ⟨buf, pos⟩ ∧ pos.toNat = m.messageSize ∧
      0 ≤ len ∧ len.toInt = pos.toNat ∧
      handler.Exec ins [query, ⟨.newBytes m.messageSize, heap⟩] [wireInt len, buf] ()
  /-- The number of elements is an `int`. -/
  count : (Int32.ofNat hosts.length).toInt = hosts.length
  /-- And so is the length of each host. -/
  lengths : ∀ host ∈ hosts, (Int32.ofNat host.length).toInt = host.length

section
variable {handler : Prog serverSig Unit} {ins : List Frame} {query : serverSig.Call}
  {m : AbstMessage} {hosts : List StdString}

theorem Measured.messageSize_lt (h : Measured handler ins query m hosts) : m.messageSize < 2 ^ 31 := by
  obtain ⟨buf, pos, len, -, hpos, -, hlen, -⟩ := h.sent fun _ ↦ 0
  have hlt := len.toInt_lt
  omega

theorem Measured.fills (h : Measured handler ins query m hosts) : m.Fills := by
  obtain ⟨buf, pos, len, hput, hpos, -⟩ := h.sent fun _ ↦ 0
  obtain ⟨hend, -⟩ := m.takes_put _ _ (by rw [length_newBytes]; exact m.messageSize_lt)
    (Nat.zero_le _) hput
  have hzero : (0 : UInt32).toNat = 0 := rfl
  rw [← AbstMessage.messageSize_eq_iff, ← hpos]
  dsimp only at hend
  omega

/-- **The sizes agree** exactly while the total is an `int`, for a message that is filled while it fits. -/
theorem measured_iff_of_total {some : Prop} {total : ℕ} (hfills : m.Fills ↔ some ∧ total < 2 ^ 32)
    (hsize : m.messageSize = total % 2 ^ 32)
    (hcount : hosts.length ≤ total) (hlengths : ∀ host ∈ hosts, host.length ≤ total)
    (hexec : ∀ heap, some → m.bytes.length = m.messageSize → m.bytes.length < 2 ^ 31 →
      m.put ⟨newBytes heap m.messageSize, 0⟩ = .ok ⟨m.bytes, UInt32.ofNat m.bytes.length⟩ →
      handler.Exec ins [query, ⟨.newBytes m.messageSize, heap⟩]
        [wireInt (Int32.ofNat m.bytes.length), m.bytes] ()) :
    Measured handler ins query m hosts ↔ some ∧ total < 2 ^ 31 := by
  constructor
  · intro h
    obtain ⟨hsome, hlt⟩ := hfills.mp h.fills
    have hint := h.messageSize_lt
    exact ⟨hsome, by omega⟩
  · rintro ⟨hsome, hlt⟩
    have hfull := m.messageSize_eq_iff.mpr (hfills.mpr ⟨hsome, by omega⟩)
    have hint : (Int32.ofNat m.bytes.length).toInt = m.bytes.length := toInt_ofNat_of_lt (by omega)
    have hnat : (UInt32.ofNat m.bytes.length).toNat = m.bytes.length :=
      UInt32.toNat_ofNat_of_lt' (show _ < 2 ^ 32 by omega)
    refine ⟨fun heap ↦ ?_, toInt_ofNat_of_lt (by omega), fun host hhost ↦ ?_⟩
    · have hput : m.put ⟨newBytes heap m.messageSize, 0⟩ =
          .ok ⟨m.bytes, UInt32.ofNat m.bytes.length⟩ :=
        m.writes_put.fill (by rw [length_newBytes]; exact hfull) (by omega)
      refine ⟨m.bytes, _, Int32.ofNat m.bytes.length, hput, hnat.trans hfull.symm, ?_, ?_, ?_⟩
      · rw [Int32.le_iff_toInt_le, hint]
        exact Int.natCast_nonneg _
      · rw [hint, hnat]
      · exact hexec heap hsome hfull.symm (by omega) hput
    · have hle := hlengths host hhost
      exact toInt_ofNat_of_lt (by omega)

end

/-! ## The two handlers -/

section
variable {buf : Frame} {heap : ℕ → UInt8}

theorem exec_listRfcs {l : List RFCHolder} (hbuf : (listReply l).toBytes heap = .ok (some buf))
    (hlen : buf.length = (listReply l).messageSize.toNat) (hlt : buf.length < 2 ^ 31) :
    listRfcs.Exec [] [⟨.index .allRfcs, l⟩, ⟨.newBytes (listReply l).messageSize.toNat, heap⟩]
      [wireInt (Int32.ofNat buf.length), buf] () := by
  refine runs_atIndex (runs_allocate ?_)
  rw [hbuf, Prog.ofExcept_ok, Prog.done_bind]
  exact exec_sendReply hlen hlt

theorem exec_lookupRfc (n : Int32) {l : List Client}
    (hbuf : (lookupReply l).toBytes heap = .ok (some buf))
    (hlen : buf.length = (lookupReply l).messageSize.toNat) (hlt : buf.length < 2 ^ 31) :
    lookupRfc.Exec [wireInt n]
      [⟨.index (.findRfcs n), l⟩, ⟨.newBytes (lookupReply l).messageSize.toNat, heap⟩]
      [wireInt (Int32.ofNat buf.length), buf] () := by
  rw [lookupRfc]
  refine .recv_bind (length_wireInt n) ?_
  rw [LookupRFCMessage.fromBytes, decodeInt_wireInt]
  refine runs_atIndex (runs_allocate ?_)
  rw [hbuf, Prog.ofExcept_ok, Prog.done_bind]
  exact exec_sendReply hlen hlt

end

/-- A reply of the index is filled where its list is not empty and the total fits. -/
theorem fillsReply_listCode_iff {α : Type} {l : List α} {total : ℕ} (h : l = [] → total = 8)
    {code : Int32} (hcode : code = if l = [] then 404 else 200) :
    AbstMessage.FillsReply code total ↔ l ≠ [] ∧ total < 2 ^ 32 := by
  by_cases hl : l = []
  · rw [hcode, if_pos hl, AbstMessage.FillsReply, if_neg (by decide), h hl]
    simp [hl]
  · rw [hcode, if_neg hl, AbstMessage.FillsReply, if_pos rfl]
    simp [hl]

/-- The `put` of a valid message is its `toBytes`. -/
theorem toBytes_of_put {m : AbstMessage} (hvalid : m.isValid = true) {heap : ℕ → UInt8}
    {buf : Frame} {pos : UInt32}
    (hput : m.put ⟨newBytes heap m.messageSize, 0⟩ = .ok ⟨buf, pos⟩) :
    m.toBytes heap = .ok (some buf) := by
  rw [AbstMessage.toBytes_of_isValid hvalid, hput]
  rfl

/-- **LIST.** -/
theorem measured_listRfcs_iff {l : List RFCHolder} (hl : ∀ r ∈ l, r.peer.Listable) :
    Measured listRfcs [] ⟨.index .allRfcs, l⟩ (.listRFCResponse (listReply l))
      (l.map fun r ↦ r.peer.host) ↔ l ≠ [] ∧ listSize l < 2 ^ 31 := by
  have hfills : (AbstMessage.listRFCResponse (listReply l)).Fills ↔ l ≠ [] ∧ listSize l < 2 ^ 32 :=
    fillsReply_listCode_iff (fun h ↦ by rw [h]; rfl) (congrArg ListRFCResponse.code (listReply_eq l))
  refine measured_iff_of_total hfills (ListRFCResponse.toNat_messageSize_mod _ l) ?_ ?_ ?_
  · have hle := length_le_sum (fun r : RFCHolder ↦ r.peer.host.length + 12) (fun _ ↦ Nat.succ_pos _) l
    rw [List.length_map, listSize]
    omega
  · intro host hhost
    obtain ⟨r, hr, rfl⟩ := List.mem_map.mp hhost
    have hle : r.peer.host.length + 12 ≤ (l.map fun it ↦ it.peer.host.length + 12).sum :=
      List.le_sum_of_mem (List.mem_map_of_mem hr)
    rw [listSize]
    omega
  · intro heap _ hlen hlt hput
    have hvalid : (listReply l).isValid = true := listReply_isValid.mpr hl
    exact exec_listRfcs (toBytes_of_put (m := .listRFCResponse (listReply l)) hvalid hput) hlen hlt

/-- **LOOKUP.** -/
theorem measured_lookupRfc_iff (n : Int32) {l : List Client} (hl : ∀ c ∈ l, c.Listable) :
    Measured lookupRfc [wireInt n] ⟨.index (.findRfcs n), l⟩ (.lookupRFCResponse (lookupReply l))
      (l.map fun c ↦ c.host) ↔ l ≠ [] ∧ lookupSize l < 2 ^ 31 := by
  have hfills : (AbstMessage.lookupRFCResponse (lookupReply l)).Fills ↔
      l ≠ [] ∧ lookupSize l < 2 ^ 32 :=
    fillsReply_listCode_iff (fun h ↦ by rw [h]; rfl)
      (congrArg LookupRFCResponse.code (lookupReply_eq l))
  refine measured_iff_of_total hfills (LookupRFCResponse.toNat_messageSize_mod _ l) ?_ ?_ ?_
  · have hle := length_le_sum (fun c : Client ↦ c.host.length + 8) (fun _ ↦ Nat.succ_pos _) l
    rw [List.length_map, lookupSize]
    omega
  · intro host hhost
    obtain ⟨c, hc, rfl⟩ := List.mem_map.mp hhost
    have hle : c.host.length + 8 ≤ (l.map fun it ↦ it.host.length + 8).sum :=
      List.le_sum_of_mem (List.mem_map_of_mem hc)
    rw [lookupSize]
    omega
  · intro heap _ hlen hlt hput
    have hvalid : (lookupReply l).isValid = true := lookupReply_isValid.mpr hl
    exact exec_lookupRfc n (toBytes_of_put (m := .lookupRFCResponse (lookupReply l)) hvalid hput)
      hlen hlt

/-- **The size arithmetic of the list replies** is exact for these lists, and for no other. -/
theorem replies_measured_iff (n : Int32) (holders : List RFCHolder) (clients : List Client)
    (hholders : ∀ r ∈ holders, r.peer.Listable) (hclients : ∀ c ∈ clients, c.Listable) :
    (Measured listRfcs [] ⟨.index .allRfcs, holders⟩ (.listRFCResponse (listReply holders))
      (holders.map fun r ↦ r.peer.host) ↔ holders ≠ [] ∧ listSize holders < 2 ^ 31) ∧
    (Measured lookupRfc [wireInt n] ⟨.index (.findRfcs n), clients⟩
      (.lookupRFCResponse (lookupReply clients)) (clients.map fun c ↦ c.host) ↔
        clients ≠ [] ∧ lookupSize clients < 2 ^ 31) :=
  ⟨measured_listRfcs_iff hholders, measured_lookupRfc_iff n hclients⟩

/-- Two clients, with hosts of different lengths: the associations of both, and both as holders of one RFC. -/
theorem replies_measured_two :
    Measured listRfcs [] ⟨.index .allRfcs, [⟨7, ⟨[97], 1⟩⟩, ⟨8, ⟨[98, 99], 2⟩⟩]⟩
      (.listRFCResponse (listReply [⟨7, ⟨[97], 1⟩⟩, ⟨8, ⟨[98, 99], 2⟩⟩])) [[97], [98, 99]] ∧
    Measured lookupRfc [wireInt 7] ⟨.index (.findRfcs 7), [⟨[97], 1⟩, ⟨[98, 99], 2⟩]⟩
      (.lookupRFCResponse (lookupReply [⟨[97], 1⟩, ⟨[98, 99], 2⟩])) [[97], [98, 99]] := by
  have h := replies_measured_iff 7 [⟨7, ⟨[97], 1⟩⟩, ⟨8, ⟨[98, 99], 2⟩⟩] [⟨[97], 1⟩, ⟨[98, 99], 2⟩] (by decide)
    (by decide)
  exact ⟨h.1.mpr ⟨by decide, by decide⟩, h.2.mpr ⟨by decide, by decide⟩⟩

/-- Two associations of one client with a host of `2 ^ 30` bytes. -/
theorem not_measured_two {host : StdString} (hlength : host.length = 2 ^ 30) :
    ¬ Measured listRfcs [] ⟨.index .allRfcs, [⟨7, ⟨host, 1⟩⟩, ⟨8, ⟨host, 1⟩⟩]⟩
      (.listRFCResponse (listReply [⟨7, ⟨host, 1⟩⟩, ⟨8, ⟨host, 1⟩⟩])) [host, host] := by
  have hne : host ≠ [] := by
    rintro rfl
    simp at hlength
  have hport : (0 : Int32) < 1 := by decide
  have hlist : ∀ r ∈ ([⟨7, ⟨host, 1⟩⟩, ⟨8, ⟨host, 1⟩⟩] : List RFCHolder), r.peer.Listable := by
    intro r hr
    rcases List.mem_pair.mp hr with rfl | rfl
    · exact ⟨hne, hport⟩
    · exact ⟨hne, hport⟩
  intro h
  have hlt := ((measured_listRfcs_iff hlist).mp h).2
  simp only [listSize, List.map_cons, List.map_nil, List.sum_cons, List.sum_nil, hlength] at hlt
  omega

/-- No associations, and two associations with a long host. -/
theorem not_measured_long :
    ¬ Measured listRfcs [] ⟨.index .allRfcs, []⟩ (.listRFCResponse (listReply [])) [] ∧
    ∃ host : StdString, host = List.replicate (2 ^ 30) 97 ∧
      ¬ Measured listRfcs [] ⟨.index .allRfcs, [⟨7, ⟨host, 1⟩⟩, ⟨8, ⟨host, 1⟩⟩]⟩
        (.listRFCResponse (listReply [⟨7, ⟨host, 1⟩⟩, ⟨8, ⟨host, 1⟩⟩])) [host, host] := by
  refine ⟨fun h ↦ ?_, List.replicate (2 ^ 30) 97, rfl, ?_⟩
  · exact ((measured_listRfcs_iff (l := []) nofun).mp h).1 rfl
  · exact not_measured_two List.length_replicate

end RfcNet
