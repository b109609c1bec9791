import RfcNet.Messages.Abstract

/-!
# The bytes that are written

The buffer of a message is not initialised.  What goes on the wire is therefore the message and
nothing else only where `to_bytes` writes every byte of it, which is where `message_size()` is the
number of bytes written (`AbstMessage.clean_iff_size`).

The two numbers agree on every valid message that is one number, and on any other while its total
fits in 32 bits, with one exception.  A reply under a code other than 200 is four bytes, but
`message_size()` does not look at the code: it allocates eight bytes at least, and the rest is what
the memory contained before.
-/

set_option autoImplicit false

namespace RfcNet

open Lib

/-! ## Buffers -/

section
variable {put : Put} {bs : Frame} {size : ℕ}

/-- What has been written into a new buffer comes first, and after it the buffer is as it was. -/
theorem put_newBytes_eq_ok (hwrites : Writes put bs) (htakes : put.Takes bs.length)
    (hsize : size < 2 ^ 32) {heap : ℕ → UInt8} {c : Cursor}
    (h : put ⟨newBytes heap size, 0⟩ = .ok c) :
    bs.length ≤ size ∧ c.buf = bs ++ (newBytes heap size).drop bs.length := by
  obtain ⟨hpos, hle, hlen⟩ := htakes _ c (by rw [length_newBytes]; exact hsize) (Nat.zero_le _) h
  have hzero : (0 : UInt32).toNat = 0 := rfl
  rw [length_newBytes] at hlen
  dsimp only at hpos
  have hfit : bs.length ≤ size := by omega
  have hw := hwrites [] (newBytes heap size) 0 rfl
    (by rw [length_newBytes, List.length_nil]; omega) (by rw [length_newBytes]; exact hfit)
  rw [List.nil_append, List.nil_append, h] at hw
  exact ⟨hfit, congrArg Cursor.buf (Except.ok.inj hw)⟩

/-- **A buffer is filled** with the same bytes whatever the memory contained exactly where it has the
size of what is written. -/
theorem exists_filled_iff (hwrites : Writes put bs) (htakes : put.Takes bs.length)
    (hsize : size < 2 ^ 32) :
    (∃ f, f.length = size ∧
      ∀ heap, (put ⟨newBytes heap size, 0⟩).map (fun c ↦ some c.buf) = .ok (some f)) ↔
      size = bs.length := by
  constructor
  · rintro ⟨f, -, hf⟩
    have hbuf : ∀ heap, bs.length ≤ size ∧ f = bs ++ (newBytes heap size).drop bs.length := by
      intro heap
      have h := hf heap
      cases hput : put ⟨newBytes heap size, 0⟩ with
      | error e =>
        rw [hput] at h
        cases h
      | ok c =>
        rw [hput] at h
        obtain ⟨hle, hc⟩ := put_newBytes_eq_ok hwrites htakes hsize hput
        exact ⟨hle, (Option.some_inj.mp (Except.ok.inj h)).symm.trans hc⟩
    have hle := (hbuf fun _ ↦ 0).1
    -- What is beyond the bytes written is what the memory contained.
    have hrest := List.append_cancel_left ((hbuf fun _ ↦ 0).2.symm.trans (hbuf fun _ ↦ 1).2)
    simp only [newBytes, List.map_const', List.drop_replicate, List.length_range] at hrest
    by_contra hne
    obtain ⟨k, hk⟩ : ∃ k, size - bs.length = k + 1 := ⟨size - bs.length - 1, by omega⟩
    rw [hk, List.replicate_succ, List.replicate_succ] at hrest
    exact absurd (List.cons.inj hrest).1 (by decide)
  · intro heq
    refine ⟨bs, heq.symm, fun heap ↦ ?_⟩
    rw [hwrites.fill (by rw [length_newBytes]; exact heq) (heq ▸ hsize)]
    rfl

end

/-! ## What each class writes -/

/-- The bytes of a reply under any code. -/
def bytesOfReply {α : Type} (bytes : α → Frame) (code : Int32) (l : List α) : Frame :=
  if code = 200 then replyBytes bytes l else wireInt code

section
variable {α : Type} {put : α → Put} {bytes : α → Frame}

theorem writes_putReply (h : ∀ a, Writes (put a) (bytes a)) (code : Int32) (l : List α) :
    Writes (putReply put code l) (bytesOfReply bytes code l) := by
  rw [putReply, bytesOfReply]
  split
  · rename_i hcode
    subst hcode
    exact (writes_putInt _).andThen ((writes_putInt _).andThen (Writes.putAll h l))
  · exact writes_putInt code

theorem takes_putReply (h : ∀ a, (put a).Takes (bytes a).length) (code : Int32) (l : List α) :
    (putReply put code l).Takes (bytesOfReply bytes code l).length := by
  rw [putReply, bytesOfReply]
  split
  · have hlen : (replyBytes bytes l).length = (wireInt code).length +
        ((wireInt (Int32.ofNat l.length)).length + (l.map fun a ↦ (bytes a).length).sum) := by
      simp only [length_replyBytes, length_wireInt]
      omega
    rw [hlen]
    exact (takes_putBytes _).andThen ((takes_putBytes _).andThen (Put.Takes.putAll h l))
  · exact takes_putBytes _

end

namespace AbstMessage

/-- The bytes of a message. -/
def bytes : AbstMessage → Frame
  | addRFCMessage msg => wireInt msg.number
  | addRFCResponse res => wireInt res.code
  | getRFCMessage msg => wireShort msg.number
  | getRFCResponse res => GetRFCResponse.bytes res.code res.content
  | lookupRFCMessage msg => wireInt msg.number
  | lookupRFCResponse res => bytesOfReply clientBytes res.code res.hosts
  | listRFCMessage msg => clientBytes ⟨msg.host, msg.port⟩
  | listRFCResponse res => bytesOfReply holderBytes res.code res.holders

/-- Every class writes its bytes. -/
theorem writes_put (m : AbstMessage) : Writes m.put m.bytes := by
  cases m with
  | getRFCMessage msg => exact writes_putShort _
  | getRFCResponse res =>
    rw [put, putResponse, bytes, GetRFCResponse.bytes]
    split
    · rename_i hcode
      rw [hcode]
      exact (writes_putInt _).andThen ((writes_putInt _).andThen (writes_putBytes _))
    · exact writes_putInt _
  | lookupRFCResponse res => exact writes_putReply writes_putClient _ _
  | listRFCMessage msg => exact writes_putClient ⟨msg.host, msg.port⟩
  | listRFCResponse res => exact writes_putReply writes_putHolder _ _
  | _ => exact writes_putInt _

/-- And needs room for them. -/
theorem takes_put (m : AbstMessage) : m.put.Takes m.bytes.length := by
  have hclient : ∀ it, (putClient it).Takes (clientBytes it).length := fun it ↦ by
    have hlen : (clientBytes it).length = 4 + it.host.length + 4 := by
      rw [length_clientBytes]
      omega
    exact hlen ▸ takes_putClient it
  have hholder : ∀ it, (putHolder it).Takes (holderBytes it).length := fun it ↦ by
    have hlen : (holderBytes it).length = 4 + 4 + it.peer.host.length + 4 := by
      rw [length_holderBytes]
      omega
    exact hlen ▸ takes_putHolder it
  cases m with
  | getRFCResponse res =>
    rw [put, putResponse, bytes, GetRFCResponse.bytes]
    split
    · have hlen : (contentBytes res.content).length = (wireInt res.code).length +
          ((wireInt (Int32.ofNat res.content.length)).length + res.content.length) := by
        simp only [length_contentBytes, length_wireInt]
        omega
      rw [hlen]
      exact (takes_putBytes _).andThen ((takes_putBytes _).andThen (takes_putBytes _))
    · exact takes_putBytes _
  | lookupRFCResponse res => exact takes_putReply hclient _ _
  | listRFCMessage msg => exact hclient ⟨msg.host, msg.port⟩
  | listRFCResponse res => exact takes_putReply hholder _ _
  | _ => exact takes_putBytes _

theorem messageSize_lt (m : AbstMessage) : m.messageSize < 2 ^ 32 := by
  cases m with
  | getRFCResponse res => exact res.messageSize.toNat_lt
  | lookupRFCResponse res => exact res.messageSize.toNat_lt
  | listRFCMessage msg => exact msg.messageSize.toNat_lt
  | listRFCResponse res => exact res.messageSize.toNat_lt
  | _ => exact of_decide_eq_true rfl

/-- **An encoding begins with the bytes of the message.** -/
theorem exists_rest_of_toBytes {m : AbstMessage} (h : m.isValid = true) {heap : ℕ → UInt8} {f : Frame}
    (hf : m.toBytes heap = .ok (some f)) :
    ∃ rest, f = m.bytes ++ rest ∧ f.length = m.messageSize := by
  rw [toBytes_of_isValid h] at hf
  cases hput : m.put ⟨newBytes heap m.messageSize, 0⟩ with
  | error e =>
    rw [hput] at hf
    cases hf
  | ok c =>
    rw [hput] at hf
    obtain ⟨hle, hc⟩ := put_newBytes_eq_ok m.writes_put m.takes_put m.messageSize_lt hput
    have hbuf : c.buf = f := Option.some_inj.mp (Except.ok.inj hf)
    refine ⟨_, hbuf.symm.trans hc, ?_⟩
    rw [← hbuf, hc, List.length_append, List.length_drop, length_newBytes]
    omega

/-- **Only message bytes**: every byte of the buffer has been written, and is what the message says,
whatever the memory contained. -/
def Clean (m : AbstMessage) : Prop :=
  ∃ f : Frame, f.length = m.messageSize ∧ ∀ heap, m.toBytes heap = .ok (some f)

/-- **A message goes out clean** exactly where its size is the number of bytes it writes. -/
theorem clean_iff_size {m : AbstMessage} (h : m.isValid = true) :
    m.Clean ↔ m.messageSize = m.bytes.length := by
  rw [Clean]
  simp only [toBytes_of_isValid h]
  exact exists_filled_iff m.writes_put m.takes_put m.messageSize_lt

/-! ## When the two numbers agree -/

/-- A reply whose total is `total` bytes has a size that is what it writes: under code 200 where the
total fits in 32 bits; under another code, which is four bytes, where it wraps to just these. -/
def FillsReply (code : Int32) (total : ℕ) : Prop :=
  if code = 200 then total < 2 ^ 32 else total % 2 ^ 32 = 4

/-- The messages whose size is what they write. -/
def Fills : AbstMessage → Prop
  | getRFCResponse res => FillsReply res.code (8 + res.content.length)
  | lookupRFCResponse res => FillsReply res.code (lookupSize res.hosts)
  | listRFCMessage msg => 8 + msg.host.length < 2 ^ 32
  | listRFCResponse res => FillsReply res.code (listSize res.holders)
  | _ => True

theorem fillsReply_iff {code : Int32} {total : ℕ} {f : Frame} (h : code = 200 → f.length = total) :
    total % 2 ^ 32 = (if code = 200 then f else wireInt code).length ↔ FillsReply code total := by
  rw [FillsReply]
  split
  · rename_i hcode
    rw [h hcode]
    omega
  · rw [length_wireInt]

theorem messageSize_eq_iff (m : AbstMessage) : m.messageSize = m.bytes.length ↔ m.Fills := by
  cases m with
  | getRFCResponse res =>
    rw [messageSize, GetRFCResponse.messageSize, UInt32.toNat_ofNat']
    exact fillsReply_iff fun _ ↦ length_contentBytes _
  | lookupRFCResponse res =>
    rw [messageSize, LookupRFCResponse.toNat_messageSize_mod]
    exact fillsReply_iff fun _ ↦ LookupRFCResponse.length_bytes _
  | listRFCMessage msg =>
    rw [messageSize, ListRFCMessage.messageSize, UInt32.toNat_ofNat', bytes, length_clientBytes, Fills]
    dsimp only
    omega
  | listRFCResponse res =>
    rw [messageSize, ListRFCResponse.toNat_messageSize_mod]
    exact fillsReply_iff fun _ ↦ ListRFCResponse.length_bytes _
  | getRFCMessage msg =>
    rw [messageSize, bytes, length_wireShort]
    exact iff_of_true rfl trivial
  | _ =>
    rw [messageSize, bytes, length_wireInt]
    exact iff_of_true rfl trivial

/-- **Only message bytes go on the wire** for these messages, and for no other. -/
theorem clean_iff_fills (m : AbstMessage) (h : m.isValid = true) : m.Clean ↔ m.Fills :=
  (clean_iff_size h).trans m.messageSize_eq_iff

/-- A list of one association. -/
theorem clean_listRFCResponse_one :
    (listRFCResponse ⟨200, [⟨1, ⟨[97], 1⟩⟩]⟩).Clean :=
  (clean_iff_fills (listRFCResponse ⟨200, [⟨1, ⟨[97], 1⟩⟩]⟩) rfl).mpr
    (show listSize [⟨1, ⟨[97], 1⟩⟩] < 2 ^ 32 by decide)

/-- **A reply under code 404** is four bytes of the message and four bytes of the memory. -/
theorem not_clean_listRFCResponse_404 : (listRFCResponse ⟨404, []⟩).isValid = true ∧
    (listRFCResponse ⟨404, []⟩).toBytes (fun _ ↦ 0) = .ok (some (wireInt 404 ++ [0, 0, 0, 0])) ∧
    (listRFCResponse ⟨404, []⟩).toBytes (fun _ ↦ 7) = .ok (some (wireInt 404 ++ [7, 7, 7, 7])) ∧
    ¬ (listRFCResponse ⟨404, []⟩).Clean := by
  refine ⟨rfl, ListRFCResponse.toBytes_404 _, ListRFCResponse.toBytes_404 _, ?_⟩
  rintro ⟨f, -, hf⟩
  have h := (ListRFCResponse.toBytes_404 fun _ ↦ 0).symm.trans (hf fun _ ↦ 0)
  have h' := (ListRFCResponse.toBytes_404 fun _ ↦ 7).symm.trans (hf fun _ ↦ 7)
  have heq := Option.some_inj.mp (Except.ok.inj (h.trans h'.symm))
  exact absurd heq (by decide)

end AbstMessage

end RfcNet
