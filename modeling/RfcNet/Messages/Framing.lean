import RfcNet.Lib.Framing
import RfcNet.Messages.Lists

/-!
# Where the replies end

The two list replies are framed: a reader that starts at the beginning of a reply comes to its end and
to no other place, and what it has read is what was written.  The reader is a fresh object, as the
ones in the sources are.
-/

set_option autoImplicit false

namespace RfcNet

open Lib

/-! ## Readers stay in their buffers -/

theorem local_getInt : getInt.Local := (local_getBytes _).bind fun _ ↦ Get.local_pure _

theorem local_getClient : getClient.Local := by
  refine local_getInt.bind fun lenHost ↦ ?_
  split
  · exact Get.local_fail _
  · exact (local_getBytes _).bind fun host ↦ local_getInt.bind fun varPort ↦ Get.local_pure _

theorem local_getHolder : getHolder.Local :=
  local_getInt.bind fun _ ↦ local_getClient.bind fun _ ↦ Get.local_pure _

theorem local_getReply {α : Type} {get : Get α} (h : get.Local) (old : List α) :
    (getReply get old).Local := by
  refine local_getInt.bind fun code ↦ ?_
  split
  · exact local_getInt.bind fun lenList ↦ (local_getAll h _ old).bind fun l ↦ Get.local_pure _
  · exact Get.local_pure _

/-! ## The two replies -/

/-- A valid reply under code 200 whose hosts are C strings and whose size is an `int`. -/
structure ListRFCResponse.Sendable (res : ListRFCResponse) : Prop where
  /-- It is valid. -/
  valid : res.isValid = true
  /-- The code. -/
  code : res.code = 200
  /-- No host has a NUL in it. -/
  noNul : ∀ r ∈ res.holders, (0 : UInt8) ∉ r.peer.host
  /-- The size of the message. -/
  size_lt : listSize res.holders < 2 ^ 31

/-- The same for the reply to LOOKUP. -/
structure LookupRFCResponse.Sendable (res : LookupRFCResponse) : Prop where
  /-- It is valid. -/
  valid : res.isValid = true
  /-- The code. -/
  code : res.code = 200
  /-- No host has a NUL in it. -/
  noNul : ∀ c ∈ res.hosts, (0 : UInt8) ∉ c.host
  /-- The size of the message. -/
  size_lt : lookupSize res.hosts < 2 ^ 31

/-- `from_bytes` of a fresh object, with the position it comes to. -/
def ListRFCResponse.read (bytes : Frame) : Except Fault (ListRFCResponse × ℕ) :=
  (getReply getHolder ({} : ListRFCResponse).holders bytes 0).map fun r ↦ (⟨r.1.1, r.1.2⟩, r.2.toNat)

/-- The same for the reply to LOOKUP. -/
def LookupRFCResponse.read (bytes : Frame) : Except Fault (LookupRFCResponse × ℕ) :=
  (getReply getClient [] bytes 0).map fun r ↦ (⟨r.1.1, r.1.2⟩, r.2.toNat)

theorem ListRFCResponse.fromBytes_eq_read (bytes : Frame) :
    ({} : ListRFCResponse).fromBytes bytes = (read bytes).map Prod.fst := by
  rw [fromBytes, read]
  cases getReply getHolder ({} : ListRFCResponse).holders bytes 0 <;> rfl

theorem LookupRFCResponse.fromBytes_eq_read (bytes : Frame) :
    ({} : LookupRFCResponse).fromBytes bytes = (read bytes).map Prod.fst := by
  rw [fromBytes, read]
  cases getReply getClient [] bytes 0 <;> rfl

/-! ## Framing -/

/-- **A reply is read to its end**, whatever comes after it, and no part of it is read as a reply. -/
theorem getReply_exact {α R : Type} {get : Get α} (hlocal : get.Local) {f : Frame} {l : List α}
    (hlt : f.length < 2 ^ 31)
    (hget : ∀ after, getReply get [] (f ++ after) 0 = .ok ((200, l), UInt32.ofNat f.length))
    (mk : Int32 → List α → R) :
    (∀ after, (getReply get [] (f ++ after) 0).map (fun r ↦ (mk r.1.1 r.1.2, r.2.toNat)) =
        .ok (mk 200 l, f.length)) ∧
      ∀ n < f.length, ∃ e,
        (getReply get [] (f.take n) 0).map (fun r ↦ (mk r.1.1 r.1.2, r.2.toNat)) = .error e := by
  have hpos : (UInt32.ofNat f.length).toNat = f.length :=
    UInt32.toNat_ofNat_of_lt' (show _ < 2 ^ 32 by omega)
  refine ⟨fun after ↦ ?_, fun n hn ↦ ?_⟩
  · rw [hget, Except.map, hpos]
  · have hself := hget []
    rw [List.append_nil] at hself
    obtain ⟨e, he⟩ := (local_getReply hlocal []).error_of_take (by omega) hself hn
    exact ⟨e, by rw [he]; rfl⟩

namespace ListRFCResponse

variable {res : ListRFCResponse}

theorem Sendable.toNat_messageSize (h : res.Sendable) :
    res.messageSize.toNat = listSize res.holders :=
  ListRFCResponse.toNat_messageSize res.code (by have hlt := h.size_lt; omega)

theorem Sendable.read_exact (h : res.Sendable) :
    (∀ after, read (replyBytes holderBytes res.holders ++ after) = .ok (res, res.messageSize.toNat)) ∧
      ∀ n < res.messageSize.toNat, ∃ e, read ((replyBytes holderBytes res.holders).take n) = .error e := by
  have hread := getReply_exact local_getHolder (by rw [length_bytes]; exact h.size_lt)
    (fun after ↦ by rw [getReply_bytes h.noNul h.size_lt, List.nil_append, length_bytes]) ListRFCResponse.mk
  rw [length_bytes, ← h.code] at hread
  rw [h.toNat_messageSize]
  exact hread

/-- **The reply to LIST is framed.** -/
theorem framed : Framed Sendable (fun res ↦ res.messageSize.toNat) toBytes read := by
  refine .of_bytes (fun res ↦ replyBytes holderBytes res.holders) ?_ ?_
    (fun res h ↦ h.read_exact.1) fun res h ↦ h.read_exact.2
  · rintro ⟨code, l⟩ h heap
    obtain rfl : code = 200 := h.code
    exact toBytes_eq (isValid_200.mp h.valid) (h.size_lt.trans (by decide)) heap
  · intro res h
    rw [length_bytes, h.toNat_messageSize]

end ListRFCResponse

namespace LookupRFCResponse

variable {res : LookupRFCResponse}

theorem Sendable.toNat_messageSize (h : res.Sendable) :
    res.messageSize.toNat = lookupSize res.hosts :=
  LookupRFCResponse.toNat_messageSize res.code (by have hlt := h.size_lt; omega)

theorem Sendable.read_exact (h : res.Sendable) :
    (∀ after, read (replyBytes clientBytes res.hosts ++ after) = .ok (res, res.messageSize.toNat)) ∧
      ∀ n < res.messageSize.toNat, ∃ e, read ((replyBytes clientBytes res.hosts).take n) = .error e := by
  have hread := getReply_exact local_getClient (by rw [length_bytes]; exact h.size_lt)
    (fun after ↦ by rw [getReply_bytes h.noNul h.size_lt, List.nil_append, length_bytes]) LookupRFCResponse.mk
  rw [length_bytes, ← h.code] at hread
  rw [h.toNat_messageSize]
  exact hread

/-- **The reply to LOOKUP is framed.** -/
theorem framed : Framed Sendable (fun res ↦ res.messageSize.toNat) toBytes read := by
  refine .of_bytes (fun res ↦ replyBytes clientBytes res.hosts) ?_ ?_
    (fun res h ↦ h.read_exact.1) fun res h ↦ h.read_exact.2
  · rintro ⟨code, l⟩ h heap
    obtain rfl : code = 200 := h.code
    exact toBytes_eq (isValid_200.mp h.valid) (h.size_lt.trans (by decide)) heap
  · intro res h
    rw [length_bytes, h.toNat_messageSize]

end LookupRFCResponse

/-- **Both replies are framed**, for what `from_bytes` makes of a fresh object. -/
theorem replies_framed :
    (Framed ListRFCResponse.Sendable (fun res ↦ res.messageSize.toNat) ListRFCResponse.toBytes
        ListRFCResponse.read ∧
      ∀ bytes, ({} : ListRFCResponse).fromBytes bytes =
        (ListRFCResponse.read bytes).map Prod.fst) ∧
    Framed LookupRFCResponse.Sendable (fun res ↦ res.messageSize.toNat) LookupRFCResponse.toBytes
        LookupRFCResponse.read ∧
      ∀ bytes, ({} : LookupRFCResponse).fromBytes bytes =
        (LookupRFCResponse.read bytes).map Prod.fst :=
  ⟨⟨ListRFCResponse.framed, ListRFCResponse.fromBytes_eq_read⟩, LookupRFCResponse.framed,
    LookupRFCResponse.fromBytes_eq_read⟩

end RfcNet
