import Mathlib.Algebra.Order.BigOperators.Group.List
import Mathlib.Algebra.Order.Monoid.Canonical.Defs
import RfcNet.Common
import RfcNet.Messages.Fixed

/-!
# The replies that carry lists

`ListRFCResponse` and `LookupRFCResponse`: a code and, under code 200, a count and that many
elements, each with a length-prefixed host.  Everything about a reply is computed separately in the
source: the size of the buffer, the position of each write, the count, and the lengths.  The size
and the positions are 32-bit unsigned, the count and the lengths 32-bit signed.

`ListRFCResponse.from_bytes` pushes back to whatever the object already holds, where
`LookupRFCResponse.from_bytes` clears it first.  The latter copies a host into an array on the stack,
where the former allocates one; the stack is taken as unbounded here.

The round trips are `ListRFCResponse.fromBytes_toBytes` and `LookupRFCResponse.fromBytes_toBytes`.
They ask for a total size below `2 ^ 31`, which keeps all four computations exact, and for hosts
that a C string can hold.
-/

set_option autoImplicit false

namespace RfcNet

open Lib

/-! ## One element -/

/-- The writes of one client: the length of the host, the host, the port. -/
def putClient (it : Client) : Put :=
  (putInt (Int32.ofNat it.host.length)).andThen ((putBytes it.host).andThen (putInt it.port))

/-- The reads of one client.  A negative length is an allocation of a negative size. -/
def getClient : Get Client :=
  getInt.bind fun lenHost ↦
    if lenHost < 0 then .fail .negativeLength
    else (getBytes lenHost.toInt.toNat).bind fun host ↦
      getInt.bind fun varPort ↦ .pure ⟨cString host, varPort⟩

/-- The writes of one association: the number, then the client. -/
def putHolder (it : RFCHolder) : Put := (putInt it.rfc).andThen (putClient it.peer)

/-- The reads of one association. -/
def getHolder : Get RFCHolder :=
  getInt.bind fun rfcNum ↦ getClient.bind fun peer ↦ .pure ⟨rfcNum, peer⟩

/-- The bytes of a client in a message. -/
def clientBytes (it : Client) : Frame :=
  wireInt (Int32.ofNat it.host.length) ++ (it.host ++ wireInt it.port)

/-- The bytes of an association in a message. -/
def holderBytes (it : RFCHolder) : Frame := wireInt it.rfc ++ clientBytes it.peer

theorem length_clientBytes (it : Client) : (clientBytes it).length = it.host.length + 8 := by
  simp only [clientBytes, List.length_append, length_wireInt]
  omega

theorem length_holderBytes (it : RFCHolder) :
    (holderBytes it).length = it.peer.host.length + 12 := by
  rw [holderBytes, List.length_append, length_wireInt, length_clientBytes]
  omega

theorem writes_putClient (it : Client) : Writes (putClient it) (clientBytes it) :=
  (writes_putInt _).andThen ((writes_putBytes _).andThen (writes_putInt _))

theorem writes_putHolder (it : RFCHolder) : Writes (putHolder it) (holderBytes it) :=
  (writes_putInt _).andThen (writes_putClient _)

theorem takes_putClient (it : Client) : (putClient it).Takes (4 + it.host.length + 4) :=
  (Nat.add_assoc _ _ _).symm ▸
    (takes_putBytes _).andThen ((takes_putBytes it.host).andThen (takes_putBytes _))

theorem takes_putHolder (it : RFCHolder) : (putHolder it).Takes (4 + 4 + it.peer.host.length + 4) := by
  have hput : (putHolder it).Takes (4 + (4 + it.peer.host.length + 4)) :=
    (takes_putBytes _).andThen (takes_putClient it.peer)
  have hsize : 4 + (4 + it.peer.host.length + 4) = 4 + 4 + it.peer.host.length + 4 := by omega
  rwa [hsize] at hput

/-- A client that survives a trip in a message: its host is a C string of `int` length. -/
structure Client.Portable (it : Client) : Prop where
  /-- No NUL in the host. -/
  noNul : (0 : UInt8) ∉ it.host
  /-- The host's length is an `int`. -/
  length_lt : it.host.length < 2 ^ 31

theorem toInt_ofNat_of_lt {n : ℕ} (h : n < 2 ^ 31) : (Int32.ofNat n).toInt = n :=
  Int32.toInt_ofNat_of_lt h

/-- A length that is an `int` is not negative. -/
theorem ofNat_not_neg {n : ℕ} (h : n < 2 ^ 31) : ¬ Int32.ofNat n < 0 := by
  rw [Int32.lt_iff_toInt_lt, toInt_ofNat_of_lt h]
  exact not_lt.mpr (Int.natCast_nonneg n)

theorem reads_getClient {it : Client} (h : it.Portable) :
    Reads getClient (clientBytes it) it := by
  have hlen : (Int32.ofNat it.host.length).toInt = it.host.length := toInt_ofNat_of_lt h.length_lt
  refine (reads_getInt _).bind ?_
  rw [if_neg (ofNat_not_neg h.length_lt), hlen, Int.toNat_natCast]
  refine (reads_getBytes it.host).bind ?_
  have hport := (reads_getInt it.port).map fun p ↦ (⟨cString it.host, p⟩ : Client)
  rwa [cString_eq_self h.noNul] at hport ⊢

theorem reads_getHolder {it : RFCHolder} (h : it.peer.Portable) :
    Reads getHolder (holderBytes it) it := by
  refine (reads_getInt _).bind ?_
  exact (reads_getClient h).map fun peer ↦ (⟨it.rfc, peer⟩ : RFCHolder)

/-! ## What the two replies share -/

/-- The common `is_valid`: a known code, and under code 200 fields that are either positive or not
empty. -/
def replyIsValid (code : Int32) (ok : Bool) : Bool :=
  if code > 0 then
    if !isCode code then false
    else if code == 200 then ok
    else true
  else false

/-- The common `message_size`, from the sizes of the elements. -/
def replySize (sizes : List ℕ) : UInt32 :=
  sizes.foldl (fun size n ↦ size + UInt32.ofNat n) (UInt32.ofNat (4 + 4))

section
variable {α : Type} (put : α → Put) (get : Get α)

/-- The writes of a reply. -/
def putReply (code : Int32) (l : List α) : Put :=
  if code = 200 then
    (putInt code).andThen ((putInt (Int32.ofNat l.length)).andThen (putAll put l))
  else putInt code

/-- The reads of a reply, its elements pushed back to `old`. -/
def getReply (old : List α) : Get (Int32 × List α) :=
  getInt.bind fun code ↦
    if code = 200 then
      getInt.bind fun lenList ↦
        (getAll get lenList.toInt.toNat old).bind fun l ↦ .pure (code, l)
    else .pure (code, old)

/-- The common `to_bytes`. -/
def encodeReply (valid : Bool) (size : UInt32) (code : Int32) (l : List α) (heap : ℕ → UInt8) :
    Except Fault (Option Frame) :=
  if !valid then .ok none
  else (putReply put code l ⟨newBytes heap size.toNat, 0⟩).map fun c ↦ some c.buf

/-- The bytes of a reply under code 200. -/
def replyBytes (bytes : α → Frame) (l : List α) : Frame :=
  wireInt 200 ++ (wireInt (Int32.ofNat l.length) ++ l.flatMap bytes)

variable {put get}

theorem length_replyBytes (bytes : α → Frame) (l : List α) :
    (replyBytes bytes l).length = 8 + (l.map fun a ↦ (bytes a).length).sum := by
  simp only [replyBytes, List.length_append, length_wireInt, List.length_flatMap]
  omega

/-- `message_size` is the total, in 32 bits. -/
theorem toNat_foldl_add_mod (sizes : List ℕ) (size : UInt32) :
    (sizes.foldl (fun size n ↦ size + UInt32.ofNat n) size).toNat =
      (size.toNat + sizes.sum) % 2 ^ 32 := by
  induction sizes generalizing size with
  | nil =>
    have hlt := size.toNat_lt
    rw [List.foldl_nil, List.sum_nil]
    omega
  | cons n sizes ih =>
    rw [List.foldl_cons, ih, List.sum_cons, UInt32.toNat_add, UInt32.toNat_ofNat']
    omega

theorem toNat_replySize_mod (sizes : List ℕ) :
    (replySize sizes).toNat = (8 + sizes.sum) % 2 ^ 32 :=
  toNat_foldl_add_mod sizes 8

/-- While the total fits in 32 bits, `message_size` is the total. -/
theorem toNat_replySize {sizes : List ℕ} (h : 8 + sizes.sum < 2 ^ 32) :
    (replySize sizes).toNat = 8 + sizes.sum := by
  rw [toNat_replySize_mod, Nat.mod_eq_of_lt h]

/-- **Encoding a reply under code 200**: the buffer is full and contains nothing else. -/
theorem encodeReply_200 {bytes : α → Frame} (hput : ∀ a, Writes (put a) (bytes a)) {size : UInt32}
    {l : List α} (hsize : size.toNat = (replyBytes bytes l).length) (heap : ℕ → UInt8) :
    encodeReply put true size 200 l heap = .ok (some (replyBytes bytes l)) := by
  have hw : Writes (putReply put 200 l) (replyBytes bytes l) := by
    rw [putReply, if_pos rfl]
    exact (writes_putInt _).andThen ((writes_putInt _).andThen (Writes.putAll hput l))
  rw [encodeReply, Bool.not_true, if_neg (by simp),
    hw.fill (by rw [length_newBytes, hsize]) (hsize ▸ size.toNat_lt)]
  rfl

/-- Encoding a reply under another code: the code, and then whatever the buffer contained. -/
theorem encodeReply_ne {size : UInt32} {code : Int32} {l : List α} (hcode : code ≠ 200)
    (hsize : 4 ≤ size.toNat) (heap : ℕ → UInt8) :
    encodeReply put true size code l heap =
      .ok (some (wireInt code ++ (newBytes heap size.toNat).drop 4)) := by
  have hw := writes_putInt code [] (newBytes heap size.toNat) 0 rfl
    (by rw [List.length_nil, length_newBytes, Nat.zero_add]; exact size.toNat_lt)
    (by rw [length_newBytes, length_wireInt]; exact hsize)
  rw [encodeReply, Bool.not_true, if_neg (by simp), putReply, if_neg hcode]
  simp only [List.nil_append, length_wireInt] at hw
  rw [hw]
  rfl

/-- **A reply under code 200 that has been encoded** is valid, and all of it has found room in a buffer of
the size that was computed. -/
theorem encodeReply_200_eq_ok {sizes : α → ℕ} (hput : ∀ a, (put a).Takes (sizes a)) {valid : Bool}
    {size : UInt32} {l : List α} {heap : ℕ → UInt8} {f : Frame}
    (h : encodeReply put valid size 200 l heap = .ok (some f)) :
    valid = true ∧ f.length = size.toNat ∧ 8 + (l.map sizes).sum ≤ size.toNat := by
  rw [encodeReply] at h
  split at h
  · exact absurd (Except.ok.inj h) nofun
  · rename_i hvalid
    have htakes : (putReply put 200 l).Takes (4 + (4 + (l.map sizes).sum)) := by
      rw [putReply, if_pos rfl]
      exact (takes_putBytes _).andThen ((takes_putBytes _).andThen (Put.Takes.putAll hput l))
    cases hc : putReply put 200 l ⟨newBytes heap size.toNat, 0⟩ with
    | error e =>
      rw [hc] at h
      exact absurd h nofun
    | ok c =>
      rw [hc] at h
      obtain rfl : c.buf = f := Option.some_inj.mp (Except.ok.inj h)
      obtain ⟨hpos, hle, hlen⟩ := htakes _ c (by rw [length_newBytes]; exact size.toNat_lt)
        (Nat.zero_le _) hc
      rw [length_newBytes] at hlen
      have hzero : (0 : UInt32).toNat = 0 := rfl
      refine ⟨by simpa using hvalid, hlen, ?_⟩
      dsimp only at hpos
      omega

/-- Only a reply that is not valid is encoded as a null pointer. -/
theorem encodeReply_ne_none (size : UInt32) (code : Int32) (l : List α) (heap : ℕ → UInt8) :
    encodeReply put true size code l heap ≠ .ok none := by
  rw [encodeReply, Bool.not_true, if_neg (by simp)]
  cases putReply put code l ⟨newBytes heap size.toNat, 0⟩ <;> simp [Except.map]

/-- **Decoding what was encoded**, with anything after it. -/
theorem getReply_replyBytes {bytes : α → Frame} {l : List α}
    (hget : ∀ a ∈ l, Reads get (bytes a) a) (hlt : (replyBytes bytes l).length < 2 ^ 32)
    (hcount : l.length < 2 ^ 31) (old : List α) (after : Frame) :
    getReply get old (replyBytes bytes l ++ after) 0 =
      .ok ((200, old ++ l), UInt32.ofNat (replyBytes bytes l).length) := by
  have hr : Reads (getReply get old) (replyBytes bytes l) (200, old ++ l) := by
    refine (reads_getInt 200).bind ?_
    rw [if_pos rfl]
    refine (reads_getInt _).bind ?_
    rw [toInt_ofNat_of_lt hcount, Int.toNat_natCast]
    exact (Reads.getAll hget old).map fun l ↦ ((200 : Int32), l)
  exact hr.run hlt after

end

/-- Under another code only the code is read. -/
theorem reads_code {β : Type} {g : Int32 → Get (Int32 × β)} {old : β} {code : Int32}
    (hcode : code ≠ 200) :
    Reads (getInt.bind fun code ↦ if code = 200 then g code else .pure (code, old)) (wireInt code)
      (code, old) := by
  have hbytes : wireInt code = wireInt code ++ [] := (List.append_nil _).symm
  rw [hbytes]
  refine (reads_getInt code).bind ?_
  rw [if_neg hcode]
  exact Reads.pure _

/-- Decoding a reply under another code. -/
theorem getReply_ne {α : Type} {get : Get α} {code : Int32} (hcode : code ≠ 200) (old : List α)
    (after : Frame) : getReply get old (wireInt code ++ after) 0 = .ok ((code, old), 4) :=
  (reads_code hcode).run (by simp) after

/-! ## `ListRFCResponse` -/

/-- The answer to LIST. -/
structure ListRFCResponse where
  /-- The response code. -/
  code : Int32 := 0
  /-- The associations. -/
  holders : List RFCHolder := []
  deriving DecidableEq, Repr

namespace ListRFCResponse

def isValid (res : ListRFCResponse) : Bool :=
  replyIsValid res.code
    (res.holders.all fun it ↦ !(it.peer.host.length == 0 || it.peer.port ≤ 0))

def messageSize (res : ListRFCResponse) : UInt32 :=
  replySize (res.holders.map fun it ↦ 4 + 4 + it.peer.host.length + 4)

/-- Pushes back to the holders the object already has. -/
def fromBytes (res : ListRFCResponse) (bytes : Frame) : Except Fault ListRFCResponse :=
  (getReply getHolder res.holders bytes 0).map fun r ↦ ⟨r.1.1, r.1.2⟩

def toBytes (res : ListRFCResponse) (heap : ℕ → UInt8) : Except Fault (Option Frame) :=
  encodeReply putHolder res.isValid res.messageSize res.code res.holders heap

end ListRFCResponse

/-! ## `LookupRFCResponse` -/

/-- The answer to LOOKUP. -/
structure LookupRFCResponse where
  /-- The response code. -/
  code : Int32 := 0
  /-- The clients that have the RFC. -/
  hosts : List Client := []
  deriving DecidableEq, Repr

namespace LookupRFCResponse

def isValid (res : LookupRFCResponse) : Bool :=
  replyIsValid res.code (res.hosts.all fun it ↦ !(it.host.length == 0 || it.port ≤ 0))

def messageSize (res : LookupRFCResponse) : UInt32 :=
  replySize (res.hosts.map fun it ↦ 4 + it.host.length + 4)

/-- Clears the hosts the object has, whatever the code turns out to be. -/
def fromBytes (_ : LookupRFCResponse) (bytes : Frame) : Except Fault LookupRFCResponse :=
  (getReply getClient [] bytes 0).map fun r ↦ ⟨r.1.1, r.1.2⟩

def toBytes (res : LookupRFCResponse) (heap : ℕ → UInt8) : Except Fault (Option Frame) :=
  encodeReply putClient res.isValid res.messageSize res.code res.hosts heap

end LookupRFCResponse

/-! ## Valid replies -/

/-- A client that may appear in a reply: a host that is not empty and a positive port. -/
structure Client.Listable (c : Client) : Prop where
  /-- The host is not empty. -/
  host_ne : c.host ≠ []
  /-- The port is positive. -/
  port_pos : 0 < c.port

instance (c : Client) : Decidable c.Listable :=
  decidable_of_iff (c.host ≠ [] ∧ 0 < c.port) ⟨fun h ↦ ⟨h.1, h.2⟩, fun h ↦ ⟨h.1, h.2⟩⟩

theorem listable_iff {c : Client} :
    (!(c.host.length == 0 || c.port ≤ 0)) = true ↔ c.Listable := by
  rw [Bool.not_eq_true', Bool.or_eq_false_iff, beq_eq_false_iff_ne, decide_eq_false_iff_not,
    Int32.not_le]
  exact ⟨fun h ↦ ⟨fun h0 ↦ h.1 (by rw [h0]; rfl), h.2⟩,
    fun h ↦ ⟨fun h0 ↦ h.host_ne (List.eq_nil_of_length_eq_zero h0), h.port_pos⟩⟩

/-- A reply under code 200 is valid when its elements are. -/
theorem replyIsValid_200 (ok : Bool) : replyIsValid 200 ok = ok := rfl

theorem ListRFCResponse.isValid_200 {l : List RFCHolder} :
    (ListRFCResponse.mk 200 l).isValid = true ↔ ∀ r ∈ l, r.peer.Listable := by
  rw [ListRFCResponse.isValid, replyIsValid_200, List.all_eq_true]
  exact forall₂_congr fun r _ ↦ listable_iff

theorem LookupRFCResponse.isValid_200 {l : List Client} :
    (LookupRFCResponse.mk 200 l).isValid = true ↔ ∀ c ∈ l, c.Listable := by
  rw [LookupRFCResponse.isValid, replyIsValid_200, List.all_eq_true]
  exact forall₂_congr fun c _ ↦ listable_iff

/-! ## Round trips -/

/-- The number of bytes of a LIST reply. -/
def listSize (l : List RFCHolder) : ℕ := 8 + (l.map fun it ↦ it.peer.host.length + 12).sum

/-- The number of bytes of a LOOKUP reply. -/
def lookupSize (l : List Client) : ℕ := 8 + (l.map fun it ↦ it.host.length + 8).sum

/-- A total bounds the number of elements, where each counts for something. -/
theorem length_le_sum {α : Type} (f : α → ℕ) (hf : ∀ a, 0 < f a) (l : List α) :
    l.length ≤ (l.map f).sum := by
  have h := List.length_le_sum_of_one_le (l.map f) (List.forall_mem_map.mpr fun a _ ↦ hf a)
  rwa [List.length_map] at h

namespace ListRFCResponse

variable {l : List RFCHolder}

theorem length_bytes (l : List RFCHolder) : (replyBytes holderBytes l).length = listSize l := by
  rw [length_replyBytes, listSize]
  simp only [length_holderBytes]

/-- `message_size` does not look at the code. -/
theorem toNat_messageSize_mod (code : Int32) (l : List RFCHolder) :
    (ListRFCResponse.mk code l).messageSize.toNat = listSize l % 2 ^ 32 := by
  have hmap : (l.map fun it ↦ 4 + 4 + it.peer.host.length + 4)
      = l.map fun it ↦ it.peer.host.length + 12 :=
    List.map_congr_left fun it _ ↦ by omega
  rw [messageSize, hmap]
  exact toNat_replySize_mod _

theorem toNat_messageSize (code : Int32) (h : listSize l < 2 ^ 32) :
    (ListRFCResponse.mk code l).messageSize.toNat = listSize l := by
  rw [toNat_messageSize_mod, Nat.mod_eq_of_lt h]

/-- **Encoding a list of associations.** -/
theorem toBytes_eq (hl : ∀ r ∈ l, r.peer.Listable) (hsize : listSize l < 2 ^ 32)
    (heap : ℕ → UInt8) :
    (ListRFCResponse.mk 200 l).toBytes heap = .ok (some (replyBytes holderBytes l)) := by
  rw [toBytes, isValid_200.mpr hl]
  exact encodeReply_200 writes_putHolder
    (by rw [toNat_messageSize 200 hsize, length_bytes]) heap

/-- A list of associations is read to its end. -/
theorem getReply_bytes (hl : ∀ r ∈ l, (0 : UInt8) ∉ r.peer.host) (hsize : listSize l < 2 ^ 31)
    (old : List RFCHolder) (after : Frame) :
    getReply getHolder old (replyBytes holderBytes l ++ after) 0 =
      .ok ((200, old ++ l), UInt32.ofNat (listSize l)) := by
  have hlen : l.length ≤ (l.map fun it ↦ it.peer.host.length + 12).sum :=
    length_le_sum _ (fun _ ↦ Nat.succ_pos _) l
  have hport : ∀ r ∈ l, r.peer.Portable := fun r hr ↦ ⟨hl r hr, by
    have hle : r.peer.host.length + 12 ≤ (l.map fun it ↦ it.peer.host.length + 12).sum :=
      List.le_sum_of_mem (List.mem_map_of_mem hr)
    rw [listSize] at hsize
    omega⟩
  rw [getReply_replyBytes (fun r hr ↦ reads_getHolder (hport r hr))
    (by rw [length_bytes]; omega) (by rw [listSize] at hsize; omega), length_bytes]

/-- **The round trip of a list of associations**: decoding on an object without holders, with
anything after the message. -/
theorem fromBytes_toBytes (hl : ∀ r ∈ l, (0 : UInt8) ∉ r.peer.host) (hsize : listSize l < 2 ^ 31)
    (code : Int32) (after : Frame) :
    (ListRFCResponse.mk code []).fromBytes (replyBytes holderBytes l ++ after) = .ok ⟨200, l⟩ := by
  rw [fromBytes, getReply_bytes hl hsize]
  rfl

/-- **A reply under code 404**: the code, and four bytes that nobody wrote. -/
theorem toBytes_404 (heap : ℕ → UInt8) : (ListRFCResponse.mk 404 []).toBytes heap =
    .ok (some (wireInt 404 ++ (newBytes heap 8).drop 4)) :=
  encodeReply_ne (by decide) (show 4 ≤ (replySize []).toNat by decide) heap

theorem fromBytes_404 (code : Int32) (after : Frame) :
    (ListRFCResponse.mk code []).fromBytes (wireInt 404 ++ after) = .ok ⟨404, []⟩ := by
  rw [fromBytes, getReply_ne (by decide)]
  rfl

end ListRFCResponse

namespace LookupRFCResponse

variable {l : List Client}

theorem length_bytes (l : List Client) : (replyBytes clientBytes l).length = lookupSize l := by
  rw [length_replyBytes, lookupSize]
  simp only [length_clientBytes]

theorem toNat_messageSize_mod (code : Int32) (l : List Client) :
    (LookupRFCResponse.mk code l).messageSize.toNat = lookupSize l % 2 ^ 32 := by
  have hmap : (l.map fun it ↦ 4 + it.host.length + 4) = l.map fun it ↦ it.host.length + 8 :=
    List.map_congr_left fun it _ ↦ by omega
  rw [messageSize, hmap]
  exact toNat_replySize_mod _

theorem toNat_messageSize (code : Int32) (h : lookupSize l < 2 ^ 32) :
    (LookupRFCResponse.mk code l).messageSize.toNat = lookupSize l := by
  rw [toNat_messageSize_mod, Nat.mod_eq_of_lt h]

/-- **Encoding a list of clients.** -/
theorem toBytes_eq (hl : ∀ c ∈ l, c.Listable) (hsize : lookupSize l < 2 ^ 32)
    (heap : ℕ → UInt8) :
    (LookupRFCResponse.mk 200 l).toBytes heap = .ok (some (replyBytes clientBytes l)) := by
  rw [toBytes, isValid_200.mpr hl]
  exact encodeReply_200 writes_putClient
    (by rw [toNat_messageSize 200 hsize, length_bytes]) heap

/-- A list of clients is read to its end. -/
theorem getReply_bytes (hl : ∀ c ∈ l, (0 : UInt8) ∉ c.host) (hsize : lookupSize l < 2 ^ 31)
    (old : List Client) (after : Frame) :
    getReply getClient old (replyBytes clientBytes l ++ after) 0 =
      .ok ((200, old ++ l), UInt32.ofNat (lookupSize l)) := by
  have hlen : l.length ≤ (l.map fun it ↦ it.host.length + 8).sum :=
    length_le_sum _ (fun _ ↦ Nat.succ_pos _) l
  have hport : ∀ c ∈ l, c.Portable := fun c hc ↦ ⟨hl c hc, by
    have hle : c.host.length + 8 ≤ (l.map fun it ↦ it.host.length + 8).sum :=
      List.le_sum_of_mem (List.mem_map_of_mem hc)
    rw [lookupSize] at hsize
    omega⟩
  rw [getReply_replyBytes (fun c hc ↦ reads_getClient (hport c hc))
    (by rw [length_bytes]; omega) (by rw [lookupSize] at hsize; omega), length_bytes]

/-- **The round trip of a list of clients.** -/
theorem fromBytes_toBytes (hl : ∀ c ∈ l, (0 : UInt8) ∉ c.host) (hsize : lookupSize l < 2 ^ 31)
    (res : LookupRFCResponse) (after : Frame) :
    res.fromBytes (replyBytes clientBytes l ++ after) = .ok ⟨200, l⟩ := by
  rw [fromBytes, getReply_bytes hl hsize]
  rfl

/-- **A reply under code 404.** -/
theorem toBytes_404 (heap : ℕ → UInt8) : (LookupRFCResponse.mk 404 []).toBytes heap =
    .ok (some (wireInt 404 ++ (newBytes heap 8).drop 4)) :=
  encodeReply_ne (by decide) (show 4 ≤ (replySize []).toNat by decide) heap

theorem fromBytes_404 (res : LookupRFCResponse) (after : Frame) :
    res.fromBytes (wireInt 404 ++ after) = .ok ⟨404, []⟩ := by
  rw [fromBytes, getReply_ne (by decide)]
  rfl

end LookupRFCResponse

end RfcNet
