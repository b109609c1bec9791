import RfcNet.Common
import RfcNet.Messages.Lists

/-!
# The messages between peers

`GetRFCMessage` is one `short`.  `GetRFCResponse` is a code and, under code 200, the length of the
content and the content.  The decoder makes a C string of the content, so it ends at the first NUL.
-/

set_option autoImplicit false

namespace RfcNet

open Lib

/-! ## `GetRFCMessage` -/

/-- The request for the content of an RFC. -/
structure GetRFCMessage where
  /-- The RFC's number. -/
  number : Int16 := 0
  deriving DecidableEq, Repr

namespace GetRFCMessage

def isValid (msg : GetRFCMessage) : Bool := msg.number > 0

def messageSize (_ : GetRFCMessage) : ℕ := sizeofShort

def fromBytes (_ : GetRFCMessage) (bytes : Frame) : Except Fault GetRFCMessage :=
  (getShort bytes 0).map fun r ↦ ⟨r.1⟩

def toBytes (msg : GetRFCMessage) (heap : ℕ → UInt8) : Except Fault (Option Frame) :=
  if !msg.isValid then .ok none
  else (putShort msg.number ⟨newBytes heap msg.messageSize, 0⟩).map fun c ↦ some c.buf

/-- A valid message is the bytes of its number. -/
theorem toBytes_of_pos {number : Int16} (h : 0 < number) (heap : ℕ → UInt8) :
    (GetRFCMessage.mk number).toBytes heap = .ok (some (wireShort number)) := by
  have hvalid : (GetRFCMessage.mk number).isValid = true := decide_eq_true h
  rw [toBytes, hvalid, Bool.not_true, if_neg (by simp),
    (writes_putShort number).fill (by simp [messageSize, sizeofShort]) (by simp)]
  rfl

/-- Any other is a null pointer. -/
theorem toBytes_of_not_pos {number : Int16} (h : ¬ 0 < number) (heap : ℕ → UInt8) :
    (GetRFCMessage.mk number).toBytes heap = .ok none := by
  have hvalid : (GetRFCMessage.mk number).isValid = false := decide_eq_false h
  rw [toBytes, hvalid, Bool.not_false, if_pos rfl]

theorem fromBytes_wireShort (msg : GetRFCMessage) (x : Int16) :
    msg.fromBytes (wireShort x) = .ok ⟨x⟩ := by
  have h := (reads_getShort x).run (by simp) []
  rw [List.append_nil] at h
  rw [fromBytes, h]
  rfl

end GetRFCMessage

/-! ## `GetRFCResponse` -/

/-- The answer to it. -/
structure GetRFCResponse where
  /-- The response code. -/
  code : Int32 := 0
  /-- The content of the RFC. -/
  content : StdString := []
  deriving DecidableEq, Repr

/-- The writes of a response. -/
def putResponse (code : Int32) (content : StdString) : Put :=
  if code = 200 then
    (putInt code).andThen ((putInt (Int32.ofNat content.length)).andThen (putBytes content))
  else putInt code

/-- The reads of a response, over an object that holds `old`.  A negative length is an allocation of a
negative size, or a copy of one. -/
def getResponse (old : StdString) : Get (Int32 × StdString) :=
  getInt.bind fun code ↦
    if code = 200 then
      getInt.bind fun length ↦
        if length < 0 then .fail .negativeLength
        else (getBytes length.toInt.toNat).bind fun content ↦ .pure (code, cString content)
    else .pure (code, old)

/-- The bytes of a response under code 200. -/
def contentBytes (content : StdString) : Frame :=
  wireInt 200 ++ (wireInt (Int32.ofNat content.length) ++ content)

theorem length_contentBytes (content : StdString) :
    (contentBytes content).length = 8 + content.length := by
  simp only [contentBytes, List.length_append, length_wireInt]
  omega

namespace GetRFCResponse

def isValid (res : GetRFCResponse) : Bool := replyIsValid res.code (!(res.content.length ≤ 0))

def messageSize (res : GetRFCResponse) : UInt32 := UInt32.ofNat (4 + 4 + res.content.length)

def fromBytes (res : GetRFCResponse) (bytes : Frame) : Except Fault GetRFCResponse :=
  (getResponse res.content bytes 0).map fun r ↦ ⟨r.1.1, r.1.2⟩

def toBytes (res : GetRFCResponse) (heap : ℕ → UInt8) : Except Fault (Option Frame) :=
  if !res.isValid then .ok none
  else (putResponse res.code res.content ⟨newBytes heap res.messageSize.toNat, 0⟩).map fun c ↦
    some c.buf

variable {content : StdString}

theorem isValid_200 : (GetRFCResponse.mk 200 content).isValid = true ↔ content ≠ [] := by
  rw [isValid, replyIsValid_200, Bool.not_eq_true', decide_eq_false_iff_not, Nat.le_zero,
    List.length_eq_zero_iff]

theorem writes_putResponse (content : StdString) :
    Writes (putResponse 200 content) (contentBytes content) := by
  rw [putResponse, if_pos rfl]
  exact (writes_putInt _).andThen ((writes_putInt _).andThen (writes_putBytes _))

theorem toNat_messageSize (code : Int32) (h : 8 + content.length < 2 ^ 32) :
    (GetRFCResponse.mk code content).messageSize.toNat = 8 + content.length :=
  UInt32.toNat_ofNat_of_lt' h

/-- **Encoding a content.** -/
theorem toBytes_200 (hne : content ≠ []) (hsize : 8 + content.length < 2 ^ 32) (heap : ℕ → UInt8) :
    (GetRFCResponse.mk 200 content).toBytes heap = .ok (some (contentBytes content)) := by
  have hsize' := toNat_messageSize 200 hsize
  rw [toBytes, isValid_200.mpr hne, Bool.not_true, if_neg (by simp),
    (writes_putResponse content).fill (by rw [length_newBytes, hsize', length_contentBytes])
      (by rw [length_contentBytes]; exact hsize)]
  rfl

/-- An empty content is a null pointer. -/
theorem toBytes_nil (heap : ℕ → UInt8) : (GetRFCResponse.mk 200 []).toBytes heap = .ok none := rfl

/-- A content whose size is no `unsigned int` does not fit into its own buffer. -/
theorem toBytes_of_large (hsize : 2 ^ 32 ≤ 8 + content.length) (heap : ℕ → UInt8) :
    ∃ e, (GetRFCResponse.mk 200 content).toBytes heap = .error e := by
  have hne : content ≠ [] := by
    rintro rfl
    simp at hsize
  have hlt := (GetRFCResponse.mk 200 content).messageSize.toNat_lt
  rw [toBytes, isValid_200.mpr hne, Bool.not_true, if_neg (by simp), putResponse, if_pos rfl]
  cases hput : (putInt 200).andThen
      ((putInt (Int32.ofNat content.length)).andThen (putBytes content))
      ⟨newBytes heap (GetRFCResponse.mk 200 content).messageSize.toNat, 0⟩ with
  | error e => exact ⟨e, rfl⟩
  | ok c =>
    obtain ⟨c₁, hcode, hrest⟩ := Put.andThen_eq_ok.mp hput
    obtain ⟨c₂, hlength, hcontent⟩ := Put.andThen_eq_ok.mp hrest
    obtain ⟨-, hbuf₁, hpos₁⟩ := putBytes_eq_ok hcode
    obtain ⟨-, hbuf₂, hpos₂⟩ := putBytes_eq_ok hlength
    obtain ⟨hfit, -, -⟩ := putBytes_eq_ok hcontent
    have hpos : c₂.pos = 8 := by
      rw [hpos₂, hpos₁, length_wireInt, length_wireInt]
      rfl
    rw [hpos, hbuf₂, hbuf₁, length_newBytes] at hfit
    have height : (8 : UInt32).toNat = 8 := rfl
    omega

/-- The response under code 404: the code, and four bytes that nobody wrote. -/
theorem toBytes_404 (heap : ℕ → UInt8) : (GetRFCResponse.mk 404 []).toBytes heap =
    .ok (some (wireInt 404 ++ (newBytes heap 8).drop 4)) := by
  have hsize : (GetRFCResponse.mk 404 []).messageSize.toNat = 8 := rfl
  have hw := writes_putInt 404 [] (newBytes heap 8) 0 rfl (by simp) (by simp)
  simp only [List.nil_append, length_wireInt] at hw
  rw [toBytes, hsize, show (GetRFCResponse.mk 404 []).isValid = true from rfl, Bool.not_true,
    if_neg (by simp), putResponse, if_neg (by decide), hw]
  rfl

theorem reads_getResponse (h : content.length < 2 ^ 31) (old : StdString) :
    Reads (getResponse old) (contentBytes content) (200, cString content) := by
  have hlen : (Int32.ofNat content.length).toInt = content.length := toInt_ofNat_of_lt h
  refine (reads_getInt 200).bind ?_
  rw [if_pos rfl]
  refine (reads_getInt _).bind ?_
  rw [if_neg (ofNat_not_neg h), hlen, Int.toNat_natCast]
  exact (reads_getBytes content).map fun c ↦ ((200 : Int32), cString c)

/-- **Decoding a content**: it ends at the first NUL. -/
theorem fromBytes_contentBytes (h : 8 + content.length < 2 ^ 31) (res : GetRFCResponse)
    (after : Frame) :
    res.fromBytes (contentBytes content ++ after) = .ok ⟨200, cString content⟩ := by
  rw [fromBytes, (reads_getResponse (by omega) res.content).run (by rw [length_contentBytes]; omega)]
  rfl

/-- Decoding another code leaves the content as it is. -/
theorem fromBytes_ne {code : Int32} (hcode : code ≠ 200) (res : GetRFCResponse) (after : Frame) :
    res.fromBytes (wireInt code ++ after) = .ok ⟨code, res.content⟩ := by
  have hreads : Reads (getResponse res.content) (wireInt code) (code, res.content) := reads_code hcode
  rw [fromBytes, hreads.run (by simp)]
  rfl

/-- The bytes of a response under any code. -/
def bytes (code : Int32) (content : StdString) : Frame :=
  if code = 200 then contentBytes content else wireInt code

/-- **What is there is decoded.** -/
theorem fromBytes_bytes {code : Int32} {content : StdString} {rest : Frame}
    (hsize : (bytes code content ++ rest).length < 2 ^ 31) :
    GetRFCResponse.fromBytes {} (bytes code content ++ rest) =
      .ok ⟨code, if code = 200 then cString content else []⟩ := by
  by_cases hcode : code = 200
  · subst hcode
    rw [bytes, if_pos rfl, List.length_append, length_contentBytes] at hsize
    rw [bytes, if_pos rfl, if_pos rfl, fromBytes_contentBytes (by omega)]
  · rw [bytes, if_neg hcode, if_neg hcode, fromBytes_ne hcode]

end GetRFCResponse

end RfcNet
