import RfcNet.Messages.Framing
import RfcNet.Retrieval

/-!
# The answers to GET

The content of a file goes out under its length and comes in through a C string.
`GetRFCResponse.roundTrips_iff` is that it comes through, byte for byte, exactly where there is no NUL
in it.

On the serving side the content is what `get_content` makes of a file, and the reply is what
`to_bytes` makes of the content.  A number that has no file is answered under code 404.  A file is
answered with its content if it is not empty, if its size is an `int`, and if neither reading it nor
decoding it stops early (`answers_iff`).  An empty file is valid for the directory and not for the
encoder: the handler then sends from a null pointer.
-/

set_option autoImplicit false

namespace RfcNet

open Lib RFCManager

/-! ## The round trip -/

theorem local_getResponse (old : StdString) : (getResponse old).Local := by
  refine local_getInt.bind fun code ↦ ?_
  split
  · refine local_getInt.bind fun length ↦ ?_
    split
    · exact Get.local_fail _
    · exact (local_getBytes _).bind fun _ ↦ Get.local_pure _
  · exact Get.local_pure _

namespace GetRFCResponse

variable {content : StdString}

/-- **A content makes the round trip**: it is encoded, and with anything after it, it is decoded to
itself.  The decoder comes to the end of the message, and it cannot do with less. -/
def RoundTrips (content : StdString) : Prop :=
  ∀ (heap : ℕ → UInt8) (after : Frame), ∃ f,
    (GetRFCResponse.mk 200 content).toBytes heap = .ok (some f) ∧
    f.length = (GetRFCResponse.mk 200 content).messageSize.toNat ∧
    GetRFCResponse.fromBytes {} (f ++ after) = .ok ⟨200, content⟩ ∧
    (getResponse [] (f ++ after) 0).map Prod.snd =
      .ok (GetRFCResponse.mk 200 content).messageSize ∧
    ∀ n < f.length, ∃ e, GetRFCResponse.fromBytes {} (f.take n) = .error e

/-- Less than the message is not decoded. -/
theorem fromBytes_take (h : 8 + content.length < 2 ^ 31) {n : ℕ} (hn : n < (contentBytes content).length) :
    ∃ e, GetRFCResponse.fromBytes {} ((contentBytes content).take n) = .error e := by
  have hlen := length_contentBytes content
  have hreads : Reads (getResponse []) (contentBytes content) (200, cString content) :=
    reads_getResponse (by omega) []
  have hget := hreads.run (by omega) []
  rw [List.append_nil] at hget
  obtain ⟨e, he⟩ := (local_getResponse []).error_of_take (by omega) hget hn
  exact ⟨e, by rw [fromBytes, he]; rfl⟩

/-- **The round trip of a content** that is not empty and whose size is an `int`. -/
theorem roundTrips_iff (hne : 0 < content.length) (hlt : content.length < 2 ^ 31 - 8) :
    RoundTrips content ↔ (0 : UInt8) ∉ content := by
  have hne' : content ≠ [] := List.ne_nil_of_length_pos hne
  have hbytes := toBytes_200 hne' (by omega : 8 + content.length < 2 ^ 32)
  have hsize : (GetRFCResponse.mk 200 content).messageSize.toNat = 8 + content.length :=
    toNat_messageSize 200 (by omega)
  rw [← cString_eq_self_iff]
  constructor
  · intro h
    obtain ⟨f, hf, -, hdecode, -⟩ := h (fun _ ↦ 0) []
    obtain rfl : contentBytes content = f :=
      Option.some_inj.mp (Except.ok.inj ((hbytes _).symm.trans hf))
    rw [fromBytes_contentBytes (by omega)] at hdecode
    exact (GetRFCResponse.mk.inj (Except.ok.inj hdecode)).2
  · intro hself heap after
    refine ⟨contentBytes content, hbytes heap, ?_, ?_, ?_, fun n hn ↦ fromBytes_take (by omega) hn⟩
    · rw [hsize, length_contentBytes]
    · rw [fromBytes_contentBytes (by omega), hself]
    · rw [(reads_getResponse (by omega) []).run (by rw [length_contentBytes]; omega), Except.map,
        length_contentBytes, ← hsize, UInt32.ofNat_toNat]

/-- One byte. -/
theorem roundTrips_one : RoundTrips [97] := (roundTrips_iff (by decide) (by decide)).mpr (by decide)

/-- A NUL after one byte: the content ends before it. -/
theorem not_roundTrips_nul : ¬ RoundTrips [97, 0, 98] := by
  intro h
  obtain ⟨f, hf, -, hdecode, -⟩ := h (fun _ ↦ 0) []
  rw [toBytes_200 (by decide) (by decide)] at hf
  obtain rfl := Option.some_inj.mp (Except.ok.inj hf)
  rw [fromBytes_contentBytes (by decide)] at hdecode
  exact absurd hdecode (by decide)

end GetRFCResponse

/-! ## The handler and the requester -/

/-- **A GET for `m` is answered correctly**: the handler sends a reply, and what the requester decodes
is code 200 and the content of the file, or code 404 if there is none. -/
def Answers (d : Directory) (m : Int16) : Prop :=
  ∀ heap, ∃ (len : Int32) (f : Frame) (res : GetRFCResponse),
    serveGet.Exec [wireShort m] [⟨.getContent m.toInt32, getContent d m.toInt32⟩,
      ⟨.newBytes (contentReply (getContent d m.toInt32)).messageSize.toNat, heap⟩]
      [wireInt len, f] () ∧
    awaitGet.Exec [wireInt len, f] [] [] res ∧
    match d.lookup (fileName m.toInt32) with
    | some content => res = ⟨200, content⟩
    | none => res.code = 404

section
variable {d : Directory} {m : Int16} {content : StdString}

theorem exec_serveGet {content : Option StdString} {calls : List peerSig.Call} {outs : List Frame}
    (h : (respond content).Exec [] calls outs ()) :
    serveGet.Exec [wireShort m] (⟨.getContent m.toInt32, content⟩ :: calls) outs () := by
  have hrun := (runs_serveGet m content).trans h
  rwa [List.append_nil] at hrun

/-- A number without a file. -/
theorem answers_of_none (h : d.lookup (fileName m.toInt32) = none) : Answers d m := by
  intro heap
  have hread : getContent d m.toInt32 = none := by rw [getContent, h, Option.map_none]
  rw [hread, h]
  refine ⟨8, wireInt 404 ++ (newBytes heap 8).drop 4, ⟨404, []⟩, ?_, ?_, rfl⟩
  · exact exec_serveGet (exec_respond_none heap)
  · have hlen : (wireInt 404 ++ (newBytes heap 8).drop 4).length = 8 := by simp
    have hdecode : GetRFCResponse.fromBytes {} (wireInt 404 ++ (newBytes heap 8).drop 4) =
        .ok ⟨404, []⟩ := GetRFCResponse.fromBytes_ne (by decide) {} _
    have hawait := exec_awaitGet (by omega) hdecode
    rwa [hlen] at hawait

/-- What is sent for a content, and what is made of it. -/
theorem exec_serveGet_some (hread : getContent d m.toInt32 = some content) (hne : content ≠ [])
    (hlt : 8 + content.length < 2 ^ 31) (heap : ℕ → UInt8) :
    serveGet.Exec [wireShort m] [⟨.getContent m.toInt32, getContent d m.toInt32⟩,
      ⟨.newBytes (contentReply (getContent d m.toInt32)).messageSize.toNat, heap⟩]
      [wireInt (Int32.ofNat (contentBytes content).length), contentBytes content] () ∧
    awaitGet.Exec [wireInt (Int32.ofNat (contentBytes content).length), contentBytes content] [] []
      ⟨200, cString content⟩ := by
  rw [hread]
  refine ⟨exec_serveGet (exec_respond_some hne hlt heap), exec_awaitGet ?_ ?_⟩
  · rw [length_contentBytes]
    exact hlt
  · have hdecode := GetRFCResponse.fromBytes_contentBytes hlt {} []
    rwa [List.append_nil] at hdecode

/-- A content that cannot be sent. -/
theorem not_answers_of_unsent (hread : getContent d m.toInt32 = some content)
    (h : content = [] ∨ 2 ^ 31 ≤ 8 + content.length) : ¬ Answers d m := by
  intro hanswers
  obtain ⟨len, f, res, hexec, -⟩ := hanswers fun _ ↦ 0
  rw [hread] at hexec
  have hserve := runs_serveGet m (some content)
  rcases h with rfl | hlarge
  · exact (hserve.trans (runs_respond_nil fun _ ↦ 0)).not_exec hexec
  · obtain ⟨outs, e, hrespond⟩ := runs_respond_large hlarge fun _ ↦ 0
    exact (hserve.trans hrespond).not_exec hexec

/-- **A file is answered** exactly where it is a text. -/
theorem answers_iff_of_lookup (h : d.lookup (fileName m.toInt32) = some content) :
    Answers d m ↔ IsText content := by
  have hread : getContent d m.toInt32 = some (untilEof content) := by
    rw [getContent, h, Option.map_some]
  by_cases hsent : untilEof content = [] ∨ 2 ^ 31 ≤ 8 + (untilEof content).length
  · refine iff_of_false (not_answers_of_unsent hread hsent) fun htext ↦ ?_
    have hlt := htext.length_lt
    rw [untilEof_eq_self htext.noEof] at hsent
    rcases hsent with hnil | hlarge
    · exact htext.ne_nil hnil
    · omega
  · obtain ⟨hne, hlarge⟩ := not_or.mp hsent
    have hexec := exec_serveGet_some hread hne (by omega)
    constructor
    · intro hanswers
      obtain ⟨len, f, res, hserve, hawait, hres⟩ := hanswers fun _ ↦ 0
      rw [h] at hres
      obtain ⟨houts, -⟩ := Prog.Exec.unique (hexec fun _ ↦ 0).1 hserve
      rw [← houts] at hawait
      obtain ⟨-, hdecoded⟩ := Prog.Exec.unique (hexec fun _ ↦ 0).2 hawait
      have hsame := (GetRFCResponse.mk.inj (hdecoded.trans hres)).2
      obtain ⟨hnul, hfull⟩ := takeWhile_takeWhile_eq_self_iff.mp hsame
      rw [show untilEof content = content from hfull] at hne hlarge
      exact ⟨hne, by omega, cString_eq_self_iff.mp hnul, untilEof_eq_self_iff.mp hfull⟩
    · intro htext heap
      have hfull := untilEof_eq_self htext.noEof
      have hsame := cString_eq_self htext.noNul
      rw [h]
      have hboth := hexec heap
      rw [hfull, hsame] at hboth
      exact ⟨_, _, _, hboth.1, hboth.2, rfl⟩

/-- **Every GET is answered correctly** exactly where there is no file for its number, or a text. -/
theorem answers_iff (d : Directory) (m : Int16) :
    Answers d m ↔ ∀ content, d.lookup (fileName m.toInt32) = some content → IsText content := by
  cases h : d.lookup (fileName m.toInt32) with
  | none => exact iff_of_true (answers_of_none h) nofun
  | some content =>
    rw [answers_iff_of_lookup h]
    constructor
    · rintro htext _ ⟨⟩
      exact htext
    · intro hall
      exact hall content rfl

/-- An empty file. -/
theorem not_answers_empty :
    ¬ Answers (AList.insert (fileName 7) ([] : StdString) (∅ : Directory)) 7 := by
  have hlookup : (AList.insert (fileName 7) ([] : StdString) (∅ : Directory)).lookup
      (fileName (7 : Int16).toInt32) = some [] := AList.lookup_insert _
  rw [answers_iff_of_lookup hlookup]
  exact fun htext ↦ htext.ne_nil rfl

end

end RfcNet
