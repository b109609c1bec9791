import RfcNet.Messages.Grammar
import RfcNet.Messages.Written

/-!
# Decoding into an object that has been used

`from_bytes` sets the fields of an object that may already hold another message.  Each class treats
the fields it finds in its own way.  `LookupRFCResponse` clears its list first.  `GetRFCResponse`
leaves the content as it is under a code other than 200.  `ListRFCResponse` never clears its list:
it pushes back to what is there, and decoding a reply twice gives every association twice.

`decoding_overwrites_iff` says for which objects and messages decoding overwrites.
-/

set_option autoImplicit false

namespace RfcNet

open Lib

/-! ## What an encoding is read as -/

section
variable {α ρ : Type} {get : Get α} {fits : ρ → Prop} {bytes : ρ → Frame} {view : ρ → α}

/-- **What a reply is read as**: under code 200 the elements that its bytes spell, after those the
object has, and under any other code those the object has. -/
theorem exists_getReply_bytesOfReply_iff
    (h : get.Spells fun bs a ↦ ∃ r, fits r ∧ bs = bytes r ∧ a = view r)
    {code : Int32} {l : List ρ} {rest : Frame} (old : List α) (r : Int32 × List α)
    (hlt : (bytesOfReply bytes code l ++ rest).length < 2 ^ 32) :
    (∃ pos', getReply get old (bytesOfReply bytes code l ++ rest) 0 = .ok (r, pos')) ↔
      r.1 = code ∧ (code ≠ 200 → r.2 = old) ∧ (code = 200 → ∃ (rs : List ρ) (rest' : Frame),
        rs.length = (Int32.ofNat l.length).toInt.toNat ∧ (∀ x ∈ rs, fits x) ∧
        l.flatMap bytes ++ rest = rs.flatMap bytes ++ rest' ∧ r.2 = old ++ rs.map view) := by
  rw [(spells_getReply h old).run hlt]
  have hhead : ∀ {c tail}, bytesOfReply bytes code l ++ rest = wireInt c ++ tail → c = code := by
    intro c tail heq
    rw [bytesOfReply] at heq
    split at heq
    · rename_i hcode
      rw [replyBytes, List.append_assoc] at heq
      rw [← wireInt_injective (List.append_inj_left heq (by simp)), hcode]
    · exact (wireInt_injective (List.append_inj_left heq (by simp))).symm
  constructor
  · rintro ⟨bs, rest', hf, ⟨hcode, hbs, hl⟩ | ⟨hcode, count, rs, hlen, hfits, hbs, hl⟩⟩
    · rw [hbs] at hf
      have heq := hhead hf
      exact ⟨heq, fun _ ↦ hl, fun h200 ↦ absurd (heq.trans h200) hcode⟩
    · rw [hbs, List.append_assoc] at hf
      have h200 : code = 200 := (hhead hf).symm
      rw [bytesOfReply, if_pos h200, replyBytes] at hf
      simp only [List.append_assoc] at hf
      have htail := List.append_cancel_left hf
      refine ⟨hcode.trans h200.symm, fun hne ↦ absurd h200 hne, fun _ ↦ ⟨rs, rest', ?_, hfits, ?_, hl⟩⟩
      · rw [hlen, wireInt_injective (List.append_inj_left htail (by simp))]
      · exact List.append_inj_right htail (by simp)
  · rintro ⟨hcode, hne, heq⟩
    by_cases h200 : code = 200
    · obtain ⟨rs, rest', hlen, hfits, htail, hl⟩ := heq h200
      refine ⟨wireInt 200 ++ (wireInt (Int32.ofNat l.length) ++ rs.flatMap bytes), rest', ?_,
        Or.inr ⟨hcode.trans h200, _, rs, hlen, hfits, rfl, hl⟩⟩
      rw [bytesOfReply, if_pos h200, replyBytes]
      simp only [List.append_assoc, htail]
    · refine ⟨wireInt code, rest, ?_, Or.inl ⟨hcode ▸ h200, by rw [hcode], hne h200⟩⟩
      rw [bytesOfReply, if_neg h200]

end

theorem toNat_toUInt32_ofNat {n : ℕ} (h : n < 2 ^ 32) : (Int32.ofNat n).toUInt32.toNat = n := by
  rw [← UInt32.toInt32_ofNat', UInt32.toUInt32_toInt32, UInt32.toNat_ofNat_of_lt' h]

/-- Lengths below `2 ^ 32` that have the same bytes are the same. -/
theorem wireInt_ofNat_inj {m n : ℕ} (hm : m < 2 ^ 32) (hn : n < 2 ^ 32)
    (h : wireInt (Int32.ofNat m) = wireInt (Int32.ofNat n)) : m = n := by
  rw [← toNat_toUInt32_ofNat hm, wireInt_injective h, toNat_toUInt32_ofNat hn]

/-- Bytes of two clients that agree are bytes of the same client. -/
theorem clientBytes_append_inj {it it' : Client} {rest rest' : Frame} (hlt : it.host.length < 2 ^ 32)
    (hlt' : it'.host.length < 2 ^ 32) (h : clientBytes it ++ rest = clientBytes it' ++ rest') :
    it = it' ∧ rest = rest' := by
  simp only [clientBytes, List.append_assoc] at h
  have hnat := wireInt_ofNat_inj hlt hlt' (List.append_inj_left h (by simp))
  have htail := List.append_inj_right h (by simp)
  have hhost := List.append_inj_left htail hnat
  have htail' := List.append_inj_right htail hnat
  have hport := wireInt_injective (List.append_inj_left htail' (by simp))
  obtain ⟨host, port⟩ := it
  obtain ⟨host', port'⟩ := it'
  exact ⟨by rw [show host = host' from hhost, show port = port' from hport],
    List.append_inj_right htail' (by simp)⟩

/-- And so for as many clients. -/
theorem flatMap_clientBytes_inj {l l' : List Client} {rest rest' : Frame}
    (hlt : ∀ c ∈ l, c.host.length < 2 ^ 32) (hlt' : ∀ c ∈ l', c.host.length < 2 ^ 32)
    (hlen : l.length = l'.length)
    (h : l.flatMap clientBytes ++ rest = l'.flatMap clientBytes ++ rest') : l = l' := by
  induction l generalizing l' with
  | nil => exact (List.eq_nil_of_length_eq_zero hlen.symm).symm
  | cons c l ih =>
    obtain ⟨c', l', rfl⟩ := List.exists_cons_of_length_eq_add_one hlen.symm
    rw [List.forall_mem_cons] at hlt hlt'
    simp only [List.flatMap_cons, List.append_assoc] at h
    obtain ⟨rfl, htail⟩ := clientBytes_append_inj hlt.1 hlt'.1 h
    rw [ih hlt.2 hlt'.2 (by simpa using hlen) htail]

/-! ## Overwriting -/

namespace AbstMessage

/-- No entries and no content under a code other than 200. -/
def Tidy : AbstMessage → Prop
  | getRFCResponse res => res.code ≠ 200 → res.content = []
  | lookupRFCResponse res => res.code ≠ 200 → res.hosts = []
  | listRFCResponse res => res.code ≠ 200 → res.holders = []
  | _ => True

/-- **Decoding overwrites**: `old` and a newly constructed object come to the same state, decoding
again leaves it as it is, and nothing of an earlier reply is left under a code other than 200. -/
def Overwrites (old : AbstMessage) (f : Frame) : Prop :=
  ∃ res, old.fresh.fromBytes f = .ok res ∧ old.fromBytes f = .ok res ∧ res.fromBytes f = .ok res ∧
    res.Tidy

/-- The objects and messages for which decoding overwrites.  Lengths have to be `int`s, content has to
be replaced, and a list has to be empty before and after. -/
def Renewed : AbstMessage → AbstMessage → Prop
  | getRFCResponse old, getRFCResponse res =>
    if res.code = 200 then res.content.length < 2 ^ 31 else old.content = []
  | lookupRFCResponse _, lookupRFCResponse res =>
    res.code = 200 → ∀ c ∈ res.hosts, c.host.length < 2 ^ 31
  | listRFCResponse old, listRFCResponse res =>
    old.holders = [] ∧ (res.code = 200 → res.holders = [])
  | _, _ => True

end AbstMessage

section
variable {ρ : Type} (mk : ρ → AbstMessage) (dec : ρ → Frame → Except Fault ρ) (new : ρ)
  (hmk : Function.Injective mk) (hdec : ∀ a f, (mk a).fromBytes f = (dec a f).map mk)
  (hnew : ∀ a, (mk a).fresh = mk new)
include hmk hdec hnew

/-- Overwriting, for a class that is the constructor `mk` and has the decoder `dec`. -/
theorem overwrites_mk_iff (old : ρ) (f : Frame) : (mk old).Overwrites f ↔
    ∃ res, dec new f = .ok res ∧ dec old f = .ok res ∧ dec res f = .ok res ∧ (mk res).Tidy := by
  have hmap : ∀ a r, (mk a).fromBytes f = .ok (mk r) ↔ dec a f = .ok r := by
    intro a r
    rw [hdec, map_eq_ok_iff]
    constructor
    · rintro ⟨b, hb, heq⟩
      rwa [← hmk heq]
    · intro h
      exact ⟨r, h, rfl⟩
  constructor
  · rintro ⟨res, hfresh, hold, hagain, htidy⟩
    obtain ⟨r, -, rfl⟩ := map_eq_ok_iff.mp ((hdec old f).symm.trans hold)
    rw [hnew] at hfresh
    exact ⟨r, (hmap new r).mp hfresh, (hmap old r).mp hold, (hmap r r).mp hagain, htidy⟩
  · rintro ⟨r, hfresh, hold, hagain, htidy⟩
    refine ⟨mk r, ?_, (hmap old r).mpr hold, (hmap r r).mpr hagain, htidy⟩
    rw [hnew]
    exact (hmap new r).mpr hfresh

/-- A class whose decoder does not look at the object. -/
theorem overwrites_mk_iff_of_const (hconst : ∀ a b, dec a = dec b) (old : ρ) (f : Frame) :
    (mk old).Overwrites f ↔ ∃ res, dec old f = .ok res ∧ (mk res).Tidy := by
  rw [overwrites_mk_iff mk dec new hmk hdec hnew]
  constructor
  · rintro ⟨res, -, hold, -, htidy⟩
    exact ⟨res, hold, htidy⟩
  · rintro ⟨res, hold, htidy⟩
    exact ⟨res, hconst new old ▸ hold, hold, hconst res old ▸ hold, htidy⟩

end

/-! ## The classes -/

section
variable {rest : Frame}

theorem AddRFCMessage.overwrites (old : AddRFCMessage) (x : Int32) :
    (AbstMessage.addRFCMessage old).Overwrites (wireInt x ++ rest) := by
  rw [overwrites_mk_iff_of_const .addRFCMessage fromBytes {} (fun _ _ ↦ AbstMessage.addRFCMessage.inj)
    (fun _ _ ↦ rfl) (fun _ ↦ rfl) fun _ _ ↦ rfl, fromBytes, decodeInt_append]
  exact ⟨⟨x⟩, rfl, trivial⟩

theorem AddRFCResponse.overwrites (old : AddRFCResponse) (x : Int32) :
    (AbstMessage.addRFCResponse old).Overwrites (wireInt x ++ rest) := by
  rw [overwrites_mk_iff_of_const .addRFCResponse fromBytes {} (fun _ _ ↦ AbstMessage.addRFCResponse.inj)
    (fun _ _ ↦ rfl) (fun _ ↦ rfl) fun _ _ ↦ rfl, fromBytes, decodeInt_append]
  exact ⟨⟨x⟩, rfl, trivial⟩

theorem LookupRFCMessage.overwrites (old : LookupRFCMessage) (x : Int32) :
    (AbstMessage.lookupRFCMessage old).Overwrites (wireInt x ++ rest) := by
  rw [overwrites_mk_iff_of_const .lookupRFCMessage fromBytes {}
    (fun _ _ ↦ AbstMessage.lookupRFCMessage.inj) (fun _ _ ↦ rfl) (fun _ ↦ rfl) fun _ _ ↦ rfl,
    fromBytes, decodeInt_append]
  exact ⟨⟨x⟩, rfl, trivial⟩

theorem GetRFCMessage.overwrites (old : GetRFCMessage) (x : Int16) :
    (AbstMessage.getRFCMessage old).Overwrites (wireShort x ++ rest) := by
  rw [overwrites_mk_iff_of_const .getRFCMessage fromBytes {} (fun _ _ ↦ AbstMessage.getRFCMessage.inj)
    (fun _ _ ↦ rfl) (fun _ ↦ rfl) fun _ _ ↦ rfl, fromBytes, (reads_getShort x).run (by simp) rest]
  exact ⟨⟨x⟩, rfl, trivial⟩

theorem ListRFCMessage.reads_get {it : Client} (h : it.host.length + 8 < 2 ^ 32) :
    Reads get (clientBytes it) ⟨cString it.host, it.port⟩ := by
  have hlen : (Int32.ofNat it.host.length).toUInt32.toNat = it.host.length :=
    toNat_toUInt32_ofNat (by omega)
  have hroom : ¬ ((Int32.ofNat it.host.length).toUInt32 + 1).toNat ≤
      (Int32.ofNat it.host.length).toUInt32.toNat := by
    have hnext := toNat_add_ofNat (n := 1) hlen (by omega)
    rw [show (1 : UInt32) = UInt32.ofNat 1 from rfl, hnext, hlen]
    omega
  refine (reads_getInt _).bind ?_
  dsimp only
  rw [if_neg hroom, hlen]
  exact (reads_getBytes it.host).bind ((reads_getInt it.port).map fun port ↦
    (⟨cString it.host, port⟩ : ListRFCMessage))

theorem ListRFCMessage.overwrites (old : ListRFCMessage) (it : Client)
    (h : it.host.length + 8 < 2 ^ 32) :
    (AbstMessage.listRFCMessage old).Overwrites (clientBytes it ++ rest) := by
  rw [overwrites_mk_iff_of_const .listRFCMessage fromBytes {}
    (fun _ _ ↦ AbstMessage.listRFCMessage.inj) (fun _ _ ↦ rfl) (fun _ ↦ rfl) fun _ _ ↦ rfl,
    fromBytes, (reads_get h).run (by rw [length_clientBytes]; exact h) rest]
  exact ⟨_, rfl, trivial⟩

theorem GetRFCResponse.overwrites_iff (old : GetRFCResponse) {code : Int32} {content : StdString}
    (hlt : (bytes code content ++ rest).length < 2 ^ 32) :
    (AbstMessage.getRFCResponse old).Overwrites (bytes code content ++ rest) ↔
      if code = 200 then content.length < 2 ^ 31 else old.content = [] := by
  rw [overwrites_mk_iff .getRFCResponse fromBytes {} (fun _ _ ↦ AbstMessage.getRFCResponse.inj)
    (fun _ _ ↦ rfl) fun _ ↦ rfl]
  have hread := fromBytes_eq_ok_iff hlt
  by_cases hcode : code = 200
  · subst hcode
    rw [if_pos rfl]
    rw [bytes, if_pos rfl] at hlt hread ⊢
    rw [List.length_append, length_contentBytes] at hlt
    constructor
    · rintro ⟨res, hfresh, -⟩
      obtain ⟨bs, rest', hf, ⟨hne, hbs, -⟩ | ⟨-, content', hsmall, hbs, -⟩⟩ := (hread _ _).mp hfresh
      · rw [hbs, contentBytes, List.append_assoc] at hf
        exact absurd (wireInt_injective (List.append_inj_left hf (by simp))).symm hne
      · rw [hbs] at hf
        simp only [contentBytes, List.append_assoc] at hf
        have hlen := List.append_inj_left (List.append_cancel_left hf) (by simp)
        rw [wireInt_ofNat_inj (by omega) (by omega) hlen]
        exact hsmall
    · intro hsmall
      have hover : ∀ kept : GetRFCResponse, kept.fromBytes (contentBytes content ++ rest) =
          .ok ⟨200, cString content⟩ := fun kept ↦
        (hread _ _).mpr ⟨_, rest, rfl, Or.inr ⟨rfl, content, hsmall, rfl, rfl⟩⟩
      exact ⟨_, hover _, hover _, hover _, fun h ↦ absurd rfl h⟩
  · rw [if_neg hcode]
    rw [bytes, if_neg hcode] at hread ⊢
    constructor
    · rintro ⟨res, -, hold, -, htidy⟩
      obtain ⟨bs, rest', hf, ⟨hne, -, hkept⟩ | ⟨h200, content', -, hbs, -⟩⟩ := (hread _ _).mp hold
      · rw [← hkept]
        exact htidy hne
      · rw [hbs, contentBytes, List.append_assoc] at hf
        exact absurd (wireInt_injective (List.append_inj_left hf (by simp))) hcode
    · intro hempty
      have hkeep : ∀ kept : GetRFCResponse, kept.content = [] →
          kept.fromBytes (wireInt code ++ rest) = .ok ⟨code, []⟩ := fun kept hkept ↦
        (hread _ _).mpr ⟨_, rest, rfl, Or.inl ⟨hcode, rfl, hkept.symm⟩⟩
      exact ⟨_, hkeep _ rfl, hkeep _ hempty, hkeep _ rfl, fun _ ↦ rfl⟩

/-- Every element takes some bytes, so a reply whose size fits has a count that is an `int`. -/
theorem count_of_bytesOfReply {α : Type} {bytes : α → Frame} (h : ∀ a, 8 ≤ (bytes a).length)
    {l : List α} (hlt : (bytesOfReply bytes 200 l ++ rest).length < 2 ^ 32) :
    (Int32.ofNat l.length).toInt.toNat = l.length := by
  have hle : ∀ l : List α, 8 * l.length ≤ (l.map fun a ↦ (bytes a).length).sum := by
    intro l
    induction l with
    | nil => exact Nat.zero_le _
    | cons a l ih =>
      have ha := h a
      rw [List.map_cons, List.sum_cons, List.length_cons]
      omega
  have hcount := hle l
  rw [List.length_append, bytesOfReply, if_pos rfl, length_replyBytes] at hlt
  rw [toInt_ofNat_of_lt (by omega), Int.toNat_natCast]

theorem LookupRFCResponse.overwrites_iff (old : LookupRFCResponse) {code : Int32} {l : List Client}
    (hlt : (bytesOfReply clientBytes code l ++ rest).length < 2 ^ 32) :
    (AbstMessage.lookupRFCResponse old).Overwrites (bytesOfReply clientBytes code l ++ rest) ↔
      (code = 200 → ∀ c ∈ l, c.host.length < 2 ^ 31) := by
  have hread := fun res : LookupRFCResponse ↦ (fromBytes_eq_ok_iff old res).trans
    (exists_getReply_bytesOfReply_iff spells_getClient [] (res.code, res.hosts) hlt)
  have hcount : code = 200 → (Int32.ofNat l.length).toInt.toNat = l.length := by
    rintro rfl
    exact count_of_bytesOfReply (fun it ↦ by rw [length_clientBytes]; omega) hlt
  rw [overwrites_mk_iff_of_const .lookupRFCResponse fromBytes {}
    (fun _ _ ↦ AbstMessage.lookupRFCResponse.inj) (fun _ _ ↦ rfl) (fun _ ↦ rfl) fun _ _ ↦ rfl]
  constructor
  · rintro ⟨res, hres, -⟩ h200
    obtain ⟨-, -, hlist⟩ := (hread res).mp hres
    obtain ⟨rs, rest', hlen, hsmall, hbytes, -⟩ := hlist h200
    have hbig : ∀ c ∈ l, c.host.length < 2 ^ 32 := fun c hc ↦ by
      have hle := length_le_length_flatMap clientBytes hc
      rw [bytesOfReply, if_pos h200, replyBytes] at hlt
      rw [length_clientBytes] at hle
      simp only [List.length_append] at hlt
      omega
    rw [flatMap_clientBytes_inj hbig (fun c hc ↦ (hsmall c hc).trans (by decide))
      (hlen.trans (hcount h200)).symm hbytes]
    exact hsmall
  · intro hsmall
    by_cases h200 : code = 200
    · refine ⟨⟨code, l.map Client.heard⟩, (hread _).mpr ⟨rfl, fun hne ↦ absurd h200 hne, fun _ ↦ ?_⟩,
        fun hne ↦ absurd h200 hne⟩
      exact ⟨l, rest, (hcount h200).symm, hsmall h200, rfl, (List.nil_append _).symm⟩
    · exact ⟨⟨code, []⟩, (hread _).mpr ⟨rfl, fun _ ↦ rfl, fun h ↦ absurd h h200⟩, fun _ ↦ rfl⟩

theorem ListRFCResponse.overwrites_iff (old : ListRFCResponse) {code : Int32} {l : List RFCHolder}
    (hlt : (bytesOfReply holderBytes code l ++ rest).length < 2 ^ 32) :
    (AbstMessage.listRFCResponse old).Overwrites (bytesOfReply holderBytes code l ++ rest) ↔
      old.holders = [] ∧ (code = 200 → l = []) := by
  have hread := fun old res : ListRFCResponse ↦ (fromBytes_eq_ok_iff old res).trans
    (exists_getReply_bytesOfReply_iff spells_getHolder old.holders (res.code, res.holders) hlt)
  have hcount : code = 200 → (Int32.ofNat l.length).toInt.toNat = l.length := by
    rintro rfl
    exact count_of_bytesOfReply (fun it ↦ by rw [length_holderBytes]; omega) hlt
  rw [overwrites_mk_iff .listRFCResponse fromBytes {} (fun _ _ ↦ AbstMessage.listRFCResponse.inj)
    (fun _ _ ↦ rfl) fun _ ↦ rfl]
  constructor
  · rintro ⟨res, hfresh, hold, hagain, htidy⟩
    obtain ⟨hcode, hkept, hlist⟩ := (hread old res).mp hold
    by_cases h200 : code = 200
    · -- Every pass pushes back as many elements as the reply has.
      obtain ⟨rs, -, hlen, -, -, hrs⟩ := hlist h200
      obtain ⟨rs', -, hlen', -, -, hrs'⟩ := ((hread res res).mp hagain).2.2 h200
      have hgrow := congrArg List.length hrs
      have hgrow' := congrArg List.length hrs'
      rw [hcount h200] at hlen hlen'
      simp only [List.length_append, List.length_map] at hgrow hgrow'
      have hl : l = [] := List.eq_nil_of_length_eq_zero (by omega)
      obtain ⟨rs'', -, hlen'', -, -, hrs''⟩ := ((hread {} res).mp hfresh).2.2 h200
      have hgrow'' := congrArg List.length hrs''
      rw [hcount h200] at hlen''
      simp only [List.length_append, List.length_map, List.length_nil] at hgrow''
      exact ⟨List.eq_nil_of_length_eq_zero (by omega), fun _ ↦ hl⟩
    · refine ⟨?_, fun h ↦ absurd h h200⟩
      have hempty := htidy fun h ↦ h200 (hcode.symm.trans h)
      exact (hkept h200).symm.trans hempty
  · rintro ⟨hempty, hl⟩
    have hkeep : ∀ kept : ListRFCResponse, kept.holders = [] →
        kept.fromBytes (bytesOfReply holderBytes code l ++ rest) = .ok ⟨code, []⟩ := by
      intro kept hkept
      refine (hread kept ⟨code, []⟩).mpr ⟨rfl, fun _ ↦ hkept.symm, fun h200 ↦
        ⟨[], rest, ?_, nofun, ?_, ?_⟩⟩
      · rw [hcount h200, hl h200]
      · rw [hl h200]
      · rw [hkept]
        rfl
    exact ⟨_, hkeep _ rfl, hkeep _ hempty, hkeep _ rfl, fun _ ↦ rfl⟩

end

/-- **Decoding an encoding of a valid message overwrites** what the object held exactly in these
cases. -/
theorem decoding_overwrites_iff (old m : AbstMessage) (hclass : old.fresh = m.fresh)
    (hvalid : m.isValid = true) (heap : ℕ → UInt8) (f : Frame) (hf : m.toBytes heap = .ok (some f)) :
    old.Overwrites f ↔ old.Renewed m := by
  obtain ⟨rest, hbytes, hlen⟩ := AbstMessage.exists_rest_of_toBytes hvalid hf
  have hlt : (m.bytes ++ rest).length < 2 ^ 32 := by
    rw [← hbytes, hlen]
    exact m.messageSize_lt
  subst hbytes
  cases m with
  | addRFCMessage msg =>
    cases old with
    | addRFCMessage old => exact iff_of_true (old.overwrites msg.number) trivial
    | _ => cases hclass
  | addRFCResponse res =>
    cases old with
    | addRFCResponse old => exact iff_of_true (old.overwrites res.code) trivial
    | _ => cases hclass
  | getRFCMessage msg =>
    cases old with
    | getRFCMessage old => exact iff_of_true (old.overwrites msg.number) trivial
    | _ => cases hclass
  | lookupRFCMessage msg =>
    cases old with
    | lookupRFCMessage old => exact iff_of_true (old.overwrites msg.number) trivial
    | _ => cases hclass
  | listRFCMessage msg =>
    cases old with
    | listRFCMessage old =>
      have hsmall : msg.host.length + 8 < 2 ^ 32 := by
        rw [AbstMessage.bytes, List.length_append, length_clientBytes] at hlt
        exact Nat.lt_of_le_of_lt (Nat.le_add_right _ _) hlt
      exact iff_of_true (old.overwrites ⟨msg.host, msg.port⟩ hsmall) trivial
    | _ => cases hclass
  | getRFCResponse res =>
    cases old with
    | getRFCResponse old => exact old.overwrites_iff hlt
    | _ => cases hclass
  | lookupRFCResponse res =>
    cases old with
    | lookupRFCResponse old => exact old.overwrites_iff hlt
    | _ => cases hclass
  | listRFCResponse res =>
    cases old with
    | listRFCResponse old => exact old.overwrites_iff hlt
    | _ => cases hclass

/-- A LOOKUP reply, over one that had a client. -/
theorem overwrites_lookup_one :
    (AbstMessage.lookupRFCResponse ⟨200, [⟨[98], 2⟩]⟩).Overwrites
      (replyBytes clientBytes [⟨[97], 1⟩]) :=
  (decoding_overwrites_iff (.lookupRFCResponse ⟨200, [⟨[98], 2⟩]⟩)
    (.lookupRFCResponse ⟨200, [⟨[97], 1⟩]⟩) rfl rfl (fun _ ↦ 0) _
    (LookupRFCResponse.toBytes_eq (by decide) (by decide) _)).mpr fun _ ↦ by decide

/-- A LIST reply of one association, decoded into the object that it was decoded into before; and a
response to GET under code 404, over one with a content. -/
theorem not_overwrites_list_one :
    (ListRFCResponse.mk 200 []).fromBytes (replyBytes holderBytes [⟨7, ⟨[97], 1⟩⟩]) =
      .ok ⟨200, [⟨7, ⟨[97], 1⟩⟩]⟩ ∧
    (ListRFCResponse.mk 200 [⟨7, ⟨[97], 1⟩⟩]).fromBytes (replyBytes holderBytes [⟨7, ⟨[97], 1⟩⟩]) =
      .ok ⟨200, [⟨7, ⟨[97], 1⟩⟩, ⟨7, ⟨[97], 1⟩⟩]⟩ ∧
    ¬ (AbstMessage.listRFCResponse ⟨200, [⟨7, ⟨[97], 1⟩⟩]⟩).Overwrites
      (replyBytes holderBytes [⟨7, ⟨[97], 1⟩⟩]) ∧
    (GetRFCResponse.mk 200 [97]).fromBytes (wireInt 404 ++ [0, 0, 0, 0]) = .ok ⟨404, [97]⟩ := by
  refine ⟨rfl, rfl, ?_, rfl⟩
  rintro ⟨res, hfresh, hold, -⟩
  have hfresh' : (AbstMessage.listRFCResponse {}).fromBytes (replyBytes holderBytes [⟨7, ⟨[97], 1⟩⟩]) =
      .ok (.listRFCResponse ⟨200, [⟨7, ⟨[97], 1⟩⟩]⟩) := rfl
  have hold' : (AbstMessage.listRFCResponse ⟨200, [⟨7, ⟨[97], 1⟩⟩]⟩).fromBytes
      (replyBytes holderBytes [⟨7, ⟨[97], 1⟩⟩]) =
      .ok (.listRFCResponse ⟨200, [⟨7, ⟨[97], 1⟩⟩, ⟨7, ⟨[97], 1⟩⟩]⟩) := rfl
  have heq := (hfresh'.symm.trans hfresh).trans (hold.symm.trans hold')
  exact absurd heq (by decide)

end RfcNet
