import RfcNet.Lib.Grammar
import RfcNet.Messages.Get

/-!
# The grammars of the replies

The decoders of the three replies, as the bytes they accept.  A decoder takes the count and the
lengths from the bytes and compares none of them with the size of the buffer, so it comes to a
message exactly where the buffer begins with all the bytes of one.  What that means is said without
the decoders (`BeginsWithReply`, `BeginsWithContent`).

A count below zero is no length: the loop over the elements ends at once.
-/

set_option autoImplicit false

namespace RfcNet

open Lib

/-! ## Elements -/

theorem spells_getInt : getInt.Spells fun bs x ↦ bs = wireInt x := by
  refine ((Get.Spells.getBytes sizeofInt).map unwireInt).congr fun bs x ↦ ?_
  constructor
  · rintro ⟨f, ⟨hbs, hlen⟩, hx⟩
    rw [hx, wireInt_unwireInt hlen, hbs]
  · intro hbs
    exact ⟨wireInt x, ⟨hbs, length_wireInt x⟩, (unwireInt_wireInt x).symm⟩

/-- The client that a decoder makes of the bytes of `it`: the host ends at its first NUL. -/
def Client.heard (it : Client) : Client := ⟨cString it.host, it.port⟩

/-- The association that a decoder makes of the bytes of `it`. -/
def RFCHolder.heard (it : RFCHolder) : RFCHolder := ⟨it.rfc, it.peer.heard⟩

private theorem spells_getHost (n : ℕ) :
    ((getBytes n).bind fun host ↦ getInt.bind fun varPort ↦
      Get.pure (⟨cString host, varPort⟩ : Client)).Spells fun bs c ↦
        ∃ it : Client, it.host.length = n ∧ bs = it.host ++ wireInt it.port ∧ c = it.heard := by
  refine ((Get.Spells.getBytes n).bind fun host ↦
    spells_getInt.map fun varPort ↦ (⟨cString host, varPort⟩ : Client)).congr fun bs c ↦ ?_
  constructor
  · rintro ⟨cs, ds, host, hbs, ⟨hcs, hlen⟩, port, hds, hc⟩
    exact ⟨⟨host, port⟩, hlen, by rw [hbs, hcs, hds], hc⟩
  · rintro ⟨it, hlen, hbs, hc⟩
    exact ⟨it.host, wireInt it.port, it.host, hbs, ⟨rfl, hlen⟩, it.port, rfl, hc⟩

/-- **The grammar of a client.** -/
theorem spells_getClient : getClient.Spells fun bs c ↦
    ∃ it : Client, it.host.length < 2 ^ 31 ∧ bs = clientBytes it ∧ c = it.heard := by
  refine (spells_getInt.bind fun lenHost ↦
    (Get.Spells.fail Fault.negativeLength).ite (spells_getHost lenHost.toInt.toNat)).congr
      fun bs c ↦ ?_
  constructor
  · rintro ⟨cs, ds, lenHost, hbs, hcs, ⟨-, hfail⟩ | ⟨hneg, it, hlen, hds, hc⟩⟩
    · exact hfail.elim
    · have hlt := lenHost.toInt_lt
      refine ⟨it, by omega, ?_, hc⟩
      rw [hbs, hcs, hds, clientBytes, hlen, ofNat_toNat_toInt (Int32.not_lt.mp hneg)]
  · rintro ⟨it, hlt, hbs, hc⟩
    refine ⟨_, _, Int32.ofNat it.host.length, hbs, rfl, Or.inr ⟨ofNat_not_neg hlt, it, ?_, rfl, hc⟩⟩
    rw [toInt_ofNat_of_lt hlt, Int.toNat_natCast]

/-- **The grammar of an association.** -/
theorem spells_getHolder : getHolder.Spells fun bs h ↦
    ∃ it : RFCHolder, it.peer.host.length < 2 ^ 31 ∧ bs = holderBytes it ∧ h = it.heard := by
  refine (spells_getInt.bind fun rfcNum ↦
    spells_getClient.map fun peer ↦ (⟨rfcNum, peer⟩ : RFCHolder)).congr fun bs h ↦ ?_
  constructor
  · rintro ⟨cs, ds, rfcNum, hbs, hcs, peer, ⟨it, hlt, hds, hpeer⟩, hh⟩
    refine ⟨⟨rfcNum, it⟩, hlt, ?_, ?_⟩
    · rw [hbs, hcs, hds, holderBytes]
    · rw [hh, hpeer, RFCHolder.heard]
  · rintro ⟨it, hlt, hbs, hh⟩
    exact ⟨_, _, it.rfc, hbs, rfl, it.peer.heard, ⟨it.peer, hlt, rfl, rfl⟩, hh⟩

/-! ## Replies -/

/-- An element is not longer than all of them together. -/
theorem length_le_length_flatMap {α : Type} (bytes : α → Frame) {l : List α} {a : α} (ha : a ∈ l) :
    (bytes a).length ≤ (l.flatMap bytes).length := by
  rw [List.length_flatMap]
  exact List.le_sum_of_mem (List.mem_map_of_mem ha)

/-- `f` begins with all the bytes of a reply, whose elements have the bytes `bytes`. -/
def BeginsWithReply {α : Type} (bytes : α → Frame) (f : Frame) : Prop :=
  (∃ code rest, code ≠ 200 ∧ f = wireInt code ++ rest) ∨
    ∃ (count : Int32) (l : List α) (rest : Frame), l.length = count.toInt.toNat ∧
      f = wireInt 200 ++ (wireInt count ++ (l.flatMap bytes ++ rest))

/-- `f` begins with all the bytes of a response to GET. -/
def BeginsWithContent (f : Frame) : Prop :=
  ∃ code content rest, f = GetRFCResponse.bytes code content ++ rest

/-- **A reply begins with a code.**  Under any other code than 200 it ends with it. -/
theorem spells_code {β : Type} {g : Int32 → Get (Int32 × β)} {L : Frame → Int32 × β → Prop}
    (hg : (g 200).Spells L) (old : β) :
    (getInt.bind fun code ↦ if code = 200 then g code else .pure (code, old)).Spells fun bs r ↦
      (r.1 ≠ 200 ∧ bs = wireInt r.1 ∧ r.2 = old) ∨ ∃ ds, bs = wireInt 200 ++ ds ∧ L ds r := by
  have hrest : ∀ code : Int32, (if code = 200 then g code else Get.pure (code, old)).Spells
      fun bs r ↦ (code = 200 ∧ L bs r) ∨ (code ≠ 200 ∧ bs = [] ∧ r = (code, old)) := by
    intro code
    by_cases hcode : code = 200
    · subst hcode
      rw [if_pos rfl]
      exact hg.congr fun bs r ↦ by simp
    · rw [if_neg hcode]
      exact (Get.Spells.pure (code, old)).congr fun bs r ↦ by simp [hcode]
  refine (spells_getInt.bind hrest).congr fun bs r ↦ ?_
  constructor
  · rintro ⟨cs, ds, code, hbs, hcs, ⟨hcode, hds⟩ | ⟨hcode, hds, hr⟩⟩
    · subst hcode hcs
      exact Or.inr ⟨ds, hbs, hds⟩
    · subst hds hcs hr
      exact Or.inl ⟨hcode, by rw [hbs, List.append_nil], rfl⟩
  · obtain ⟨code, kept⟩ := r
    rintro (⟨hcode, hbs, hkept⟩ | ⟨ds, hbs, hds⟩)
    · exact ⟨wireInt code, [], code, by rw [hbs, List.append_nil], rfl,
        Or.inr ⟨hcode, rfl, by rw [← hkept]⟩⟩
    · exact ⟨_, ds, 200, hbs, rfl, Or.inl ⟨rfl, hds⟩⟩

section
variable {α ρ : Type} {get : Get α} {fits : ρ → Prop} {bytes : ρ → Frame} {view : ρ → α}

/-- **The grammar of a reply**: a code, or code 200, a count, and so many elements. -/
theorem spells_getReply (h : get.Spells fun bs a ↦ ∃ r, fits r ∧ bs = bytes r ∧ a = view r)
    (old : List α) : (getReply get old).Spells fun bs r ↦
      (r.1 ≠ 200 ∧ bs = wireInt r.1 ∧ r.2 = old) ∨
      (r.1 = 200 ∧ ∃ (count : Int32) (rs : List ρ), rs.length = count.toInt.toNat ∧
        (∀ x ∈ rs, fits x) ∧ bs = wireInt 200 ++ (wireInt count ++ rs.flatMap bytes) ∧
        r.2 = old ++ rs.map view) := by
  refine (spells_code (spells_getInt.bind fun count ↦
    (h.getAll count.toInt.toNat old).map fun l ↦ ((200 : Int32), l)) old).congr fun bs r ↦ ?_
  constructor
  · rintro (hother | ⟨ds, hbs, cs, es, count, hds, hcs, l, ⟨rs, hlen, hfits, hes, hl⟩, hr⟩)
    · exact Or.inl hother
    · subst hr hl hes hcs hds
      exact Or.inr ⟨rfl, count, rs, hlen, hfits, hbs, rfl⟩
  · rintro (hother | ⟨hcode, count, rs, hlen, hfits, hbs, hl⟩)
    · exact Or.inl hother
    · exact Or.inr ⟨_, hbs, _, _, count, rfl, rfl, r.2, ⟨rs, hlen, hfits, rfl, hl⟩, Prod.ext hcode rfl⟩

/-- **A reply is decoded** exactly where the buffer begins with one.  In a buffer of `int` size every
host has a length that is an `int`. -/
theorem exists_getReply_iff (h : get.Spells fun bs a ↦ ∃ r, fits r ∧ bs = bytes r ∧ a = view r)
    {f : Frame} (hlt : f.length < 2 ^ 31)
    (hfits : ∀ r, (bytes r).length < 2 ^ 31 → fits r) :
    (∃ r, getReply get [] f 0 = .ok r) ↔ BeginsWithReply bytes f := by
  have hlt' : f.length < 2 ^ 32 := by omega
  have hrun := (spells_getReply h []).run hlt'
  constructor
  · rintro ⟨⟨r, pos'⟩, hget⟩
    obtain ⟨bs, rest, hf, ⟨hcode, hbs, -⟩ | ⟨-, count, rs, hlen, -, hbs, -⟩⟩ :=
      (hrun r).mp ⟨pos', hget⟩
    · exact Or.inl ⟨r.1, rest, hcode, hbs ▸ hf⟩
    · refine Or.inr ⟨count, rs, rest, hlen, ?_⟩
      rw [hf, hbs, List.append_assoc, List.append_assoc]
  · rintro (⟨code, rest, hcode, hf⟩ | ⟨count, rs, rest, hlen, hf⟩)
    · obtain ⟨pos', hget⟩ := (hrun (code, [])).mpr ⟨_, rest, hf, Or.inl ⟨hcode, rfl, rfl⟩⟩
      exact ⟨_, hget⟩
    · have hsmall : ∀ x ∈ rs, fits x := fun x hx ↦ hfits x (by
        have hle := length_le_length_flatMap bytes hx
        rw [hf] at hlt
        simp only [List.length_append] at hlt
        omega)
      obtain ⟨pos', hget⟩ := (hrun (200, rs.map view)).mpr
        ⟨wireInt 200 ++ (wireInt count ++ rs.flatMap bytes), rest,
          by rw [hf, List.append_assoc, List.append_assoc],
          Or.inr ⟨rfl, count, rs, hlen, hsmall, rfl, rfl⟩⟩
      exact ⟨_, hget⟩

end

/-- **The grammar of a response to GET**: a code, or code 200, a length, and so many bytes. -/
theorem spells_getResponse (old : StdString) : (getResponse old).Spells fun bs r ↦
    (r.1 ≠ 200 ∧ bs = wireInt r.1 ∧ r.2 = old) ∨
    (r.1 = 200 ∧ ∃ content : StdString, content.length < 2 ^ 31 ∧ bs = contentBytes content ∧
      r.2 = cString content) := by
  refine (spells_code (spells_getInt.bind fun length ↦ (Get.Spells.fail Fault.negativeLength).ite
    ((Get.Spells.getBytes length.toInt.toNat).map fun content ↦
      ((200 : Int32), cString content))) old).congr fun bs r ↦ ?_
  constructor
  · rintro (hother | ⟨ds, hbs, cs, es, length, hds, hcs, ⟨-, hfail⟩ | ⟨hneg, content, ⟨hes, hlen⟩, hr⟩⟩)
    · exact Or.inl hother
    · exact hfail.elim
    · have hlt := length.toInt_lt
      subst hr
      refine Or.inr ⟨rfl, content, by omega, ?_, rfl⟩
      rw [hbs, hds, hcs, hes, contentBytes, hlen, ofNat_toNat_toInt (Int32.not_lt.mp hneg)]
  · rintro (hother | ⟨hcode, content, hlt, hbs, hkept⟩)
    · exact Or.inl hother
    · refine Or.inr ⟨_, hbs, _, _, Int32.ofNat content.length, rfl, rfl,
        Or.inr ⟨ofNat_not_neg hlt, content, ⟨rfl, ?_⟩, Prod.ext hcode hkept⟩⟩
      rw [toInt_ofNat_of_lt hlt, Int.toNat_natCast]

/-! ## The three decoders -/

/-- What a decoder of a response to GET comes to. -/
theorem GetRFCResponse.fromBytes_eq_ok_iff {f : Frame} (hlt : f.length < 2 ^ 32)
    (old res : GetRFCResponse) : old.fromBytes f = .ok res ↔
      ∃ bs rest, f = bs ++ rest ∧ ((res.code ≠ 200 ∧ bs = wireInt res.code ∧ res.content = old.content) ∨
        (res.code = 200 ∧ ∃ content : StdString, content.length < 2 ^ 31 ∧ bs = contentBytes content ∧
          res.content = cString content)) := by
  rw [← (spells_getResponse old.content).run hlt (res.code, res.content), fromBytes]
  exact map_fst_eq_ok_iff (g := fun r ↦ (⟨r.1, r.2⟩ : GetRFCResponse))
    (fun _ _ h ↦ Prod.ext (congrArg code h) (congrArg content h)) (res.code, res.content)

theorem LookupRFCResponse.fromBytes_eq_ok_iff {f : Frame} (old res : LookupRFCResponse) :
    old.fromBytes f = .ok res ↔
      ∃ pos', getReply getClient [] f 0 = .ok ((res.code, res.hosts), pos') :=
  map_fst_eq_ok_iff (g := fun r : Int32 × List Client ↦ (⟨r.1, r.2⟩ : LookupRFCResponse))
    (fun _ _ h ↦ Prod.ext (congrArg code h) (congrArg hosts h)) (res.code, res.hosts)

theorem ListRFCResponse.fromBytes_eq_ok_iff {f : Frame} (old res : ListRFCResponse) :
    old.fromBytes f = .ok res ↔
      ∃ pos', getReply getHolder old.holders f 0 = .ok ((res.code, res.holders), pos') :=
  map_fst_eq_ok_iff (g := fun r : Int32 × List RFCHolder ↦ (⟨r.1, r.2⟩ : ListRFCResponse))
    (fun _ _ h ↦ Prod.ext (congrArg code h) (congrArg holders h)) (res.code, res.holders)

/-! ## Where they come to a message -/

private theorem map_ok_iff {ε α β : Type} {x : Except ε α} {g : α → β} :
    (∃ b, x.map g = .ok b) ↔ ∃ a, x = .ok a := by
  constructor
  · rintro ⟨b, hb⟩
    obtain ⟨a, ha, -⟩ := map_eq_ok_iff.mp hb
    exact ⟨a, ha⟩
  · rintro ⟨a, rfl⟩
    exact ⟨g a, rfl⟩

theorem ListRFCResponse.fromBytes_ok_iff {f : Frame} (hlt : f.length < 2 ^ 31) :
    (∃ res, ListRFCResponse.fromBytes {} f = .ok res) ↔ BeginsWithReply holderBytes f := by
  rw [← exists_getReply_iff spells_getHolder hlt fun it h ↦ by rw [length_holderBytes] at h; omega]
  exact map_ok_iff

theorem LookupRFCResponse.fromBytes_ok_iff {f : Frame} (hlt : f.length < 2 ^ 31) :
    (∃ res, LookupRFCResponse.fromBytes {} f = .ok res) ↔ BeginsWithReply clientBytes f := by
  rw [← exists_getReply_iff spells_getClient hlt fun it h ↦ by rw [length_clientBytes] at h; omega]
  exact map_ok_iff

/-- **What has been decoded was there**: a code, and under code 200 a content. -/
theorem GetRFCResponse.exists_of_fromBytes {f : Frame} {res : GetRFCResponse} (hlt : f.length < 2 ^ 32)
    (h : GetRFCResponse.fromBytes {} f = .ok res) :
    ∃ content rest, f = bytes res.code content ++ rest := by
  obtain ⟨bs, rest, hf, ⟨hcode, hbs, -⟩ | ⟨hcode, content, -, hbs, -⟩⟩ :=
    (fromBytes_eq_ok_iff hlt {} res).mp h
  · exact ⟨[], rest, by rw [bytes, if_neg hcode, hf, hbs]⟩
  · exact ⟨content, rest, by rw [bytes, if_pos hcode, hf, hbs]⟩

theorem GetRFCResponse.fromBytes_ok_iff {f : Frame} (hlt : f.length < 2 ^ 31) :
    (∃ res, GetRFCResponse.fromBytes {} f = .ok res) ↔ BeginsWithContent f := by
  constructor
  · rintro ⟨res, hres⟩
    obtain ⟨content, rest, hf⟩ := GetRFCResponse.exists_of_fromBytes (by omega) hres
    exact ⟨res.code, content, rest, hf⟩
  · rintro ⟨code, content, rest, rfl⟩
    exact ⟨_, GetRFCResponse.fromBytes_bytes hlt⟩

end RfcNet
