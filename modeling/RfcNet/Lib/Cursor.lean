import RfcNet.Lib.Bytes

/-!
# Writing and reading a message with a position counter

A message assembled by hand is a buffer, an unsigned 32-bit position, and a sequence of copies each
of which moves the position on.  `Put` is such a sequence of writes and `Get` such a sequence of
reads.  Both fail when a copy leaves the buffer.

What the loops of an encoder and of a decoder are worth is said by `Writes put bs` and
`Reads get bs a`, which compose (`Writes.andThen`, `Reads.bind`, and their versions for a list of
elements).  The point where a position counter could wrap is confined to `toNat_add_ofNat`: while
everything written or read so far fits in 32 bits, the counter is the number of bytes.
-/

set_option autoImplicit false

namespace RfcNet
namespace Lib

/-- What stops a copy, or the allocation before it. -/
inductive Fault
  /-- A copy into or out of a buffer that leaves the buffer. -/
  | outOfBounds
  /-- A length below zero. -/
  | negativeLength
  deriving DecidableEq, Repr

/-- A buffer being filled, and the position of the next write. -/
structure Cursor where
  /-- The buffer. -/
  buf : Frame
  /-- The position. -/
  pos : UInt32

/-- A sequence of writes. -/
abbrev Put := Cursor → Except Fault Cursor

/-- `memcpy(buf + pos, bs, len); pos += len;` -/
def putBytes (bs : Frame) : Put := fun c ↦
  match writeAt c.buf c.pos.toNat bs with
  | some buf => .ok ⟨buf, c.pos + UInt32.ofNat bs.length⟩
  | none => .error .outOfBounds

/-- One sequence of writes after another. -/
def Put.andThen (f g : Put) : Put := fun c ↦ f c >>= g

/-- The writes of each element of a list in turn. -/
def putAll {α : Type} (put : α → Put) : List α → Put
  | [] => .ok
  | a :: l => (put a).andThen (putAll put l)

/-- A sequence of reads, with its result. -/
abbrev Get (α : Type) := Frame → UInt32 → Except Fault (α × UInt32)

/-- `memcpy(dest, bytes + pos, len); pos += len;` -/
def getBytes (len : ℕ) : Get Frame := fun bytes pos ↦
  match readAt bytes pos.toNat len with
  | some f => .ok (f, pos + UInt32.ofNat len)
  | none => .error .outOfBounds

/-- One sequence of reads after another. -/
def Get.bind {α β : Type} (f : Get α) (g : α → Get β) : Get β := fun bytes pos ↦
  f bytes pos >>= fun r ↦ g r.1 bytes r.2

/-- Read nothing. -/
def Get.pure {α : Type} (a : α) : Get α := fun _ pos ↦ .ok (a, pos)

/-- Fail. -/
def Get.fail {α : Type} (e : Fault) : Get α := fun _ _ ↦ .error e

/-- Read `n` elements, pushing each back to `acc`. -/
def getAll {α : Type} (get : Get α) : ℕ → List α → Get (List α)
  | 0, acc => .pure acc
  | n + 1, acc => get.bind fun a ↦ getAll get n (acc ++ [a])

theorem toNat_add_ofNat {pos : UInt32} {k n : ℕ} (hpos : pos.toNat = k) (h : k + n < 2 ^ 32) :
    (pos + UInt32.ofNat n).toNat = k + n := by
  rw [UInt32.toNat_add, UInt32.toNat_ofNat', hpos]
  omega

/-! ## What a sequence of writes writes -/

/-- `put` writes the bytes `bs` from the position on, if they fit. -/
def Writes (put : Put) (bs : Frame) : Prop :=
  ∀ (before rest : Frame) (pos : UInt32), pos.toNat = before.length →
    before.length + rest.length < 2 ^ 32 → bs.length ≤ rest.length →
    put ⟨before ++ rest, pos⟩ =
      .ok ⟨before ++ bs ++ rest.drop bs.length, pos + UInt32.ofNat bs.length⟩

theorem writes_putBytes (bs : Frame) : Writes (putBytes bs) bs := by
  intro before rest pos hpos _ hfit
  rw [putBytes, hpos, writeAt_append hfit]

theorem Writes.andThen {f g : Put} {bs cs : Frame} (hf : Writes f bs) (hg : Writes g cs) :
    Writes (f.andThen g) (bs ++ cs) := by
  intro before rest pos hpos hlt hfit
  rw [List.length_append] at hfit
  have hpos' : (pos + UInt32.ofNat bs.length).toNat = (before ++ bs).length := by
    rw [List.length_append]
    exact toNat_add_ofNat hpos (by omega)
  have hlt' : (before ++ bs).length + (rest.drop bs.length).length < 2 ^ 32 := by
    rw [List.length_append, List.length_drop]
    omega
  have hfit' : cs.length ≤ (rest.drop bs.length).length := by
    rw [List.length_drop]
    omega
  rw [Put.andThen, hf before rest pos hpos hlt (by omega)]
  show g ⟨before ++ bs ++ rest.drop bs.length, pos + UInt32.ofNat bs.length⟩ = _
  rw [hg _ _ _ hpos' hlt' hfit', List.drop_drop, List.length_append, List.append_assoc before bs,
    UInt32.add_assoc, ← UInt32.ofNat_add]

theorem Writes.nil : Writes .ok [] := by
  intro before rest pos _ _ _
  simp

/-- A loop over a list writes the concatenation. -/
theorem Writes.putAll {α : Type} {put : α → Put} {bytes : α → Frame}
    (h : ∀ a, Writes (put a) (bytes a)) (l : List α) :
    Writes (putAll put l) (l.flatMap bytes) := by
  induction l with
  | nil => exact Writes.nil
  | cons a l ih => exact (h a).andThen ih

/-- A whole message written into a buffer of the right size. -/
theorem Writes.fill {put : Put} {bs buf : Frame} (h : Writes put bs)
    (hlen : buf.length = bs.length) (hlt : bs.length < 2 ^ 32) :
    put ⟨buf, 0⟩ = .ok ⟨bs, UInt32.ofNat bs.length⟩ := by
  have hput := h [] buf 0 rfl (by rw [List.length_nil]; omega) (by omega)
  rw [List.nil_append, List.nil_append, List.drop_of_length_le (by omega), List.append_nil,
    UInt32.zero_add] at hput
  exact hput

/-- A write that succeeds stays in the buffer, and leaves it as long as it was. -/
theorem putBytes_eq_ok {bs : Frame} {c c' : Cursor} (h : putBytes bs c = .ok c') :
    c.pos.toNat + bs.length ≤ c.buf.length ∧ c'.buf.length = c.buf.length ∧
      c'.pos = c.pos + UInt32.ofNat bs.length := by
  rw [putBytes] at h
  split at h
  · rename_i buf hwrite
    rw [writeAt] at hwrite
    split at hwrite
    · rename_i hle
      obtain rfl := Option.some_inj.mp hwrite
      obtain rfl := Except.ok.inj h
      refine ⟨hle, ?_, rfl⟩
      simp only [List.length_append, List.length_take, List.length_drop]
      omega
    · cases hwrite
  · cases h

theorem Put.andThen_eq_ok {f g : Put} {c c' : Cursor} :
    f.andThen g c = .ok c' ↔ ∃ m, f c = .ok m ∧ g m = .ok c' := by
  rw [Put.andThen]
  constructor
  · intro h
    cases hf : f c with
    | error e => rw [hf] at h; exact absurd h nofun
    | ok m => rw [hf] at h; exact ⟨m, rfl, h⟩
  · rintro ⟨m, hf, hg⟩
    rw [hf]
    exact hg

/-- `put` succeeds only where `n` bytes are left, and moves the position on by so many. -/
def Put.Takes (put : Put) (n : ℕ) : Prop :=
  ∀ c c' : Cursor, c.buf.length < 2 ^ 32 → c.pos.toNat ≤ c.buf.length → put c = .ok c' →
    c'.pos.toNat = c.pos.toNat + n ∧ c'.pos.toNat ≤ c'.buf.length ∧ c'.buf.length = c.buf.length

theorem takes_putBytes (bs : Frame) : (putBytes bs).Takes bs.length := by
  intro c c' hlt _ h
  obtain ⟨hle, hlen, hpos⟩ := putBytes_eq_ok h
  have hnat : c'.pos.toNat = c.pos.toNat + bs.length := by
    rw [hpos]
    exact toNat_add_ofNat rfl (by omega)
  exact ⟨hnat, by omega, hlen⟩

theorem Put.Takes.andThen {f g : Put} {m n : ℕ} (hf : f.Takes m) (hg : g.Takes n) :
    (f.andThen g).Takes (m + n) := by
  intro c c' hlt hle h
  obtain ⟨d, hd, hc'⟩ := Put.andThen_eq_ok.mp h
  obtain ⟨hpos, hle', hlen⟩ := hf c d hlt hle hd
  obtain ⟨hpos', hle'', hlen'⟩ := hg d c' (by omega) hle' hc'
  exact ⟨by omega, hle'', by omega⟩

/-- A loop over a list takes the sum. -/
theorem Put.Takes.putAll {α : Type} {put : α → Put} {size : α → ℕ} (h : ∀ a, (put a).Takes (size a))
    (l : List α) : (putAll put l).Takes (l.map size).sum := by
  induction l with
  | nil =>
    intro c c' _ hle hc
    obtain rfl := Except.ok.inj hc
    exact ⟨rfl, hle, rfl⟩
  | cons a l ih => exact (h a).andThen ih

/-! ## What a sequence of reads reads -/

/-- `get`, where it meets the bytes `bs`, reads exactly these and returns `a`. -/
def Reads {α : Type} (get : Get α) (bs : Frame) (a : α) : Prop :=
  ∀ (before after : Frame) (pos : UInt32), pos.toNat = before.length →
    before.length + bs.length < 2 ^ 32 →
    get (before ++ (bs ++ after)) pos = .ok (a, pos + UInt32.ofNat bs.length)

variable {α β : Type}

theorem reads_getBytes (bs : Frame) : Reads (getBytes bs.length) bs bs := by
  intro before after pos hpos _
  rw [getBytes, hpos, readAt_append]

theorem Reads.pure (a : α) : Reads (Get.pure a) [] a := by
  intro before after pos _ _
  rw [Get.pure, List.length_nil]
  simp

theorem Reads.bind {f : Get α} {g : α → Get β} {bs cs : Frame} {a : α} {b : β}
    (hf : Reads f bs a) (hg : Reads (g a) cs b) : Reads (f.bind g) (bs ++ cs) b := by
  intro before after pos hpos hlt
  rw [List.length_append] at hlt
  have hpos' : (pos + UInt32.ofNat bs.length).toNat = (before ++ bs).length := by
    rw [List.length_append]
    exact toNat_add_ofNat hpos (by omega)
  have hcs := hg (before ++ bs) after _ hpos' (by rw [List.length_append]; omega)
  rw [Get.bind, List.append_assoc bs, hf before (cs ++ after) pos hpos (by omega)]
  show g a (before ++ (bs ++ (cs ++ after))) (pos + UInt32.ofNat bs.length) = _
  rw [← List.append_assoc before bs, hcs, List.length_append, UInt32.add_assoc,
    ← UInt32.ofNat_add]

/-- The same with the result passed on unchanged. -/
theorem Reads.map {f : Get α} {bs : Frame} {a : α} (hf : Reads f bs a) (g : α → β) :
    Reads (f.bind fun a ↦ Get.pure (g a)) bs (g a) := by
  have h := hf.bind (g := fun a ↦ Get.pure (g a)) (Reads.pure (g a))
  rwa [List.append_nil] at h

/-- A counted loop reads as many elements as were written. -/
theorem Reads.getAll {get : Get α} {bytes : α → Frame} {l : List α}
    (h : ∀ a ∈ l, Reads get (bytes a) a) (acc : List α) :
    Reads (getAll get l.length acc) (l.flatMap bytes) (acc ++ l) := by
  induction l generalizing acc with
  | nil =>
    rw [List.append_nil]
    exact Reads.pure acc
  | cons a l ih =>
    have hl := ih (fun b hb ↦ h b (List.mem_cons_of_mem a hb)) (acc ++ [a])
    rw [List.append_assoc, List.singleton_append] at hl
    exact (h a List.mem_cons_self).bind hl

/-- Reading from the start of a buffer. -/
theorem Reads.run {get : Get α} {bs : Frame} {a : α} (h : Reads get bs a)
    (hlt : bs.length < 2 ^ 32) (after : Frame) :
    get (bs ++ after) 0 = .ok (a, UInt32.ofNat bs.length) := by
  have hget := h [] after 0 rfl (by rw [List.length_nil]; omega)
  rwa [List.nil_append, UInt32.zero_add] at hget

/-! ## Reads that stay in the buffer -/

/-- What `get` reads lies before the position it comes to: it stays in the buffer, and what comes
after the buffer makes no difference. -/
structure Get.Local (get : Get α) : Prop where
  /-- It comes to a position in the buffer. -/
  le_length : ∀ {bytes pos a pos'}, bytes.length < 2 ^ 32 → pos.toNat ≤ bytes.length →
    get bytes pos = .ok (a, pos') → pos'.toNat ≤ bytes.length
  /-- A longer buffer is read alike. -/
  append : ∀ {bytes pos r}, get bytes pos = .ok r → ∀ more, get (bytes ++ more) pos = .ok r

theorem readAt_eq_some {buf f : Frame} {pos len : ℕ} (h : readAt buf pos len = some f) :
    pos + len ≤ buf.length := by
  rw [readAt] at h
  split at h
  · assumption
  · cases h

theorem readAt_append_right {buf f : Frame} {pos len : ℕ} (h : readAt buf pos len = some f)
    (more : Frame) : readAt (buf ++ more) pos len = some f := by
  have hle := readAt_eq_some h
  rw [readAt, if_pos hle] at h
  rw [readAt, if_pos (by rw [List.length_append]; omega), ← h,
    List.drop_append_of_le_length (by omega), List.take_append_of_le_length (by simp; omega)]

theorem getBytes_eq_ok {len : ℕ} {bytes f : Frame} {pos pos' : UInt32}
    (h : getBytes len bytes pos = .ok (f, pos')) :
    readAt bytes pos.toNat len = some f ∧ pos' = pos + UInt32.ofNat len := by
  rw [getBytes] at h
  split at h
  · rename_i g hread
    obtain ⟨rfl, rfl⟩ := Prod.mk.inj (Except.ok.inj h)
    exact ⟨hread, rfl⟩
  · exact absurd h nofun

/-- **What has been read** is the next part of the buffer. -/
theorem getBytes_split {len : ℕ} {before tail f : Frame} {pos pos' : UInt32}
    (hpos : pos.toNat = before.length) (hlt : (before ++ tail).length < 2 ^ 32)
    (h : getBytes len (before ++ tail) pos = .ok (f, pos')) :
    ∃ tail', tail = f ++ tail' ∧ f.length = len ∧ pos'.toNat = (before ++ f).length := by
  obtain ⟨hread, rfl⟩ := getBytes_eq_ok h
  have hle := readAt_eq_some hread
  rw [readAt, if_pos hle, hpos, List.drop_left, Option.some_inj] at hread
  rw [List.length_append] at hle hlt
  have hlen : f.length = len := by rw [← hread, List.length_take_of_le (by omega)]
  refine ⟨tail.drop len, by rw [← hread, List.take_append_drop], hlen, ?_⟩
  rw [toNat_add_ofNat rfl (by omega), List.length_append, hpos, hlen]

theorem local_getBytes (len : ℕ) : (getBytes len).Local where
  le_length hlt hpos h := by
    obtain ⟨hread, rfl⟩ := getBytes_eq_ok h
    have hle := readAt_eq_some hread
    rw [toNat_add_ofNat rfl (by omega)]
    exact hle
  append h more := by
    obtain ⟨hread, hpos⟩ := getBytes_eq_ok h
    rw [getBytes, readAt_append_right hread more, ← hpos]

theorem Get.local_pure (a : α) : (Get.pure a).Local where
  le_length _ hpos h := by
    obtain ⟨-, rfl⟩ := Prod.mk.inj (Except.ok.inj h)
    exact hpos
  append h _ := h

theorem Get.local_fail (e : Fault) : (Get.fail e : Get α).Local where
  le_length _ _ h := absurd h nofun
  append h _ := absurd h nofun

theorem Get.bind_eq_ok {f : Get α} {g : α → Get β} {bytes : Frame} {pos : UInt32} {r : β × UInt32} :
    f.bind g bytes pos = .ok r ↔ ∃ a m, f bytes pos = .ok (a, m) ∧ g a bytes m = .ok r := by
  rw [Get.bind]
  constructor
  · intro h
    cases hf : f bytes pos with
    | error e => rw [hf] at h; exact absurd h nofun
    | ok r' => rw [hf] at h; exact ⟨r'.1, r'.2, rfl, h⟩
  · rintro ⟨a, m, hf, hg⟩
    rw [hf]
    exact hg

theorem Get.Local.bind {f : Get α} {g : α → Get β} (hf : f.Local) (hg : ∀ a, (g a).Local) :
    (f.bind g).Local where
  le_length hlt hpos h := by
    obtain ⟨a, m, hfirst, hrest⟩ := Get.bind_eq_ok.mp h
    exact (hg a).le_length hlt (hf.le_length hlt hpos hfirst) hrest
  append h more := by
    obtain ⟨a, m, hfirst, hrest⟩ := Get.bind_eq_ok.mp h
    exact Get.bind_eq_ok.mpr ⟨a, m, hf.append hfirst more, (hg a).append hrest more⟩

theorem local_getAll {get : Get α} (h : get.Local) (n : ℕ) (acc : List α) :
    (getAll get n acc).Local := by
  induction n generalizing acc with
  | zero => exact Get.local_pure acc
  | succ n ih => exact h.bind fun a ↦ ih (acc ++ [a])

/-- **A message is read to its end**: what reads it does not read a part of it. -/
theorem Get.Local.error_of_take {get : Get α} (h : get.Local) {bs : Frame} {a : α}
    (hlt : bs.length < 2 ^ 32) (hget : get bs 0 = .ok (a, UInt32.ofNat bs.length)) {n : ℕ}
    (hn : n < bs.length) : ∃ e, get (bs.take n) 0 = .error e := by
  cases hpart : get (bs.take n) 0 with
  | error e => exact ⟨e, rfl⟩
  | ok r =>
    have hwhole := h.append hpart (bs.drop n)
    rw [List.take_append_drop, hget] at hwhole
    obtain rfl := Except.ok.inj hwhole
    have hlen : (bs.take n).length = n := List.length_take_of_le (by omega)
    have hle := h.le_length (by omega) (by simp) hpart
    rw [UInt32.toNat_ofNat_of_lt' hlt] at hle
    omega

end Lib
end RfcNet
