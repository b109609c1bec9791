import RfcNet.RFCManager

/-!
# What a peer holds

Two views of a directory: the contents that `add_rfc` stores and `get_content` reads, and the numbers
that `get_rfcs` lists.

A directory should be a map from numbers to contents, and `add_rfc` an update of it.  It touches no
other number, since no two numbers have a file in common, but a content is cut twice: `fprintf` with
`%s` stops at the first NUL, and `get_content` keeps what `fgetc` returns in a `char`, so that the
byte `0xFF` looks like the end of the file.  `stores_iff` is that any number of additions are updates
exactly where what they store has neither byte.

A directory that holds nothing but the files of numbers is listed as it can be read.  A name of
another form is refused by `parse_filename`, and `get_rfcs` does not catch this.
-/

set_option autoImplicit false

namespace RfcNet

open Lib RFCManager

/-! ## Adding -/

/-- A call of `add_rfc`, and whether `fopen` succeeds in it. -/
structure Addition where
  /-- The number. -/
  number : Int32
  /-- The content. -/
  content : StdString
  /-- The file could be opened. -/
  opened : Bool

namespace Addition

/-- What `add_rfc` returns. -/
def returns (op : Addition) (d : Directory) : Bool :=
  (RFCManager.addRfc (fun _ ↦ op.opened) d op.number op.content).1

/-- What it leaves behind. -/
def store (d : Directory) (op : Addition) : Directory :=
  (RFCManager.addRfc (fun _ ↦ op.opened) d op.number op.content).2

/-- The update that it should be, of a map from numbers to contents. -/
def record (files : Int32 → Option StdString) (op : Addition) : Int32 → Option StdString :=
  if op.opened then Function.update files op.number (some op.content) else files

theorem returns_eq (op : Addition) (d : Directory) : op.returns d = op.opened := by
  rw [returns, RFCManager.addRfc]
  cases op.opened <;> rfl

/-- **One addition** is an update with what is left of the content. -/
theorem getContent_store (d : Directory) (op : Addition) :
    getContent (op.store d) =
      record (getContent d) ⟨op.number, untilEof (cString op.content), op.opened⟩ := by
  rw [store, record]
  split
  · rename_i hopen
    funext m
    by_cases hm : m = op.number
    · rw [hm, getContent_addRfc hopen, Function.update_self]
    · rw [Function.update_of_ne hm, getContent,
        lookup_addRfc_of_ne (fun h ↦ hm (fileName_injective h)), ← getContent]
  · rename_i hclosed
    rw [RFCManager.addRfc, if_neg hclosed]

end Addition

/-- **The additions `ops` are updates**: after each of them, what can be read under any number is what
a map would hold. -/
def Stores (d : Directory) (ops : List Addition) : Prop :=
  ∀ pre, pre <+: ops → getContent (pre.foldl Addition.store d) =
    pre.foldl Addition.record (getContent d)

/-- A content that is stored and read as it is. -/
def Kept (content : StdString) : Prop := (0 : UInt8) ∉ content ∧ (255 : UInt8) ∉ content

theorem untilEof_cString_eq_self_iff {content : StdString} :
    untilEof (cString content) = content ↔ Kept content :=
  takeWhile_takeWhile_eq_self_iff.trans
    ((and_congr untilEof_eq_self_iff cString_eq_self_iff).trans and_comm)

section
variable {d : Directory} {ops : List Addition}

theorem Addition.record_kept {op : Addition} (h : op.opened = true → Kept op.content)
    (files : Int32 → Option StdString) :
    Addition.record files ⟨op.number, untilEof (cString op.content), op.opened⟩ =
      Addition.record files op := by
  rw [Addition.record, Addition.record]
  split
  · rename_i hopen
    rw [untilEof_cString_eq_self_iff.mpr (h hopen)]
  · rfl

/-- Any number of additions of what is kept. -/
theorem getContent_foldl_store (h : ∀ op ∈ ops, op.opened = true → Kept op.content) :
    getContent (ops.foldl Addition.store d) = ops.foldl Addition.record (getContent d) := by
  induction ops generalizing d with
  | nil => rfl
  | cons op ops ih =>
    rw [List.foldl_cons, List.foldl_cons, ih fun op' hop' ↦ h op' (List.mem_cons_of_mem op hop'),
      Addition.getContent_store, Addition.record_kept (h op List.mem_cons_self)]

/-- **Additions are updates** exactly where everything they store is kept. -/
theorem stores_iff (d : Directory) (ops : List Addition) :
    Stores d ops ↔ ∀ op ∈ ops, op.opened = true → Kept op.content := by
  constructor
  · intro h op hop hopen
    obtain ⟨before, after, rfl⟩ := List.append_of_mem hop
    have hlast := h (before ++ [op]) ⟨after, by rw [List.append_assoc, List.singleton_append]⟩
    rw [List.foldl_append, List.foldl_append, List.foldl_cons, List.foldl_cons, List.foldl_nil,
      List.foldl_nil, Addition.getContent_store] at hlast
    have hread := congrFun hlast op.number
    rw [Addition.record, Addition.record, if_pos hopen, if_pos hopen, Function.update_self,
      Function.update_self, Option.some_inj] at hread
    exact untilEof_cString_eq_self_iff.mp hread
  · intro h pre hpre
    exact getContent_foldl_store fun op hop ↦ h op (hpre.subset hop)

/-- A content with the byte `0xFF` in it, and one with a NUL. -/
theorem not_stores_cut : ¬ Stores ∅ [⟨7, [97, 255, 98], true⟩] ∧ ¬ Stores ∅ [⟨7, [97, 0, 98], true⟩] := by
  constructor
  · intro h
    have hread := congrFun (h _ List.prefix_rfl) 7
    exact absurd hread (by decide)
  · intro h
    have hread := congrFun (h _ List.prefix_rfl) 7
    exact absurd hread (by decide)

end

/-! ## Listing -/

/-- The name that `add_rfc` and `get_content` build for a number. -/
def Named (name : StdString) : Prop := ∃ number : Int32, 0 ≤ number ∧ name = fileName number

/-- A name that has not even the form of one. -/
def Foreign (name : StdString) : Prop := ∀ number, ¬ Matches name number

/-- **The directory is listed as it can be read**: in strictly increasing order, exactly the numbers
under which `get_content` finds a file. -/
def Listed (d : Directory) : Prop :=
  ∃ l, getRfcs d = .ok l ∧ l.Pairwise (· < ·) ∧
    ∀ number, number ∈ l ↔ 0 ≤ number ∧ (getContent d number).isSome = true

section
variable {d : Directory}

theorem mem_keys_fileName_iff {number : Int32} :
    fileName number ∈ d.keys ↔ (getContent d number).isSome = true := by
  rw [getContent, Option.isSome_map, AList.lookup_isSome, AList.mem_keys]

/-- A directory of names of numbers. -/
theorem listed_of_named (h : ∀ name ∈ d.keys, isDots name = false → Named name) : Listed d := by
  have hitems : ∀ name ∈ items d, Named name := fun name hname ↦
    h name (mem_items.mp hname).1 (mem_items.mp hname).2
  obtain ⟨l, hl⟩ : ∃ l, getRfcs d = .ok l := by
    refine exists_getRfcs_iff.mpr fun name hname ↦ ?_
    obtain ⟨n, hn, rfl⟩ := hitems name hname
    exact ⟨n, parseFilename_fileName hn⟩
  have hnodup : l.Nodup := by
    refine (nodup_getRfcs_iff hl).mpr fun name hname name' hname' heq ↦ ?_
    obtain ⟨n, hn, rfl⟩ := hitems name hname
    obtain ⟨n', hn', rfl⟩ := hitems name' hname'
    rw [parseFilename_fileName hn, parseFilename_fileName hn', Except.ok.injEq] at heq
    rw [heq]
  refine ⟨l, hl, ascending_getRfcs hl hnodup, fun number ↦ ?_⟩
  rw [mem_getRfcs hl, ← mem_keys_fileName_iff]
  constructor
  · rintro ⟨name, hname, hparse⟩
    obtain ⟨n, hn, rfl⟩ := hitems name hname
    rw [parseFilename_fileName hn, Except.ok.injEq] at hparse
    exact hparse ▸ ⟨hn, (mem_items.mp hname).1⟩
  · rintro ⟨hn, hmem⟩
    exact ⟨fileName number, mem_items.mpr ⟨hmem, isDots_fileName number⟩, parseFilename_fileName hn⟩

/-- A directory with a name of no form. -/
theorem getRfcs_of_foreign (h : ∀ name ∈ d.keys, isDots name = false → Named name ∨ Foreign name)
    {name : StdString} (hname : name ∈ d.keys) (hdots : isDots name = false) (hforeign : Foreign name) :
    getRfcs d = .error .filenameParse := by
  have herror : (items d).mapM parseFilename = .error .filenameParse := by
    refine mapM_eq_error (fun name' hname' ↦ ?_) (mem_items.mpr ⟨hname, hdots⟩)
      (parseFilename_of_not_matches hforeign)
    rcases h name' (mem_items.mp hname').1 (mem_items.mp hname').2 with ⟨n, hn, rfl⟩ | hforeign'
    · exact .inl ⟨n, parseFilename_fileName hn⟩
    · exact .inr (parseFilename_of_not_matches hforeign')
  rw [items] at herror
  rw [getRfcs, herror]
  rfl

end

/-- Names of numbers, and names of no form, are told apart. -/
theorem parseFilename_eq_ok_iff {name : StdString} (h : Named name ∨ Foreign name) {number : Int32} :
    parseFilename name = .ok number ↔ 0 ≤ number ∧ name = fileName number := by
  rcases h with ⟨n, hn, rfl⟩ | hforeign
  · rw [parseFilename_fileName hn]
    constructor
    · intro heq
      rw [← Except.ok.inj heq]
      exact ⟨hn, rfl⟩
    · rintro ⟨-, heq⟩
      rw [fileName_injective heq]
  · refine iff_of_false ?_ ?_
    · rw [parseFilename_of_not_matches hforeign]
      exact nofun
    · rintro ⟨hnonneg, heq⟩
      exact hforeign _ (heq ▸ matches_fileName hnonneg)

/-- **Listing agrees with reading**, in a directory where every name is that of a number or has not the
form of one.  Where there is one of the latter, there is no listing at all. -/
theorem listing_agrees (d : Directory)
    (h : ∀ name ∈ d.keys, isDots name = false → Named name ∨ Foreign name) :
    ((∀ name ∈ d.keys, isDots name = false → Named name) → Listed d) ∧
    ((∃ name ∈ d.keys, isDots name = false ∧ Foreign name) → getRfcs d = .error .filenameParse) ∧
    (∀ name ∈ d.keys, isDots name = false → ∀ number,
      (parseFilename name = .ok number ↔ 0 ≤ number ∧ name = fileName number)) := by
  refine ⟨listed_of_named, ?_, fun name hname hdots number ↦ ?_⟩
  · rintro ⟨name, hname, hdots, hforeign⟩
    exact getRfcs_of_foreign h hname hdots hforeign
  · exact parseFilename_eq_ok_iff (h name hname hdots)

/-- The files `rfc7.txt` and `rfc12.txt`. -/
def twoFiles : Directory := AList.insert (fileName 7) [97] (AList.singleton (fileName 12) [98])

theorem named_of_mem_twoFiles {name : StdString} (hname : name ∈ twoFiles.keys) : Named name := by
  rcases (AList.mem_insert _).mp (AList.mem_keys.mpr hname) with rfl | hname
  · exact ⟨7, by decide, rfl⟩
  · exact ⟨12, by decide, List.mem_singleton.mp (AList.mem_keys.mp hname)⟩

theorem foreign_notes : Foreign [110, 111, 116, 101, 115] := by
  rintro number ⟨-, -, c, -, -, heq⟩
  exact absurd (List.head_eq_of_cons_eq heq) (by decide)

/-- They are listed, and with a file `notes` next to them there is no listing. -/
theorem listing_agrees_both : Listed twoFiles ∧
    getRfcs (AList.insert [110, 111, 116, 101, 115] [99] twoFiles) = .error .filenameParse := by
  refine ⟨(listing_agrees twoFiles fun _ hname _ ↦ .inl (named_of_mem_twoFiles hname)).1
    fun _ hname _ ↦ named_of_mem_twoFiles hname, ?_⟩
  refine (listing_agrees _ fun name hname _ ↦ ?_).2.1 ⟨_, AList.mem_keys.mp ((AList.mem_insert _).mpr (.inl rfl)),
    by decide, foreign_notes⟩
  rcases (AList.mem_insert _).mp (AList.mem_keys.mpr hname) with rfl | hname
  · exact .inr foreign_notes
  · exact .inl (named_of_mem_twoFiles (AList.mem_keys.mp hname))

/-- The files `rfc1.txt` and `notes`: there is no listing.  The file `rfc01.txt`: it is listed as 1, and
there is no `rfc1.txt`. -/
theorem not_listed_foreign :
    ¬ Listed (AList.insert ([110, 111, 116, 101, 115] : StdString) [97]
      (AList.singleton (fileName 1) [97] : Directory)) ∧
    ¬ Listed (AList.singleton [114, 102, 99, 48, 49, 46, 116, 120, 116] [97] : Directory) := by
  constructor
  · rintro ⟨l, hl, -⟩
    have hthrow : getRfcs (AList.insert ([110, 111, 116, 101, 115] : StdString) [97]
        (AList.singleton (fileName 1) [97] : Directory)) = .error .filenameParse := by decide
    rw [hthrow] at hl
    cases hl
  · rintro ⟨l, hl, -, hmem⟩
    have hone : getRfcs (AList.singleton [114, 102, 99, 48, 49, 46, 116, 120, 116] [97] : Directory) =
        .ok [1] := by decide
    obtain rfl : [1] = l := Except.ok.inj (hone.symm.trans hl)
    have hread := ((hmem 1).mp List.mem_cons_self).2
    exact absurd hread (by decide)

end RfcNet
