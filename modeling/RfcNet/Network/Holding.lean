import RfcNet.Network.System

/-!
# What a peer has

What is said of one directory in the network.  `Intact` is that the files that were there are as they were, and that
every other one is a copy: what an original of some peer comes to when it is copied, which is its text up to the first
NUL or `0xFF`.  Getting a genuine content keeps this (`Intact.addRfc`), and what is read from such a directory is
genuine (`Intact.genuine`), so that a copy of a copy is no worse than a copy.

A file that is read while it is being stored is cut short.  `cut` says that this may have happened.
-/

set_option autoImplicit false

namespace RfcNet

open Lib RFCManager

/-! ## Which RFCs -/

/-- `get_rfcs` lists the RFC `n`: the name of some file is read as this number. -/
def Lists (d : Directory) (n : Int32) : Prop := ∃ name ∈ items d, parseFilename name = .ok n

/-- `get_content` finds the RFC `n`: it is in the file of this number. -/
def HasFile (d : Directory) (n : Int32) : Prop := ∃ content, getContent d n = some content

/-- Every file is that of a positive number. -/
def Tidy (d : Directory) : Prop := ∀ name ∈ items d, ∃ n, 0 < n ∧ name = fileName n

/-- The RFC is listed, unless its file cannot be opened for writing. -/
def Node.Has (node : Node) (d : Directory) (n : Int32) : Prop :=
  Lists d n ∨ node.canOpen (fileName n) = false

section
variable {d d' : Directory} {n m : Int32} {canOpen : StdString → Bool} {content : StdString}

/-- Further files take nothing away. -/
theorem Lists.mono (hkeys : ∀ name, name ∈ d → name ∈ d') (h : Lists d n) : Lists d' n := by
  obtain ⟨name, hname, hparse⟩ := h
  obtain ⟨hmem, hdots⟩ := mem_items.mp hname
  exact ⟨name, mem_items.mpr ⟨hkeys name hmem, hdots⟩, hparse⟩

theorem hasFile_iff_mem : HasFile d n ↔ fileName n ∈ d := by
  rw [HasFile, ← Option.isSome_iff_exists, getContent, Option.isSome_map, AList.lookup_isSome]

/-- **What such a directory lists**, `get_content` finds. -/
theorem Tidy.hasFile (h : Tidy d) (hn : Lists d n) : 0 < n ∧ HasFile d n := by
  obtain ⟨name, hname, hparse⟩ := hn
  obtain ⟨m, hpos, rfl⟩ := h name hname
  rw [parseFilename_fileName (Int32.le_of_lt hpos)] at hparse
  obtain rfl := Except.ok.inj hparse
  exact ⟨hpos, hasFile_iff_mem.mpr (mem_items.mp hname).1⟩

theorem mem_addRfc_of_mem {name : StdString} (h : name ∈ d) : name ∈ (RFCManager.addRfc canOpen d n content).2 := by
  rw [RFCManager.addRfc]
  split
  · exact (AList.mem_insert _).mpr (.inr h)
  · exact h

theorem lists_of_mem (hn : 0 < n) (h : fileName n ∈ d) : Lists d n :=
  ⟨fileName n, mem_items.mpr ⟨h, isDots_fileName n⟩, parseFilename_fileName (Int32.le_of_lt hn)⟩

/-- The RFC has its file, unless that cannot be opened for writing. -/
def Node.Stores (node : Node) (d : Directory) (n : Int32) : Prop :=
  HasFile d n ∨ node.canOpen (fileName n) = false

/-- **What has been stored is there.** -/
theorem Node.stores_addRfc (node : Node) : node.Stores (RFCManager.addRfc node.canOpen d n content).2 n := by
  by_cases hopen : node.canOpen (fileName n) = true
  · refine .inl (hasFile_iff_mem.mpr ?_)
    rw [RFCManager.addRfc, if_pos hopen]
    exact (AList.mem_insert _).mpr (.inl rfl)
  · exact .inr (Bool.eq_false_of_not_eq_true hopen)

theorem Node.Stores.has {node : Node} (h : node.Stores d n) (hn : 0 < n) : node.Has d n :=
  h.imp_left fun hfile ↦ lists_of_mem hn (hasFile_iff_mem.mp hfile)

theorem Node.Stores.addRfc {node : Node} (h : node.Stores d m) :
    node.Stores (RFCManager.addRfc canOpen d n content).2 m :=
  h.imp_left fun hfile ↦ hasFile_iff_mem.mpr (mem_addRfc_of_mem (hasFile_iff_mem.mp hfile))

theorem Node.Has.addRfc {node : Node} (h : node.Has d m) : node.Has (RFCManager.addRfc canOpen d n content).2 m :=
  h.imp_left (Lists.mono fun _ ↦ mem_addRfc_of_mem)

/-- **What `check_if_rfc_stored` does not find** is not there. -/
theorem not_lists_of_check (h : checkIfRfcStored n d = .ok false) : ¬ Lists d n := by
  rintro ⟨name, hname, hparse⟩
  rw [checkIfRfcStored] at h
  cases hlist : getRfcs d with
  | error e =>
    rw [hlist] at h
    cases h
  | ok l =>
    rw [hlist] at h
    have hcontains : l.contains n = true := List.contains_iff_mem.mpr ((mem_getRfcs hlist).mpr ⟨name, hname, hparse⟩)
    have hmissing : l.contains n = false := Except.ok.inj h
    rw [hcontains] at hmissing
    cases hmissing

/-- What a peer announces, it lists. -/
theorem Node.lists_rfcs (node : Node) (hn : n ∈ node.rfcs) : Lists node.files n := (mem_getRfcs node.listed).mp hn

end

/-! ## Which contents -/

/-- The content is a beginning of the text, and all of it, unless files are `cut`. -/
def CopyOf (cut : Prop) (content text : StdString) : Prop := content <+: text ∧ (¬ cut → content = text)

theorem copyOf_refl {cut : Prop} (text : StdString) : CopyOf cut text text := ⟨List.prefix_rfl, fun _ ↦ rfl⟩

theorem cString_cString (content : StdString) : cString (cString content) = cString content :=
  cString_eq_self (zero_notMem_cString content)

/-- A beginning of a content is read as a beginning of what the content is read as. -/
theorem cString_take_isPrefix (content : StdString) (len : ℕ) : cString (content.take len) <+: cString content := by
  obtain ⟨rest, hrest⟩ := List.take_prefix len content
  conv_rhs => rw [← hrest]
  rw [cString, cString, List.takeWhile_append]
  split
  · exact (List.takeWhile_prefix _).trans (List.prefix_append ..)
  · exact List.prefix_rfl

/-- A copy has no NUL and no `0xFF` any more, nor has a beginning of it. -/
theorem read_of_copy {content original : StdString} (h : content <+: cString (untilEof original)) :
    cString (untilEof content) = content := by
  have hread : untilEof content = content := by
    refine untilEof_eq_self fun hmem ↦ ?_
    have heof : (255 : UInt8) ∈ untilEof original := (List.takeWhile_sublist _).mem (h.subset hmem)
    simpa using List.mem_takeWhile_imp heof
  rw [hread]
  exact cString_eq_self fun hmem ↦ zero_notMem_cString _ (h.subset hmem)

section
variable {ι : Type} {nodes : ι → Node} {cut : Prop}

/-- The content is stored as a copy of what an original of the RFC `k` comes to when it is copied. -/
def Genuine (nodes : ι → Node) (cut : Prop) (k : Int32) (content : StdString) : Prop :=
  ∃ j original, (nodes j).files.lookup (fileName k) = some original ∧
    CopyOf cut (cString content) (cString (untilEof original))

theorem Genuine.cString {k : Int32} {content : StdString} (h : Genuine nodes cut k content) :
    Genuine nodes cut k (RfcNet.cString content) := by
  obtain ⟨j, original, horiginal, hcopy⟩ := h
  exact ⟨j, original, horiginal, (cString_cString content).symm ▸ hcopy⟩

/-- A beginning of it is genuine too, where files are cut. -/
theorem Genuine.take {k : Int32} {content : StdString} (h : Genuine nodes cut k content) (hcut : cut) (len : ℕ) :
    Genuine nodes cut k (content.take len) := by
  obtain ⟨j, original, horiginal, hprefix, -⟩ := h
  exact ⟨j, original, horiginal, (cString_take_isPrefix content len).trans hprefix, fun hwhole ↦ absurd hcut hwhole⟩

/-- **What a directory has become**: the files that were there are as they were, and the others are copies. -/
structure Intact (nodes : ι → Node) (cut : Prop) (i : ι) (d : Directory) : Prop where
  originals : ∀ name content, (nodes i).files.lookup name = some content → d.lookup name = some content
  copies : ∀ name content, d.lookup name = some content → (nodes i).files.lookup name = some content ∨
    ∃ n j original, 0 < n ∧ name = fileName n ∧
      (nodes j).files.lookup (fileName (Encounter.asked n)) = some original ∧
      CopyOf cut content (cString (untilEof original))

variable {i : ι} {d : Directory}

theorem intact_init (nodes : ι → Node) (cut : Prop) (i : ι) : Intact nodes cut i (nodes i).files :=
  ⟨fun _ _ h ↦ h, fun _ _ h ↦ .inl h⟩

/-- What is not in the directory was not there from the start. -/
theorem Intact.lookup_of_not_listed (h : Intact nodes cut i d) {n : Int32} (hn : 0 < n) (hfree : ¬ Lists d n) :
    (nodes i).files.lookup (fileName n) = none := by
  cases horiginal : (nodes i).files.lookup (fileName n) with
  | none => rfl
  | some content =>
    have hmem : fileName n ∈ d := AList.lookup_isSome.mp (by rw [h.originals _ _ horiginal]; rfl)
    exact absurd (lists_of_mem hn hmem) hfree

/-- **A directory can always be listed**, as it could at the start. -/
theorem Intact.exists_getRfcs (h : Intact nodes cut i d) : ∃ l, getRfcs d = .ok l := by
  refine exists_getRfcs_iff.mpr fun name hname ↦ ?_
  obtain ⟨hmem, hdots⟩ := mem_items.mp hname
  obtain ⟨content, hcontent⟩ := Option.isSome_iff_exists.mp (AList.lookup_isSome.mpr hmem)
  rcases h.copies name content hcontent with horiginal | ⟨n, j, original, hn, rfl, -⟩
  · have hkeys : name ∈ (nodes i).files := AList.lookup_isSome.mp (by rw [horiginal]; rfl)
    exact exists_getRfcs_iff.mp ⟨_, (nodes i).listed⟩ name (mem_items.mpr ⟨hkeys, hdots⟩)
  · exact ⟨n, parseFilename_fileName (Int32.le_of_lt hn)⟩

/-- **A directory of RFCs stays one.** -/
theorem Intact.tidy (h : Intact nodes cut i d) (htidy : Tidy (nodes i).files) : Tidy d := by
  intro name hname
  obtain ⟨hmem, hdots⟩ := mem_items.mp hname
  obtain ⟨content, hcontent⟩ := Option.isSome_iff_exists.mp (AList.lookup_isSome.mpr hmem)
  rcases h.copies name content hcontent with horiginal | ⟨n, j, original, hn, rfl, -⟩
  · have hkeys : name ∈ (nodes i).files := AList.lookup_isSome.mp (by rw [horiginal]; rfl)
    exact htidy name (mem_items.mpr ⟨hkeys, hdots⟩)
  · exact ⟨n, hn, rfl⟩

/-- **What is read is genuine.** -/
theorem Intact.genuine (h : Intact nodes cut i d) {k : Int16} {content : StdString}
    (hread : getContent d k.toInt32 = some content) : Genuine nodes cut k.toInt32 content := by
  obtain ⟨file, hfile, rfl⟩ := Option.map_eq_some_iff.mp hread
  rcases h.copies _ _ hfile with horiginal | ⟨n, j, original, -, hname, horiginal, hcopy⟩
  · exact ⟨i, file, horiginal, copyOf_refl _⟩
  · obtain rfl : k.toInt32 = n := fileName_injective hname
    rw [Encounter.asked, Int16.toInt16_toInt32] at horiginal
    refine ⟨j, original, horiginal, ?_⟩
    rwa [read_of_copy hcopy.1]

/-- **Storing a genuine content** that was not there from the start keeps all the others. -/
theorem Intact.addRfc {canOpen : StdString → Bool} {n : Int32} {content : StdString} (h : Intact nodes cut i d)
    (hn : 0 < n) (hnew : (nodes i).files.lookup (fileName n) = none)
    (hcontent : Genuine nodes cut (Encounter.asked n) content) :
    Intact nodes cut i (RFCManager.addRfc canOpen d n content).2 := by
  refine ⟨fun name file hfile ↦ ?_, fun name file hfile ↦ ?_⟩
  · have hname : name ≠ fileName n := by
      rintro rfl
      rw [hnew] at hfile
      cases hfile
    rw [lookup_addRfc_of_ne hname]
    exact h.originals name file hfile
  · by_cases hname : name = fileName n
    · subst hname
      rw [RFCManager.addRfc] at hfile
      split at hfile
      · rw [AList.lookup_insert] at hfile
        obtain rfl := Option.some_inj.mp hfile
        obtain ⟨j, original, horiginal, hcopy⟩ := hcontent
        exact .inr ⟨n, j, original, hn, rfl, horiginal, hcopy⟩
      · exact h.copies _ file hfile
    · rw [lookup_addRfc_of_ne hname] at hfile
      exact h.copies name file hfile

end

end RfcNet
