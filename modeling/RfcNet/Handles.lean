import RfcNet.Lib.Runs
import RfcNet.Peer
import RfcNet.RFCManager

/-!
# Handles that stay open

`RFCManager` once more, with the handles it opens.  `get_rfcs` opens the directory, and `add_rfc` and
`get_content` open a file, which fails where it is not permitted, and where a limit on open handles has been
reached.

`get_content` never closes its file, and `get_rfcs` does not close the directory if `parse_filename` throws.
So a handle stays open with each file that is read, and with each listing that is given up
(`handles_after_iff`), and a peer that has served files up to its limit answers 404 for those it has
(`serve_served_iff`).
-/

set_option autoImplicit false

namespace RfcNet

open Lib RFCManager

/-! ## The directory and its handles -/

/-- The files of a peer, and how many handles it has open. -/
structure Disk where
  /-- The directory. -/
  files : Directory
  /-- The number of `FILE`s and `DIR`s that are open. -/
  handles : ℕ

/-- The exceptions of `RFCManager`. -/
inductive Thrown
  /-- `PathReadException`. -/
  | pathRead
  /-- An exception of `parse_filename`. -/
  | parse (e : RFCManager.Exception)
  /-- `FileReadException`. -/
  | fileRead
  deriving DecidableEq, Repr

namespace Disk

/-- `opendir`, or `fopen`.  There are at most `limit` handles, and `permitted` is whatever else it takes. -/
def acquire (limit : ℕ) (permitted : Bool) (s : Disk) : Option Disk :=
  if permitted && decide (s.handles < limit) then some { s with handles := s.handles + 1 } else none

/-- `closedir`, or `fclose`. -/
def release (s : Disk) : Disk := { s with handles := s.handles - 1 }

/-- `get_rfcs`.  An exception of `parse_filename` passes through it. -/
def getRfcs (limit : ℕ) (permitted : Bool) (s : Disk) : Except Thrown (List Int32) × Disk :=
  match s.acquire limit permitted with
  | none => (.error .pathRead, s)
  | some s =>
    match RFCManager.getRfcs s.files with
    | .error e => (.error (.parse e), s)
    | .ok l => (.ok l, s.release)

/-- `add_rfc`. -/
def addRfc (limit : ℕ) (permitted : Bool) (number : Int32) (content : StdString) (s : Disk) : Bool × Disk :=
  match s.acquire limit permitted with
  | none => (false, s)
  | some s =>
    (true, release { s with files := (RFCManager.addRfc (fun _ ↦ true) s.files number content).2 })

/-- `get_content`.  There must be a file to open. -/
def getContent (limit : ℕ) (permitted : Bool) (number : Int32) (s : Disk) : Except Thrown StdString × Disk :=
  match RFCManager.getContent s.files number with
  | none => (.error .fileRead, s)
  | some content =>
    match s.acquire limit permitted with
    | none => (.error .fileRead, s)
    | some s => (.ok content, s)

end Disk

/-- A call of `RFCManager`, and whether the system permits it to open what it opens. -/
inductive StoreOp
  | getRfcs (permitted : Bool)
  | addRfc (permitted : Bool) (number : Int32) (content : StdString)
  | getContent (permitted : Bool) (number : Int32)
  deriving DecidableEq, Repr

namespace StoreOp

/-- What a call leaves, whether it returns or throws. -/
def exec (limit : ℕ) (s : Disk) : StoreOp → Disk
  | .getRfcs permitted => (s.getRfcs limit permitted).2
  | .addRfc permitted number content => (s.addRfc limit permitted number content).2
  | .getContent permitted number => (s.getContent limit permitted number).2

/-- **A call leaves a handle open**: it lists a directory in which some name cannot be parsed, or reads a file;
and it can open this. -/
def Leaks (limit : ℕ) (s : Disk) : StoreOp → Prop
  | .getRfcs permitted => permitted = true ∧ s.handles < limit ∧
    ∃ name ∈ items s.files, ∀ n, parseFilename name ≠ .ok n
  | .addRfc _ _ _ => False
  | .getContent permitted number => permitted = true ∧ s.handles < limit ∧ fileName number ∈ s.files.keys

end StoreOp

namespace Disk

/-- One call, as a step of a system. -/
def step (limit : ℕ) (s : Disk) (op : StoreOp) : Option Disk := some (op.exec limit s)

/-- What a sequence of calls leaves. -/
def after (limit : ℕ) (s : Disk) (ops : List StoreOp) : Disk := ops.foldl (StoreOp.exec limit) s

/-! ## What a call leaves open -/

section
variable {limit : ℕ} {permitted : Bool} {s t : Disk} {number : Int32}

theorem acquire_eq_some_iff : s.acquire limit permitted = some t ↔
    permitted = true ∧ s.handles < limit ∧ t = { s with handles := s.handles + 1 } := by
  rw [acquire]
  split
  · rename_i h
    rw [Bool.and_eq_true, decide_eq_true_iff] at h
    rw [Option.some_inj, eq_comm]
    exact ⟨fun ht ↦ ⟨h.1, h.2, ht⟩, fun ht ↦ ht.2.2⟩
  · rename_i h
    rw [Bool.and_eq_true, decide_eq_true_iff] at h
    exact ⟨nofun, fun ht ↦ absurd ⟨ht.1, ht.2.1⟩ h⟩

theorem acquire_eq_none_iff : s.acquire limit permitted = none ↔ ¬(permitted = true ∧ s.handles < limit) := by
  rw [← Option.not_isSome_iff_eq_none, Option.isSome_iff_exists]
  refine not_congr ⟨?_, ?_⟩
  · rintro ⟨t, ht⟩
    obtain ⟨hpermitted, hlt, -⟩ := acquire_eq_some_iff.mp ht
    exact ⟨hpermitted, hlt⟩
  · rintro ⟨hpermitted, hlt⟩
    exact ⟨_, acquire_eq_some_iff.mpr ⟨hpermitted, hlt, rfl⟩⟩

/-- Whether something can be opened. -/
theorem acquire_cases (limit : ℕ) (permitted : Bool) (s : Disk) :
    (permitted = true ∧ s.handles < limit ∧
      s.acquire limit permitted = some { s with handles := s.handles + 1 }) ∨
    (¬(permitted = true ∧ s.handles < limit) ∧ s.acquire limit permitted = none) := by
  by_cases h : permitted = true ∧ s.handles < limit
  · exact .inl ⟨h.1, h.2, acquire_eq_some_iff.mpr ⟨h.1, h.2, rfl⟩⟩
  · exact .inr ⟨h, acquire_eq_none_iff.mpr h⟩

theorem getContent_eq_none_iff {d : Directory} : RFCManager.getContent d number = none ↔
    fileName number ∉ d.keys := by
  rw [RFCManager.getContent, Option.map_eq_none_iff, AList.lookup_eq_none, AList.mem_keys]

end

end Disk

open Disk

/-- **One call** leaves a handle open, or as many as there were. -/
theorem StoreOp.handles_exec (limit : ℕ) (s : Disk) (op : StoreOp) :
    (op.Leaks limit s ∧ (op.exec limit s).handles = s.handles + 1) ∨
      (¬op.Leaks limit s ∧ (op.exec limit s).handles = s.handles) := by
  cases op with
  | getRfcs permitted =>
    rw [Leaks, exec, Disk.getRfcs]
    rcases acquire_cases limit permitted s with ⟨hpermitted, hlt, hsome⟩ | ⟨hnot, hnone⟩
    · rw [hsome]
      dsimp only
      cases hlist : RFCManager.getRfcs s.files with
      | error e =>
        refine .inl ⟨⟨hpermitted, hlt, ?_⟩, rfl⟩
        by_contra hall
        push Not at hall
        obtain ⟨l, hl⟩ := exists_getRfcs_iff.mpr hall
        rw [hl] at hlist
        cases hlist
      | ok l =>
        refine .inr ⟨?_, Nat.add_sub_cancel _ 1⟩
        rintro ⟨-, -, name, hname, hnone⟩
        obtain ⟨n, hn⟩ := exists_getRfcs_iff.mp ⟨l, hlist⟩ name hname
        exact hnone n hn
    · rw [hnone]
      exact .inr ⟨fun h ↦ hnot ⟨h.1, h.2.1⟩, rfl⟩
  | addRfc permitted number content =>
    refine .inr ⟨id, ?_⟩
    rw [exec, Disk.addRfc]
    rcases acquire_cases limit permitted s with ⟨-, -, hsome⟩ | ⟨-, hnone⟩
    · rw [hsome]
      exact Nat.add_sub_cancel _ 1
    · rw [hnone]
  | getContent permitted number =>
    rw [Leaks, exec, Disk.getContent]
    cases hcontent : RFCManager.getContent s.files number with
    | none => exact .inr ⟨fun h ↦ getContent_eq_none_iff.mp hcontent h.2.2, rfl⟩
    | some content =>
      have hfile : fileName number ∈ s.files.keys := by
        by_contra hfile
        rw [getContent_eq_none_iff.mpr hfile] at hcontent
        cases hcontent
      dsimp only
      rcases acquire_cases limit permitted s with ⟨hpermitted, hlt, hsome⟩ | ⟨hnot, hnone⟩
      · rw [hsome]
        exact .inl ⟨⟨hpermitted, hlt, hfile⟩, rfl⟩
      · rw [hnone]
        exact .inr ⟨fun h ↦ hnot ⟨h.1, h.2.1⟩, rfl⟩

namespace Disk

section
variable {limit : ℕ} {s : Disk} {ops : List StoreOp}

/-- No call closes more than it has opened. -/
theorem handles_le_after (limit : ℕ) (s : Disk) (ops : List StoreOp) :
    s.handles ≤ (s.after limit ops).handles := by
  induction ops generalizing s with
  | nil => exact le_rfl
  | cons op ops ih =>
    have hrest := ih (op.exec limit s)
    rcases op.handles_exec limit s with ⟨-, hhandles⟩ | ⟨-, hhandles⟩
    · exact le_trans (by omega) hrest
    · exact hhandles ▸ hrest

/-- **A sequence of calls leaves as many handles open as there were** exactly if no call of it leaves one
open. -/
theorem handles_after_iff : (s.after limit ops).handles = s.handles ↔
    AllSteps (step limit) (fun s op ↦ ¬op.Leaks limit s) s ops := by
  induction ops generalizing s with
  | nil => exact iff_of_true rfl trivial
  | cons op ops ih =>
    have hrest := handles_le_after limit (op.exec limit s) ops
    have hall : AllSteps (step limit) (fun s op ↦ ¬op.Leaks limit s) s (op :: ops) ↔
        ¬op.Leaks limit s ∧ AllSteps (step limit) (fun s op ↦ ¬op.Leaks limit s) (op.exec limit s) ops :=
      ⟨fun h ↦ h _ rfl, fun h _ hs ↦ Option.some_inj.mp hs ▸ h⟩
    rw [hall, ← ih]
    change ((op.exec limit s).after limit ops).handles = _ ↔ _
    rcases op.handles_exec limit s with ⟨hleaks, hhandles⟩ | ⟨hkept, hhandles⟩
    · exact iff_of_false (by omega) fun h ↦ h.1 hleaks
    · rw [hhandles]
      exact (and_iff_right hkept).symm

end

/-! ## What a limit makes of it -/

/-- What the handler of a peer answers to a GET, and what that leaves. -/
def serve (limit : ℕ) (canRead : StdString → Bool) (s : Disk) (number : Int32) : GetRFCResponse × Disk :=
  (contentReply (s.getContent limit (canRead (fileName number)) number).1.toOption,
    (s.getContent limit (canRead (fileName number)) number).2)

/-- What is left after any number of GETs. -/
def served (limit : ℕ) (canRead : StdString → Bool) (s : Disk) (numbers : List Int32) : Disk :=
  numbers.foldl (fun s number ↦ (s.serve limit canRead number).2) s

/-- There is a file to read. -/
def Readable (canRead : StdString → Bool) (s : Disk) (number : Int32) : Bool :=
  canRead (fileName number) && (s.files.lookup (fileName number)).isSome

section
variable {limit : ℕ} {canRead : StdString → Bool} {s : Disk} {number : Int32} {numbers : List Int32}

/-- **One GET** is answered with the content of its file, which stays open, or with a 404. -/
theorem serve_cases (limit : ℕ) (canRead : StdString → Bool) (s : Disk) (number : Int32) :
    (s.Readable canRead number = true ∧ s.handles < limit ∧ ∃ content,
        s.serve limit canRead number = (contentReply (some content), { s with handles := s.handles + 1 }) ∧
          RFCManager.getContent s.files number = some content) ∨
      (¬(s.Readable canRead number = true ∧ s.handles < limit) ∧
        s.serve limit canRead number = (contentReply none, s)) := by
  have hfile : (s.files.lookup (fileName number)).isSome = (RFCManager.getContent s.files number).isSome :=
    Option.isSome_map.symm
  rw [Readable, Bool.and_eq_true, hfile, serve, Disk.getContent]
  cases RFCManager.getContent s.files number with
  | none => exact .inr ⟨fun h ↦ Bool.noConfusion h.1.2, rfl⟩
  | some content =>
    dsimp only
    rcases acquire_cases limit (canRead (fileName number)) s with ⟨hpermitted, hlt, hsome⟩ | ⟨hnot, hnone⟩
    · rw [hsome]
      exact .inl ⟨⟨hpermitted, rfl⟩, hlt, content, rfl, rfl⟩
    · rw [hnone]
      exact .inr ⟨fun h ↦ hnot ⟨h.1.1, h.2⟩, rfl⟩

/-- **Any number of GETs** leave a handle free if there was one for each of them that found a file, and one
more. -/
theorem served_lt_iff (limit : ℕ) (canRead : StdString → Bool) (s : Disk) (numbers : List Int32) :
    (s.served limit canRead numbers).files = s.files ∧
    ((s.served limit canRead numbers).handles < limit ↔
      s.handles + numbers.countP (s.Readable canRead) < limit) := by
  induction numbers generalizing s with
  | nil => exact ⟨rfl, .rfl⟩
  | cons number numbers ih =>
    rw [served, List.foldl_cons, ← served, List.countP_cons]
    rcases serve_cases limit canRead s number with ⟨hreadable, hlt, content, hserve, -⟩ | ⟨hnot, hserve⟩
    · rw [hserve, hreadable, if_pos rfl]
      obtain ⟨hfiles, hhandles⟩ := ih { s with handles := s.handles + 1 }
      refine ⟨hfiles, hhandles.trans ?_⟩
      change _ + 1 + numbers.countP (s.Readable canRead) < limit ↔ _
      omega
    · rw [hserve]
      obtain ⟨hfiles, hhandles⟩ := ih s
      refine ⟨hfiles, hhandles.trans ?_⟩
      split
      · rename_i hreadable
        have hfull : limit ≤ s.handles := Nat.le_of_not_lt fun hlt ↦ hnot ⟨hreadable, hlt⟩
        omega
      · rfl

/-- A file is not a 404. -/
theorem contentReply_some_ne (content : StdString) : contentReply (some content) ≠ contentReply none :=
  fun h ↦ absurd (congrArg GetRFCResponse.code h) (show (200 : Int32) ≠ 404 by decide)

/-- **The next GET is answered as the first one** exactly if it is for a file that cannot be read, or there was
no handle for it to begin with, or there still is one: for it and for each GET before it that found a file. -/
theorem serve_served_iff : ((s.served limit canRead numbers).serve limit canRead number).1 =
      (s.serve limit canRead number).1 ↔
    s.Readable canRead number = false ∨ limit ≤ s.handles ∨
      s.handles + numbers.countP (s.Readable canRead) < limit := by
  obtain ⟨hfiles, hhandles⟩ := served_lt_iff limit canRead s numbers
  have hreadable : (s.served limit canRead numbers).Readable canRead number = s.Readable canRead number := by
    rw [Readable, Readable, hfiles]
  rcases serve_cases limit canRead s number with ⟨hfile, hlt, content, hfirst, hcontent⟩ | ⟨hnot, hfirst⟩
  · rcases serve_cases limit canRead (s.served limit canRead numbers) number with
      ⟨-, hfree, content', hnext, hcontent'⟩ | ⟨hnot, hnext⟩
    · rw [hfiles, hcontent, Option.some_inj] at hcontent'
      rw [hfirst, hnext, hcontent']
      exact iff_of_true rfl (.inr (.inr (hhandles.mp hfree)))
    · rw [hfirst, hnext]
      refine iff_of_false (contentReply_some_ne content).symm ?_
      rintro (hnone | hfull | hfree)
      · exact absurd hfile (Bool.eq_false_iff.mp hnone)
      · omega
      · exact hnot ⟨hreadable.trans hfile, hhandles.mpr hfree⟩
  · have hnext : (s.served limit canRead numbers).serve limit canRead number =
        (contentReply none, s.served limit canRead numbers) := by
      rcases serve_cases limit canRead (s.served limit canRead numbers) number with
        ⟨hfile, hfree, -⟩ | ⟨-, hnext⟩
      · have hlt := hhandles.mp hfree
        exact absurd ⟨hreadable.symm.trans hfile, by omega⟩ hnot
      · exact hnext
    rw [hfirst, hnext]
    refine iff_of_true rfl ?_
    by_cases hfile : s.Readable canRead number = true
    · exact .inr (.inl (Nat.le_of_not_lt fun hlt ↦ hnot ⟨hfile, hlt⟩))
    · exact .inl (Bool.eq_false_iff.mpr hfile)

end

/-- **As long as a handle is free**, a call that is permitted returns what it would without a limit, and leaves
the same files. -/
theorem agrees_of_free {limit : ℕ} {s : Disk} (hfree : s.handles < limit) (number : Int32) (content : StdString) :
    (s.getRfcs limit true).1 = (RFCManager.getRfcs s.files).mapError .parse ∧
    ((s.addRfc limit true number content).1, (s.addRfc limit true number content).2.files) =
      RFCManager.addRfc (fun _ ↦ true) s.files number content ∧
    (s.getContent limit true number).1.toOption = RFCManager.getContent s.files number := by
  have hsome : s.acquire limit true = some _ := acquire_eq_some_iff.mpr ⟨rfl, hfree, rfl⟩
  refine ⟨?_, ?_, ?_⟩
  · rw [Disk.getRfcs, hsome]
    dsimp only
    cases RFCManager.getRfcs s.files <;> rfl
  · rw [Disk.addRfc, hsome]
    rfl
  · rw [Disk.getContent, hsome]
    cases RFCManager.getContent s.files number <;> rfl

/-- **The store leaks no handles** exactly in those sequences of calls in which no file is opened by
`get_content`, and no directory listed that `parse_filename` refuses a name of.  And under a limit, a peer
answers the next GET as the first one exactly while there is a handle for each file it has served. -/
theorem handles_kept_iff (limit : ℕ) (s : Disk) :
    (∀ ops, (s.after limit ops).handles = s.handles ↔
      AllSteps (step limit) (fun s op ↦ ¬op.Leaks limit s) s ops) ∧
    (∀ canRead numbers number, ((s.served limit canRead numbers).serve limit canRead number).1 =
        (s.serve limit canRead number).1 ↔
      s.Readable canRead number = false ∨ limit ≤ s.handles ∨
        s.handles + numbers.countP (s.Readable canRead) < limit) :=
  ⟨fun _ ↦ handles_after_iff, fun _ _ _ ↦ serve_served_iff⟩

/-- A peer with one file. -/
def shelf (name : StdString) : Disk := ⟨AList.singleton name [97], 0⟩

/-- **The file that is read stays open, and the directory with a name like `notes`**: after 1024 GETs of
`rfc7.txt` the next one is answered by 404. -/
theorem handles_lost :
    ((shelf (fileName 7)).after 1024 [.getContent true 7]).handles = 1 ∧
    ((shelf [110, 111, 116, 101, 115]).after 1024 [.getRfcs true]).handles = 1 ∧
    ((shelf (fileName 7)).serve 1024 (fun _ ↦ true) 7).1 = contentReply (some [97]) ∧
    (((shelf (fileName 7)).served 1024 (fun _ ↦ true) (.replicate 1024 7)).serve 1024 (fun _ ↦ true) 7).1 =
      contentReply none := by
  have hreadable : (shelf (fileName 7)).Readable (fun _ ↦ true) 7 = true := by decide
  refine ⟨by decide, by decide, ?_, ?_⟩
  · decide
  · obtain ⟨-, hhandles⟩ := served_lt_iff 1024 (fun _ ↦ true) (shelf (fileName 7)) (.replicate 1024 7)
    rw [List.countP_replicate, if_pos hreadable] at hhandles
    rcases serve_cases 1024 (fun _ ↦ true) ((shelf (fileName 7)).served 1024 (fun _ ↦ true) (.replicate 1024 7)) 7
      with ⟨-, hfree, -⟩ | ⟨-, hnone⟩
    · exact absurd (hhandles.mp hfree) (by decide)
    · rw [hnone]

end Disk

end RfcNet
