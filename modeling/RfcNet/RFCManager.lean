import Mathlib.Data.List.AList
import RfcNet.Common
import RfcNet.Lib.Comparator

/-!
# The directory of a peer

`RFCManager`, over a directory that maps the names of its files to their contents.  `add_rfc` prints
the content with `%s`, so a file ends at the first NUL of it.  `get_content` keeps the result of
`fgetc` in a `char`, which is signed, so reading ends at the first byte `0xFF` as well as at the end
of the file.
-/

set_option autoImplicit false

namespace RfcNet

open Lib

/-- The files of a directory. -/
abbrev Directory := AList fun _ : StdString ↦ StdString

namespace RFCManager

/-- The decimal digits of a number. -/
def digits (n : ℕ) : StdString := (Nat.toDigits 10 n).map fun c ↦ UInt8.ofNat c.toNat

/-- `std::stringstream << number`. -/
def decimal (number : Int32) : StdString :=
  if number < 0 then 45 :: digits number.toInt.natAbs else digits number.toInt.toNat

/-- `rfc<number>.txt`. -/
def fileName (number : Int32) : StdString :=
  [114, 102, 99] ++ decimal number ++ [46, 116, 120, 116]

/-- The exceptions of `get_rfcs`. -/
inductive Exception
  /-- `FilenameParseException`. -/
  | filenameParse
  /-- `std::out_of_range`, from `std::stoi`. -/
  | outOfRange
  deriving DecidableEq, Repr

/-- `std::stoi`, of digits. -/
def stoi (s : StdString) : Except Exception Int32 :=
  let n := s.foldl (fun n c ↦ 10 * n + (c.toNat - 48)) 0
  if n < 2 ^ 31 then .ok (Int32.ofNat n) else .error .outOfRange

/-- `parse_filename`: the expression `^rfc(\d+).txt$`, whose dot stands for any character but an end of
line. -/
def parseFilename (name : StdString) : Except Exception Int32 :=
  let number := (name.drop 3).take (name.length - 7)
  let rest := name.drop (name.length - 4)
  if name.take 3 = [114, 102, 99] ∧ number ≠ [] ∧ number.all (fun c ↦ 48 ≤ c && c ≤ 57) ∧
      rest.head? ≠ some 10 ∧ rest.head? ≠ some 13 ∧ rest.tail = [116, 120, 116] then
    stoi number
  else .error .filenameParse

/-- The entries `..` and `.` of a directory. -/
def isDots (name : StdString) : Bool := name == [46, 46] || name == [46]

/-- `get_rfcs`. -/
def getRfcs (d : Directory) : Except Exception (List Int32) :=
  ((d.keys.filter fun name ↦ !isDots name).mapM parseFilename).map
    (listSort fun a b ↦ decide (a < b))

/-- `check_if_rfc_stored`. -/
def checkIfRfcStored (rfc : Int32) (d : Directory) : Except Exception Bool :=
  (getRfcs d).map fun l ↦ l.contains rfc

/-- `add_rfc`.  Whether a file can be opened for writing is up to the file system. -/
def addRfc (canOpen : StdString → Bool) (d : Directory) (number : Int32) (content : StdString) :
    Bool × Directory :=
  if canOpen (fileName number) then (true, d.insert (fileName number) (cString content))
  else (false, d)

/-- What is read with `fgetc` until it is `EOF`. -/
def untilEof (content : StdString) : StdString := content.takeWhile (· ≠ 255)

/-- `get_content`, or nothing where it throws `FileReadException`. -/
def getContent (d : Directory) (number : Int32) : Option StdString :=
  (d.lookup (fileName number)).map untilEof

theorem untilEof_eq_self_iff {content : StdString} :
    untilEof content = content ↔ (255 : UInt8) ∉ content := by
  rw [untilEof, List.takeWhile_eq_self_iff]
  constructor
  · intro h h255
    simpa using h 255 h255
  · intro h b hb
    simpa using fun h255 : b = 255 ↦ h (h255 ▸ hb)

theorem untilEof_eq_self {content : StdString} (h : (255 : UInt8) ∉ content) :
    untilEof content = content :=
  untilEof_eq_self_iff.mpr h

/-- Cutting twice cuts nothing off only where neither cut does. -/
theorem takeWhile_takeWhile_eq_self_iff {α : Type} {p q : α → Bool} {l : List α} :
    (l.takeWhile q).takeWhile p = l ↔ l.takeWhile p = l ∧ l.takeWhile q = l := by
  constructor
  · intro h
    have hle : l.length ≤ (l.takeWhile q).length := by
      conv_lhs => rw [← h]
      exact (List.takeWhile_sublist _).length_le
    have hq : l.takeWhile q = l := (List.takeWhile_sublist _).eq_of_length_le hle
    rw [hq] at h
    exact ⟨h, hq⟩
  · rintro ⟨hp, hq⟩
    rw [hq, hp]

/-- **What has been added can be read**: up to the first NUL and the first `0xFF`. -/
theorem getContent_addRfc {canOpen : StdString → Bool} {d : Directory} {number : Int32}
    (h : canOpen (fileName number) = true) (content : StdString) :
    getContent (addRfc canOpen d number content).2 number = some (untilEof (cString content)) := by
  rw [addRfc, if_pos h, getContent, AList.lookup_insert, Option.map_some]

/-- No other file is touched. -/
theorem lookup_addRfc_of_ne {canOpen : StdString → Bool} {d : Directory} {number : Int32}
    {name : StdString} (h : name ≠ fileName number) (content : StdString) :
    (addRfc canOpen d number content).2.lookup name = d.lookup name := by
  rw [addRfc]
  split
  · exact AList.lookup_insert_ne h
  · rfl

/-! ### Names and numbers -/

theorem toNat_of_mem_toDigits {n : ℕ} {c : Char} (h : c ∈ Nat.toDigits 10 n) :
    48 ≤ c.toNat ∧ c.toNat ≤ 57 := by
  have hdigit := Nat.isDigit_of_mem_toDigits (by decide) (by decide) h
  rw [Char.isDigit, Bool.and_eq_true, decide_eq_true_eq, decide_eq_true_eq] at hdigit
  exact hdigit

theorem toNat_ofNat_toNat {n : ℕ} {c : Char} (h : c ∈ Nat.toDigits 10 n) :
    (UInt8.ofNat c.toNat).toNat = c.toNat := by
  have hc := toNat_of_mem_toDigits h
  exact UInt8.toNat_ofNat_of_lt' (show c.toNat < 2 ^ 8 by omega)

theorem all_digits (n : ℕ) : (digits n).all (fun c ↦ 48 ≤ c && c ≤ 57) = true := by
  rw [List.all_eq_true]
  intro b hb
  obtain ⟨c, hc, rfl⟩ := List.mem_map.mp hb
  rw [Bool.and_eq_true, decide_eq_true_eq, decide_eq_true_eq, UInt8.le_iff_toNat_le,
    UInt8.le_iff_toNat_le, toNat_ofNat_toNat hc]
  exact toNat_of_mem_toDigits hc

/-- The digits of a number have its value. -/
theorem foldl_digits (n : ℕ) : (digits n).foldl (fun n c ↦ 10 * n + (c.toNat - 48)) 0 = n := by
  calc (digits n).foldl (fun n c ↦ 10 * n + (c.toNat - 48)) 0
      = (Nat.toDigits 10 n).foldl (fun n c ↦ 10 * n + (c.toNat - '0'.toNat)) 0 := by
        rw [digits, List.foldl_map]
        refine List.foldl_ext _ _ _ fun a c hc ↦ ?_
        rw [toNat_ofNat_toNat hc]
        rfl
    _ = n := by rw [← Nat.ofDigitChars_eq_foldl, Nat.ofDigitChars_ten_toDigits]

theorem digits_injective : Function.Injective digits := fun m n h ↦ by
  rw [← foldl_digits m, h, foldl_digits n]

theorem digits_ne_nil (n : ℕ) : digits n ≠ [] := by simp [digits]

theorem stoi_digits {n : ℕ} (h : n < 2 ^ 31) : stoi (digits n) = .ok (Int32.ofNat n) := by
  simp only [stoi, foldl_digits, h, if_true]

/-- A sign is no digit. -/
theorem cons_ne_digits (s : StdString) (n : ℕ) : 45 :: s ≠ digits n := by
  intro h
  have hall := List.all_eq_true.mp (all_digits n) 45 (h ▸ List.mem_cons_self)
  exact absurd hall (by decide)

theorem decimal_injective : Function.Injective decimal := by
  intro a b h
  rw [decimal, decimal] at h
  -- The sign tells the halves apart.
  by_cases ha : a < 0
  · by_cases hb : b < 0
    · rw [if_pos ha, if_pos hb] at h
      have hnat := digits_injective (List.cons.inj h).2
      rw [Int32.lt_iff_toInt_lt, Int32.toInt_zero] at ha hb
      exact Int32.toInt_inj.mp (by omega)
    · rw [if_pos ha, if_neg hb] at h
      exact absurd h (cons_ne_digits _ _)
  · by_cases hb : b < 0
    · rw [if_neg ha, if_pos hb] at h
      exact absurd h.symm (cons_ne_digits _ _)
    · rw [if_neg ha, if_neg hb] at h
      have hnat := digits_injective h
      rw [Int32.lt_iff_toInt_lt, Int32.toInt_zero] at ha hb
      exact Int32.toInt_inj.mp (by omega)

/-- **No two numbers have a file in common.** -/
theorem fileName_injective : Function.Injective fileName := fun a b h ↦ by
  rw [fileName, fileName, List.append_cancel_right_eq, List.append_cancel_left_eq] at h
  exact decimal_injective h

/-- `name` has the form `rfc<number><c>txt`, where `number` is one digit or more and `c` is any
character but an end of line. -/
def Matches (name number : StdString) : Prop :=
  number ≠ [] ∧ number.all (fun c ↦ 48 ≤ c && c ≤ 57) ∧
    ∃ c, c ≠ 10 ∧ c ≠ 13 ∧ name = [114, 102, 99] ++ (number ++ c :: [116, 120, 116])

/-- A name that matches is parsed to the value of its digits. -/
theorem parseFilename_of_matches {name number : StdString} (h : Matches name number) :
    parseFilename name = stoi number := by
  obtain ⟨hne, hall, c, hlf, hcr, rfl⟩ := h
  have hlen : ([114, 102, 99] ++ (number ++ c :: [116, 120, 116])).length = number.length + 7 := by
    simp only [List.length_append, List.length_cons, List.length_nil]
    omega
  have hnumber : (([114, 102, 99] ++ (number ++ c :: [116, 120, 116])).drop 3).take number.length =
      number := List.take_left
  have hrest : ([114, 102, 99] ++ (number ++ c :: [116, 120, 116])).drop (number.length + 3) =
      c :: [116, 120, 116] := by
    rw [← List.append_assoc]
    exact List.drop_left' (by rw [List.length_append, Nat.add_comm]; rfl)
  simp only [parseFilename, hlen, Nat.add_sub_cancel,
    show number.length + 7 - 4 = number.length + 3 from rfl, hnumber, hrest]
  refine if_pos ⟨rfl, hne, hall, ?_, ?_, rfl⟩
  · simpa using hlf
  · simpa using hcr

/-- Any other name is an exception. -/
theorem parseFilename_of_not_matches {name : StdString} (h : ∀ number, ¬ Matches name number) :
    parseFilename name = .error .filenameParse := by
  rw [parseFilename]
  refine if_neg ?_
  rintro ⟨hrfc, hne, hall, hlf, hcr, htxt⟩
  refine h _ ⟨hne, hall, ?_⟩
  have hlong : 7 < name.length := by
    by_contra hshort
    exact hne (by rw [show name.length - 7 = 0 by omega, List.take_zero])
  have hsplit : name.drop (name.length - 4) = (name.drop 3).drop (name.length - 7) := by
    rw [List.drop_drop]
    congr 1
    omega
  cases hrest : name.drop (name.length - 4) with
  | nil =>
    rw [hrest] at htxt
    cases htxt
  | cons c rest =>
    rw [hrest] at hlf hcr htxt
    rw [List.tail_cons] at htxt
    refine ⟨c, fun hc ↦ hlf (by rw [hc]; rfl), fun hc ↦ hcr (by rw [hc]; rfl), ?_⟩
    rw [← htxt, ← hrest, hsplit, List.take_append_drop, ← hrfc, List.take_append_drop]

theorem matches_fileName {number : Int32} (h : 0 ≤ number) :
    Matches (fileName number) (digits number.toInt.toNat) := by
  refine ⟨digits_ne_nil _, all_digits _, 46, by decide, by decide, ?_⟩
  rw [fileName, decimal, if_neg (Int32.not_lt.mpr h), List.append_assoc]

/-- **A name that is made from a number** is parsed to it. -/
theorem parseFilename_fileName {number : Int32} (h : 0 ≤ number) :
    parseFilename (fileName number) = .ok number := by
  have hlt := number.toInt_lt
  rw [parseFilename_of_matches (matches_fileName h), stoi_digits (by omega), ofNat_toNat_toInt h]

theorem isDots_fileName (number : Int32) : isDots (fileName number) = false := by
  have hhead : (fileName number).head? = some 114 := rfl
  rw [isDots, Bool.or_eq_false_iff, beq_eq_false_iff_ne, beq_eq_false_iff_ne]
  constructor
  · intro h
    rw [h] at hhead
    cases hhead
  · intro h
    rw [h] at hhead
    cases hhead

/-! ### Names that are listed -/

/-- A list of results is the result of a list. -/
theorem mapM_eq_ok_iff {ε α β : Type} {f : α → Except ε β} {l : List α} {r : List β} :
    l.mapM f = .ok r ↔ l.map f = r.map .ok := by
  induction l generalizing r with
  | nil =>
    rw [List.mapM_nil, List.map_nil]
    constructor
    · intro h
      rw [← Except.ok.inj h]
      rfl
    · intro h
      rw [List.map_eq_nil_iff.mp h.symm]
      rfl
  | cons a l ih =>
    rw [List.mapM_cons, List.map_cons]
    constructor
    · intro h
      cases ha : f a with
      | error e =>
        rw [ha] at h
        cases h
      | ok b =>
        cases hl : l.mapM f with
        | error e =>
          rw [ha, hl] at h
          cases h
        | ok bs =>
          rw [ha, hl] at h
          rw [← Except.ok.inj h, List.map_cons, ih.mp hl]
    · intro h
      obtain ⟨b, bs, rfl, hb, hbs⟩ := List.map_eq_cons_iff.mp h.symm
      rw [← hb, ih.mpr hbs.symm]
      rfl

/-- One kind of error is that of the list. -/
theorem mapM_eq_error {ε α β : Type} {f : α → Except ε β} {e : ε} {l : List α}
    (h : ∀ a ∈ l, (∃ b, f a = .ok b) ∨ f a = .error e) {a : α} (ha : a ∈ l) (hfail : f a = .error e) :
    l.mapM f = .error e := by
  induction l with
  | nil => exact absurd ha List.not_mem_nil
  | cons first l ih =>
    obtain ⟨hfirst, hrest⟩ := List.forall_mem_cons.mp h
    rw [List.mapM_cons]
    rcases hfirst with ⟨b, hb⟩ | hfirst
    · rcases List.mem_cons.mp ha with rfl | hmem
      · rw [hfail] at hb
        cases hb
      · rw [hb, ih hrest hmem]
        rfl
    · rw [hfirst]
      rfl

/-- The entries of a directory that are not skipped. -/
def items (d : Directory) : List StdString := d.keys.filter fun name ↦ !isDots name

section
variable {d : Directory} {l : List Int32}

theorem mem_items {name : StdString} : name ∈ items d ↔ name ∈ d.keys ∧ isDots name = false := by
  rw [items, List.mem_filter, Bool.not_eq_true']

theorem nodup_items (d : Directory) : (items d).Nodup := d.keys_nodup.filter _

/-- What `get_rfcs` returns. -/
theorem getRfcs_eq_ok_iff : getRfcs d = .ok l ↔ ∃ numbers : List Int32,
    (items d).map parseFilename = numbers.map .ok ∧ l = listSort (fun a b ↦ decide (a < b)) numbers := by
  rw [getRfcs]
  constructor
  · intro h
    cases hnumbers : (items d).mapM parseFilename with
    | error e =>
      rw [items] at hnumbers
      rw [hnumbers] at h
      cases h
    | ok numbers =>
      refine ⟨numbers, mapM_eq_ok_iff.mp hnumbers, ?_⟩
      rw [items] at hnumbers
      rw [hnumbers] at h
      exact (Except.ok.inj h).symm
  · rintro ⟨numbers, hnumbers, rfl⟩
    rw [← items, mapM_eq_ok_iff.mpr hnumbers]
    rfl

theorem mem_getRfcs (h : getRfcs d = .ok l) {n : Int32} :
    n ∈ l ↔ ∃ name ∈ items d, parseFilename name = .ok n := by
  obtain ⟨numbers, hnumbers, rfl⟩ := getRfcs_eq_ok_iff.mp h
  rw [mem_listSort, ← List.mem_map, hnumbers]
  exact (List.mem_map_of_injective fun _ _ ↦ Except.ok.inj).symm

/-- **No number is listed twice** exactly if no two names have one number. -/
theorem nodup_getRfcs_iff (h : getRfcs d = .ok l) : l.Nodup ↔
    ∀ name ∈ items d, ∀ name' ∈ items d, parseFilename name = parseFilename name' → name = name' := by
  obtain ⟨numbers, hnumbers, rfl⟩ := getRfcs_eq_ok_iff.mp h
  rw [← List.nodup_map_iff_inj_on (nodup_items d), hnumbers,
    List.nodup_map_iff fun _ _ ↦ Except.ok.inj]
  exact (List.perm_insertionSort _ _).nodup_iff

/-- Then they ascend. -/
theorem ascending_getRfcs (h : getRfcs d = .ok l) (hnodup : l.Nodup) : l.Pairwise (· < ·) := by
  obtain ⟨numbers, -, rfl⟩ := getRfcs_eq_ok_iff.mp h
  have hnumbers := (List.perm_insertionSort _ _).nodup_iff.mp hnodup
  exact (ascending_listSort strictTotal_decide_lt hnumbers).imp of_decide_eq_true

/-- **There is a listing** exactly if every name can be parsed. -/
theorem exists_getRfcs_iff :
    (∃ l, getRfcs d = .ok l) ↔ ∀ name ∈ items d, ∃ n, parseFilename name = .ok n := by
  constructor
  · rintro ⟨l, h⟩ name hname
    obtain ⟨numbers, hnumbers, rfl⟩ := getRfcs_eq_ok_iff.mp h
    have hmem := hnumbers ▸ List.mem_map_of_mem (f := parseFilename) hname
    obtain ⟨n, -, hn⟩ := List.mem_map.mp hmem
    exact ⟨n, hn.symm⟩
  · intro h
    have hnumbers : ∃ numbers : List Int32, (items d).map parseFilename = numbers.map .ok := by
      refine ⟨(items d).map fun name ↦ (parseFilename name).toOption.getD 0, ?_⟩
      rw [List.map_map]
      refine List.map_congr_left fun name hname ↦ ?_
      obtain ⟨n, hn⟩ := h name hname
      rw [Function.comp_apply, hn]
      rfl
    obtain ⟨numbers, hnumbers⟩ := hnumbers
    exact ⟨_, getRfcs_eq_ok_iff.mpr ⟨numbers, hnumbers, rfl⟩⟩

end

/-- No name is parsed to a negative number. -/
theorem parseFilename_nonneg {name : StdString} {n : Int32} (h : parseFilename name = .ok n) : 0 ≤ n := by
  rw [parseFilename] at h
  split at h
  · rw [stoi] at h
    split at h
    · rename_i hlt
      rw [← Except.ok.inj h, Int32.le_iff_toInt_le, Int32.toInt_ofNat_of_lt hlt]
      exact Int.natCast_nonneg _
    · cases h
  · cases h

/-- **A number that is not stored** has no file under its own name. -/
theorem lookup_of_not_stored {d : Directory} {number : Int32} (h : 0 ≤ number)
    (hstored : checkIfRfcStored number d = .ok false) : d.lookup (fileName number) = none := by
  by_contra hne
  have hmem : fileName number ∈ d.keys := AList.mem_keys.mp (AList.lookup_isSome.mp
    (Option.isSome_iff_ne_none.mpr hne))
  rw [checkIfRfcStored] at hstored
  cases hlist : getRfcs d with
  | error e => rw [hlist] at hstored; cases hstored
  | ok l =>
    rw [hlist] at hstored
    have hin : number ∈ l := (mem_getRfcs hlist).mpr
      ⟨fileName number, mem_items.mpr ⟨hmem, isDots_fileName number⟩, parseFilename_fileName h⟩
    have hcontains : l.contains number = false := Except.ok.inj hstored
    rw [List.contains_eq_mem, decide_eq_false_iff_not] at hcontains
    exact hcontains hin

example : parseFilename (fileName 2616) = .ok 2616 := by decide

end RFCManager

end RfcNet
