import Mathlib.Data.List.DropRight
import Mathlib.Tactic.Common

/-!
# Reading lines from a stream

An `IStream` is what is left of an input, with one bit for having come to its end and one for having failed.
`getline` reads a line into a string.  It leaves the string alone if one of the bits is set, and otherwise
erases it first.

The `lines` of an input are what stands between its delimiters, and behind the last of them if there is anything.
A reader gets each of them once (`getline_upcoming`).  After that every `getline` fails, but the string goes on
holding something: the last line if no delimiter was behind it, and nothing otherwise (`getline_exhausted`).
-/

set_option autoImplicit false

namespace RfcNet
namespace Lib

variable {α : Type*}

/-- A stream that is read from. -/
structure IStream (α : Type*) where
  /-- What has not been read. -/
  rest : List α
  /-- The end has been reached. -/
  eof : Bool
  /-- Something could not be read. -/
  fail : Bool
  deriving DecidableEq, Repr

namespace IStream

/-- The stream of an input that nobody has read from. -/
def ofList (l : List α) : IStream α := ⟨l, false, false⟩

/-- Neither bit is set. -/
def good (s : IStream α) : Bool := !(s.eof || s.fail)

@[simp] theorem good_ofList (l : List α) : (ofList l).good = true := rfl

/-- What a stream is that is good. -/
theorem eq_ofList {s : IStream α} (h : s.good = true) : s = ofList s.rest := by
  obtain ⟨rest, eof, fail⟩ := s
  rw [good, Bool.not_eq_true', Bool.or_eq_false_iff] at h
  obtain ⟨rfl, rfl⟩ : eof = false ∧ fail = false := h
  rfl

end IStream

variable [DecidableEq α] (delim : α)

/-- The lines of an input. -/
def lines : List α → List (List α)
  | [] => []
  | a :: l =>
    if a = delim then [] :: lines l
    else
      match lines l with
      | [] => [[a]]
      | line :: rest => (a :: line) :: rest

namespace IStream

/-- Read a line into a string that holds `str`. -/
def getline (s : IStream α) (str : List α) : IStream α × List α :=
  if s.good then
    (if delim ∈ s.rest then ⟨(s.rest.dropWhile (· ≠ delim)).tail, false, false⟩
      else ⟨[], true, s.rest.isEmpty⟩,
      s.rest.takeWhile (· ≠ delim))
  else ({ s with fail := true }, str)

/-- The lines that can still be read. -/
def upcoming (s : IStream α) : List (List α) := if s.good then lines delim s.rest else []

/-- What a string that holds `str` will hold when there are no more lines. -/
def stale (s : IStream α) (str : List α) : List α :=
  if s.good then s.rest.rtakeWhile (· ≠ delim) else str

end IStream

/-! ## Lines -/

variable {delim} {l line rest : List α}

theorem lines_append (h : delim ∉ line) : lines delim (line ++ delim :: rest) = line :: lines delim rest := by
  induction line with
  | nil => rw [List.nil_append, lines, if_pos rfl]
  | cons a line ih =>
    rw [List.mem_cons, not_or] at h
    rw [List.cons_append, lines, if_neg fun heq ↦ h.1 heq.symm, ih h.2]

theorem lines_of_notMem (h : delim ∉ l) (hne : l ≠ []) : lines delim l = [l] := by
  induction l with
  | nil => exact absurd rfl hne
  | cons a l ih =>
    rw [List.mem_cons, not_or] at h
    rw [lines, if_neg fun heq ↦ h.1 heq.symm]
    cases l with
    | nil => rfl
    | cons b l => rw [ih h.2 (List.cons_ne_nil b l)]

theorem takeWhile_of_notMem (h : delim ∉ l) : l.takeWhile (· ≠ delim) = l := by
  rw [List.takeWhile_eq_self_iff]
  intro a ha
  rw [decide_eq_true_iff]
  exact fun heq ↦ h (heq ▸ ha)

theorem takeWhile_line (h : delim ∉ line) : (line ++ delim :: rest).takeWhile (· ≠ delim) = line := by
  rw [List.takeWhile_append_of_pos, List.takeWhile_cons_of_neg (by simp), List.append_nil]
  intro a ha
  rw [decide_eq_true_iff]
  exact fun heq ↦ h (heq ▸ ha)

theorem dropWhile_line (h : delim ∉ line) :
    (line ++ delim :: rest).dropWhile (· ≠ delim) = delim :: rest := by
  rw [List.dropWhile_append_of_pos, List.dropWhile_cons_of_neg (by simp)]
  intro a ha
  rw [decide_eq_true_iff]
  exact fun heq ↦ h (heq ▸ ha)

/-- What is behind the last delimiter does not depend on what is before it. -/
theorem rtakeWhile_line : (line ++ delim :: rest).rtakeWhile (· ≠ delim) = rest.rtakeWhile (· ≠ delim) := by
  rw [List.rtakeWhile, List.rtakeWhile, List.reverse_append, List.reverse_cons, List.append_assoc,
    List.takeWhile_append]
  split
  · rename_i hlen
    rw [List.singleton_append, List.takeWhile_cons_of_neg (by simp), List.append_nil,
      (List.takeWhile_prefix _).eq_of_length hlen]
  · rfl

/-- What is behind the last delimiter is a line, if it is anything. -/
theorem rtakeWhile_mem_lines (l : List α) (hne : l.rtakeWhile (· ≠ delim) ≠ []) :
    l.rtakeWhile (· ≠ delim) ∈ lines delim l := by
  by_cases h : delim ∈ l
  · obtain ⟨line, rest, heq, hline⟩ := List.eq_append_cons_of_mem h
    have hlt : rest.length < l.length := by
      rw [heq, List.length_append, List.length_cons]
      omega
    rw [heq, rtakeWhile_line] at hne ⊢
    rw [lines_append hline]
    exact List.mem_cons_of_mem line (rtakeWhile_mem_lines rest hne)
  · have hself : l.rtakeWhile (· ≠ delim) = l := by
      rw [List.rtakeWhile, takeWhile_of_notMem (by rwa [List.mem_reverse]), List.reverse_reverse]
    rw [hself] at hne ⊢
    rw [lines_of_notMem h hne]
    exact List.mem_singleton_self l
termination_by l.length

/-! ## Streams -/

namespace IStream

variable {s : IStream α} {str : List α} {ls : List (List α)}

@[simp] theorem upcoming_ofList (l : List α) : (ofList l).upcoming delim = lines delim l := rfl

@[simp] theorem stale_ofList (l str : List α) :
    (ofList l).stale delim str = l.rtakeWhile (· ≠ delim) := rfl

/-- A line with a delimiter behind it. -/
theorem getline_line (h : delim ∉ line) :
    (ofList (line ++ delim :: rest)).getline delim str = (ofList rest, line) := by
  rw [getline, if_pos (good_ofList _), ofList, if_pos (List.mem_append_right line List.mem_cons_self),
    dropWhile_line h, takeWhile_line h]
  rfl

/-- A line without one. -/
theorem getline_last (h : delim ∉ l) : (ofList l).getline delim str = (⟨[], true, l.isEmpty⟩, l) := by
  rw [getline, if_pos (good_ofList _), ofList, if_neg h, takeWhile_of_notMem h]

theorem getline_of_not_good (h : s.good = false) : s.getline delim str = ({ s with fail := true }, str) := by
  rw [getline, h, if_neg Bool.false_ne_true]

theorem upcoming_of_not_good (h : s.good = false) : s.upcoming delim = [] := by
  rw [upcoming, h, if_neg Bool.false_ne_true]

theorem stale_of_not_good (h : s.good = false) : s.stale delim str = str := by
  rw [stale, h, if_neg Bool.false_ne_true]

/-- **The next line is read.** -/
theorem getline_upcoming (h : s.upcoming delim = line :: ls) (str : List α) :
    (s.getline delim str).2 = line ∧ (s.getline delim str).1.fail = false ∧
      (s.getline delim str).1.upcoming delim = ls ∧
      (s.getline delim str).1.stale delim line = s.stale delim str := by
  cases hgood : s.good with
  | false =>
    rw [upcoming_of_not_good hgood] at h
    cases h
  | true =>
    rw [eq_ofList hgood] at h ⊢
    by_cases hmem : delim ∈ s.rest
    · obtain ⟨first, rest, heq, hfirst⟩ := List.eq_append_cons_of_mem hmem
      rw [heq] at h ⊢
      rw [upcoming_ofList, lines_append hfirst] at h
      obtain ⟨rfl, rfl⟩ := List.cons.inj h
      rw [getline_line hfirst]
      exact ⟨rfl, rfl, rfl, rtakeWhile_line.symm⟩
    · have hne : s.rest ≠ [] := by
        rintro hnil
        rw [hnil] at h
        cases h
      rw [upcoming_ofList, lines_of_notMem hmem hne] at h
      obtain ⟨rfl, rfl⟩ := List.cons.inj h
      rw [getline_last hmem]
      refine ⟨rfl, List.isEmpty_eq_false_iff.mpr hne, rfl, ?_⟩
      rw [stale_ofList, List.rtakeWhile, takeWhile_of_notMem (by rwa [List.mem_reverse]), List.reverse_reverse]
      rfl

/-- **There is no line left**, and the string holds what it will hold from now on. -/
theorem getline_exhausted (h : s.upcoming delim = []) (str : List α) :
    (s.getline delim str).2 = s.stale delim str ∧ (s.getline delim str).1.fail = true ∧
      (s.getline delim str).1.upcoming delim = [] ∧
      (s.getline delim str).1.stale delim (s.getline delim str).2 = s.stale delim str := by
  cases hgood : s.good with
  | false =>
    have hfailed : good { s with fail := true } = false := by
      rw [good, Bool.or_true, Bool.not_true]
    rw [getline_of_not_good hgood, stale_of_not_good hgood]
    exact ⟨rfl, rfl, upcoming_of_not_good hfailed, stale_of_not_good hfailed⟩
  | true =>
    have hnil : s.rest = [] := by
      rw [eq_ofList hgood, upcoming_ofList] at h
      by_contra hne
      by_cases hmem : delim ∈ s.rest
      · obtain ⟨first, rest, heq, hfirst⟩ := List.eq_append_cons_of_mem hmem
        rw [heq, lines_append hfirst] at h
        cases h
      · rw [lines_of_notMem hmem hne] at h
        cases h
    rw [eq_ofList hgood, hnil, getline_last List.not_mem_nil]
    exact ⟨rfl, rfl, rfl, rfl⟩

/-- What a reader has before it: the lines, and then one string for ever. -/
theorem getline_cases (delim : α) (s : IStream α) (str : List α) : ∃ ls,
    s.upcoming delim ++ [s.stale delim str] = (s.getline delim str).2 :: ls ∧
      ((s.getline delim str).1.upcoming delim ++
          [(s.getline delim str).1.stale delim (s.getline delim str).2] = ls ∨
        ls = [] ∧ (s.getline delim str).1.upcoming delim ++
          [(s.getline delim str).1.stale delim (s.getline delim str).2] = [(s.getline delim str).2]) := by
  cases hlines : s.upcoming delim with
  | cons line ls =>
    obtain ⟨hread, -, hmore, hstale⟩ := getline_upcoming hlines str
    rw [hread, hmore, hstale]
    exact ⟨_, List.cons_append, .inl rfl⟩
  | nil =>
    obtain ⟨hread, -, hmore, hstale⟩ := getline_exhausted hlines str
    rw [hmore, hstale, hread]
    exact ⟨[], rfl, .inr ⟨rfl, rfl⟩⟩

/-- What a string will hold when there are no more lines is one of them, or nothing. -/
theorem stale_mem (h : s.good = true) (hne : s.stale delim str ≠ []) :
    s.stale delim str ∈ s.upcoming delim := by
  rw [eq_ofList h] at hne ⊢
  exact rtakeWhile_mem_lines s.rest hne

end IStream

end Lib
end RfcNet
