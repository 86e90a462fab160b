import DynamicRange.Report.Table
import Mathlib.Data.List.Basic
import Mathlib.Data.String.Basic

/-!
# Lines and cells

A text is read back as a table in two steps. Cut behind each end of a line it falls into lines
(`HasLines`), and a line of columns, cut at blanks, into words (`words`). A cell that parts nothing
(`Plain`) is one word, however wide it is and however many blanks it is filled up with, so the words
of a row are its cells (`words_alignedLine`).

The same cells with commas between them are the row of the separated form, so that the words of a
row in columns, joined by commas, are that row (`collapse_alignedLine`).
-/

namespace DynamicRange.Report

/-! ## Lines -/

/-- Where a list is split at an element, a part of it ends at that. -/
theorem splitOn_append_cons (c : Char) (l l' : List Char) :
    (l ++ c :: l').splitOn c = l.splitOn c ++ l'.splitOn c := by
  simp only [List.splitOn_eq_splitOnP]
  exact List.splitOnP_append_cons l l' (beq_self_eq_true c)

/-- Whether a text is made of some lines, each of them ended. -/
def HasLines (text : String) (ls : List (List Char)) : Prop :=
  text.toList.splitOn '\n' = ls ++ [[]]

/-- Whether pieces are put together to one line and its end. -/
structure IsLine (pieces : List String) (l : List Char) : Prop where
  eq : (String.join pieces).toList = l ++ ['\n']
  unbroken : '\n' ∉ l

theorem hasLines_nil : HasLines (String.join []) [] := List.splitOn_nil _

variable {pieces pieces' : List String} {l : List Char} {ls : List (List Char)}

/-- The pieces of a line put a line in front of a text. -/
theorem IsLine.append (hline : IsLine pieces l) (hrest : HasLines (String.join pieces') ls) :
    HasLines (String.join (pieces ++ pieces')) (l :: ls) := by
  rw [HasLines, String.join_append, String.toList_append, hline.eq, List.append_assoc,
    List.singleton_append, splitOn_append_cons, List.splitOn_eq_singleton hline.unbroken, hrest]
  rfl

/-- Pieces of lines put as many lines in front of a text. -/
theorem HasLines.flatMap_append {α : Type} {row : α → List String} {line : α → List Char}
    {xs : List α} (hrows : ∀ x ∈ xs, IsLine (row x) (line x))
    (hrest : HasLines (String.join pieces) ls) :
    HasLines (String.join (xs.flatMap row ++ pieces)) (xs.map line ++ ls) := by
  induction xs with
  | nil => exact hrest
  | cons x xs ih =>
    obtain ⟨hrow, hrows⟩ := List.forall_mem_cons.mp hrows
    rw [List.flatMap_cons, List.append_assoc]
    exact hrow.append (ih hrows)

/-! ## Words -/

/-- The words of a line, which are parted by blanks. -/
def words (line : List Char) : List (List Char) := (line.splitOn ' ').filter (· ≠ [])

/-- A line whose blanks are taken out, with commas between its words. -/
def collapse (line : List Char) : List Char := [','].intercalate (words line)

/-- Words do not go across a blank. -/
theorem words_append_cons (l l' : List Char) : words (l ++ ' ' :: l') = words l ++ words l' := by
  rw [words, splitOn_append_cons, List.filter_append]
  rfl

/-- Blanks before a line add no words. -/
theorem words_replicate_append (n : ℕ) (l : List Char) :
    words (List.replicate n ' ' ++ l) = words l := by
  induction n with
  | zero => rfl
  | succ n ih =>
    rw [List.replicate_succ, List.cons_append, ← List.nil_append (' ' :: _), words_append_cons, ih]
    rfl

/-! ## Cells -/

/-- The characters that part cells or lines. -/
def marks : List Char := [' ', ',', '\n']

/-- A text that can be a cell: it is not empty, and it parts nothing. -/
structure Plain (text : String) : Prop where
  nonempty : text ≠ ""
  chars : text.toList.Disjoint marks

/-- A plain text is one word. -/
theorem Plain.words_eq {text : String} (h : Plain text) : words text.toList = [text.toList] := by
  have hblank : ' ' ∉ text.toList := fun hmem => h.chars hmem (by decide)
  have hne : text.toList ≠ [] := fun hnil => h.nonempty (String.toList_eq_nil_iff.mp hnil)
  rw [words, List.splitOn_eq_singleton hblank]
  exact List.filter_cons_of_pos (decide_eq_true hne)

/-- What parts nothing may stand before a plain text. -/
theorem Plain.append {first text : String} (hfirst : first.toList.Disjoint marks)
    (h : Plain text) : Plain (first ++ text) := by
  refine ⟨fun hempty => h.nonempty (String.append_eq_empty_iff.mp hempty).2, ?_⟩
  rw [String.toList_append, List.disjoint_append_left]
  exact ⟨hfirst, h.chars⟩

theorem toList_pushn (text : String) (c : Char) (n : ℕ) :
    (text.pushn c n).toList = text.toList ++ List.replicate n c := by
  rw [String.pushn_eq_repeat_push]
  induction n with
  | zero => exact (List.append_nil _).symm
  | succ n ih =>
    rw [Nat.repeat, String.toList_push, ih, List.replicate_succ', List.append_assoc]

theorem toList_fillLeft (text : String) : (fillLeft text).toList =
    List.replicate (cellWidth - text.length) ' ' ++ text.toList := by
  rw [fillLeft, String.toList_append, toList_pushn, String.toList_empty, List.nil_append]

/-- A cell that is filled up breaks no line. -/
theorem Plain.newline_notMem_fillLeft {text : String} (h : Plain text) :
    '\n' ∉ (fillLeft text).toList := by
  intro hmem
  rw [toList_fillLeft, List.mem_append] at hmem
  rcases hmem with hblank | hmem
  · exact absurd (List.eq_of_mem_replicate hblank) (by decide)
  · exact h.chars hmem (by decide)

/-- The line of a row in columns. -/
def alignedLine (cells : List String) : List Char :=
  [' '].intercalate ((cells.map fillLeft).map String.toList)

/-- The line of a row with commas. -/
def separatedLine (cells : List String) : List Char := [','].intercalate (cells.map String.toList)

/-- The words of a row in columns are its cells. -/
theorem words_alignedLine {cells : List String} (hplain : ∀ cell ∈ cells, Plain cell) :
    words (alignedLine cells) = cells.map String.toList := by
  have hcell : ∀ cell, Plain cell → words (fillLeft cell).toList = [cell.toList] := by
    intro cell h
    rw [toList_fillLeft, words_replicate_append, h.words_eq]
  induction cells with
  | nil => rfl
  | cons cell cells ih =>
    obtain ⟨hfirst, hrest⟩ := List.forall_mem_cons.mp hplain
    cases cells with
    | nil =>
      rw [alignedLine, List.map_singleton, List.map_singleton, List.intercalate_singleton]
      exact hcell cell hfirst
    | cons cell' cells =>
      have hsplit : alignedLine (cell :: cell' :: cells) =
          (fillLeft cell).toList ++ ' ' :: alignedLine (cell' :: cells) := by
        simp [alignedLine]
      rw [hsplit, words_append_cons, hcell cell hfirst, ih hrest]
      rfl

/-- A row in columns is collapsed to the row with commas. -/
theorem collapse_alignedLine {cells : List String} (hplain : ∀ cell ∈ cells, Plain cell) :
    collapse (alignedLine cells) = separatedLine cells := by
  rw [collapse, words_alignedLine hplain, separatedLine]

/-- A row with commas is cut at the commas into its cells. -/
theorem splitOn_separatedLine {cells : List String} (hne : cells ≠ [])
    (hplain : ∀ cell ∈ cells, Plain cell) :
    (separatedLine cells).splitOn ',' = cells.map String.toList := by
  refine List.splitOn_intercalate ',' ?_ (List.map_eq_nil_iff.not.mpr hne)
  rw [List.forall_mem_map]
  exact fun cell hcell hmem => (hplain cell hcell).chars hmem (by decide)

/-! ## Rows -/

/-- Pieces with another one between them are put together to a text with that between them. -/
theorem join_intersperse (sep : String) (ts : List String) :
    String.join (ts.intersperse sep) = sep.intercalate ts := by
  induction ts with
  | nil => rfl
  | cons t ts ih =>
    cases ts with
    | nil =>
      rw [List.intersperse_singleton, String.join_cons, String.join_nil, String.append_empty,
        String.intercalate_singleton]
    | cons t' ts =>
      rw [List.intersperse_cons_cons, String.join_cons, String.join_cons, ih,
        String.intercalate_cons_cons, String.append_assoc]

/-- What stands in parts with something between them stands in one of them or in that. -/
theorem mem_intercalate {c : Char} {sep : List Char} (h : c ∈ sep.intercalate ls) :
    c ∈ sep ∨ ∃ l ∈ ls, c ∈ l := by
  induction ls with
  | nil => cases h
  | cons l ls ih =>
    cases ls with
    | nil =>
      rw [List.intercalate_singleton] at h
      exact .inr ⟨l, List.mem_singleton_self l, h⟩
    | cons l' ls =>
      rw [List.intercalate_cons_cons, List.mem_append, List.mem_append] at h
      rcases h with (hl | hsep) | hrest
      · exact .inr ⟨l, List.mem_cons_self, hl⟩
      · exact .inl hsep
      · exact (ih hrest).imp_right fun ⟨k, hk, hc⟩ => ⟨k, List.mem_cons_of_mem l hk, hc⟩

/-- Texts that break no line are put together to a line, whatever is set between them. -/
theorem isLine_intersperse {sep : String} {ts : List String} (hsep : '\n' ∉ sep.toList)
    (hts : ∀ t ∈ ts, '\n' ∉ t.toList) :
    IsLine (ts.intersperse sep ++ ["\n"]) (sep.toList.intercalate (ts.map String.toList)) := by
  refine ⟨?_, fun hmem => ?_⟩
  · rw [String.join_append, join_intersperse, String.toList_append, String.toList_intercalate]
    rfl
  · obtain hmem | ⟨l, hl, hmem⟩ := mem_intercalate hmem
    · exact hsep hmem
    · obtain ⟨t, ht, rfl⟩ := List.mem_map.mp hl
      exact hts t ht hmem

/-- The pieces of a row in columns are put together to its line. -/
theorem isLine_aligned {cells : List String} (hplain : ∀ cell ∈ cells, Plain cell) :
    IsLine (Format.aligned.row cells) (alignedLine cells) := by
  refine isLine_intersperse (by decide) ?_
  rw [List.forall_mem_map]
  exact fun cell hcell => (hplain cell hcell).newline_notMem_fillLeft

/-- The pieces of a row with commas are put together to its line. -/
theorem isLine_separated {cells : List String} (hplain : ∀ cell ∈ cells, Plain cell) :
    IsLine (Format.separated.row cells) (separatedLine cells) :=
  isLine_intersperse (by decide) fun cell hcell hmem => (hplain cell hcell).chars hmem (by decide)

/-- The pieces of a line of the summary are put together to a line that begins with a hash sign. -/
theorem isLine_summaryLine (firstName secondName : String) {first second : String}
    (hnames : '\n' ∉ firstName.toList ∧ '\n' ∉ secondName.toList) (hfirst : Plain first)
    (hsecond : Plain second) :
    ∃ l, IsLine (summaryLine firstName first secondName second) ('#' :: l) := by
  refine ⟨'[' :: firstName.toList ++ "= ".toList ++ (fillLeft first).toList ++ ", ".toList ++
    secondName.toList ++ "= ".toList ++ (fillLeft second).toList ++ [']'], ?_, ?_⟩
  · simp [summaryLine, String.toList_append]
  · have hbefore := hfirst.newline_notMem_fillLeft
    have hbehind := hsecond.newline_notMem_fillLeft
    simp [*]

end DynamicRange.Report
