import DynamicRange.Proofs.Report.Delivery
import DynamicRange.Proofs.Report.Lines
import DynamicRange.Proofs.Traversal.Rising

/-!
# Both forms of a report are the same table

A number is written without a character that parts cells or lines, be it infinite or none at all
(`plain_fixed`). So every row of a report can be read back to its cells, and a row in columns is
collapsed to the row with commas. That holds for whatever items the rows are made of; what the
traversal adds is that the samples up to the items do not fall from row to row and end at the total
(`formats_agree`).
-/

namespace DynamicRange

/-! ## Numbers are plain -/

namespace Report

/-- Digits part nothing. -/
theorem plain_toString (n : ℕ) : Plain (toString n) := by
  have hmarks : ∀ c ∈ marks, c.isDigit = false := by simp [marks]
  rw [Nat.toString_eq_repr]
  refine ⟨fun hempty => ?_, fun c hdigit hmark => ?_⟩
  · have hnil := String.toList_eq_nil_iff.mpr hempty
    rw [Nat.toList_repr] at hnil
    exact Nat.toDigits_ne_nil hnil
  · rw [Nat.toList_repr] at hdigit
    have hdigit := Nat.isDigit_of_mem_toDigits (by decide) (by decide) hdigit
    exact Bool.false_ne_true ((hmarks c hmark).symm.trans hdigit)

/-- A point between digits parts nothing, nor do zeros behind it. -/
theorem plain_placePoint (places n : ℕ) : Plain (Decimal.placePoint places n) := by
  have hwhole := plain_toString (n / Nat.pow 10 places)
  rw [Decimal.placePoint]
  split
  · exact hwhole
  · refine .append ?_ (plain_toString _)
    rw [String.toList_append, String.toList_append, toList_pushn, List.disjoint_append_left,
      List.disjoint_append_left]
    refine ⟨⟨hwhole.chars, by simp [marks]⟩, fun c hzero hmark => ?_⟩
    rw [List.eq_of_mem_replicate hzero] at hmark
    exact absurd hmark (by decide)

/-- A number is written as a plain text, be it finite or not. -/
theorem plain_fixed (places : ℕ) (x : Float) : Plain (Decimal.fixed places x) := by
  have hsign : ∀ b : Prop, [Decidable b] → (if b then "" else "-").toList.Disjoint marks := by
    intro b _
    split <;> simp [marks]
  rw [Decimal.fixed]
  dsimp only
  split
  · split
    · exact .append (hsign _) ⟨by decide, by simp [marks]⟩
    · exact ⟨by decide, by simp [marks]⟩
  · exact .append (hsign _) (plain_placePoint ..)

theorem plain_cells (digits : ℕ) (scale : Float) (x : Item) :
    ∀ cell ∈ cells digits scale x, Plain cell := by
  simp only [cells, List.forall_mem_cons, List.not_mem_nil, false_imp_iff, implies_true, and_true]
  exact ⟨plain_fixed .., plain_fixed .., plain_toString _, plain_fixed ..⟩

theorem plain_headings : ∀ cell ∈ headings, Plain cell := by
  have hall : ∀ cell ∈ headings, cell ≠ "" ∧ ∀ c ∈ cell.toList, c ∉ marks := by
    simp [headings, marks]
  exact fun cell hcell => ⟨(hall cell hcell).1, fun c hc => (hall cell hcell).2 c hc⟩

/-! ## The lines of a report -/

variable {h : Histogram} {ticks : ℕ} {xs : List Item} {scale : Float}

/-- A report in columns has the headings, an empty line, a line for each item and three more. -/
theorem hasLines_aligned (h : Histogram) (scale : Float) (xs : List Item) :
    ∃ footer, HasLines (String.join (pieces h scale .aligned xs))
        (alignedLine headings :: [] ::
          (xs.map (fun x => alignedLine (cells h.layout.digits scale x)) ++ footer)) ∧
      footer.length = 3 ∧ ∀ l ∈ footer, l.head? = some '#' := by
  have hsummary : ∃ first second third, HasLines (String.join (summary h scale .aligned))
      ['#' :: first, '#' :: second, '#' :: third] := by
    obtain ⟨first, hfirst⟩ := isLine_summaryLine "Mean    " "StdDeviation   " (by decide)
      (plain_fixed 3 (h.mean / scale)) (plain_fixed 3 (h.deviation / scale))
    obtain ⟨second, hsecond⟩ := isLine_summaryLine "Max     " "Total count    " (by decide)
      (plain_fixed 3 (countToFloat h.max / scale)) (plain_toString h.total)
    obtain ⟨third, hthird⟩ := isLine_summaryLine "Buckets " "SubBuckets     " (by decide)
      (plain_toString h.layout.bucketCount) (plain_toString h.layout.subCount)
    have hlines := hfirst.append (hsecond.append (hthird.append hasLines_nil))
    rw [List.append_nil, ← List.append_assoc] at hlines
    exact ⟨_, _, _, hlines⟩
  have hempty : IsLine ["\n"] [] := ⟨rfl, List.not_mem_nil⟩
  obtain ⟨first, second, third, hsummary⟩ := hsummary
  refine ⟨['#' :: first, '#' :: second, '#' :: third], ?_, rfl, by simp⟩
  rw [pieces, Format.head, List.append_assoc, List.append_assoc]
  exact (isLine_aligned plain_headings).append (hempty.append
    (.flatMap_append (fun x _ => isLine_aligned (plain_cells _ _ x)) hsummary))

/-- A report with commas has the headings and a line for each item. -/
theorem hasLines_separated (h : Histogram) (scale : Float) (xs : List Item) :
    HasLines (String.join (pieces h scale .separated xs))
      (separatedLine headings ::
        xs.map fun x => separatedLine (cells h.layout.digits scale x)) := by
  rw [pieces, Format.head, List.append_assoc, ← List.append_nil (xs.map _)]
  exact (isLine_separated plain_headings).append
    (.flatMap_append (fun x _ => isLine_separated (plain_cells _ _ x)) hasLines_nil)

/-! ## The same table -/

/-- Whether two texts are the table of some items, with a head and rows, once in columns and with a
footer, and once with commas. -/
structure SameTable (h : Histogram) (scale : Float) (xs : List Item) (aligned separated : String)
    (head : List Char) (rows footer : List (List Char)) : Prop where
  /-- In columns there is an empty line below the head, and the footer below the rows. -/
  aligned : HasLines aligned (head :: [] :: (rows ++ footer))
  /-- With commas there are the same lines as far as the rows go, without their blanks. -/
  separated : HasLines separated (collapse head :: rows.map collapse)
  /-- There is a row for each item. -/
  length : rows.length = xs.length
  /-- The words of a row are the cells of its item. -/
  cells : rows.map words = xs.map fun x => (cells h.layout.digits scale x).map String.toList
  /-- Cut at the commas, a row has the same cells. -/
  splitOn : ∀ row ∈ rows, (collapse row).splitOn ',' = words row
  /-- So do the headings. -/
  headings : words head = headings.map String.toList ∧ (collapse head).splitOn ',' = words head
  /-- The footer is none of the rows. -/
  footer : footer.length = 3 ∧ ∀ l ∈ footer, l.head? = some '#'
  /-- The third column has numbers that do not fall, and the last of them is the total if the slots
  come to that and there are samples. -/
  totals : ∃ totals : List ℕ,
    rows.map (fun row => (words row)[2]?) = totals.map (fun n => some (toString n).toList) ∧
      totals.Pairwise (· ≤ ·) ∧ (h.total ≠ 0 → h.Exact → totals.getLast? = some h.total)

/-- The two forms of a report that comes to an end are the same table. -/
theorem formats_agree (hh : h.Reachable) (hall : PercentileLevels.Comprises h ticks xs)
    (scale : Float) :
    ∃ aligned separated head rows footer, render h ticks scale .aligned = .ok aligned ∧
      render h ticks scale .separated = .ok separated ∧
        SameTable h scale xs aligned separated head rows footer := by
  obtain ⟨footer, haligned, hfooter⟩ := hasLines_aligned h scale xs
  have hplain := fun x => plain_cells h.layout.digits scale x
  have hwords := fun x => words_alignedLine (hplain x)
  have hcollapse := fun x => collapse_alignedLine (hplain x)
  obtain ⟨t₀, t, hstart, hyields, hend⟩ := id hall
  have hrising := PercentileLevels.rising hh.consistent hstart hyields
  refine ⟨_, _, _, _, footer, render_eq scale .aligned hall, render_eq scale .separated hall,
    haligned, ?_, List.length_map .., ?_, ?_, ⟨words_alignedLine plain_headings, ?_⟩, hfooter,
    xs.map (·.cumulative), ?_, hrising.pairwise, fun htotal hexact =>
      hrising.cumulative_getLast? hh.consistent hexact htotal hend⟩
  · simp only [List.map_map, Function.comp_def, collapse_alignedLine plain_headings, hcollapse]
    exact hasLines_separated h scale xs
  · simp only [List.map_map, Function.comp_def, hwords]
  · rw [List.forall_mem_map]
    intro x _
    rw [hcollapse, hwords]
    exact splitOn_separatedLine (List.cons_ne_nil _ _) (hplain x)
  · rw [collapse_alignedLine plain_headings, words_alignedLine plain_headings]
    exact splitOn_separatedLine (List.cons_ne_nil _ _) plain_headings
  · simp only [List.map_map, Function.comp_def, hwords]
    rfl

/-- On samples of one value, in units so small that a cell is wider than its column, the report has
two rows, and the inverse of the last distance is infinite. -/
theorem taking_sameTable :
    Histogram.taking.Reachable ∧ ∃ xs, PercentileLevels.Comprises Histogram.taking 5 xs ∧
      ∃ aligned separated head rows footer,
        render Histogram.taking 5 1e-9 .aligned = .ok aligned ∧
          render Histogram.taking 5 1e-9 .separated = .ok separated ∧
            SameTable Histogram.taking 1e-9 xs aligned separated head rows footer ∧
              separated = "Value,Percentile,TotalCount,1/(1-Percentile)\n" ++
                "51000000000.0,0.000000,250,1.00\n51000000000.0,1.000000,250,inf\n" := by
  obtain ⟨aligned, separated, head, rows, footer, haligned, hseparated, htable⟩ :=
    formats_agree Histogram.taking_reachable taking_comprises 1e-9
  refine ⟨Histogram.taking_reachable, _, taking_comprises, aligned, separated, head, rows, footer,
    haligned, hseparated, htable, ?_⟩
  rw [render_eq 1e-9 .separated taking_comprises] at hseparated
  exact (Except.ok.inj hseparated).symm.trans (by decide +kernel)

end Report

end DynamicRange
