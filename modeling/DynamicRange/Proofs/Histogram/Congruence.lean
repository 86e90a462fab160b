import DynamicRange.Histogram.Statistics
import DynamicRange.Proofs.Histogram.Ends
import DynamicRange.Proofs.Histogram.MergeOrder
import DynamicRange.Proofs.Histogram.Recounting
import DynamicRange.Report.Print
import DynamicRange.Traversal.Stepped

/-!
# Equal histograms cannot be told apart

Equality of histograms compares the ends that they report, but not those that they keep, which may
differ within a range of equivalent values. `beq_congruent` says that the difference never shows:
equal histograms whose counters are of one size answer every question alike, and they stay equal
under all operations, which have the same outcomes.

Questions do not read the ends that are kept, unless it is to report them (`sameAnswers_withEnds`).
The ends that are reported change as if they were kept themselves: since reporting an end is
monotone, it commutes with lowering the least value and with raising the greatest
(`Layout.reportedLeast_min`, `Layout.reportedGreatest_max`). The marks for no value, `topValue` and
zero, are reported as they are. This takes ends that are values (`HasValidEnds`), as those of all
reachable histograms are.
-/

namespace DynamicRange

/-! ## Reporting an end -/

namespace Layout

/-- The least value that is reported if `v` is the least value kept. -/
def reportedLeast (L : Layout) (v : ℕ) : ℕ := if v = topValue then v else L.lowestEquivalent v

/-- The greatest value that is reported if `v` is the greatest value kept. -/
def reportedGreatest (L : Layout) (v : ℕ) : ℕ := if v = 0 then 0 else L.highestEquivalent v

variable {L : Layout} {v w : ℕ}

/-- Reporting a least value is monotone. -/
theorem reportedLeast_mono (hL : L.Shaped) (hvw : v ≤ w) (hw : w ≤ topValue) :
    L.reportedLeast v ≤ L.reportedLeast w := by
  rw [reportedLeast, reportedLeast]
  by_cases hvtop : v = topValue
  · have hwtop : w = topValue := hw.antisymm (hvtop ▸ hvw)
    rw [if_pos hvtop, if_pos hwtop]
    exact hvw
  · rw [if_neg hvtop]
    split
    · exact (lowestEquivalent_le hL (hvw.trans hw)).trans hvw
    · exact lowestEquivalent_mono hL hvw hw

/-- Reporting a greatest value is monotone. -/
theorem reportedGreatest_mono (hL : L.Precise) (hvw : v ≤ w) (hw : w ≤ topValue) :
    L.reportedGreatest v ≤ L.reportedGreatest w := by
  rw [reportedGreatest, reportedGreatest]
  by_cases hvzero : v = 0
  · rw [if_pos hvzero]
    exact Nat.zero_le _
  · rw [if_neg hvzero, if_neg (by omega)]
    exact (ends_mono hL (Int.ofNat_le.mpr hvw) (Int.ofNat_le.mpr hw)).2.1

/-- The lesser of two values is reported as the lesser of what is reported for them. -/
theorem reportedLeast_min (hL : L.Shaped) (hv : v ≤ topValue) (hw : w ≤ topValue) :
    L.reportedLeast (min v w) = min (L.reportedLeast v) (L.reportedLeast w) := by
  rcases Nat.le_total v w with hvw | hwv
  · rw [min_eq_left hvw, min_eq_left (reportedLeast_mono hL hvw hw)]
  · rw [min_eq_right hwv, min_eq_right (reportedLeast_mono hL hwv hv)]

/-- The greater of two values is reported as the greater of what is reported for them. -/
theorem reportedGreatest_max (hL : L.Precise) (hv : v ≤ topValue) (hw : w ≤ topValue) :
    L.reportedGreatest (max v w) = max (L.reportedGreatest v) (L.reportedGreatest w) := by
  rcases Nat.le_total v w with hvw | hwv
  · rw [max_eq_right hvw, max_eq_right (reportedGreatest_mono hL hvw hw)]
  · rw [max_eq_left hwv, max_eq_left (reportedGreatest_mono hL hwv hv)]

end Layout

/-! ## Ends that are values -/

/-- Whether a change moves an end to a value only. -/
def CellUpdate.NamesValue : CellUpdate → Prop
  | lowerLeast v | raiseGreatest v => v ≤ topValue
  | _ => True

/-- What records a value moves the ends to values. -/
theorem Recording.namesValue_of_mem_work {L : Layout} (hL : L.Shaped) {r : Recording}
    (hr : r.value ≤ topValue) {u : CellUpdate} (hu : u ∈ r.work L) : u.NamesValue := by
  have hnames := r.work_names hL
  cases u with
  | addToSlot | addToTotal => trivial
  | lowerLeast x =>
    have hle := r.le_value_of_mem_acceptedValues hL ((hnames.lowerLeast_mem_iff x).mp hu).1
    exact Int.ofNat_le.mp (hle.trans hr)
  | raiseGreatest x =>
    have hle := r.le_value_of_mem_acceptedValues hL ((hnames.raiseGreatest_mem_iff x).mp hu)
    exact Int.ofNat_le.mp (hle.trans hr)

/-- What takes in an item whose lowest value is a value moves the ends to values. -/
theorem Item.namesValue_of_mem_taken {L : Layout} (hL : L.Shaped) {w : CounterWidth} {x : Item}
    (hx : x.lowest ≤ topValue) {u : CellUpdate} (hu : u ∈ x.taken L w) : u.NamesValue := by
  unfold taken at hu
  split at hu
  · exact Recording.namesValue_of_mem_work (r := .plain x.lowest x.count) hL
      (Int.ofNat_le.mpr hx) hu
  · cases hu

namespace Histogram

/-- A histogram has an accepted layout and keeps ends that are values. -/
structure HasValidEnds (h : Histogram) : Prop where
  precise : h.layout.Precise
  least : h.least ≤ topValue
  greatest : h.greatest ≤ topValue

variable {g h : Histogram}

namespace HasValidEnds

/-- A change that moves an end to a value leaves the ends values. -/
theorem apply (hends : h.HasValidEnds) {u : CellUpdate} (hu : u.NamesValue) :
    (h.apply u).HasValidEnds := by
  obtain ⟨hprecise, hleast, hgreatest⟩ := hends
  cases u with
  | addToSlot | addToTotal => exact ⟨hprecise, hleast, hgreatest⟩
  | lowerLeast v => exact ⟨hprecise, (Nat.min_le_left _ _).trans hleast, hgreatest⟩
  | raiseGreatest v => exact ⟨hprecise, hleast, Nat.max_le.mpr ⟨hgreatest, hu⟩⟩

/-- Changes that move the ends to values leave them values. -/
theorem applyAll (hends : h.HasValidEnds) {us : List CellUpdate} (hus : ∀ u ∈ us, u.NamesValue) :
    (h.applyAll us).HasValidEnds := by
  induction us generalizing h with
  | nil => exact hends
  | cons u us ih =>
    obtain ⟨hu, hrest⟩ := List.forall_mem_cons.mp hus
    exact ih (hends.apply hu) hrest

/-- A reset leaves ends that are values. -/
theorem reset (hends : h.HasValidEnds) : h.reset.HasValidEnds :=
  ⟨hends.precise, le_rfl, Nat.zero_le _⟩

/-- A recount finds ends that are values. -/
theorem recount (hends : h.HasValidEnds) : h.recount.HasValidEnds := by
  refine ⟨hends.precise, ?_, ?_⟩
  · show (h.firstRecorded? 1 (h.size - 1)).elim topValue h.layout.lowestOfIndex ≤ topValue
    cases h.firstRecorded? 1 (h.size - 1) with
    | none => exact le_rfl
    | some i => exact Int.ofNat_le.mp (h.layout.lowestOfIndex_le i)
  · rw [greatest_recount]
    cases h.lastRecorded? h.size with
    | none => exact Nat.zero_le _
    | some i => exact (Layout.mem_range hends.precise (h.layout.lowestOfIndex_le i)).2.2

end HasValidEnds

/-- Recordings of values leave ends that are values. -/
theorem keptByRecordings_hasValidEnds : KeptByRecordings HasValidEnds := by
  intro h r hr hends
  rw [r.run_eq]
  exact hends.applyAll fun u => Recording.namesValue_of_mem_work hends.precise.toShaped hr

/-- The ends of a reachable histogram are values. -/
theorem Reachable.hasValidEnds (hh : h.Reachable) : h.HasValidEnds := by
  induction hh with
  | ofLayout hbounds w => exact ⟨Layout.ofBounds_precise hbounds, le_rfl, Nat.zero_le _⟩
  | emptyLike _ w ih => exact ⟨ih.precise, le_rfl, Nat.zero_le _⟩
  | run _ r hr ih => exact keptByRecordings_hasValidEnds _ r hr ih
  | @insist h _ v hv ih => exact keptByRecordings_hasValidEnds h (.plain v 1) hv ih
  | @merge h source _ _ ih _ => exact keptByRecordings_hasValidEnds.merge source ih
  | mergeSelf _ ih => exact keptByRecordings_hasValidEnds.mergeSelf ih
  | reset _ ih => exact ih.reset
  | recount _ ih => exact ih.recount

/-- What a histogram hands over to others lies at values. -/
theorem lowest_le_of_mem_recorded (h : Histogram) {x : Item} (hx : x ∈ h.recorded) :
    x.lowest ≤ topValue := by
  have hall : ∀ x ∈ (h.foldRecorded Array.push #[]).toList, x.lowest ≤ topValue := by
    refine Cursor.foldRecorded_induction
      (P := fun told : Array Item => ∀ x ∈ told.toList, x.lowest ≤ topValue) ?_ _ (by simp)
    intro told y hy htold x hx
    rw [Array.toList_push, List.mem_append, List.mem_singleton] at hx
    rcases hx with hx | rfl
    · exact htold x hx
    · exact hy
  exact hall x hx

/-! ## Questions do not read the ends -/

/-- A histogram with other ends. -/
def withEnds (h : Histogram) (least greatest : ℕ) : Histogram := { h with least, greatest }

end Histogram

section

variable {h : Histogram} {least greatest : ℕ}

namespace Cursor

/-- A search reads no ends. -/
theorem seek_withEnds (goal : Cursor → Bool) (c : Cursor) :
    c.seek (h.withEnds least greatest) goal = c.seek h goal := by
  have hmove : ∀ c : Cursor, c.move? (h.withEnds least greatest) = c.move? h := fun _ => rfl
  fun_induction seek h goal c with
  | case1 c hahead hnone =>
    rw [seek, if_pos hahead]
    split
    · rfl
    · next hmoved => simp [hmove, hnone] at hmoved
  | case2 c hahead c' hmoved hgoal =>
    rw [(seek_of_move hahead ((hmove c).trans hmoved)).1, if_pos hgoal]
  | case3 c hahead c' hmoved hgoal ih =>
    rw [(seek_of_move hahead ((hmove c).trans hmoved)).1, if_neg hgoal, ih]
  | case4 c hdone => rw [seek, if_neg hdone]

/-- The search for the next recorded slot reads no ends. -/
theorem nextRecorded?_withEnds (c : Cursor) :
    c.nextRecorded? (h.withEnds least greatest) = c.nextRecorded? h := by
  rw [nextRecorded?, nextRecorded?, seek_withEnds]
  rfl

/-- To take in recorded slots is to read no ends. -/
theorem foldRecorded_withEnds {α : Type} (f : α → Item → α) (a : α) (c : Cursor) :
    c.foldRecorded (h.withEnds least greatest) f a = c.foldRecorded h f a := by
  fun_induction foldRecorded h f a c with
  | case1 a c hnone => exact foldRecorded_of_none ((nextRecorded?_withEnds c).trans hnone)
  | case2 a c x c' hfound ih =>
    exact (foldRecorded_of_some ((nextRecorded?_withEnds c).trans hfound)).trans ih

end Cursor

/-- The next item by percentile levels is found without the ends. -/
theorem PercentileLevels.next?_withEnds (t : PercentileLevels) :
    t.next? (h.withEnds least greatest) = t.next? h := by
  simp only [next?, Cursor.seek_withEnds]
  rfl

namespace Stepped

/-- The search for the end of a step reads no ends of the histogram. -/
theorem settle?_withEnds (lastLowest : ℕ) (c : Cursor) :
    settle? (h.withEnds least greatest) lastLowest c = settle? h lastLowest c := by
  have hmove : ∀ c : Cursor, c.move? (h.withEnds least greatest) = c.move? h := fun _ => rfl
  have hsettled : ∀ c : Cursor, settledAt (h.withEnds least greatest).layout lastLowest c =
    settledAt h.layout lastLowest c := fun _ => rfl
  fun_induction settle? h lastLowest c with
  | case1 c hsettles => rw [settle?, hsettled, if_pos hsettles]
  | case2 c hahead hnone =>
    rw [settle?, hsettled, if_neg hahead]
    split
    · rfl
    · next hmoved => simp [hmove, hnone] at hmoved
  | case3 c hahead c' hmoved ih =>
    rw [settle?, hsettled, if_neg hahead]
    split
    · next hnone => simp [hmove, hmoved] at hnone
    · next d hd => rwa [Option.some.inj (hd.symm.trans ((hmove c).trans hmoved))]

/-- The next step is found without the ends. -/
theorem next?_withEnds {σ : Type} (advance : σ → ℕ × σ) (t : Stepped σ) :
    next? advance (h.withEnds least greatest) t = next? advance h t := by
  simp only [next?, settle?_withEnds]
  rfl

end Stepped

namespace Histogram

/-- The value at a percentile is found without the ends. -/
theorem valueAtPercentile_withEnds (percentile : Float) :
    (h.withEnds least greatest).valueAtPercentile percentile = h.valueAtPercentile percentile := by
  rw [valueAtPercentile, valueAtPercentile, valueAtRank, valueAtRank, Cursor.seek_withEnds]
  rfl

/-- The mean is taken without the ends. -/
theorem mean_withEnds : (h.withEnds least greatest).mean = h.mean := by
  rw [mean, mean, Histogram.foldRecorded, Cursor.foldRecorded_withEnds]
  rfl

/-- The deviation is taken without the ends. -/
theorem deviation_withEnds : (h.withEnds least greatest).deviation = h.deviation := by
  simp only [deviation, mean_withEnds, Histogram.foldRecorded, Cursor.foldRecorded_withEnds]
  rfl

/-- A recount reads no ends. -/
theorem recount_withEnds : (h.withEnds least greatest).recount = h.recount := by
  have hfirst : ∀ n start,
      (h.withEnds least greatest).firstRecorded? start n = h.firstRecorded? start n := by
    intro n
    induction n with
    | zero => exact fun _ => rfl
    | succ n ih => exact fun start => if_congr Iff.rfl rfl (ih (start + 1))
  have hlast : ∀ n, (h.withEnds least greatest).lastRecorded? n = h.lastRecorded? n := by
    intro n
    induction n with
    | zero => rfl
    | succ n ih => exact if_congr Iff.rfl rfl ih
  rw [recount, recount, hfirst, hlast]
  rfl

end Histogram

namespace Report

/-- The rows of a report are made without the ends. -/
theorem printRows_withEnds (scale : Float) (format : Format) (t : PercentileLevels) :
    printRows (h.withEnds least greatest) scale format t = printRows h scale format t := by
  have hnext : PercentileLevels.next? (h.withEnds least greatest) = PercentileLevels.next? h :=
    funext PercentileLevels.next?_withEnds
  unfold printRows
  rw [hnext]
  rfl

/-- A report tells of the ends only the greatest value that is reported. -/
theorem print_withEnds (hmax : (h.withEnds least greatest).max = h.max) (ticks : ℕ)
    (scale : Float) (format : Format) :
    print (h.withEnds least greatest) ticks scale format = print h ticks scale format := by
  have hstart : PercentileLevels.start (h.withEnds least greatest) ticks =
    PercentileLevels.start h ticks := rfl
  have hsummary : summary (h.withEnds least greatest) scale format = summary h scale format := by
    cases format with
    | aligned =>
      simp only [summary, Histogram.mean_withEnds, Histogram.deviation_withEnds, hmax]
      rfl
    | separated => rfl
  simp only [print, hstart, printRows_withEnds, hsummary]

end Report

end

/-! ## Operations -/

/-- An operation on a histogram. -/
inductive Operation where
  /-- Records a value, alone or several times or with those held up behind it. -/
  | record (r : Recording) (hr : r.value ≤ topValue)
  /-- Takes in the samples of a histogram. -/
  | merge (source : Histogram)
  /-- Forgets all samples. -/
  | reset
  /-- Finds the number of samples and their ends again from the slots. -/
  | recount

/-- What an operation tells of how it went. -/
inductive Response where
  /-- What became of a recording. -/
  | recorded (outcome : Except RecordError Unit)
  /-- The number of samples dropped. -/
  | merged (dropped : ℕ)
  /-- Nothing. -/
  | done
  deriving DecidableEq

namespace Histogram

/-- A histogram after an operation, and what the operation tells. -/
def perform (h : Histogram) : Operation → Histogram × Response
  | .record r _ => (r.run h).map id .recorded
  | .merge source => (h.merge source).map id .merged
  | .reset => (h.reset, .done)
  | .recount => (h.recount, .done)

/-- A histogram after operations one after the other, and what they tell. -/
def performAll (h : Histogram) : List Operation → Histogram × List Response
  | [] => (h, [])
  | o :: os =>
    let (h, response) := h.perform o
    let (h, responses) := h.performAll os
    (h, response :: responses)

/-- Operations leave ends that are values. -/
theorem HasValidEnds.perform {h : Histogram} (hends : h.HasValidEnds) (o : Operation) :
    (h.perform o).1.HasValidEnds := by
  cases o with
  | record r hr => exact keptByRecordings_hasValidEnds h r hr hends
  | merge source => exact keptByRecordings_hasValidEnds.merge source hends
  | reset => exact hends.reset
  | recount => exact hends.recount

/-! ## Equal histograms -/

/-- Two histograms that are equal, with counters of one size. -/
structure Alike (g h : Histogram) : Prop where
  width : g.width = h.width
  equal : (g == h) = true

/-- Histograms that answer every question alike. -/
structure SameAnswers (g h : Histogram) : Prop where
  min : g.min = h.min
  max : g.max = h.max
  countAt : ∀ v, g.countAt v = h.countAt v
  countBetween : ∀ low high, g.countBetween low high = h.countBetween low high
  /-- The percentage of the samples up to a value. -/
  percentileBelow : ∀ v, g.percentileBelow v = h.percentileBelow v
  /-- The value that a percentage of the samples lie at or below. -/
  valueAtPercentile : ∀ p, g.valueAtPercentile p = h.valueAtPercentile p
  mean : g.mean = h.mean
  deviation : g.deviation = h.deviation
  /-- The recorded slots, one after the other. -/
  recorded : Cursor.start g = Cursor.start h ∧ ∀ c : Cursor, c.nextRecorded? g = c.nextRecorded? h
  /-- The percentile levels, one after the other. -/
  levels : (∀ ticks, PercentileLevels.start g ticks = PercentileLevels.start h ticks) ∧
    ∀ t : PercentileLevels, t.next? g = t.next? h
  /-- The linear steps, one after the other. -/
  linear : (∀ width, LinearSteps.start g width = LinearSteps.start h width) ∧
    ∀ t, LinearSteps.next? g t = LinearSteps.next? h t
  /-- The logarithmic steps, one after the other. -/
  logarithmic :
    (∀ first base, LogarithmicSteps.start g first base = LogarithmicSteps.start h first base) ∧
      ∀ t, LogarithmicSteps.next? g t = LogarithmicSteps.next? h t
  /-- What a percentile report prints to a sink, and whether it is printed to the end. -/
  printed : ∀ ticks scale format,
    Report.print g ticks scale format = Report.print h ticks scale format

/-- A histogram with other ends answers alike if it reports the same ends. -/
theorem sameAnswers_withEnds {h : Histogram} {least greatest : ℕ}
    (hmin : (h.withEnds least greatest).min = h.min)
    (hmax : (h.withEnds least greatest).max = h.max) :
    SameAnswers (h.withEnds least greatest) h where
  min := hmin
  max := hmax
  countAt _ := rfl
  countBetween _ _ := rfl
  percentileBelow _ := rfl
  valueAtPercentile := valueAtPercentile_withEnds
  mean := mean_withEnds
  deviation := deviation_withEnds
  recorded := ⟨rfl, Cursor.nextRecorded?_withEnds⟩
  levels := ⟨fun _ => rfl, PercentileLevels.next?_withEnds⟩
  linear := ⟨fun _ => rfl, Stepped.next?_withEnds _⟩
  logarithmic := ⟨fun _ _ => rfl, Stepped.next?_withEnds _⟩
  printed := Report.print_withEnds hmax

namespace Alike

variable {g h : Histogram}

/-- Of two equal histograms, one is the other with other ends, and reports the same ends. -/
theorem eq_withEnds (halike : Alike g h) :
    g = h.withEnds g.least g.greatest ∧ g.min = h.min ∧ g.max = h.max := by
  obtain ⟨hlayout, htotal, hmax, hmin, hslots⟩ := beq_eq_true_iff.mp halike.equal
  refine ⟨?_, hmin, hmax⟩
  cases g
  cases h
  cases halike.width
  cases hlayout
  cases htotal
  cases hslots
  rfl

/-- Equal histograms answer every question alike. -/
theorem sameAnswers (halike : Alike g h) : SameAnswers g h := by
  obtain ⟨hends, hmin, hmax⟩ := halike.eq_withEnds
  rw [hends] at hmin hmax ⊢
  exact sameAnswers_withEnds hmin hmax

/-- Equal histograms hand over the same. -/
theorem merge_source (halike : Alike g h) (t : Histogram) : t.merge g = t.merge h := by
  rw [halike.eq_withEnds.1]
  exact Cursor.foldRecorded_withEnds _ _ _

/-- Equal histograms are equal when they are reset. -/
theorem reset (halike : Alike g h) : Alike g.reset h.reset := by
  have hreset : g.reset = h.reset := by
    rw [halike.eq_withEnds.1]
    rfl
  rw [hreset]
  exact ⟨rfl, beq_eq_true_iff.mpr ⟨rfl, rfl, rfl, rfl, rfl⟩⟩

/-- Equal histograms are equal when they are recounted. -/
theorem recount (halike : Alike g h) : Alike g.recount h.recount := by
  rw [halike.eq_withEnds.1, recount_withEnds]
  exact ⟨rfl, beq_eq_true_iff.mpr ⟨rfl, rfl, rfl, rfl, rfl⟩⟩

variable (hg : g.HasValidEnds) (hh : h.HasValidEnds)
include hg hh

/-- Equal histograms stay equal under a change. -/
theorem apply (halike : Alike g h) {u : CellUpdate} (hu : u.NamesValue) :
    Alike (g.apply u) (h.apply u) := by
  obtain ⟨hwidth, hequal⟩ := halike
  rw [beq_eq_true_iff] at hequal
  obtain ⟨hlayout, htotal, hmax, hmin, hslots⟩ := hequal
  cases u with
  | addToSlot index n =>
    have hmodified : (g.apply (.addToSlot index n)).slots = (h.apply (.addToSlot index n)).slots :=
      congrArg₂ (fun slots w => slots.modify index (CounterWidth.add w · n)) hslots hwidth
    exact ⟨hwidth, beq_eq_true_iff.mpr ⟨hlayout, htotal, hmax, hmin, hmodified⟩⟩
  | addToTotal n =>
    have hgrown : (g.apply (.addToTotal n)).total = (h.apply (.addToTotal n)).total :=
      congrArg (fun total => wrapTotal (total + n)) htotal
    exact ⟨hwidth, beq_eq_true_iff.mpr ⟨hlayout, hgrown, hmax, hmin, hslots⟩⟩
  | lowerLeast v =>
    have hlowered : (g.apply (.lowerLeast v)).min = (h.apply (.lowerLeast v)).min := by
      calc g.layout.reportedLeast (Min.min g.least v)
          = Min.min g.min (g.layout.reportedLeast v) :=
            Layout.reportedLeast_min hg.precise.toShaped hg.least hu
        _ = Min.min h.min (h.layout.reportedLeast v) := by rw [hmin, hlayout]
        _ = h.layout.reportedLeast (Min.min h.least v) :=
            (Layout.reportedLeast_min hh.precise.toShaped hh.least hu).symm
    exact ⟨hwidth, beq_eq_true_iff.mpr ⟨hlayout, htotal, hmax, hlowered, hslots⟩⟩
  | raiseGreatest v =>
    have hraised : (g.apply (.raiseGreatest v)).max = (h.apply (.raiseGreatest v)).max := by
      calc g.layout.reportedGreatest (Max.max g.greatest v)
          = Max.max g.max (g.layout.reportedGreatest v) :=
            Layout.reportedGreatest_max hg.precise hg.greatest hu
        _ = Max.max h.max (h.layout.reportedGreatest v) := by rw [hmax, hlayout]
        _ = h.layout.reportedGreatest (Max.max h.greatest v) :=
            (Layout.reportedGreatest_max hh.precise hh.greatest hu).symm
    exact ⟨hwidth, beq_eq_true_iff.mpr ⟨hlayout, htotal, hraised, hmin, hslots⟩⟩

/-- Equal histograms stay equal under changes. -/
theorem applyAll (halike : Alike g h) {us : List CellUpdate} (hus : ∀ u ∈ us, u.NamesValue) :
    Alike (g.applyAll us) (h.applyAll us) := by
  induction us generalizing g h with
  | nil => exact halike
  | cons u us ih =>
    obtain ⟨hu, hrest⟩ := List.forall_mem_cons.mp hus
    exact ih (hg.apply hu) (hh.apply hu) (halike.apply hg hh hu) hrest

/-- Equal histograms tell the same of an operation, and stay equal. -/
theorem perform (halike : Alike g h) (o : Operation) :
    Alike (g.perform o).1 (h.perform o).1 ∧ (g.perform o).2 = (h.perform o).2 := by
  have hlayout : g.layout = h.layout := (beq_eq_true_iff.mp halike.equal).1
  have hL := hh.precise.toShaped
  cases o with
  | record r hr =>
    simp only [Histogram.perform, r.run_eq, Prod.map, hlayout, id_eq, and_true]
    exact halike.applyAll hg hh fun u => Recording.namesValue_of_mem_work hL hr
  | merge source =>
    simp only [Histogram.perform, merge_eq_applyAll, Prod.map, hlayout, halike.width, id_eq,
      and_true]
    refine halike.applyAll hg hh fun u hu => ?_
    obtain ⟨x, hx, htaken⟩ := List.mem_flatMap.mp hu
    exact Item.namesValue_of_mem_taken hL (source.lowest_le_of_mem_recorded hx) htaken
  | reset => exact ⟨halike.reset, rfl⟩
  | recount => exact ⟨halike.recount, rfl⟩

/-- Equal histograms tell the same of operations, and stay equal. -/
theorem performAll (halike : Alike g h) (os : List Operation) :
    Alike (g.performAll os).1 (h.performAll os).1 ∧ (g.performAll os).2 = (h.performAll os).2 := by
  induction os generalizing g h with
  | nil => exact ⟨halike, rfl⟩
  | cons o os ih =>
    obtain ⟨hfirst, hresponse⟩ := halike.perform hg hh o
    obtain ⟨hrest, hresponses⟩ := ih (hg.perform o) (hh.perform o) hfirst
    exact ⟨hrest, congrArg₂ List.cons hresponse hresponses⟩

end Alike

/-- Histograms that nothing tells apart. -/
structure Indistinguishable (g h : Histogram) : Prop where
  /-- All operations tell the same. -/
  responses : ∀ os, (g.performAll os).2 = (h.performAll os).2
  /-- They are equal after all operations. -/
  equal : ∀ os, ((g.performAll os).1 == (h.performAll os).1) = true
  /-- They answer every question alike after all operations. -/
  answers : ∀ os, SameAnswers (g.performAll os).1 (h.performAll os).1
  /-- After all operations, they are taken in alike by histograms that are equal. -/
  taken_in : ∀ os (t u : Histogram), t.Reachable → u.Reachable → t.width = u.width →
    (t == u) = true →
      (t.merge (g.performAll os).1).2 = (u.merge (h.performAll os).1).2 ∧
        ((t.merge (g.performAll os).1).1 == (u.merge (h.performAll os).1).1) = true

/-- Reachable histograms that are equal, with counters of one size, cannot be told apart, even if
the ends that they keep differ. -/
theorem beq_congruent {g h : Histogram} (hg : g.Reachable) (hh : h.Reachable)
    (hwidth : g.width = h.width) (hequal : (g == h) = true) : Indistinguishable g h := by
  have hrun := Alike.performAll hg.hasValidEnds hh.hasValidEnds ⟨hwidth, hequal⟩
  refine ⟨fun os => (hrun os).2, fun os => (hrun os).1.equal, fun os => (hrun os).1.sameAnswers,
    fun os t u ht hu hsize hsame => ?_⟩
  rw [(hrun os).1.merge_source]
  obtain ⟨halike, hdropped⟩ :=
    Alike.perform ht.hasValidEnds hu.hasValidEnds ⟨hsize, hsame⟩ (.merge (h.performAll os).1)
  exact ⟨Response.merged.inj hdropped, halike.equal⟩

/-- In units of two, samples of 2 and of 3 are kept as different ends, but nothing tells them
apart. -/
theorem twos_indistinguishable :
    let empty := ofLayout ⟨⟨2, 1000, 1⟩, 1, 4, 32, 16, 62, 6, 112⟩ .bits8
    let two := ((Recording.plain 2 1).run empty).1
    let three := ((Recording.plain 3 1).run empty).1
    two.least ≠ three.least ∧ two.greatest ≠ three.greatest ∧ Indistinguishable two three := by
  have hempty := Reachable.ofLayout (b := ⟨2, 1000, 1⟩)
    (L := ⟨⟨2, 1000, 1⟩, 1, 4, 32, 16, 62, 6, 112⟩) (by decide +kernel) .bits8
  exact ⟨by decide +kernel, by decide +kernel,
    beq_congruent (hempty.run (.plain 2 1) (by decide)) (hempty.run (.plain 3 1) (by decide))
      (by decide +kernel) (by decide +kernel)⟩

end Histogram

end DynamicRange
