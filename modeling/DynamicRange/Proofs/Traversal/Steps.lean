import DynamicRange.Proofs.Traversal.Walk
import DynamicRange.Traversal.Page
import DynamicRange.Traversal.Stepped

/-!
# Steps and the slots that belong to them

A step takes in the slots that start at or below its end, as far as no step before it did. So after
a step the cursor has visited a number of slots that the end of the step alone settles
(`Layout.slotsUpTo`), and the whole traversal is settled by the ends: its items and the states
between them are listed by `Histogram.stepItem` and `Stepped.behind`, and `yields_stepItem` says
that nothing else is yielded.

`stepped_attributes` draws the consequences for any stepper whose ends do not fall and for linear
steps: every sample belongs to exactly one step, the one in which its slot starts.
-/

namespace DynamicRange

/-! ## What traversals yield -/

section

variable {σ : Type} {next? : σ → Option (Item × σ)}

/-- The items that a traversal gives from a state on, one after the other, and the state behind
them. -/
inductive Yields (next? : σ → Option (Item × σ)) (s₀ : σ) : List Item → σ → Prop where
  | nil : Yields next? s₀ [] s₀
  | snoc {xs : List Item} {x : Item} {s s' : σ} (hxs : Yields next? s₀ xs s)
    (hnext : next? s = some (x, s')) : Yields next? s₀ (xs ++ [x]) s'

/-- Items that are taken behind others are those that the traversal gives behind them. -/
theorem takeItems_yields_of {s₀ s : σ} {told : Array Item} (htold : Yields next? s₀ told.toList s)
    (n : ℕ) : ∃ t, Yields next? s₀ (takeItems next? n s told).1.toList t ∧
      (takeItems next? n s told).2 = (next? t).isSome := by
  induction n generalizing s told with
  | zero => exact ⟨s, htold, rfl⟩
  | succ n ih =>
    rw [takeItems]
    rcases hnext : next? s with _ | ⟨x, s'⟩
    · exact ⟨s, htold, by rw [hnext]; rfl⟩
    · refine ih ?_
      rw [Array.toList_push]
      exact htold.snoc hnext

/-- The items that are told are those that the traversal gives, and it is told whether it has
ended. -/
theorem takeItems_yields (next? : σ → Option (Item × σ)) (s : σ) (n : ℕ) :
    ∃ t, Yields next? s (takeItems next? n s #[]).1.toList t ∧
      ((takeItems next? n s #[]).2 = false ↔ next? t = none) := by
  have hnil : Yields next? s (#[] : Array Item).toList s := .nil
  obtain ⟨t, hyields, hmore⟩ := takeItems_yields_of hnil n
  exact ⟨t, hyields, by rw [hmore, ← Bool.not_eq_true, Option.not_isSome_iff_eq_none]⟩

/-- If all items of a traversal were told, the last of them is the last that it gives. -/
theorem takeItems_last {s : σ} {n : ℕ} (ends : List ℕ) {last : ℕ}
    (htold : (takeItems next? n s #[]).1.toList.map (·.reached) = ends ++ [last])
    (hall : (takeItems next? n s #[]).2 = false) :
    ∃ xs x t, Yields next? s (xs ++ [x]) t ∧ next? t = none ∧ x.reached = last := by
  obtain ⟨t, hyields, hend⟩ := takeItems_yields next? s n
  obtain ⟨xs, ys, hxs, -, hys⟩ := List.map_eq_append_iff.mp htold
  obtain ⟨x, rfl, hx⟩ := List.map_eq_singleton_iff.mp hys
  rw [hxs] at hyields
  exact ⟨xs, x, t, hyields, hend.mp hall, hx⟩

end

/-! ## The slots up to a value -/

namespace Layout

variable {L : Layout} {v : ℕ}

/-- The number of slots that start at or below a value. -/
def slotsUpTo (L : Layout) (v : ℕ) : ℕ := min (L.indexFor v + 1) L.slotCount

theorem slotsUpTo_le (L : Layout) (v : ℕ) : L.slotsUpTo v ≤ L.slotCount := min_le_right _ _

theorem slotsUpTo_pos (hL : L.Shaped) (v : ℕ) : 0 < L.slotsUpTo v :=
  lt_min (Nat.succ_pos _) hL.slotCount_pos

theorem slotsUpTo_mono (hL : L.Shaped) {w : ℕ} (h : v ≤ w) : L.slotsUpTo v ≤ L.slotsUpTo w :=
  min_le_min_right _ (Nat.succ_le_succ (indexFor_mono hL h))

/-- A slot before that of a value starts below the range of the value. -/
theorem lowestOfIndex_lt (hL : L.Shaped) (hv : v ≤ topValue) {i : ℕ} (hi : i < L.slotCount)
    (hlt : i < L.indexFor v) : L.lowestOfIndex i < L.lowestEquivalent v := by
  obtain ⟨hl, hindex, -⟩ := locationOf_spec hL hi
  rw [lowestOfIndex_eq hL hi, lowestEquivalent_eq hL (Int.ofNat_le.mpr hv)]
  exact (min_le_left _ _).trans_lt
    (lowestExactly_lt hL hl (locate_proper hL _) (hindex.trans_lt hlt))

end Layout

/-- The samples of the slots that start at or below a value are those of the first slots. -/
theorem Histogram.Consistent.sum_lowest_le {h : Histogram} (hh : h.Consistent) (v : ℕ) :
    ∑ i ∈ Finset.range h.layout.slotCount with h.layout.lowestOfIndex i ≤ v, h.count i =
      ∑ i ∈ Finset.range (h.layout.slotsUpTo v), h.count i := by
  have hfirst : ∀ i < h.layout.slotCount,
      h.layout.exactLowest i ≤ v ↔ i < h.layout.slotsUpTo v := by
    intro i hi
    obtain ⟨hl, hindex, -⟩ := Layout.locationOf_spec hh.shaped hi
    rw [Layout.exactLowest, ← Layout.indexOf_le_indexFor_iff hh.shaped hl, hindex,
      Layout.slotsUpTo]
    omega
  symm
  refine Finset.sum_subset (fun i hi => ?_) fun i hi hnot => ?_
  · have hlt := Finset.mem_range.mp hi
    have hi := hlt.trans_le (h.layout.slotsUpTo_le v)
    rw [Finset.mem_filter, Finset.mem_range, Layout.lowestOfIndex_eq hh.shaped hi]
    exact ⟨hi, (min_le_left _ _).trans ((hfirst i hi).mpr hlt)⟩
  · -- A slot behind them seems to start no higher only if it starts past the values.
    obtain ⟨hi, hle⟩ := Finset.mem_filter.mp hi
    rw [Finset.mem_range] at hi hnot
    rw [Layout.lowestOfIndex_eq hh.shaped hi] at hle
    rw [← hfirst i hi] at hnot
    exact hh.past_top i hi
      (((min_le_iff.mp hle).resolve_left hnot).trans_lt (not_le.mp hnot))

/-! ## Moves to where a step is reported -/

namespace Stepped

variable {σ : Type} {h : Histogram} (hL : h.layout.Shaped) (reported : ℕ) {v n : ℕ}
include hL

/-- A step is reported when the slots up to its end are visited. -/
theorem settledAt_after (hv : v ≤ topValue) (hn : n ≤ h.layout.slotsUpTo v) :
    settledAt h.layout (h.layout.lowestEquivalent v) (Cursor.after h reported n) =
      decide (n = h.layout.slotsUpTo v) := by
  have hlast := Cursor.atLastSlot_after reported hL (hn.trans (h.layout.slotsUpTo_le v))
  rw [settledAt, hlast]
  cases n with
  | zero => simp [Cursor.after, Cursor.start, (Layout.slotsUpTo_pos hL v).ne]
  | succ n =>
    have hlowest : (Cursor.after h reported (n + 1)).lowest h.layout = h.layout.lowestOfIndex n :=
      rfl
    have hstarted : (Cursor.after h reported (n + 1)).slot?.isSome = true := rfl
    rw [hlowest, hstarted, Bool.true_and]
    rw [Layout.slotsUpTo] at hn ⊢
    rcases (show n ≤ h.layout.indexFor v by omega).lt_or_eq with hlt | rfl
    · have hbelow := Layout.lowestOfIndex_lt hL hv (by omega) hlt
      rw [decide_eq_false (not_le.mpr hbelow), Bool.false_or, decide_eq_decide]
      omega
    · rw [Layout.lowestOfIndex_indexFor hL hv, decide_eq_true le_rfl, Bool.true_or]
      exact (decide_eq_true (by omega)).symm

/-- The search for where a step is reported visits the slots up to its end. -/
theorem settle?_after (hv : v ≤ topValue) (hn : n ≤ h.layout.slotsUpTo v) :
    settle? h (h.layout.lowestEquivalent v) (Cursor.after h reported n) =
      some (Cursor.after h reported (h.layout.slotsUpTo v)) := by
  induction hn using Nat.decreasingInduction with
  | self => rw [settle?, settledAt_after hL reported hv le_rfl, if_pos (decide_eq_true rfl)]
  | of_succ n hn ih =>
    have hmoved := Cursor.move?_after reported hL (hn.trans_le (h.layout.slotsUpTo_le v))
    rw [settle?, settledAt_after hL reported hv hn.le, if_neg (by simp [hn.ne])]
    split
    · next hnone => simp [hmoved] at hnone
    · next c hsome =>
      rw [hmoved, Option.some.injEq] at hsome
      rw [← hsome, ih]

omit hL in
/-- A traversal is over behind a step that ended at `topValue`, and when no samples lie ahead and
its step does not end before the next slot. -/
theorem isOver_after (hh : h.Consistent) (hcovered : h.Covered) {t : Stepped σ}
    (hcursor : t.cursor = Cursor.after h reported n) (hn : n ≤ h.layout.slotCount) :
    t.isOver h = true ↔ t.toppedOut = true ∨
      (h.total ≤ ∑ i ∈ Finset.range n, h.count i ∧ h.layout.lowestOfIndex n ≤ t.stepEnd) := by
  have hnext := hcovered.hasNext_after_iff hn hh reported
  rw [isOver, hcursor, Cursor.nextLowest_after reported hh.shaped hn, Bool.or_eq_true,
    Bool.and_eq_true, Bool.not_eq_true', ← Bool.not_eq_true, hnext, not_lt, decide_eq_true_iff]

end Stepped

/-! ## Steps by their ends -/

/-- The end of every step that a stepper supplies, and the state of the stepper behind it. -/
def Stepped.steps {σ : Type} (advance : σ → ℕ × σ) (first : ℕ) (s : σ) : ℕ → ℕ × σ
  | 0 => (first, s)
  | i + 1 => advance (steps advance first s i).2

/-- The end of every step that a stepper supplies. -/
def Stepped.ends {σ : Type} (advance : σ → ℕ × σ) (first : ℕ) (s : σ) (i : ℕ) : ℕ :=
  (steps advance first s i).1

/-- The number of slots visited before the step `i`. -/
def Layout.slotsBefore (L : Layout) (ends : ℕ → ℕ) : ℕ → ℕ
  | 0 => 0
  | i + 1 => L.slotsUpTo (ends i)

/-- The slots visited before a step are among those up to its end. -/
theorem Layout.slotsBefore_le {L : Layout} (hL : L.Shaped) {ends : ℕ → ℕ} (hends : Monotone ends)
    (i : ℕ) : L.slotsBefore ends i ≤ L.slotsUpTo (ends i) := by
  cases i with
  | zero => exact Nat.zero_le _
  | succ i => exact slotsUpTo_mono hL (hends (Nat.le_succ i))

/-- What is reported of the step `i`. -/
def Histogram.stepItem (h : Histogram) (ends : ℕ → ℕ) (i : ℕ) : Item :=
  let n := h.layout.slotsUpTo (ends i)
  { reached := ends i
    lowest := h.layout.lowestOfIndex (n - 1)
    percentile := percentage (h.countIn 0 n) h.total
    count := h.count (n - 1)
    cumulative := h.countIn 0 n
    sinceLast := totalSince (h.countIn 0 n) (h.countIn 0 (h.layout.slotsBefore ends i)) }

/-- Whether the step before the step `i` ended at `topValue`. -/
def endedAtTop (ends : ℕ → ℕ) : ℕ → Bool
  | 0 => false
  | i + 1 => ends i == topValue

namespace Stepped

variable {σ : Type} {advance : σ → ℕ × σ} {first : ℕ} {s : σ} {h : Histogram} {i n : ℕ}

/-- A traversal that has reported the steps before the step `i`. -/
def behind (h : Histogram) (advance : σ → ℕ × σ) (first : ℕ) (s : σ) (i : ℕ) : Stepped σ :=
  let n := h.layout.slotsBefore (ends advance first s) i
  { cursor := .after h (h.countIn 0 n) n
    stepEnd := ends advance first s i
    toppedOut := endedAtTop (ends advance first s) i
    stepper := (steps advance first s i).2 }

theorem start_eq_behind : start h first s = behind h advance first s 0 := by
  have hcursor : Cursor.start h = .after h (h.countIn 0 0) 0 := by
    rw [h.countIn_zero, Cursor.start_eq_after]
  rw [start, hcursor]
  rfl

section

variable (hL : h.layout.Shaped) (hends : Monotone (ends advance first s))
  (htop : ∀ i, ends advance first s i ≤ topValue)
include hL hends htop

/-- A traversal that is not over reports its step and goes on to the next one. -/
theorem next?_behind (i : ℕ) :
    next? advance h (behind h advance first s i) =
      if (behind h advance first s i).isOver h then
        none
      else
        some (h.stepItem (ends advance first s) i, behind h advance first s (i + 1)) := by
  have hsettled : settle? h (h.layout.lowestEquivalent (behind h advance first s i).stepEnd)
      (behind h advance first s i).cursor = some (.after h
        (h.countIn 0 (h.layout.slotsBefore (ends advance first s) i))
        (h.layout.slotsUpTo (ends advance first s i))) :=
    settle?_after hL _ (htop i) (Layout.slotsBefore_le hL hends i)
  have hnext : behind h advance first s (i + 1) =
      { cursor := .after h (h.countIn 0 (h.layout.slotsUpTo (ends advance first s i)))
          (h.layout.slotsUpTo (ends advance first s i))
        stepEnd := ends advance first s (i + 1)
        toppedOut := ends advance first s i == topValue
        stepper := (steps advance first s (i + 1)).2 } := rfl
  obtain ⟨n, hn⟩ := Nat.exists_eq_succ_of_ne_zero
    (Layout.slotsUpTo_pos hL (ends advance first s i)).ne'
  rw [next?]
  split
  · rfl
  · rw [hsettled, hnext, Histogram.stepItem, hn]
    rfl

/-- The items of a stepped traversal are those of its steps. -/
theorem yields_stepItem {xs : List Item} {t : Stepped σ}
    (hyields : Yields (next? advance h) (start h first s) xs t) :
    xs = (List.range xs.length).map (h.stepItem (ends advance first s)) ∧
      t = behind h advance first s xs.length := by
  induction hyields with
  | nil => exact ⟨rfl, start_eq_behind⟩
  | @snoc xs x t t' _ hnext ih =>
    obtain ⟨hxs, rfl⟩ := ih
    rw [next?_behind hL hends htop] at hnext
    split at hnext
    · cases hnext
    · obtain ⟨rfl, rfl⟩ := Prod.mk.inj (Option.some.inj hnext)
      rw [List.length_append, List.length_singleton, List.range_succ, List.map_append, ← hxs]
      exact ⟨rfl, rfl⟩

end

end Stepped

/-! ## What belongs to a step -/

section

variable {h : Histogram} (hh : h.Consistent) {ends : ℕ → ℕ}
include hh

/-- The slots up to the greatest value have all samples. -/
theorem Histogram.Exact.sum_slotsUpTo_topValue (hexact : h.Exact) :
    ∑ j ∈ Finset.range (h.layout.slotsUpTo topValue), h.count j = h.total := by
  have hall : ∀ j ∈ Finset.range h.layout.slotCount, h.layout.lowestOfIndex j ≤ topValue :=
    fun j _ => h.layout.lowestAt_le _
  rw [← hh.sum_lowest_le, Finset.filter_true_of_mem hall, ← hexact]

variable (hexact : h.Exact)
include hexact

/-- Up to the end of a step there are the samples of the slots that start there. -/
theorem Histogram.cumulative_stepItem (i : ℕ) : (h.stepItem ends i).cumulative =
    ∑ j ∈ Finset.range h.layout.slotCount with h.layout.lowestOfIndex j ≤ ends i, h.count j := by
  rw [hh.sum_lowest_le]
  exact hexact.covered.countIn_eq_sum (h.layout.slotsUpTo_le _) hh

/-- In a step there are the samples of the slots visited since the step before. -/
theorem Histogram.sinceLast_stepItem (hends : Monotone ends) (i : ℕ) :
    ∑ j ∈ Finset.range (h.layout.slotsBefore ends i), h.count j + (h.stepItem ends i).sinceLast =
      ∑ j ∈ Finset.range (h.layout.slotsUpTo (ends i)), h.count j :=
  hexact.covered.sum_add_totalSince hh (Layout.slotsBefore_le hh.shaped hends i)
    (h.layout.slotsUpTo_le (ends i))

/-- All steps together have the samples of the slots visited. -/
theorem Histogram.sum_sinceLast_stepItem (hends : Monotone ends) (n : ℕ) :
    ((List.range n).map fun i => (h.stepItem ends i).sinceLast).sum =
      ∑ j ∈ Finset.range (h.layout.slotsBefore ends n), h.count j := by
  induction n with
  | zero => rfl
  | succ n ih =>
    rw [List.range_succ, List.map_append, List.sum_append, ih, List.map_singleton,
      List.sum_singleton, sinceLast_stepItem hh hexact hends]
    rfl

end

/-- Items that attribute samples to steps with some ends. -/
structure Attributed (h : Histogram) (ends : ℕ → ℕ) (xs : List Item) : Prop where
  /-- Each item reaches the end of its step. -/
  reached : ∀ i x, xs[i]? = some x → x.reached = ends i
  /-- Up to that end there are the samples of the slots that start there or below. -/
  cumulative : ∀ i x, xs[i]? = some x → x.cumulative =
    ∑ j ∈ Finset.range h.layout.slotCount with h.layout.lowestOfIndex j ≤ ends i, h.count j
  /-- The first step has all of them. -/
  sinceLast_first : ∀ x, xs[0]? = some x → x.sinceLast = x.cumulative
  /-- Every other step has those that the step before has not reached. -/
  sinceLast_next : ∀ i x y, xs[i]? = some x → xs[i + 1]? = some y →
    x.cumulative + y.sinceLast = y.cumulative

namespace Stepped

variable {σ : Type} {advance : σ → ℕ × σ} {first : ℕ} {s : σ} {h : Histogram} (hh : h.Consistent)
  (hexact : h.Exact) (hends : Monotone (ends advance first s))
  (htop : ∀ i, ends advance first s i ≤ topValue) {xs : List Item} {t : Stepped σ}
  (hyields : Yields (next? advance h) (start h first s) xs t)
include hh hexact hends htop hyields

/-- The items of a stepped traversal attribute samples to the steps of the stepper. -/
theorem attributed : Attributed h (ends advance first s) xs := by
  have hitem : ∀ {i x}, xs[i]? = some x → x = h.stepItem (ends advance first s) i := by
    intro i x hx
    rw [(yields_stepItem hh.shaped hends htop hyields).1, List.getElem?_map,
      Option.map_eq_some_iff] at hx
    obtain ⟨j, hj, rfl⟩ := hx
    obtain ⟨_, hj⟩ := List.getElem?_eq_some_iff.mp hj
    rw [← hj, List.getElem_range]
  have hcumulative : ∀ i, (h.stepItem (ends advance first s) i).cumulative =
      ∑ j ∈ Finset.range (h.layout.slotsUpTo (ends advance first s i)), h.count j := by
    intro i
    rw [Histogram.cumulative_stepItem hh hexact, hh.sum_lowest_le]
  refine ⟨fun i x hx => ?_, fun i x hx => ?_, fun x hx => ?_, fun i x y hx hy => ?_⟩
  · rw [hitem hx]
    rfl
  · rw [hitem hx, Histogram.cumulative_stepItem hh hexact]
  · have hsince := Histogram.sinceLast_stepItem hh hexact hends 0
    rwa [← hcumulative, Layout.slotsBefore, Finset.range_zero, Finset.sum_empty, Nat.zero_add,
      ← hitem hx] at hsince
  · have hsince := Histogram.sinceLast_stepItem hh hexact hends (i + 1)
    rwa [← hcumulative, Layout.slotsBefore, ← hcumulative, ← hitem hx, ← hitem hy] at hsince

/-- A stepped traversal has ended behind a step that ended at `topValue`, or when all samples are
passed and the following step does not end before the next slot. -/
theorem over_of_end (hend : next? advance h t = none) :
    let n := h.layout.slotsBefore (ends advance first s) xs.length
    endedAtTop (ends advance first s) xs.length = true ∨
      (h.total ≤ ∑ j ∈ Finset.range n, h.count j ∧
        h.layout.lowestOfIndex n ≤ ends advance first s xs.length) := by
  obtain ⟨-, rfl⟩ := yields_stepItem hh.shaped hends htop hyields
  have hle := (Layout.slotsBefore_le hh.shaped hends xs.length).trans (h.layout.slotsUpTo_le _)
  rw [next?_behind hh.shaped hends htop] at hend
  refine (isOver_after (t := behind h advance first s xs.length) _ hh hexact.covered rfl hle).mp ?_
  by_contra hgoes
  rw [if_neg hgoes] at hend
  cases hend

/-- When a stepped traversal has ended, its items have all samples. -/
theorem sum_sinceLast_of_end (hend : next? advance h t = none) :
    (xs.map (·.sinceLast)).sum = h.total := by
  have hover := over_of_end hh hexact hends htop hyields hend
  have hle := (Layout.slotsBefore_le hh.shaped hends xs.length).trans (h.layout.slotsUpTo_le _)
  rw [(yields_stepItem hh.shaped hends htop hyields).1, List.map_map]
  generalize xs.length = n at *
  refine (Histogram.sum_sinceLast_stepItem hh hexact hends n).trans ?_
  rcases hover with hall | ⟨hpassed, -⟩
  · cases n with
    | zero => cases hall
    | succ n =>
      have hlast : ends advance first s n = topValue := beq_iff_eq.mp hall
      rw [Layout.slotsBefore, hlast, hexact.sum_slotsUpTo_topValue hh]
  · exact le_antisymm (hexact.covered.sum_le hle) hpassed

end Stepped

/-! ## Linear steps -/

namespace LinearSteps

/-- The ends of linear steps are one width apart, held at `topValue`. -/
theorem ends_eq {u : ℕ} (hu : 0 < u) (htop : u ≤ topValue) (i : ℕ) :
    Stepped.ends advance (u - 1) ⟨u, u - 1⟩ i = min ((i + 1) * u - 1) topValue := by
  have hstate : Stepped.steps advance (u - 1) ⟨u, u - 1⟩ i =
      (min ((i + 1) * u - 1) topValue, ⟨u, min ((i + 1) * u - 1) topValue⟩) := by
    induction i with
    | zero =>
      rw [Stepped.steps, Nat.zero_add, one_mul, min_eq_left (by omega)]
    | succ i ih =>
      have hone : 1 * u ≤ (i + 1) * u := Nat.mul_le_mul_right u (by omega)
      have hnext : min (min ((i + 1) * u - 1) topValue + u) topValue =
          min ((i + 1 + 1) * u - 1) topValue := by
        rw [Nat.succ_mul (i + 1)]
        omega
      rw [Stepped.steps, ih, ← hnext]
      rfl
  rw [Stepped.ends, hstate]

/-- The ends of linear steps do not fall, and are values. -/
theorem ends_spec {u : ℕ} (hu : 0 < u) (htop : u ≤ topValue) :
    Monotone (Stepped.ends advance (u - 1) ⟨u, u - 1⟩) ∧
      ∀ i, Stepped.ends advance (u - 1) ⟨u, u - 1⟩ i ≤ topValue := by
  rw [funext (ends_eq hu htop)]
  refine ⟨fun i j hij => ?_, fun i => min_le_right _ _⟩
  exact min_le_min_right _ (Nat.sub_le_sub_right (Nat.mul_le_mul_right u (by omega)) 1)

/-- A traversal in linear steps of a positive width starts. -/
theorem start_eq (h : Histogram) {u : ℕ} (hu : 0 < u) :
    start h u = .ok (.start h (u - 1) ⟨u, u - 1⟩) :=
  if_neg (not_le.mpr (Int.natCast_pos.mpr hu))

end LinearSteps

/-! ## Every sample belongs to one step -/

/-- Whether a traversal attributes the samples of a histogram to steps with some ends, each of them
to one step: its items attribute samples to them, and when it has ended they have all samples. -/
def Attributes {σ : Type} (h : Histogram) (ends : ℕ → ℕ) (next? : σ → Option (Item × σ))
    (s₀ : σ) : Prop :=
  ∀ xs s, Yields next? s₀ xs s →
    Attributed h ends xs ∧ (next? s = none → (xs.map (·.sinceLast)).sum = h.total)

/-- A stepped traversal attributes every sample to one of its steps. -/
theorem Stepped.attributes {σ : Type} {advance : σ → ℕ × σ} {first : ℕ} {s : σ} {h : Histogram}
    (hh : h.Consistent) (hexact : h.Exact) (hends : Monotone (ends advance first s))
    (htop : ∀ i, ends advance first s i ≤ topValue) :
    Attributes h (ends advance first s) (next? advance h) (start h first s) := fun _ _ hyields =>
  ⟨attributed hh hexact hends htop hyields, sum_sinceLast_of_end hh hexact hends htop hyields⟩

/-- If the slots of a histogram come exactly to its total, a traversal in any steps whose ends do
not fall attributes every sample to one step, and so does one in linear steps of any width. -/
theorem stepped_attributes {h : Histogram} (hh : h.Reachable) (hexact : h.Exact) :
    (∀ (σ : Type) (advance : σ → ℕ × σ) (first : ℕ) (s : σ),
      Monotone (Stepped.ends advance first s) → (∀ i, Stepped.ends advance first s i ≤ topValue) →
        Attributes h (Stepped.ends advance first s) (Stepped.next? advance h)
          (Stepped.start h first s)) ∧
    ∀ width : ℤ, 0 < width → width ≤ topValue → ∃ t, LinearSteps.start h width = .ok t ∧
      Attributes h (fun i => min ((i + 1) * width.toNat - 1) topValue) (LinearSteps.next? h) t := by
  refine ⟨fun σ advance first s => Stepped.attributes hh.consistent hexact,
    fun width hpos hwidth => ?_⟩
  obtain ⟨u, rfl⟩ := Int.eq_ofNat_of_zero_le hpos.le
  have hu : 0 < u := Int.natCast_pos.mp hpos
  have htop : u ≤ topValue := Int.ofNat_le.mp hwidth
  obtain ⟨hends, hvalues⟩ := LinearSteps.ends_spec hu htop
  refine ⟨_, LinearSteps.start_eq h hu, ?_⟩
  rw [Int.toNat_natCast, ← funext (LinearSteps.ends_eq hu htop)]
  exact Stepped.attributes hh.consistent hexact hends hvalues

/-- One sample each of 5, 50 and 100. -/
def spread : Histogram :=
  let empty := Histogram.ofLayout ⟨⟨1, 100, 1⟩, 0, 4, 32, 16, 31, 3, 64⟩ .bits8
  (empty.recordAll [.plain 5 1, .plain 50 1, .plain 100 1]).1

/-- Recordings lead to these samples. -/
theorem spread_reachable : spread.Reachable :=
  (Histogram.Reachable.ofLayout (b := ⟨1, 100, 1⟩)
    (L := ⟨⟨1, 100, 1⟩, 0, 4, 32, 16, 31, 3, 64⟩) (by decide +kernel) .bits8).recordAll (by decide)

/-- In steps of 20 the second, the fourth and the fifth have no samples. -/
theorem twenties_attributes : spread.Exact ∧ ∃ t, LinearSteps.start spread 20 = .ok t ∧
    Attributes spread (fun i => min ((i + 1) * 20 - 1) topValue) (LinearSteps.next? spread) t ∧
    ∃ xs s, Yields (LinearSteps.next? spread) t xs s ∧ LinearSteps.next? spread s = none ∧
      xs.map (·.reached) = [19, 39, 59, 79, 99, 119] ∧
      xs.map (·.sinceLast) = [1, 0, 1, 0, 0, 1] := by
  have hexact : spread.Exact := by decide +kernel
  obtain ⟨t, hstart, hattributes⟩ :=
    (stepped_attributes spread_reachable hexact).2 20 (by decide) (by decide)
  obtain rfl : Stepped.start spread 19 ⟨20, 19⟩ = t := Except.ok.inj hstart
  refine ⟨hexact, _, hstart, hattributes, ?_⟩
  obtain ⟨s, hyields, hend⟩ :=
    takeItems_yields (LinearSteps.next? spread) (.start spread 19 ⟨20, 19⟩) 10
  exact ⟨_, s, hyields, hend.mp (by decide +kernel), by decide +kernel, by decide +kernel⟩

end DynamicRange
