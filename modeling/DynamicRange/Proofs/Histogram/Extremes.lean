import DynamicRange.Proofs.Histogram.Samples

/-!
# The least and the greatest sample

A histogram keeps the least and the greatest value that changes name. Which values the changes of
recordings name is the same for both ends (`Marks`): those recorded, except that zero does not lower
the least value. So the two ends are the least value recorded other than zero and the greatest
(`Spans`), whatever the order of the recordings was.

A recording of zero samples names its value too, and leaves no sample behind that says where the
ends are. So the values that a recording names (`Recording.values`) are those of its samples only if
it has some (`Recording.Positive`).
-/

namespace DynamicRange

/-! ## The values that changes name -/

/-- Whether changes lower the least value to the samples other than zero, and raise the greatest
value to the samples, and to nothing else. -/
structure Marks (us : List CellUpdate) (s : Multiset ℕ) : Prop where
  lowerLeast_mem_iff : ∀ x, .lowerLeast x ∈ us ↔ x ∈ s ∧ x ≠ 0
  raiseGreatest_mem_iff : ∀ x, .raiseGreatest x ∈ us ↔ x ∈ s

theorem Marks.nil : Marks [] 0 := ⟨by simp, by simp⟩

/-- Changes one after the other name the samples of both. -/
theorem Marks.append {us vs : List CellUpdate} {s t : Multiset ℕ} (hus : Marks us s)
    (hvs : Marks vs t) : Marks (us ++ vs) (s + t) := by
  constructor
  · intro x
    rw [List.mem_append, hus.lowerLeast_mem_iff, hvs.lowerLeast_mem_iff, Multiset.mem_add,
      or_and_right]
  · intro x
    rw [List.mem_append, hus.raiseGreatest_mem_iff, hvs.raiseGreatest_mem_iff, Multiset.mem_add]

/-- Only which values there are counts. -/
theorem Marks.congr {us : List CellUpdate} {s t : Multiset ℕ} (hus : Marks us s)
    (hst : ∀ x, x ∈ s ↔ x ∈ t) : Marks us t :=
  ⟨fun x => by rw [hus.lowerLeast_mem_iff, hst], fun x => by rw [hus.raiseGreatest_mem_iff, hst]⟩

namespace Layout

variable {L : Layout} (hL : L.Shaped)
include hL

/-- Recording a covered value names that value, even if it is recorded no times. -/
theorem work_names {v : ℤ} (hv : L.Covers v) (n : ℕ) : Marks (L.work v n) {v.toNat} := by
  have hnonneg := hv.1
  rw [work, (recording_of_covers hL hv n).2]
  constructor
  · intro x
    by_cases hzero : v = 0
    · simp [hzero]
    · have hpos : v.toNat ≠ 0 := by omega
      have hnamed : x = v.toNat ↔ x = v.toNat ∧ x ≠ 0 :=
        ⟨fun heq => ⟨heq, heq ▸ hpos⟩, And.left⟩
      simpa [hzero] using hnamed
  · intro x
    by_cases hzero : v = 0 <;> simp [hzero]

/-- Recording some samples of a covered value names those samples. -/
theorem work_marks {v : ℤ} (hv : L.Covers v) {n : ℕ} (hn : n ≠ 0) :
    Marks (L.work v n) (Multiset.replicate n v.toNat) :=
  (work_names hL hv n).congr fun x => by simp [hn, Multiset.mem_replicate]

/-- Recording one sample of each of some covered values names those values. -/
theorem flatMap_work_marks {vs : List ℤ} (hvs : ∀ v ∈ vs, L.Covers v) :
    Marks (vs.flatMap (L.work · 1)) (vs.map Int.toNat : List ℕ) := by
  induction vs with
  | nil => exact Marks.nil
  | cons v vs ih =>
    obtain ⟨hv, hrest⟩ := List.forall_mem_cons.mp hvs
    exact (work_names hL hv 1).append (ih hrest)

end Layout

/-- Whether a recording has samples. -/
def Recording.Positive : Recording → Prop
  | plain _ n => n ≠ 0
  | corrected _ _ => True

instance (r : Recording) : Decidable r.Positive :=
  match r with
  | .plain _ n => inferInstanceAs (Decidable (n ≠ 0))
  | .corrected _ _ => inferInstanceAs (Decidable True)

namespace Recording

/-- The values that a recording names if nothing is refused: those of its samples, and of no samples
the value that they would have. -/
def values : Recording → Multiset ℕ
  | plain v _ => {v.toNat}
  | corrected v interval => ((v :: heldUp (v - interval) interval).map Int.toNat : List ℕ)

/-- The values that a recording with some outcome has recorded. -/
def acceptedValues (r : Recording) : Except RecordError Unit → Multiset ℕ
  | .ok () => r.values
  | .error _ => 0

/-- Of a recording that has samples, these are the values of the samples. -/
theorem mem_acceptedValues_iff {r : Recording} (hr : r.Positive)
    (outcome : Except RecordError Unit) (x : ℕ) :
    x ∈ r.acceptedValues outcome ↔ x ∈ r.accepted outcome := by
  rcases outcome with e | ⟨⟩
  · rfl
  · cases r with
    | plain v n =>
      have hn : n ≠ 0 := hr
      simp [acceptedValues, accepted, values, samples, hn, Multiset.mem_replicate]
    | corrected v interval => rfl

end Recording

section

variable {L : Layout} (hL : L.Shaped)
include hL

/-- A recording names the values that it has recorded. -/
theorem Recording.work_names (r : Recording) :
    Marks (r.work L) (r.acceptedValues (r.outcome L)) := by
  by_cases hv : L.Covers r.value
  · rw [(outcome_eq_ok_iff hL).mpr hv]
    cases r with
    | plain v n => exact Layout.work_names hL hv n
    | corrected v interval =>
      have hv : L.Covers v := hv
      rw [work_corrected hL hv]
      exact Layout.flatMap_work_marks hL fun w hw => (hv.of_mem_cons_heldUp hw).1
  · rcases houtcome : r.outcome L with e | ⟨⟩
    · rw [work_of_not_covers hL hv]
      exact Marks.nil
    · exact absurd ((outcome_eq_ok_iff hL).mp houtcome) hv

omit hL in
/-- Recordings name what each of them names. -/
theorem marks_flatMap {f : Recording → Except RecordError Unit → Multiset ℕ} {rs : List Recording}
    (hf : ∀ r ∈ rs, Marks (r.work L) (f r (r.outcome L))) :
    Marks (rs.flatMap (·.work L)) (List.zipWith f rs (rs.map (·.outcome L))).sum := by
  induction rs with
  | nil => exact Marks.nil
  | cons r rs ih =>
    obtain ⟨hr, hrest⟩ := List.forall_mem_cons.mp hf
    exact hr.append (ih hrest)

/-- Recordings of some samples name what they have recorded. -/
theorem flatMap_work_marks {rs : List Recording} (hrs : ∀ r ∈ rs, r.Positive) :
    Marks (rs.flatMap (·.work L)) (acceptedSamples rs (rs.map (·.outcome L))) :=
  marks_flatMap fun r hr =>
    (r.work_names hL).congr (Recording.mem_acceptedValues_iff (hrs r hr) _)

end

/-! ## The ends -/

namespace Histogram

variable {h : Histogram} {s t : Multiset ℕ}

/-- A value is at or below the least one after some changes if it was before and all values that
the changes name are at or above it. -/
theorem le_least_applyAll_iff (h : Histogram) (us : List CellUpdate) (v : ℕ) :
    v ≤ (h.applyAll us).least ↔ v ≤ h.least ∧ ∀ x, .lowerLeast x ∈ us → v ≤ x := by
  induction us generalizing h with
  | nil => simp [applyAll]
  | cons u us ih =>
    rw [applyAll, List.foldl_cons, ← applyAll, ih]
    cases u with
    | lowerLeast y =>
      have hmin : v ≤ (h.apply (.lowerLeast y)).least ↔ v ≤ h.least ∧ v ≤ y := Nat.le_min
      simp only [hmin, List.mem_cons, CellUpdate.lowerLeast.injEq, forall_eq_or_imp, and_assoc]
    | addToSlot | addToTotal | raiseGreatest => simp [Histogram.apply]

/-- A value is at or above the greatest one after some changes if it was before and all values that
the changes name are at or below it. -/
theorem greatest_applyAll_le_iff (h : Histogram) (us : List CellUpdate) (v : ℕ) :
    (h.applyAll us).greatest ≤ v ↔ h.greatest ≤ v ∧ ∀ x, .raiseGreatest x ∈ us → x ≤ v := by
  induction us generalizing h with
  | nil => simp [applyAll]
  | cons u us ih =>
    rw [applyAll, List.foldl_cons, ← applyAll, ih]
    cases u with
    | raiseGreatest y =>
      have hmax : (h.apply (.raiseGreatest y)).greatest ≤ v ↔ h.greatest ≤ v ∧ y ≤ v := Nat.max_le
      simp only [hmax, List.mem_cons, CellUpdate.raiseGreatest.injEq, forall_eq_or_imp, and_assoc]
    | addToSlot | addToTotal | lowerLeast => simp [Histogram.apply]

/-- The ends of a histogram are those of some samples: the least of them other than zero, `topValue`
if there is none, and the greatest, zero if there is none. -/
structure Spans (h : Histogram) (s : Multiset ℕ) : Prop where
  le_least_iff : ∀ v, v ≤ h.least ↔ v ≤ topValue ∧ ∀ x ∈ s, x ≠ 0 → v ≤ x
  greatest_le_iff : ∀ v, h.greatest ≤ v ↔ ∀ x ∈ s, x ≤ v

/-- A histogram without samples has the ends of none. -/
theorem ofLayout_spans_zero (L : Layout) (w : CounterWidth) : (ofLayout L w).Spans 0 := by
  constructor
  · intro v
    simp [ofLayout]
  · intro v
    simp [ofLayout]

/-- Only which values there are counts. -/
theorem Spans.congr (hspans : h.Spans s) (hst : ∀ x, x ∈ s ↔ x ∈ t) : h.Spans t := by
  constructor
  · simpa only [hst] using hspans.le_least_iff
  · simpa only [hst] using hspans.greatest_le_iff

/-- Changes extend the ends to the samples that they name. -/
theorem Spans.applyAll (hspans : h.Spans s) {us : List CellUpdate} (hus : Marks us t) :
    (h.applyAll us).Spans (s + t) := by
  constructor
  · intro v
    simp only [le_least_applyAll_iff, hspans.le_least_iff, hus.lowerLeast_mem_iff, and_imp,
      Multiset.mem_add, or_imp, forall_and, and_assoc]
  · intro v
    simp only [greatest_applyAll_le_iff, hspans.greatest_le_iff, hus.raiseGreatest_mem_iff,
      Multiset.mem_add, or_imp, forall_and]

/-- Changes to a histogram without samples leave the ends of the samples that they name. -/
theorem ofLayout_spans {us : List CellUpdate} (hus : Marks us s) (L : Layout) (w : CounterWidth) :
    ((ofLayout L w).applyAll us).Spans s := by
  have hspans := (ofLayout_spans_zero L w).applyAll hus
  rwa [zero_add] at hspans

namespace Spans

variable (hspans : h.Spans s)
include hspans

theorem least_le_topValue : h.least ≤ topValue := ((hspans.le_least_iff _).mp le_rfl).1

theorem least_le {x : ℕ} (hx : x ∈ s) (hne : x ≠ 0) : h.least ≤ x :=
  ((hspans.le_least_iff _).mp le_rfl).2 x hx hne

theorem le_greatest {x : ℕ} (hx : x ∈ s) : x ≤ h.greatest :=
  (hspans.greatest_le_iff _).mp le_rfl x hx

/-- The least value is one of the samples, unless all of them but zero are past it. -/
theorem least_mem (hlt : h.least < topValue) : h.least ∈ s ∧ h.least ≠ 0 := by
  -- Otherwise the next value would still be at or below all of them.
  by_contra hnot
  have hnext : h.least + 1 ≤ h.least := (hspans.le_least_iff _).mpr ⟨hlt, fun x hx hne => by
    have hle := hspans.least_le hx hne
    have hne' : h.least ≠ x := fun heq => hnot (heq ▸ ⟨hx, hne⟩)
    omega⟩
  omega

/-- The least value is not zero. -/
theorem least_ne_zero : h.least ≠ 0 := by
  rcases hspans.least_le_topValue.lt_or_eq with hlt | heq
  · exact (hspans.least_mem hlt).2
  · rw [heq]
    decide

/-- The greatest value reaches a value other than zero exactly if one of the samples does. -/
theorem le_greatest_iff {v : ℕ} (hv : 0 < v) : v ≤ h.greatest ↔ ∃ x ∈ s, v ≤ x := by
  constructor
  · intro hle
    by_contra hnone
    push Not at hnone
    have hbefore := (hspans.greatest_le_iff (v - 1)).mpr fun x hx =>
      Nat.le_sub_one_of_lt (hnone x hx)
    omega
  · rintro ⟨x, hx, hle⟩
    exact hle.trans (hspans.le_greatest hx)

/-- The greatest value is one of the samples, unless it is zero. -/
theorem greatest_mem (hne : h.greatest ≠ 0) : h.greatest ∈ s := by
  obtain ⟨x, hx, hle⟩ := (hspans.le_greatest_iff (Nat.pos_of_ne_zero hne)).mp le_rfl
  rwa [le_antisymm hle (hspans.le_greatest hx)]

end Spans

end Histogram

end DynamicRange
