import DynamicRange.Proofs.Histogram.Extremes
import DynamicRange.Proofs.Layout.Agreement

/-!
# The ends that are reported

A histogram does not report the least and the greatest value that changes named, but the lowest
value equivalent to the one and the highest equivalent to the other, and two values of its own where
there is none to report: `topValue` for the least and zero for the greatest. Both of these can be
recorded as well. `recordAll_tracks` says that the ends are right to within the resolution of the
layout nevertheless, after any recordings, made or refused and of however many samples.

The two values that stand for none do no harm. Where `topValue` is the least value named, it is
reported as it is, and where zero is the greatest, nothing else was recorded. So the ends named are
the least and the greatest value recorded (`Spans.isLeast_least`, `Spans.isGreatest_greatest`), and
what is reported is equivalent to them (`equivalent_min`, `equivalent_max`).
-/

namespace DynamicRange

/-- The values that recordings with some outcomes have recorded. -/
def recordedValues (rs : List Recording) (outcomes : List (Except RecordError Unit)) :
    Multiset ℕ :=
  (List.zipWith Recording.acceptedValues rs outcomes).sum

/-- The samples of a recording are among the values that it names. -/
theorem Recording.mem_acceptedValues_of_mem_accepted {r : Recording}
    {outcome : Except RecordError Unit} {x : ℕ} (hx : x ∈ r.accepted outcome) :
    x ∈ r.acceptedValues outcome := by
  rcases outcome with e | ⟨⟩
  · exact hx
  · cases r with
    | plain v n => exact Multiset.mem_singleton.mpr (Multiset.eq_of_mem_replicate hx)
    | corrected v interval => exact hx

/-- What a recording has recorded is not above the value that was measured. -/
theorem Recording.le_value_of_mem_acceptedValues {L : Layout} (hL : L.Shaped) (r : Recording)
    {x : ℕ} (hx : x ∈ r.acceptedValues (r.outcome L)) : x ≤ r.value := by
  rcases houtcome : r.outcome L with e | ⟨⟩
  · rw [houtcome] at hx
    exact absurd hx (Multiset.notMem_zero x)
  · have hv : L.Covers r.value := (outcome_eq_ok_iff hL).mp houtcome
    rw [houtcome] at hx
    cases r with
    | plain v n =>
      rw [Multiset.mem_singleton.mp hx]
      exact (Int.toNat_of_nonneg hv.1).le
    | corrected v interval =>
      obtain ⟨w, hw, rfl⟩ := List.mem_map.mp (Multiset.mem_coe.mp hx)
      obtain ⟨hcovered, hle⟩ := hv.of_mem_cons_heldUp hw
      exact (Int.toNat_of_nonneg hcovered.1).trans_le hle

/-- Recordings of values record values. -/
theorem le_topValue_of_mem_recordedValues {L : Layout} (hL : L.Shaped) {rs : List Recording}
    (hvalues : ∀ r ∈ rs, r.value ≤ topValue) {x : ℕ}
    (hx : x ∈ recordedValues rs (rs.map (·.outcome L))) : x ≤ topValue := by
  obtain ⟨r, hr, hnamed⟩ := mem_sum_zipWith_iff.mp hx
  exact Int.ofNat_le.mp ((r.le_value_of_mem_acceptedValues hL hnamed).trans (hvalues r hr))

/-- So the samples that they have recorded are values. -/
theorem le_topValue_of_mem_acceptedSamples {L : Layout} (hL : L.Shaped) {rs : List Recording}
    (hvalues : ∀ r ∈ rs, r.value ≤ topValue) {x : ℕ}
    (hx : x ∈ acceptedSamples rs (rs.map (·.outcome L))) : x ≤ topValue := by
  obtain ⟨r, hr, hsample⟩ := mem_sum_zipWith_iff.mp hx
  exact le_topValue_of_mem_recordedValues hL hvalues
    (mem_sum_zipWith_iff.mpr ⟨r, hr, Recording.mem_acceptedValues_of_mem_accepted hsample⟩)

namespace Histogram

variable {h : Histogram} {s : Multiset ℕ}

/-! ## What is reported of the ends -/

/-- The least value is reported as one that is not above it and equivalent to it. -/
theorem equivalent_min (hL : h.layout.Shaped) (hle : h.least ≤ topValue) :
    h.min ≤ h.least ∧ h.layout.equivalent h.min h.least := by
  have hreported : h.min = h.least ∨ h.min = h.layout.lowestEquivalent h.least := by
    rw [min]
    split <;> simp
  have hlow := Layout.lowestEquivalent_le hL hle
  rcases hreported with heq | heq
  · exact ⟨heq.le, by rw [heq, Layout.equivalent, beq_iff_eq]⟩
  · rw [heq, Layout.equivalent, beq_iff_eq, Layout.lowestEquivalent_idem hL hle]
    exact ⟨hlow, rfl⟩

/-- The greatest value is reported as one that is not below it and equivalent to it. -/
theorem equivalent_max (hL : h.layout.Precise) (hle : h.greatest ≤ topValue) :
    h.greatest ≤ h.max ∧ h.layout.equivalent h.max h.greatest := by
  have hvalue : (h.greatest : ℤ) ≤ topValue := Int.ofNat_le.mpr hle
  obtain ⟨-, hhigh, htop⟩ := Layout.mem_range hL hvalue
  rw [Int.toNat_natCast] at hhigh
  rw [max]
  split
  · next hzero => exact ⟨hzero.le, by rw [hzero]; exact beq_self_eq_true _⟩
  · refine ⟨hhigh, (Layout.equivalent_iff hL.toShaped (Int.ofNat_le.mpr htop) hvalue).mpr ?_⟩
    exact Layout.indexFor_highestEquivalent hL hvalue

namespace Spans

variable (hspans : h.Spans s)
include hspans

/-- Without values other than zero there is no least value to report. -/
theorem min_of_zeros (hzeros : ∀ x ∈ s, x = 0) : h.min = topValue := by
  have hleast : h.least = topValue := le_antisymm hspans.least_le_topValue
    ((hspans.le_least_iff _).mpr ⟨le_rfl, fun x hx hne => absurd (hzeros x hx) hne⟩)
  rw [min, if_pos hleast, hleast]

/-- Without values other than zero the greatest value is zero. -/
theorem greatest_of_zeros (hzeros : ∀ x ∈ s, x = 0) : h.greatest = 0 :=
  Nat.le_zero.mp ((hspans.greatest_le_iff 0).mpr fun x hx => (hzeros x hx).le)

/-- So there is no greatest value to report. -/
theorem max_of_zeros (hzeros : ∀ x ∈ s, x = 0) : h.max = 0 :=
  if_pos (hspans.greatest_of_zeros hzeros)

/-- If there are values other than zero, the least value is the least of them. -/
theorem isLeast_least (hs : ∀ x ∈ s, x ≤ topValue) (hsome : ∃ x ∈ s, x ≠ 0) :
    IsLeast {x | x ∈ s ∧ x ≠ 0} h.least := by
  refine ⟨?_, fun x hx => hspans.least_le hx.1 hx.2⟩
  rcases hspans.least_le_topValue.lt_or_eq with hlt | htop
  · exact hspans.least_mem hlt
  · -- All values other than zero are `topValue`.
    obtain ⟨x, hx, hne⟩ := hsome
    have hle := hspans.least_le hx hne
    have heq : h.least = x := le_antisymm hle ((hs x hx).trans htop.ge)
    exact heq ▸ ⟨hx, hne⟩

/-- If there are values, the greatest value is the greatest of them. -/
theorem isGreatest_greatest (hne : s ≠ 0) : IsGreatest {x | x ∈ s} h.greatest := by
  refine ⟨?_, fun x hx => hspans.le_greatest hx⟩
  by_cases hzero : h.greatest = 0
  · -- All values are zero.
    obtain ⟨x, hx⟩ := Multiset.exists_mem_of_ne_zero hne
    have heq : x = h.greatest := le_antisymm (hspans.le_greatest hx) (hzero ▸ Nat.zero_le x)
    exact heq ▸ hx
  · exact hspans.greatest_mem hzero

end Spans

/-! ## Reported ends follow the values -/

/-- The ends that a histogram reports are those of some values, to within the resolution of its
layout. -/
structure Tracks (h : Histogram) (s : Multiset ℕ) : Prop where
  /-- The least value reported is not above any value other than zero. -/
  min_le : ∀ x ∈ s, x ≠ 0 → h.min ≤ x
  /-- It is equivalent to the least of them, if there are some. -/
  min_equivalent : (∃ x ∈ s, x ≠ 0) →
    ∃ x, IsLeast {x | x ∈ s ∧ x ≠ 0} x ∧ h.layout.equivalent h.min x
  /-- It is `topValue` if there are none. -/
  min_of_zeros : (∀ x ∈ s, x = 0) → h.min = topValue
  /-- The greatest value reported is not below any value. -/
  le_max : ∀ x ∈ s, x ≤ h.max
  /-- It is equivalent to the greatest of them, if there are some. -/
  max_equivalent : s ≠ 0 → ∃ x, IsGreatest {x | x ∈ s} x ∧ h.layout.equivalent h.max x
  /-- It is zero if there are none other than zero. -/
  max_of_zeros : (∀ x ∈ s, x = 0) → h.max = 0

/-- A histogram that has the ends of some values reports them to within its resolution. -/
theorem Spans.tracks (hspans : h.Spans s) (hL : h.layout.Precise) (hs : ∀ x ∈ s, x ≤ topValue) :
    h.Tracks s := by
  have hgreatest : h.greatest ≤ topValue := (hspans.greatest_le_iff _).mpr hs
  obtain ⟨hmin_le, hmin⟩ := equivalent_min hL.toShaped hspans.least_le_topValue
  obtain ⟨hle_max, hmax⟩ := equivalent_max hL hgreatest
  exact {
    min_le := fun x hx hne => hmin_le.trans (hspans.least_le hx hne)
    min_equivalent := fun hsome => ⟨h.least, hspans.isLeast_least hs hsome, hmin⟩
    min_of_zeros := hspans.min_of_zeros
    le_max := fun x hx => (hspans.le_greatest hx).trans hle_max
    max_equivalent := fun hne => ⟨h.greatest, hspans.isGreatest_greatest hne, hmax⟩
    max_of_zeros := hspans.max_of_zeros }

/-- After any recordings of values into an empty histogram of an accepted layout, those of no
samples and those that are refused among them, the ends that the histogram reports are those of the
values recorded, to within its resolution. -/
theorem recordAll_tracks {b : Bounds} {L : Layout} (hbounds : Layout.ofBounds b = .ok L)
    (w : CounterWidth) (rs : List Recording) (hvalues : ∀ r ∈ rs, r.value ≤ topValue) :
    ((ofLayout L w).recordAll rs).1.Tracks
      (recordedValues rs ((ofLayout L w).recordAll rs).2) := by
  have hL := Layout.ofBounds_precise hbounds
  have hspans : ((ofLayout L w).applyAll (rs.flatMap (·.work L))).Spans
      (recordedValues rs (rs.map (·.outcome L))) :=
    ofLayout_spans (marks_flatMap fun r _ => r.work_names hL.toShaped) L w
  have hframed := (ofLayout_framed L w).applyAll (rs.flatMap (·.work L))
  rw [recordAll_eq]
  refine hspans.tracks ?_ fun x => le_topValue_of_mem_recordedValues hL.toShaped hvalues
  rw [hframed.layout]
  exact hL

/-- In units of two, a sample of 51 that was expected every 20, two of zero, none of 900 and one
that is refused: the ends are those of 31 and of 900, which has no sample. -/
theorem recorded_tracks :
    Layout.ofBounds ⟨2, 1000, 1⟩ = .ok ⟨⟨2, 1000, 1⟩, 1, 4, 32, 16, 62, 6, 112⟩ ∧
      let rs : List Recording := [.corrected 51 20, .plain 0 2, .plain 900 0, .plain 5000 1]
      let run := (ofLayout ⟨⟨2, 1000, 1⟩, 1, 4, 32, 16, 62, 6, 112⟩ .bits8).recordAll rs
      run.1.Tracks (recordedValues rs run.2) ∧ recordedValues rs run.2 = {51, 31, 0, 900} ∧
        run.1.min = 30 ∧ run.1.max = 927 := by
  have hbounds : Layout.ofBounds ⟨2, 1000, 1⟩ =
      .ok ⟨⟨2, 1000, 1⟩, 1, 4, 32, 16, 62, 6, 112⟩ := by decide +kernel
  exact ⟨hbounds, recordAll_tracks hbounds .bits8
    [.corrected 51 20, .plain 0 2, .plain 900 0, .plain 5000 1] (by decide),
    by decide +kernel, by decide +kernel, by decide +kernel⟩

end Histogram

end DynamicRange
