import DynamicRange.Histogram.Recount
import DynamicRange.Proofs.Histogram.Reproduction
import DynamicRange.Proofs.Traversal.Search

/-!
# Recounts of samples

A recount finds the number of samples and their ends again from the slots alone. The number of
samples is the same as before. The ends are what the slots tell of them. The least value is that of
a merge into an empty histogram (`Consistent.least_recount`), for which the slot of zero holds
nothing but zeros. The greatest value is the highest of the last slot (`Counts.max_recount`), even
if that is the slot of zero.

So the least value is reported as before exactly if the samples are reproducible, as after a merge.
The greatest one is reported as before unless there are samples and all of them are zero: then the
highest value of their slot is reported, which is above zero except in units of one.
`recount_recounted` says so of every histogram that recordings lead to.
-/

namespace DynamicRange.Histogram

variable {h : Histogram} {s : Multiset ℕ}

/-! ## The first and the last slot that is not empty -/

/-- What is found among some indices is the first whose slot is not empty. -/
theorem isLeast_of_firstRecorded? {start n i : ℕ} (hfound : h.firstRecorded? start n = some i) :
    IsLeast {j | start ≤ j ∧ j < start + n ∧ h.count j ≠ 0} i := by
  fun_induction firstRecorded? h start n with
  | case1 => cases hfound
  | case2 start n hrecorded =>
    cases hfound
    exact ⟨⟨le_rfl, by omega, hrecorded⟩, fun j hj => hj.1⟩
  | case3 start n hempty ih =>
    obtain ⟨⟨hlow, hhigh, hrecorded⟩, hleast⟩ := ih hfound
    refine ⟨⟨by omega, by omega, hrecorded⟩, ?_⟩
    rintro j ⟨hj, hj_lt, hj_ne⟩
    have hne : j ≠ start := fun heq => hempty (heq ▸ hj_ne)
    exact hleast ⟨by omega, by omega, hj_ne⟩

/-- If nothing is found among some indices, all of their slots are empty. -/
theorem count_eq_zero_of_firstRecorded? {start n i : ℕ} (hnone : h.firstRecorded? start n = none)
    (hlow : start ≤ i) (hhigh : i < start + n) : h.count i = 0 := by
  fun_induction firstRecorded? h start n with
  | case1 => omega
  | case2 => cases hnone
  | case3 start n hempty ih =>
    rcases hlow.eq_or_lt with rfl | hlt
    · exact not_not.mp hempty
    · exact ih hnone hlt (by omega)

/-- What is found below a bound is the last index whose slot is not empty. -/
theorem isGreatest_of_lastRecorded? {n i : ℕ} (hfound : h.lastRecorded? n = some i) :
    IsGreatest {j | j < n ∧ h.count j ≠ 0} i := by
  fun_induction lastRecorded? h n with
  | case1 => cases hfound
  | case2 n hrecorded =>
    cases hfound
    exact ⟨⟨by omega, hrecorded⟩, fun j hj => Nat.le_of_lt_succ hj.1⟩
  | case3 n hempty ih =>
    obtain ⟨⟨hlt, hrecorded⟩, hgreatest⟩ := ih hfound
    refine ⟨⟨by omega, hrecorded⟩, ?_⟩
    rintro j ⟨hj_lt, hj_ne⟩
    have hne : j ≠ n := fun heq => hempty (heq ▸ hj_ne)
    exact hgreatest ⟨by omega, hj_ne⟩

/-- If nothing is found below a bound, all slots are empty. -/
theorem count_eq_zero_of_lastRecorded? {n i : ℕ} (hnone : h.lastRecorded? n = none) (hi : i < n) :
    h.count i = 0 := by
  fun_induction lastRecorded? h n with
  | case1 => omega
  | case2 => cases hnone
  | case3 n hempty ih =>
    rcases (Nat.le_of_lt_succ hi).eq_or_lt with rfl | hlt
    · exact not_not.mp hempty
    · exact ih hnone hlt

/-! ## What a recount finds -/

/-- The greatest value that a recount finds is the highest of the last slot that is not empty. -/
theorem greatest_recount (h : Histogram) :
    h.recount.greatest = (h.lastRecorded? h.size).elim 0 h.layout.highestOfIndex := rfl

/-- A recount keeps the layout. -/
theorem layout_recount (h : Histogram) : h.recount.layout = h.layout := rfl

/-- If the slots come to the total, a recount finds the same number of samples. -/
theorem Exact.total_recount (hexact : h.Exact) (hh : h.Consistent) :
    h.recount.total = h.total := by
  have htotal : h.recount.total = h.countIn 0 h.size := rfl
  rw [htotal, size, hh.size, hexact.covered.countIn_eq_sum le_rfl hh, ← hexact]

/-- A value is at or below the least one that a recount finds if it is at or below the lowest
values of all slots that are not empty, zero apart. -/
theorem Consistent.le_least_recount_iff (hh : h.Consistent) (v : ℕ) :
    v ≤ h.recount.least ↔ v ≤ topValue ∧ ∀ x ∈ h.lowestSamples, x ≠ 0 → v ≤ x := by
  have hleast : h.recount.least =
      (h.firstRecorded? 1 (h.layout.slotCount - 1)).elim topValue h.layout.lowestOfIndex := by
    rw [← hh.size]
    rfl
  rw [hleast]
  rcases hfound : h.firstRecorded? 1 (h.layout.slotCount - 1) with _ | i
  · -- No slot but the first can hold samples, and it starts at zero.
    refine (and_iff_left fun x hx hne => ?_).symm
    obtain ⟨j, hj, hrecorded, rfl⟩ := mem_lowestSamples.mp hx
    rw [ne_eq, hh.lowestOfIndex_eq_zero_iff hj hrecorded] at hne
    exact absurd (count_eq_zero_of_firstRecorded? hfound (by omega) (by omega)) hrecorded
  · obtain ⟨⟨hlow, hhigh, hrecorded⟩, hfirst⟩ := isLeast_of_firstRecorded? hfound
    have hi : i < h.layout.slotCount := by omega
    constructor
    · intro hle
      refine ⟨hle.trans (Int.ofNat_le.mp (h.layout.lowestOfIndex_le i)), fun x hx hne => ?_⟩
      obtain ⟨j, hj, hrecorded_j, rfl⟩ := mem_lowestSamples.mp hx
      rw [ne_eq, hh.lowestOfIndex_eq_zero_iff hj hrecorded_j] at hne
      have hij : i ≤ j := hfirst ⟨by omega, by omega, hrecorded_j⟩
      rw [← hh.indexFor_lowestOfIndex hj hrecorded_j] at hij
      exact hle.trans ((hh.lowestOfIndex_le_iff hi hrecorded _).mpr hij)
    · rintro ⟨-, hall⟩
      have hne : h.layout.lowestOfIndex i ≠ 0 := by
        rw [ne_eq, hh.lowestOfIndex_eq_zero_iff hi hrecorded]
        omega
      exact hall _ (mem_lowestSamples.mpr ⟨i, hi, hrecorded, rfl⟩) hne

/-- A recount finds the same least value as a merge into an empty histogram that is laid out
alike. -/
theorem Consistent.least_recount (hh : h.Consistent) (hcovered : h.Covered) :
    h.recount.least = ((h.emptyLike h.width).merge h).1.least :=
  eq_of_forall_le_iff fun v => by
    rw [hh.le_least_recount_iff, (hh.merge_emptyLike_spans hcovered).le_least_iff]

/-- A reachable histogram that counts some samples, none of them lost, and has their ends. -/
structure Counts (h : Histogram) (s : Multiset ℕ) : Prop where
  /-- Operations lead to it. -/
  reachable : h.Reachable
  /-- Every tally holds what the samples add to it. -/
  held : ∀ t, h.held t = h.layout.tally s t
  /-- The samples are values that have slots. -/
  mem : ∀ x ∈ s, h.layout.indexFor x < h.layout.slotCount ∧ x ≤ topValue
  /-- The ends are those of the samples. -/
  spans : h.Spans s

namespace Counts

variable (hcounts : h.Counts s)
include hcounts

/-- The slots come to the total. -/
theorem exact : h.Exact := by
  have hsum := Layout.sum_tally fun x hx => (hcounts.mem x hx).1
  simp only [← hcounts.held] at hsum
  exact hsum.symm

/-- The last slot that is not empty is that of the greatest sample. -/
theorem lastRecorded?_size (hne : s ≠ 0) :
    h.lastRecorded? h.size = some (h.layout.indexFor h.greatest) := by
  have hconsistent := hcounts.reachable.consistent
  have hsize : h.size = h.layout.slotCount := hconsistent.size
  obtain ⟨hmem, hupper⟩ := hcounts.spans.isGreatest_greatest hne
  have hslot := (hcounts.mem _ hmem).1
  have hrecorded := (count_ne_zero_iff hcounts.held hslot).mpr ⟨_, hmem, rfl⟩
  rw [hsize]
  rcases hfound : h.lastRecorded? h.layout.slotCount with _ | i
  · exact absurd (count_eq_zero_of_lastRecorded? hfound hslot) hrecorded
  · obtain ⟨⟨hi, hrecorded_i⟩, hlast⟩ := isGreatest_of_lastRecorded? hfound
    obtain ⟨x, hx, rfl⟩ := (count_ne_zero_iff hcounts.held hi).mp hrecorded_i
    exact congrArg some
      (le_antisymm (Layout.indexFor_mono hconsistent.shaped (hupper hx)) (hlast ⟨hslot, hrecorded⟩))

/-- If there are samples, a recount finds the highest value equivalent to the greatest of them, and
reports it as it is. -/
theorem max_recount (hne : s ≠ 0) : h.recount.max = h.layout.highestEquivalent h.greatest := by
  have hprecise := hcounts.reachable.consistent.precise
  have htop := (hcounts.mem _ (hcounts.spans.isGreatest_greatest hne).1).2
  have hgreatest : h.recount.greatest = h.layout.highestEquivalent h.greatest := by
    rw [greatest_recount, hcounts.lastRecorded?_size hne, Option.elim_some, Layout.highestOfIndex,
      Layout.lowestOfIndex_indexFor hprecise.toShaped htop,
      Layout.highestEquivalent_lowestEquivalent hprecise htop]
  rw [max, hgreatest, layout_recount]
  split
  · next hzero => exact hzero.symm
  · exact Layout.highestEquivalent_idem hprecise (Int.ofNat_le.mpr htop)

/-- If there are no samples, a recount reports no greatest value. -/
theorem max_recount_of_eq_zero (hempty : s = 0) : h.recount.max = 0 := by
  have hsize : h.size = h.layout.slotCount := hcounts.reachable.consistent.size
  have hnone : h.recount.greatest = 0 := by
    rw [greatest_recount, hsize]
    rcases hfound : h.lastRecorded? h.layout.slotCount with _ | i
    · rfl
    · obtain ⟨hi, hrecorded⟩ := (isGreatest_of_lastRecorded? hfound).1
      obtain ⟨x, hx, -⟩ := (count_ne_zero_iff hcounts.held hi).mp hrecorded
      exact absurd (hempty ▸ hx) (Multiset.notMem_zero x)
  exact if_pos hnone

/-- The greatest value is reported as before unless there are samples, all of them are zero, and
zero shares its slot with other values. -/
theorem max_recount_eq_iff : h.recount.max = h.max ↔
    s = 0 ∨ h.layout.unitMagnitude = 0 ∨ ∃ x ∈ s, x ≠ 0 := by
  by_cases hempty : s = 0
  · have hzeros : ∀ x ∈ s, x = 0 := fun x hx => absurd (hempty ▸ hx) (Multiset.notMem_zero x)
    rw [hcounts.max_recount_of_eq_zero hempty, hcounts.spans.max_of_zeros hzeros]
    exact iff_of_true rfl (.inl hempty)
  · rw [hcounts.max_recount hempty, or_iff_right hempty]
    by_cases hsome : ∃ x ∈ s, x ≠ 0
    · obtain ⟨x, hx, hne⟩ := hsome
      have hle := hcounts.spans.le_greatest hx
      rw [max, if_neg (by omega)]
      exact iff_of_true rfl (.inr ⟨x, hx, hne⟩)
    · have hzeros : ∀ x ∈ s, x = 0 := by
        push Not at hsome
        exact hsome
      have hfirst := Layout.highestEquivalent_zero hcounts.reachable.consistent.precise
      rw [hcounts.spans.max_of_zeros hzeros, hcounts.spans.greatest_of_zeros hzeros,
        or_iff_left hsome]
      -- The first range is zero alone exactly if the unit is one.
      rcases h.layout.unitMagnitude.eq_zero_or_pos with hunit | hunit
      · rw [hunit, pow_zero] at hfirst
        exact iff_of_true (by omega) hunit
      · have hwide := Nat.one_lt_two_pow hunit.ne'
        exact iff_of_false (by omega) hunit.ne'

/-- The least value is reported as before exactly if the samples are reproducible. -/
theorem min_recount_eq_iff : h.recount.min = h.min ↔ h.layout.Reproducible s := by
  have hconsistent := hcounts.reachable.consistent
  have hmerged : ((h.emptyLike h.width).merge h).1.layout = h.layout :=
    ((ofLayout_framed _ _).merge h).layout
  have hmin : h.recount.min = ((h.emptyLike h.width).merge h).1.min := by
    rw [min, min, hconsistent.least_recount hcounts.exact.covered, layout_recount, hmerged]
  have hreproduced :=
    hcounts.reachable.reproduced hconsistent.precise hcounts.held hcounts.mem hcounts.spans
  rw [hmin, hreproduced.min_eq_iff]

end Counts

/-! ## Recounts after recordings -/

/-- What comes of recounting a histogram that has some samples. -/
structure Recounted (s : Multiset ℕ) (h recounted : Histogram) : Prop where
  /-- The totals agree. -/
  total : recounted.total = h.total
  /-- The slots agree. -/
  slots : recounted.slots = h.slots
  /-- The greatest values agree unless there are samples, all of them are zero, and zero shares its
  slot with other values. -/
  max_eq_iff : recounted.max = h.max ↔
    s = 0 ∨ h.layout.unitMagnitude = 0 ∨ ∃ x ∈ s, x ≠ 0
  /-- The least values agree exactly if the samples are reproducible. -/
  min_eq_iff : recounted.min = h.min ↔ h.layout.Reproducible s
  /-- So the two are equal exactly if both is the case. -/
  beq_iff : (recounted == h) = true ↔
    (s = 0 ∨ h.layout.unitMagnitude = 0 ∨ ∃ x ∈ s, x ≠ 0) ∧ h.layout.Reproducible s

/-- A histogram that counts some samples is recounted as far as said. -/
theorem Counts.recounted (hcounts : h.Counts s) : Recounted s h h.recount := by
  have htotal := hcounts.exact.total_recount hcounts.reachable.consistent
  have hmax := hcounts.max_recount_eq_iff
  have hmin := hcounts.min_recount_eq_iff
  refine ⟨htotal, rfl, hmax, hmin, ?_⟩
  have hslots : h.recount.slots = h.slots := rfl
  rw [beq_eq_true_iff, hmax, hmin, and_iff_right h.layout_recount, and_iff_right htotal,
    and_iff_left hslots]

/-- After recordings of values, each of some samples, into an empty histogram of an accepted layout,
the histogram counts the samples that were recorded, if no slot and not the total had to count more
of them than it can. -/
theorem recordAll_counts {b : Bounds} {L : Layout} (hbounds : Layout.ofBounds b = .ok L)
    (w : CounterWidth) {rs : List Recording} (hvalues : ∀ r ∈ rs, r.value ≤ topValue)
    (hpositive : ∀ r ∈ rs, r.Positive)
    (hslots : ∀ i, ((acceptedSamples rs ((ofLayout L w).recordAll rs).2).countP
      fun x => L.slotOf? x = some i) < 2 ^ w.bits)
    (htotal : (acceptedSamples rs ((ofLayout L w).recordAll rs).2).card < 2 ^ 64) :
    ((ofLayout L w).recordAll rs).1.Counts
      (acceptedSamples rs ((ofLayout L w).recordAll rs).2) := by
  have hL := (Layout.ofBounds_precise hbounds).toShaped
  have hreachable := (Reachable.ofLayout hbounds w).recordAll hvalues
  have hmod := held_recordAll hL w rs
  have hrun : (ofLayout L w).recordAll rs =
      ((ofLayout L w).applyAll (rs.flatMap (·.work L)), rs.map (·.outcome L)) :=
    recordAll_eq ..
  obtain ⟨hlayout, hwidth, -⟩ := (ofLayout_framed L w).applyAll (rs.flatMap (·.work L))
  rw [hrun] at hreachable hmod hslots htotal ⊢
  refine ⟨hreachable, fun t => ?_, fun x hx => ?_,
    ofLayout_spans (flatMap_work_marks hL hpositive) L w⟩
  · -- Neither side reaches what the tally can hold, so congruence is equality.
    have hbounded := hreachable.consistent.bounded t
    rw [hwidth] at hbounded
    rw [hlayout]
    refine (hmod t).eq_of_lt_of_lt hbounded ?_
    cases t with
    | slot i => exact (hslots i).trans_eq w.two_pow_bits
    | total => exact htotal
  · rw [hlayout]
    exact ⟨indexFor_of_mem_acceptedSamples hL hx, le_topValue_of_mem_acceptedSamples hL hvalues hx⟩

/-- After any recordings of values, each of some samples, into an empty histogram of an accepted
layout, a recount leaves the number of samples as it was, if no slot and not the total had to count
more samples than it can; and it leaves each of the ends as it was exactly in the cases named. -/
theorem recount_recounted {b : Bounds} {L : Layout} (hbounds : Layout.ofBounds b = .ok L)
    (w : CounterWidth) (rs : List Recording) (hvalues : ∀ r ∈ rs, r.value ≤ topValue)
    (hpositive : ∀ r ∈ rs, r.Positive) (h : Histogram) (s : Multiset ℕ)
    (hrun : h = ((ofLayout L w).recordAll rs).1)
    (hrecorded : s = acceptedSamples rs ((ofLayout L w).recordAll rs).2)
    (hslots : ∀ i, (s.countP fun x => L.slotOf? x = some i) < 2 ^ w.bits)
    (htotal : s.card < 2 ^ 64) : Recounted s h h.recount := by
  subst hrun hrecorded
  exact (recordAll_counts hbounds w hvalues hpositive hslots htotal).recounted

/-- Recordings in units of two, of which the last is refused, into a histogram that a recount leaves
as it was. -/
theorem twos_recounted :
    Layout.ofBounds ⟨2, 1000, 1⟩ = .ok ⟨⟨2, 1000, 1⟩, 1, 4, 32, 16, 62, 6, 112⟩ ∧
      let h := (recordAll (ofLayout ⟨⟨2, 1000, 1⟩, 1, 4, 32, 16, 62, 6, 112⟩ .bits8)
        [.corrected 50 20, .plain 0 2, .plain 900 1, .plain 5000 1]).1
      Recounted {50, 30, 0, 0, 900} h h.recount ∧ (h.recount == h) = true := by
  have hbounds : Layout.ofBounds ⟨2, 1000, 1⟩ =
      .ok ⟨⟨2, 1000, 1⟩, 1, 4, 32, 16, 62, 6, 112⟩ := by decide +kernel
  refine ⟨hbounds, recount_recounted hbounds .bits8
    [.corrected 50 20, .plain 0 2, .plain 900 1, .plain 5000 1] (by decide) (by decide) _ _ rfl
    (by decide +kernel) (fun i => ?_) (by decide), by decide +kernel⟩
  exact (Multiset.countP_le_card _ _).trans_lt (by decide)

/-- In units of two a sample of 1 loses its least value and a sample of 0 gains a greatest one, and
in the widest units that there are a sample of `topValue` gains a least one. -/
theorem recount_ne :
    (let empty := ofLayout ⟨⟨2, 4, 1⟩, 1, 4, 32, 16, 62, 1, 32⟩ .bits64
      let one := (empty.record 1 1).1
      let zero := (empty.record 0 1).1
      Layout.ofBounds ⟨2, 4, 1⟩ = .ok empty.layout ∧
        (empty.record 1 1).2 = .ok () ∧ one.min = 0 ∧ one.recount.min = topValue ∧
        (empty.record 0 1).2 = .ok () ∧ zero.max = 0 ∧ zero.recount.max = 1) ∧
    (let empty := ofLayout ⟨⟨2 ^ 58, 2 ^ 59, 1⟩, 58, 4, 32, 16, 31 * 2 ^ 58, 1, 32⟩ .bits64
      let h := (empty.record topValue 1).1
      Layout.ofBounds ⟨2 ^ 58, 2 ^ 59, 1⟩ = .ok empty.layout ∧
        (empty.record topValue 1).2 = .ok () ∧ h.min = topValue ∧
        h.recount.min = 31 * 2 ^ 58) := by
  decide +kernel

end DynamicRange.Histogram
