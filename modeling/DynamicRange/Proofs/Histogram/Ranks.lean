import DynamicRange.Histogram.Statistics
import DynamicRange.Proofs.Histogram.Samples
import DynamicRange.Proofs.Traversal.Search
import DynamicRange.Proofs.Traversal.Steps

/-!
# Values at ranks

The value at a rank is the highest value of the first slot up to which that many samples are
counted (`valueAtRank_spec`), so at least that many samples are at or below it, and fewer are
below its range (`countP_valueAtRank`). Which samples these are the histogram does not
know, and the theorems speak of all samples that it may stand for. That there are some is
`standsFor_lowestSamples`.

`valueAtPercentile_rank` states this for percentiles. It takes their ranks as they are computed.
-/

namespace DynamicRange

/-- What a tally is to count of samples that are put together. -/
theorem Layout.tally_sum (L : Layout) (f : ℕ → Multiset ℕ) (n : ℕ) (t : Tally) :
    L.tally (∑ i ∈ Finset.range n, f i) t = ∑ i ∈ Finset.range n, L.tally (f i) t := by
  induction n with
  | zero => exact L.tally_zero t
  | succ n ih => rw [Finset.sum_range_succ, tally_add, ih, Finset.sum_range_succ]

namespace Histogram

variable {h : Histogram}

/-! ## Samples by the indices of their slots -/

/-- The count of a slot is the number of samples that have its index. -/
theorem StandsFor.count_eq {s : Multiset ℕ} (hs : h.StandsFor s) {i : ℕ}
    (hi : i < h.layout.slotCount) : h.count i = s.countP (h.layout.indexFor · = i) := by
  have hslot := hs.count? i
  rw [if_pos hi] at hslot
  rw [← Layout.tally_slot hi, count, Array.getD_eq_getD_getElem?]
  exact congrArg (·.getD 0) hslot

/-- The samples that a histogram stands for fill the first slots by their indices. -/
theorem StandsFor.countP_indexFor_lt {s : Multiset ℕ} (hs : h.StandsFor s) {n : ℕ}
    (hn : n ≤ h.layout.slotCount) :
    s.countP (h.layout.indexFor · < n) = ∑ i ∈ Finset.range n, h.count i := by
  rw [Finset.sum_congr rfl fun i hi => hs.count_eq ((Finset.mem_range.mp hi).trans_le hn),
    Finset.range_eq_Ico, sum_countP_eq]
  simp

/-- If all samples are of one value, the slots that hold samples are its slot. -/
theorem StandsFor.indexFor_of_replicate {n v : ℕ} (hs : h.StandsFor (.replicate n v)) {i : ℕ}
    (hi : i < h.layout.slotCount) (hrecorded : h.count i ≠ 0) : h.layout.indexFor v = i := by
  rw [hs.count_eq hi] at hrecorded
  obtain ⟨x, hx, hindex⟩ := Multiset.countP_pos.mp (Nat.pos_of_ne_zero hrecorded)
  rwa [Multiset.eq_of_mem_replicate hx] at hindex

/-- If the slots of a histogram come to its total, it stands for the lowest values of its slots. -/
theorem standsFor_lowestSamples (hh : h.Consistent) (hexact : h.Exact) :
    h.StandsFor h.lowestSamples := by
  have hheld : ∀ t, h.held t = h.layout.tally h.lowestSamples t := by
    intro t
    simp only [lowestSamples, Layout.tally_sum, Layout.tally_replicate]
    cases t with
    | total => exact hexact
    | slot j =>
      -- Of the slots that hold samples, only the slot itself adds to its tally.
      have hown : ∀ i ∈ Finset.range h.layout.slotCount,
          (if h.layout.slotOf? (h.layout.lowestOfIndex i) = some j then h.count i else 0) =
            if i = j then h.count i else 0 := by
        intro i hi
        rcases eq_or_ne (h.count i) 0 with hempty | hrecorded
        · rw [hempty, ite_self, ite_self]
        · rw [hh.slotOf?_lowestOfIndex (Finset.mem_range.mp hi) hrecorded]
          exact if_congr Option.some_inj rfl rfl
      refine Eq.trans ?_ (Finset.sum_congr rfl hown).symm
      rw [Finset.sum_ite_eq']
      split
      · rfl
      · next hj =>
        rw [Finset.mem_range, ← hh.size] at hj
        exact dif_neg hj
  refine hh.framed.standsFor hh.precise hheld ?_ fun x hx => ?_
  · exact (hheld .total).symm.trans_lt (hh.bounded .total)
  · obtain ⟨i, hi, hx⟩ := Multiset.mem_sum.mp hx
    obtain ⟨hrecorded, rfl⟩ := Multiset.mem_replicate.mp hx
    have hi := Finset.mem_range.mp hi
    rwa [hh.indexFor_lowestOfIndex hi hrecorded]

/-! ## The value at a rank -/

/-- Before the first slot up to which as many samples as a rank says are counted, fewer are. -/
theorem sum_lt_of_isLeast {rank i : ℕ} (hpos : 0 < rank)
    (hleast : IsLeast {i | rank ≤ ∑ k ∈ Finset.range (i + 1), h.count k} i) :
    ∑ k ∈ Finset.range i, h.count k < rank := by
  cases i with
  | zero => rwa [Finset.sum_range_zero]
  | succ i => exact not_le.mp fun hle => absurd (hleast.2 hle) (Nat.not_succ_le_self i)

section

variable (hh : h.Consistent) (hexact : h.Exact) {rank : ℕ}
include hh hexact

/-- The value at a rank that there is, is the highest of the first slot up to which that many
samples are counted, and that slot holds samples. At a rank beyond the samples the value is zero. -/
theorem valueAtRank_spec (hpos : 0 < rank) :
    (rank ≤ h.total → ∃ i < h.layout.slotCount,
      IsLeast {i | rank ≤ ∑ k ∈ Finset.range (i + 1), h.count k} i ∧
        h.count i ≠ 0 ∧ h.valueAtRank rank = h.layout.highestOfIndex i) ∧
      (h.total < rank → h.valueAtRank rank = 0) := by
  have hgoal : ∀ k ≤ h.layout.slotCount, decide (rank ≤ (Cursor.after h 0 k).passed) =
      decide (rank ≤ ∑ i ∈ Finset.range k, h.count i) := fun k hk => by
    rw [Cursor.after_passed, hexact.covered.countIn_eq_sum hk hh]
  obtain ⟨visits, hsought⟩ : ∃ visits, Cursor.Sought h 0 (rank ≤ ·.passed) 0
      ((Cursor.start h).seek h (rank ≤ ·.passed)) visits :=
    ⟨_, Cursor.sought_after hh hexact 0 _ (Nat.zero_le _)⟩
  rw [valueAtRank]
  generalize (Cursor.start h).seek h (rank ≤ ·.passed) = result at hsought ⊢
  cases hsought with
  | @met m hmoved hm hmissed hmet hahead =>
    obtain ⟨i, rfl⟩ := Nat.exists_eq_succ_of_ne_zero hmoved.ne'
    rw [hgoal _ hm, decide_eq_true_iff] at hmet
    have hleast : IsLeast {i | rank ≤ ∑ k ∈ Finset.range (i + 1), h.count k} i := by
      refine ⟨hmet, fun k hk => ?_⟩
      by_contra hlt
      have hmiss := hmissed (k + 1) (Nat.succ_pos k) (by omega)
      rw [hgoal _ (by omega), decide_eq_false_iff_not] at hmiss
      exact hmiss hk
    refine ⟨fun _ => ⟨i, hm, hleast, fun hempty => ?_, rfl⟩, fun hbeyond => ?_⟩
    · have hbefore := sum_lt_of_isLeast hpos hleast
      rw [Finset.sum_range_succ, hempty] at hmet
      omega
    · exact absurd (hmet.trans (hexact.covered.sum_le hm)) (not_le.mpr hbeyond)
  | @missed m hmoved hm hmissed hahead hall =>
    refine ⟨fun hrank => ?_, fun _ => rfl⟩
    -- All samples are passed, among them the one of the rank.
    obtain ⟨i, rfl⟩ : ∃ i, m = i + 1 := Nat.exists_eq_succ_of_ne_zero fun hstart => by
      rw [hstart, Finset.sum_range_zero] at hall
      omega
    have hmiss := hmissed (i + 1) (Nat.succ_pos i) le_rfl
    rw [hgoal _ hm, decide_eq_false_iff_not, hall] at hmiss
    exact absurd hrank hmiss

/-- Values at higher ranks are not lower, as long as there are as many samples. -/
theorem valueAtRank_mono {rank' : ℕ} (hpos : 0 < rank) (hle : rank ≤ rank')
    (hrank : rank' ≤ h.total) : h.valueAtRank rank ≤ h.valueAtRank rank' := by
  obtain ⟨i, -, hleast, hrecorded, hvalue⟩ :=
    (valueAtRank_spec hh hexact hpos).1 (hle.trans hrank)
  obtain ⟨j, hj, hleast', hrecorded', hvalue'⟩ :=
    (valueAtRank_spec hh hexact (hpos.trans_le hle)).1 hrank
  rw [hvalue, hvalue']
  exact hh.highestOfIndex_mono (hleast.2 (hle.trans hleast'.1)) hj hrecorded hrecorded'

/-- Of the samples that a histogram stands for, as many as a rank says are at or below the value at
the rank, and fewer are below its range. -/
theorem countP_valueAtRank {s : Multiset ℕ} (hs : h.StandsFor s) (hpos : 0 < rank)
    (hrank : rank ≤ h.total) : rank ≤ s.countP (· ≤ h.valueAtRank rank) ∧
      s.countP (· < h.layout.lowestEquivalent (h.valueAtRank rank)) < rank := by
  obtain ⟨i, hi, hleast, hrecorded, hvalue⟩ := (valueAtRank_spec hh hexact hpos).1 hrank
  have htop : (h.layout.highestOfIndex i : ℤ) ≤ topValue := by
    obtain ⟨-, -, htop⟩ := Layout.mem_range hh.precise (h.layout.lowestOfIndex_le i)
    exact Int.ofNat_le.mpr htop
  rw [hvalue]
  constructor
  · rw [Multiset.countP_congr rfl fun x _ => propext
      ((hh.le_highestOfIndex_iff hi hrecorded x).trans Nat.lt_succ_iff.symm),
      hs.countP_indexFor_lt hi]
    exact hleast.1
  · have hbelow : ∀ x, x < h.layout.lowestEquivalent (h.layout.highestOfIndex i) ↔
        h.layout.indexFor x < i := by
      intro x
      rw [← not_le, Layout.lowestEquivalent_le_iff hh.shaped htop, Int.toNat_natCast,
        hh.indexFor_highestOfIndex hi hrecorded, not_le]
    rw [Multiset.countP_congr rfl fun x _ => propext (hbelow x), hs.countP_indexFor_lt hi.le]
    exact sum_lt_of_isLeast hpos hleast

end

/-! ## The value at a percentile -/

/-- With the rank that is computed for a percentile, the value at the percentile is the highest of
the first slot up to which that many samples are counted. That slot holds samples, and of all the
samples as many as the rank says are at or below the value, and fewer below its range. If there are
fewer samples than the rank says the value is zero, and otherwise it does not fall as the rank
grows. -/
theorem valueAtPercentile_rank (hh : h.Reachable) (hexact : h.Exact) (p : Float) :
    let rank := rankAt p h.total
    let v := h.valueAtPercentile p
    1 ≤ rank ∧
      (rank ≤ h.total →
        (∃ i < h.layout.slotCount,
          IsLeast {i | rank ≤ ∑ k ∈ Finset.range (i + 1), h.count k} i ∧ h.count i ≠ 0 ∧
            v = h.layout.highestEquivalent (h.layout.lowestOfIndex i)) ∧
        (∃ s, h.StandsFor s) ∧
        ∀ s, h.StandsFor s → rank ≤ s.countP (· ≤ v) ∧
          s.countP (· < h.layout.lowestEquivalent v) < rank) ∧
      (h.total < rank → v = 0) ∧
      ∀ q, rank ≤ rankAt q h.total → rankAt q h.total ≤ h.total → v ≤ h.valueAtPercentile q := by
  have hconsistent := hh.consistent
  have hpos : 0 < rankAt p h.total := Nat.le_max_right _ _
  obtain ⟨hwithin, hbeyond⟩ := valueAtRank_spec hconsistent hexact hpos
  refine ⟨hpos, fun hrank => ⟨hwithin hrank, ⟨_, standsFor_lowestSamples hconsistent hexact⟩,
    fun s hs => countP_valueAtRank hconsistent hexact hs hpos hrank⟩, hbeyond,
    fun q hle hrank => ?_⟩
  exact valueAtRank_mono hconsistent hexact hpos hle hrank

/-- Among one sample each of 5, 50 and 100, that of 50 is at the middle percentile, and its range
goes up to 51. -/
theorem valueAtPercentile_spread :
    spread.Exact ∧ rankAt 50.0 spread.total = 2 ∧ spread.valueAtPercentile 50.0 = 51 ∧
      ∀ s, spread.StandsFor s → 2 ≤ s.countP (· ≤ 51) ∧ s.countP (· < 50) < 2 := by
  have hexact : spread.Exact := by decide +kernel
  have hrank : rankAt 50.0 spread.total = 2 := by decide +kernel
  have hvalue : spread.valueAtPercentile 50.0 = 51 := by decide +kernel
  obtain ⟨-, hwithin, -⟩ := valueAtPercentile_rank spread_reachable hexact 50.0
  rw [hrank, hvalue] at hwithin
  obtain ⟨-, -, hsamples⟩ := hwithin (by decide +kernel)
  exact ⟨hexact, hrank, hvalue, hsamples⟩

end Histogram

end DynamicRange
