import DynamicRange.Proofs.Histogram.Tallies
import DynamicRange.Proofs.Layout.Ranges

/-!
# A histogram stands for its samples

Whatever recordings were run, made or refused, a histogram answers as the multiset of the samples
recorded would, so long as no counter started over. `recordAll_standsFor` states this for the number
of samples, the count of every slot, and the counts of the values up to a value or between two
values, where a count includes whole ranges of equivalent values.

What was recorded settles what the tallies hold, and what the tallies hold settles the answers
(`Framed.standsFor`). For the answers, the bounds of a question are turned into indices, to which
the ends of ranges are adjoint.
-/

namespace DynamicRange

/-- The samples that a recording with some outcome has recorded. -/
def Recording.accepted (r : Recording) : Except RecordError Unit → Multiset ℕ
  | .ok () => r.samples
  | .error _ => 0

/-- The samples that recordings with some outcomes have recorded. -/
def acceptedSamples (rs : List Recording) (outcomes : List (Except RecordError Unit)) :
    Multiset ℕ :=
  (List.zipWith Recording.accepted rs outcomes).sum

/-- What is gathered from recordings and their outcomes is gathered from one of them. -/
theorem mem_sum_zipWith_iff {f : Recording → Except RecordError Unit → Multiset ℕ}
    {outcome : Recording → Except RecordError Unit} {rs : List Recording} {x : ℕ} :
    x ∈ (List.zipWith f rs (rs.map outcome)).sum ↔ ∃ r ∈ rs, x ∈ f r (outcome r) := by
  induction rs with
  | nil => simp
  | cons r rs ih => simp [ih]

/-- A value past the last slot is asked of as if it were in the last slot. -/
theorem Layout.clampedSlotOf_eq {L : Layout} (hL : L.Shaped) (v : ℤ) :
    L.clampedSlotOf v = min (L.indexFor v.toNat) L.lastIndex := by
  have hpos := hL.slotCount_pos
  rw [clampedSlotOf, lastIndex]
  rcases hslot : L.slotOf? v.toNat with _ | i
  · have hpast : ¬L.indexFor v.toNat < L.slotCount := fun hlt => by
      rw [slotOf?_eq_some_iff.mpr ⟨rfl, hlt⟩] at hslot
      cases hslot
    simp only [Option.getD_none]
    omega
  · obtain ⟨rfl, hlt⟩ := slotOf?_eq_some_iff.mp hslot
    simp only [Option.getD_some]
    omega

/-- A value that is asked of stands for a slot that there is. -/
theorem Layout.clampedSlotOf_lt {L : Layout} (hL : L.Shaped) (v : ℤ) :
    L.clampedSlotOf v < L.slotCount := by
  have hpos := hL.slotCount_pos
  rw [clampedSlotOf_eq hL, lastIndex]
  omega

namespace Histogram

variable {h : Histogram} {L : Layout} {w : CounterWidth} {s : Multiset ℕ}

/-- A histogram answers as a multiset of samples would. -/
structure StandsFor (h : Histogram) (s : Multiset ℕ) : Prop where
  /-- Its total is the number of samples. -/
  total : h.total = s.card
  /-- The count in a slot is the number of samples in that slot. -/
  count? : ∀ i, h.count? i =
    if i < h.layout.slotCount then
      some (s.countP fun x => h.layout.slotOf? x = some i)
    else
      none
  /-- The count between two values is the number of samples in their ranges or between them; the
  lower value is negative or has a slot. -/
  countBetween : ∀ low high : ℤ, low ≤ topValue → high ≤ topValue →
    (low < 0 ∨ ∃ i, h.layout.slotOf? low.toNat = some i) →
    h.countBetween low high = s.countP fun x =>
      h.layout.lowestEquivalent low ≤ x ∧ x ≤ h.layout.highestEquivalent high
  /-- The count up to a value is the number of samples in its range or below it. -/
  countUpTo : ∀ high : ℤ, high ≤ topValue →
    h.countUpTo high = s.countP (· ≤ h.layout.highestEquivalent high)
  /-- So the percentage below a value is that of those samples among all, if there are some. -/
  percentileBelow : ∀ high : ℤ, high ≤ topValue → s ≠ 0 →
    h.percentileBelow high =
      percentage (s.countP (· ≤ h.layout.highestEquivalent high)) s.card

/-- The samples of a histogram, each replaced by the lowest value of its slot. -/
def lowestSamples (h : Histogram) : Multiset ℕ :=
  ∑ i ∈ Finset.range h.layout.slotCount,
    Multiset.replicate (h.count i) (h.layout.lowestOfIndex i)

/-- Tallies that hold the samples of their slots count the samples of a run by their index. -/
theorem countIn_of_held (hheld : ∀ t, h.held t = L.tally s t) (hcard : s.card < 2 ^ 64)
    {start stop : ℕ} (hstop : stop ≤ L.slotCount) :
    h.countIn start stop = s.countP fun x => start ≤ L.indexFor x ∧ L.indexFor x < stop := by
  have hsum : ∑ i ∈ Finset.Ico start stop, h.count i =
      s.countP fun x => start ≤ L.indexFor x ∧ L.indexFor x < stop := by
    rw [← sum_countP_eq]
    refine Finset.sum_congr rfl fun i hi => ?_
    rw [← Layout.tally_slot ((Finset.mem_Ico.mp hi).2.trans_le hstop)]
    exact hheld (.slot i)
  rw [countIn_eq, hsum]
  exact Nat.mod_eq_of_lt ((Multiset.countP_le_card _ _).trans_lt hcard)

/-- The samples between two values are those in the run of slots between theirs. -/
theorem countBetween_of_held (hL : h.layout.Shaped) (hheld : ∀ t, h.held t = h.layout.tally s t)
    (hcard : s.card < 2 ^ 64) (low high : ℤ) :
    h.countBetween low high = s.countP fun x =>
      h.layout.clampedSlotOf low ≤ h.layout.indexFor x ∧
        h.layout.indexFor x < h.layout.clampedSlotOf high + 1 := by
  rw [countBetween]
  split
  · next hreversed =>
    refine (Multiset.countP_eq_zero.mpr fun x _ => ?_).symm
    omega
  · exact countIn_of_held hheld hcard (Layout.clampedSlotOf_lt hL high)

/-- A histogram whose tallies hold the samples of their slots stands for them. -/
theorem Framed.standsFor (hL : L.Precise) (hframed : Framed L w h)
    (hheld : ∀ t, h.held t = L.tally s t) (hcard : s.card < 2 ^ 64)
    (hs : ∀ x ∈ s, L.indexFor x < L.slotCount) : h.StandsFor s := by
  obtain ⟨rfl, -, hsize⟩ := hframed
  have hlast : h.layout.lastIndex = h.layout.slotCount - 1 := rfl
  have htotal : h.total = s.card := hheld .total
  -- No sample lies past the last slot, so it makes no difference that values past it are clamped.
  have hhigh : ∀ {high : ℤ}, high ≤ topValue → ∀ x ∈ s,
      (h.layout.indexFor x < h.layout.clampedSlotOf high + 1 ↔
        x ≤ h.layout.highestEquivalent high) := by
    intro high htop x hx
    have hindex := hs x hx
    rw [Layout.le_highestEquivalent_iff hL htop, Layout.clampedSlotOf_eq hL.toShaped]
    omega
  have hcountUpTo : ∀ high : ℤ, high ≤ topValue →
      h.countUpTo high = s.countP (· ≤ h.layout.highestEquivalent high) := by
    intro high htop
    rw [countUpTo, countIn_of_held hheld hcard (Layout.clampedSlotOf_lt hL.toShaped high)]
    refine Multiset.countP_congr rfl fun x hx => propext ?_
    rw [← hhigh htop x hx, and_iff_right (Nat.zero_le _)]
  refine ⟨htotal, fun i => ?_, fun low high hlow htop hslot => ?_, hcountUpTo,
    fun high htop hne => ?_⟩
  · rw [count?]
    split
    · next hi =>
      have hcount : h.count i = h.layout.tally s (.slot i) := hheld (.slot i)
      rw [count, Array.getD_eq_getD_getElem?, Array.getElem?_eq_getElem (by omega),
        Option.getD_some] at hcount
      rw [Array.getElem?_eq_getElem (by omega), hcount]
      rfl
    · exact Array.getElem?_eq_none (by omega)
  · rw [countBetween_of_held hL.toShaped hheld hcard]
    refine Multiset.countP_congr rfl fun x hx => propext (and_congr ?_ (hhigh htop x hx))
    -- The lower value has a slot, so that it is not clamped either.
    have hindex : h.layout.indexFor low.toNat < h.layout.slotCount := by
      rcases hslot with hneg | ⟨i, hi⟩
      · rw [Int.toNat_of_nonpos hneg.le, Layout.indexFor_lt_slotCount_iff hL.toShaped]
        exact Nat.two_pow_pos _
      · obtain ⟨rfl, hlt⟩ := Layout.slotOf?_eq_some_iff.mp hi
        exact hlt
    rw [Layout.clampedSlotOf_eq hL.toShaped, min_eq_left (by omega),
      Layout.lowestEquivalent_le_iff hL.toShaped hlow]
  · have hpos : h.total ≠ 0 := by
      rw [htotal, ne_eq, Multiset.card_eq_zero]
      exact hne
    rw [percentileBelow, if_neg hpos, hcountUpTo high htop, htotal]

end Histogram

/-! ## Samples of recordings -/

section

variable {L : Layout}

/-- A recording adds to tallies what it has recorded. -/
theorem Recording.sum_adds_accepted (hL : L.Shaped) (r : Recording) (t : Tally) :
    ((r.work L).map (·.adds t)).sum = L.tally (r.accepted (r.outcome L)) t := by
  by_cases hv : L.Covers r.value
  · rw [(outcome_eq_ok_iff hL).mpr hv, sum_adds_work hL hv]
    rfl
  · rcases houtcome : r.outcome L with e | ⟨⟩
    · rw [work_of_not_covers hL hv]
      exact (L.tally_zero t).symm
    · exact absurd ((outcome_eq_ok_iff hL).mp houtcome) hv

/-- What was recorded has slots, and is not above the values that were measured. -/
theorem Recording.indexFor_of_mem_accepted (hL : L.Shaped) (r : Recording) {x : ℕ}
    (hx : x ∈ r.accepted (r.outcome L)) : L.indexFor x < L.slotCount := by
  rcases houtcome : r.outcome L with e | ⟨⟩
  · rw [houtcome] at hx
    exact absurd hx (Multiset.notMem_zero x)
  · rw [houtcome] at hx
    exact (indexFor_of_mem_samples hL ((outcome_eq_ok_iff hL).mp houtcome) hx).1

/-- Recordings add to tallies what they have recorded. -/
theorem sum_adds_acceptedSamples (hL : L.Shaped) (rs : List Recording) (t : Tally) :
    ((rs.flatMap (·.work L)).map (·.adds t)).sum =
      L.tally (acceptedSamples rs (rs.map (·.outcome L))) t := by
  induction rs with
  | nil => exact (L.tally_zero t).symm
  | cons r rs ih =>
    rw [List.flatMap_cons, List.map_append, List.sum_append, r.sum_adds_accepted hL, ih,
      ← Layout.tally_add]
    rfl

/-- What recordings have recorded has slots. -/
theorem indexFor_of_mem_acceptedSamples (hL : L.Shaped) {rs : List Recording} {x : ℕ}
    (hx : x ∈ acceptedSamples rs (rs.map (·.outcome L))) : L.indexFor x < L.slotCount := by
  obtain ⟨r, -, hr⟩ := mem_sum_zipWith_iff.mp hx
  exact r.indexFor_of_mem_accepted hL hr

end

namespace Histogram

/-- After any recordings into an empty histogram of an accepted layout, the histogram stands for
the samples that were recorded, if no slot and not the total had to count more samples than it
can. -/
theorem recordAll_standsFor {b : Bounds} {L : Layout} (hbounds : Layout.ofBounds b = .ok L)
    (w : CounterWidth) (rs : List Recording) (s : Multiset ℕ)
    (hrecorded : s = acceptedSamples rs ((ofLayout L w).recordAll rs).2)
    (hslots : ∀ i, (s.countP fun x => L.slotOf? x = some i) < 2 ^ w.bits)
    (htotal : s.card < 2 ^ 64) : ((ofLayout L w).recordAll rs).1.StandsFor s := by
  have hL := Layout.ofBounds_precise hbounds
  have hframed := ofLayout_framed L w
  have hrun : (ofLayout L w).recordAll rs =
      ((ofLayout L w).applyAll (rs.flatMap (·.work L)), rs.map (·.outcome L)) :=
    recordAll_eq ..
  rw [hrun] at hrecorded ⊢
  have hadmits : ∀ u ∈ rs.flatMap (·.work L), L.Admits u := by
    intro u hu
    obtain ⟨r, -, hr⟩ := List.mem_flatMap.mp hu
    exact Recording.admits_of_mem_work hr
  refine (hframed.applyAll _).standsFor hL (fun t => ?_) htotal fun x hx => ?_
  · -- Neither side reaches what the tally can hold, so congruence is equality.
    have hmod := held_applyAll hframed hadmits t
    rw [held_ofLayout, Nat.zero_add, sum_adds_acceptedSamples hL.toShaped, ← hrecorded] at hmod
    refine hmod.eq_of_lt_of_lt ?_ ?_
    · have hbounded := (ofLayout_bounded L w).applyAll (rs.flatMap (·.work L)) t
      rwa [(hframed.applyAll _).width] at hbounded
    · cases t with
      | slot i => exact (hslots i).trans_eq w.two_pow_bits
      | total => exact htotal
  · rw [hrecorded] at hx
    exact indexFor_of_mem_acceptedSamples hL.toShaped hx

/-- A sample of 50 that was expected every 20 and three of 40 are recorded, a negative value and one
past the last slot are refused. -/
theorem recorded_standsFor :
    Layout.ofBounds ⟨1, 100, 1⟩ = .ok ⟨⟨1, 100, 1⟩, 0, 4, 32, 16, 31, 3, 64⟩ ∧
      (recordAll (ofLayout ⟨⟨1, 100, 1⟩, 0, 4, 32, 16, 31, 3, 64⟩ .bits8)
        [.corrected 50 20, .plain (-3) 1, .plain 1000 2, .plain 40 3]).1.StandsFor
          {50, 30, 40, 40, 40} := by
  refine ⟨by decide +kernel, recordAll_standsFor (b := ⟨1, 100, 1⟩) (by decide +kernel) .bits8
    [.corrected 50 20, .plain (-3) 1, .plain 1000 2, .plain 40 3] {50, 30, 40, 40, 40}
    (by decide +kernel) (fun i => ?_) (by decide)⟩
  exact (Multiset.countP_le_card _ _).trans_lt (by decide)

end Histogram

end DynamicRange
