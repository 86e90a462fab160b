import DynamicRange.Proofs.Histogram.Ends
import DynamicRange.Proofs.Histogram.Merging

/-!
# Merges into an empty histogram

A histogram that is merged into an empty one that is laid out alike hands over its samples as if
each were the lowest value of its slot (`mem_lowestSamples_iff`). No slot and no total can tell the
difference, but the ends can: the value zero, and the value `topValue` that stands for no least
value, are read as if there were no sample. So the two histograms are equal unless a sample shares
the slot of zero or `topValue` is the only sample beside zeros (`Reproducible`), and
`merge_emptyLike_reproduced` says so of every histogram that recordings lead to.
-/

namespace DynamicRange

/-- Whether the ends of samples are still known when each of them is replaced by the lowest value
of its slot: none of them shares the slot of zero unless it is zero, and `topValue` is not the only
one beside zero. -/
def Layout.Reproducible (L : Layout) (s : Multiset ℕ) : Prop :=
  (∀ x ∈ s, x ≠ 0 → 2 ^ L.unitMagnitude ≤ x) ∧ ((∃ x ∈ s, x ≠ 0) → ∃ x ∈ s, x ≠ 0 ∧ x ≠ topValue)

namespace Histogram

variable {g h : Histogram} {s : Multiset ℕ}

/-! ## The ends of lowest values -/

/-- Samples that are not all zero are reproducible if the least value is not one of the two that
are read as if there were no sample. -/
theorem Spans.reproducible_iff (hspans : h.Spans s) (hs : ∀ x ∈ s, x ≤ topValue)
    (hsome : ∃ x ∈ s, x ≠ 0) :
    h.layout.Reproducible s ↔ 2 ^ h.layout.unitMagnitude ≤ h.least ∧ h.least ≠ topValue := by
  constructor
  · rintro ⟨hunit, hother⟩
    obtain ⟨x, hx, hne, htop⟩ := hother hsome
    have hle := hspans.least_le hx hne
    have hx_le := hs x hx
    exact ⟨(hspans.le_least_iff _).mpr ⟨(hunit x hx hne).trans hx_le, hunit⟩, by omega⟩
  · rintro ⟨hunit, htop⟩
    obtain ⟨hmem, hne⟩ := hspans.least_mem (lt_of_le_of_ne hspans.least_le_topValue htop)
    exact ⟨((hspans.le_least_iff _).mp hunit).2, fun _ => ⟨_, hmem, hne, htop⟩⟩

section

variable (hL : h.layout.Precise) (hlayout : g.layout = h.layout) (hs : ∀ x ∈ s, x ≤ topValue)
  (hspans : h.Spans s) (hlowest : g.Spans (s.map fun x : ℕ => h.layout.lowestEquivalent x))
include hL hs hspans hlowest

/-- The greatest of the lowest values is that of the greatest sample. -/
theorem Spans.greatest_lowest : g.greatest = h.layout.lowestEquivalent h.greatest := by
  refine eq_of_forall_ge_iff fun v => ?_
  have hmem : g.greatest ≤ v ↔ ∀ x ∈ s, h.layout.lowestEquivalent x ≤ v := by
    simp [hlowest.greatest_le_iff]
  rw [hmem]
  have htop : h.greatest ≤ topValue := (hspans.greatest_le_iff _).mpr hs
  constructor
  · intro hall
    by_cases hzero : h.greatest = 0
    · rw [hzero, Layout.lowestEquivalent_zero hL.toShaped]
      exact Nat.zero_le v
    · exact hall _ (hspans.greatest_mem hzero)
  · intro hle x hx
    exact (Layout.lowestEquivalent_mono hL.toShaped (hspans.le_greatest hx) htop).trans hle

/-- The least of the lowest values is that of the least sample, if that one is not the greatest
value and not in the slot of zero. -/
theorem Spans.least_lowest (hunit : 2 ^ h.layout.unitMagnitude ≤ h.least)
    (hlt : h.least < topValue) : g.least = h.layout.lowestEquivalent h.least := by
  have hne : h.layout.lowestEquivalent h.least ≠ 0 :=
    mt (Layout.lowestEquivalent_eq_zero_iff hL hlt.le).mp (not_lt.mpr hunit)
  have hle := Layout.lowestEquivalent_le hL.toShaped hlt.le
  apply le_antisymm
  · exact hlowest.least_le (Multiset.mem_map_of_mem _ (hspans.least_mem hlt).1) hne
  · rw [hlowest.le_least_iff]
    refine ⟨hle.trans hlt.le, fun y hy hy0 => ?_⟩
    obtain ⟨x, hx, rfl⟩ := Multiset.mem_map.mp hy
    have hx0 : x ≠ 0 := by
      rintro rfl
      exact hy0 (Layout.lowestEquivalent_zero hL.toShaped)
    exact Layout.lowestEquivalent_mono hL.toShaped (hspans.least_le hx hx0) (hs x hx)

include hlayout

/-- The greatest value is reported as before unless all samples share the slot of zero and are not
all zero. -/
theorem Spans.max_eq_iff :
    g.max = h.max ↔ (∀ x ∈ s, x = 0) ∨ ∃ x ∈ s, 2 ^ h.layout.unitMagnitude ≤ x := by
  have htop : h.greatest ≤ topValue := (hspans.greatest_le_iff _).mpr hs
  have hzeros : (∀ x ∈ s, x = 0) ↔ h.greatest = 0 := by
    simp only [← Nat.le_zero, hspans.greatest_le_iff]
  have hreported : h.greatest ≠ 0 → h.layout.highestEquivalent h.greatest ≠ 0 := by
    have hself := (Layout.le_highestEquivalent_iff hL (Int.ofNat_le.mpr htop) h.greatest).mpr le_rfl
    omega
  rw [hzeros, ← hspans.le_greatest_iff (Nat.two_pow_pos _), max, max,
    hspans.greatest_lowest hL hs hlowest, hlayout,
    Layout.highestEquivalent_lowestEquivalent hL htop, ← not_lt,
    ← Layout.lowestEquivalent_eq_zero_iff hL htop]
  by_cases hzero : h.greatest = 0
  · rw [hzero, Layout.lowestEquivalent_zero hL.toShaped]
    simp
  · by_cases hfirst : h.layout.lowestEquivalent h.greatest = 0
    · simp [hzero, hfirst, (hreported hzero).symm]
    · simp [hzero, hfirst]

omit hspans in
/-- Lowest values have a least one that is not zero. -/
theorem Spans.min_lowest_ne_zero : g.min ≠ 0 := by
  rw [min]
  split
  · exact hlowest.least_ne_zero
  · next hne =>
    obtain ⟨hmem, hne0⟩ := hlowest.least_mem (lt_of_le_of_ne hlowest.least_le_topValue hne)
    obtain ⟨x, hx, hlowx⟩ := Multiset.mem_map.mp hmem
    rwa [hlayout, ← hlowx, Layout.lowestEquivalent_idem hL.toShaped (hs x hx), hlowx]

/-- If `topValue` is the only sample beside zeros, the lowest value of its slot is less. -/
theorem Spans.min_lowest_lt (hsome : ∃ x ∈ s, x ≠ 0) (htop : h.least = topValue) :
    g.min < topValue := by
  obtain ⟨hlt, hlow⟩ := Layout.lowestEquivalent_topValue hL
  have hmem : topValue ∈ s := htop ▸ (hspans.isLeast_least hs hsome).1.1
  have hleast : g.least ≤ h.layout.lowestEquivalent topValue :=
    hlowest.least_le (Multiset.mem_map_of_mem _ hmem) hlow
  rw [min, if_neg (hleast.trans_lt hlt).ne, hlayout]
  exact (Layout.lowestEquivalent_le hL.toShaped hlowest.least_le_topValue).trans_lt
    (hleast.trans_lt hlt)

/-- The least value is reported as before exactly if the samples are reproducible. -/
theorem Spans.min_eq_iff : g.min = h.min ↔ h.layout.Reproducible s := by
  by_cases hsome : ∃ x ∈ s, x ≠ 0
  · rw [hspans.reproducible_iff hs hsome]
    constructor
    · intro hsame
      have hne : h.least ≠ topValue := by
        intro htop
        have hlt := hspans.min_lowest_lt hL hlayout hs hlowest hsome htop
        rw [hsame, min, if_pos htop, htop] at hlt
        exact lt_irrefl _ hlt
      refine ⟨not_lt.mp fun hunit => Spans.min_lowest_ne_zero hL hlayout hs hlowest ?_, hne⟩
      rw [hsame, min, if_neg hne]
      exact (Layout.lowestEquivalent_eq_zero_iff hL hspans.least_le_topValue).mpr hunit
    · rintro ⟨hunit, hne⟩
      have hlt := lt_of_le_of_ne hspans.least_le_topValue hne
      have hle := Layout.lowestEquivalent_le hL.toShaped hlt.le
      rw [min, min, hspans.least_lowest hL hs hlowest hunit hlt, hlayout, if_neg hne,
        if_neg (hle.trans_lt hlt).ne, Layout.lowestEquivalent_idem hL.toShaped hlt.le]
  · have hzeros : ∀ x ∈ s, x = 0 := by
      push Not at hsome
      exact hsome
    have hlowestZeros : ∀ y ∈ s.map fun x : ℕ => h.layout.lowestEquivalent x, y = 0 := by
      intro y hy
      obtain ⟨x, hx, rfl⟩ := Multiset.mem_map.mp hy
      rw [hzeros x hx]
      exact Layout.lowestEquivalent_zero hL.toShaped
    rw [hspans.min_of_zeros hzeros, hlowest.min_of_zeros hlowestZeros]
    exact iff_of_true rfl
      ⟨fun x hx hne => absurd (hzeros x hx) hne, fun hother => absurd hother hsome⟩

end

/-! ## What a merge hands over -/

/-- The changes of a slot name its lowest value, unless it is empty. -/
theorem Consistent.handedOver_marks (hh : h.Consistent) {i : ℕ} (hi : i < h.layout.slotCount) :
    Marks (h.handedOver h.layout h.width i)
      (Multiset.replicate (h.count i) (h.layout.lowestOfIndex i)) := by
  rw [handedOver]
  by_cases hempty : h.count i = 0
  · rw [if_neg fun hrecorded => hrecorded.1 hempty, hempty]
    exact Marks.nil
  · have hfits := hh.fits_alike le_rfl hi hempty
    rw [if_pos ⟨hempty, hfits⟩]
    exact Layout.work_marks hh.shaped ((Layout.isSome_slotOf?_iff hh.shaped _).mp hfits.2) hempty

/-- The changes of all slots name their lowest values. -/
theorem Consistent.handedOver_marks_lowestSamples (hh : h.Consistent) :
    Marks ((List.range h.layout.slotCount).flatMap (h.handedOver h.layout h.width))
      h.lowestSamples := by
  have hmarks : ∀ n ≤ h.layout.slotCount,
      Marks ((List.range n).flatMap (h.handedOver h.layout h.width))
        (∑ i ∈ Finset.range n, Multiset.replicate (h.count i) (h.layout.lowestOfIndex i)) := by
    intro n hn
    induction n with
    | zero => exact Marks.nil
    | succ n ih =>
      rw [List.range_succ, List.flatMap_append, List.flatMap_singleton, Finset.sum_range_succ]
      exact (ih (by omega)).append (hh.handedOver_marks hn)
  exact hmarks _ le_rfl

/-- A merge into a histogram that is laid out alike extends the ends to the lowest values. -/
theorem Consistent.merge_spans (hh : h.Consistent) (hcovered : h.Covered)
    (hframed : Framed h.layout h.width g) (hspans : g.Spans s) :
    (g.merge h).1.Spans (s + h.lowestSamples) := by
  rw [merge_eq hh.shaped hframed hh hcovered]
  exact hspans.applyAll hh.handedOver_marks_lowestSamples

/-- A merge into an empty histogram that is laid out alike has the ends of the lowest values. -/
theorem Consistent.merge_emptyLike_spans (hh : h.Consistent) (hcovered : h.Covered) :
    ((h.emptyLike h.width).merge h).1.Spans h.lowestSamples := by
  have hspans := hh.merge_spans hcovered (ofLayout_framed _ _) (ofLayout_spans_zero _ _)
  rwa [zero_add] at hspans

/-- The lowest samples are the lowest values of the slots that are not empty. -/
theorem mem_lowestSamples {v : ℕ} : v ∈ h.lowestSamples ↔
    ∃ i < h.layout.slotCount, h.count i ≠ 0 ∧ v = h.layout.lowestOfIndex i := by
  simp only [lowestSamples, Multiset.mem_sum, Multiset.mem_replicate, Finset.mem_range]

/-- If a histogram counts some samples, the slots that are not empty are those of the samples. -/
theorem count_ne_zero_iff (hheld : ∀ t, h.held t = h.layout.tally s t) {i : ℕ}
    (hi : i < h.layout.slotCount) : h.count i ≠ 0 ↔ ∃ x ∈ s, h.layout.indexFor x = i := by
  have hcount : h.count i = h.layout.tally s (.slot i) := hheld (.slot i)
  rw [hcount, Layout.tally_slot hi, ← Nat.pos_iff_ne_zero, Multiset.countP_pos]

/-- So its lowest samples are the lowest values of the slots of the samples. -/
theorem mem_lowestSamples_iff (hL : h.layout.Shaped)
    (hheld : ∀ t, h.held t = h.layout.tally s t)
    (hs : ∀ x ∈ s, h.layout.indexFor x < h.layout.slotCount ∧ x ≤ topValue) (v : ℕ) :
    v ∈ h.lowestSamples ↔ v ∈ s.map fun x : ℕ => h.layout.lowestEquivalent x := by
  rw [mem_lowestSamples, Multiset.mem_map]
  constructor
  · rintro ⟨i, hi, hne, rfl⟩
    obtain ⟨x, hx, rfl⟩ := (count_ne_zero_iff hheld hi).mp hne
    exact ⟨x, hx, (Layout.lowestOfIndex_indexFor hL (hs x hx).2).symm⟩
  · rintro ⟨x, hx, rfl⟩
    obtain ⟨hi, htop⟩ := hs x hx
    exact ⟨_, hi, (count_ne_zero_iff hheld hi).mpr ⟨x, hx, rfl⟩,
      (Layout.lowestOfIndex_indexFor hL htop).symm⟩

/-! ## Merges into an empty histogram -/

/-- What comes of merging a histogram that has some samples into an empty one that is laid out
alike. -/
structure Reproduced (s : Multiset ℕ) (h : Histogram) (merged : Histogram × ℕ) : Prop where
  /-- Nothing is dropped. -/
  dropped : merged.2 = 0
  /-- The totals agree. -/
  total : merged.1.total = h.total
  /-- The slots agree. -/
  slots : merged.1.slots = h.slots
  /-- The greatest values agree unless all samples share the slot of zero and are not all zero. -/
  max_eq_iff : merged.1.max = h.max ↔
    (∀ x ∈ s, x = 0) ∨ ∃ x ∈ s, 2 ^ h.layout.unitMagnitude ≤ x
  /-- The least values agree exactly if the samples are reproducible. -/
  min_eq_iff : merged.1.min = h.min ↔ h.layout.Reproducible s
  /-- So the two are equal exactly if the samples are reproducible. -/
  beq_iff : (merged.1 == h) = true ↔ h.layout.Reproducible s

/-- Histograms of one size that agree on every count agree on their slots. -/
theorem slots_eq_of_count (hsize : g.slots.size = h.slots.size)
    (hcount : ∀ i < h.slots.size, g.count i = h.count i) : g.slots = h.slots := by
  refine Array.ext hsize fun i hg hh => ?_
  have hi := hcount i hh
  rwa [count, count, Array.getD_eq_getD_getElem?, Array.getD_eq_getD_getElem?,
    Array.getElem?_eq_getElem hg, Array.getElem?_eq_getElem hh] at hi

/-- Histograms are equal if they are laid out alike and agree on what they report. -/
theorem beq_eq_true_iff : (g == h) = true ↔ g.layout = h.layout ∧ g.total = h.total ∧
    g.max = h.max ∧ g.min = h.min ∧ g.slots = h.slots := by
  show (decide _ && _ && _ && _ && _) = true ↔ _
  simp only [Bool.and_eq_true, decide_eq_true_eq, beq_iff_eq, and_assoc]

/-- A merge into an empty histogram that is laid out alike drops nothing and reproduces the total
and the slots. -/
theorem Reachable.merge_emptyLike_tallies (hh : h.Reachable) (hexact : h.Exact) :
    ((h.emptyLike h.width).merge h).2 = 0 ∧
      ((h.emptyLike h.width).merge h).1.total = h.total ∧
      ((h.emptyLike h.width).merge h).1.slots = h.slots := by
  have hempty : (h.emptyLike h.width).Reachable := hh.emptyLike h.width
  have hnone : ∀ t, (h.emptyLike h.width).held t = 0 := held_ofLayout h.layout h.width
  have hconsistent := hh.consistent
  obtain ⟨hdropped, hcount⟩ := merge_alike hempty hh hexact.covered rfl le_rfl
  have hframed : Framed h.layout h.width ((h.emptyLike h.width).merge h).1 :=
    (ofLayout_framed _ _).merge h
  refine ⟨hdropped, ?_, slots_eq_of_count (hframed.size.trans hconsistent.size.symm) fun i hi => ?_⟩
  · have htotal := merge_total hempty.consistent hconsistent hexact
    have hzero : (h.emptyLike h.width).total = 0 := hnone .total
    rw [hdropped, Nat.add_zero, hzero, Nat.zero_add] at htotal
    exact htotal.eq_of_lt_of_lt ((hempty.merge hh).consistent.bounded .total)
      (hconsistent.bounded .total)
  · have hbounded : h.count i < h.width.limit := hconsistent.bounded (.slot i)
    have hzero : (h.emptyLike h.width).count i = 0 := hnone (.slot i)
    rw [← h.width.two_pow_bits] at hbounded
    rw [hcount i (hconsistent.size ▸ hi), hzero, Nat.zero_add]
    exact Nat.mod_eq_of_lt hbounded

/-- A histogram that counts some samples and has their ends is reproduced as far as said. -/
theorem Reachable.reproduced (hh : h.Reachable) (hL : h.layout.Precise)
    (hheld : ∀ t, h.held t = h.layout.tally s t)
    (hs : ∀ x ∈ s, h.layout.indexFor x < h.layout.slotCount ∧ x ≤ topValue)
    (hspans : h.Spans s) : Reproduced s h ((h.emptyLike h.width).merge h) := by
  have htop : ∀ x ∈ s, x ≤ topValue := fun x hx => (hs x hx).2
  have hexact : h.Exact := by
    have hsum := Layout.sum_tally fun x hx => (hs x hx).1
    simp only [← hheld] at hsum
    exact hsum.symm
  have hlayout : ((h.emptyLike h.width).merge h).1.layout = h.layout :=
    ((ofLayout_framed _ _).merge h).layout
  have hlowest : ((h.emptyLike h.width).merge h).1.Spans
      (s.map fun x : ℕ => h.layout.lowestEquivalent x) := by
    exact (hh.consistent.merge_emptyLike_spans hexact.covered).congr
      (mem_lowestSamples_iff hL.toShaped hheld hs)
  obtain ⟨hdropped, htotal, hslots⟩ := hh.merge_emptyLike_tallies hexact
  have hmax := hspans.max_eq_iff hL hlayout htop hlowest
  have hmin := hspans.min_eq_iff hL hlayout htop hlowest
  refine ⟨hdropped, htotal, hslots, hmax, hmin, ?_⟩
  rw [beq_eq_true_iff, hmin, hmax, and_iff_right hlayout, and_iff_right htotal,
    and_iff_left hslots, and_iff_right_iff_imp]
  -- Reproducible samples reach the unit, unless they are all zero.
  rintro ⟨hunit, -⟩
  by_cases hzeros : ∀ x ∈ s, x = 0
  · exact .inl hzeros
  · push Not at hzeros
    obtain ⟨x, hx, hne⟩ := hzeros
    exact .inr ⟨x, hx, hunit x hx hne⟩

/-- Recordings into an empty histogram leave in a tally what they have recorded, modulo what the
tally can hold. -/
theorem held_recordAll {L : Layout} (hL : L.Shaped) (w : CounterWidth) (rs : List Recording)
    (t : Tally) : ((ofLayout L w).recordAll rs).1.held t ≡
      L.tally (acceptedSamples rs ((ofLayout L w).recordAll rs).2) t [MOD t.limit w] := by
  have hadmits : ∀ u ∈ rs.flatMap (·.work L), L.Admits u := by
    intro u hu
    obtain ⟨r, -, hr⟩ := List.mem_flatMap.mp hu
    exact Recording.admits_of_mem_work hr
  have hheld := held_applyAll (ofLayout_framed L w) hadmits t
  rw [held_ofLayout, Nat.zero_add, sum_adds_acceptedSamples hL] at hheld
  rw [recordAll_eq]
  exact hheld

/-- After any recordings of values, each of some samples, into an empty histogram of an accepted
layout, a merge into a histogram that is empty and laid out alike reproduces the number of samples
and the slots, if no slot and not the total had to count more samples than it can; and it
reproduces the whole histogram exactly if the samples are reproducible. -/
theorem merge_emptyLike_reproduced {b : Bounds} {L : Layout} (hbounds : Layout.ofBounds b = .ok L)
    (w : CounterWidth) (rs : List Recording) (hvalues : ∀ r ∈ rs, r.value ≤ topValue)
    (hpositive : ∀ r ∈ rs, r.Positive) (h : Histogram) (s : Multiset ℕ)
    (hrun : h = ((ofLayout L w).recordAll rs).1)
    (hrecorded : s = acceptedSamples rs ((ofLayout L w).recordAll rs).2)
    (hslots : ∀ i, (s.countP fun x => L.slotOf? x = some i) < 2 ^ w.bits)
    (htotal : s.card < 2 ^ 64) : Reproduced s h ((h.emptyLike w).merge h) := by
  have hL := Layout.ofBounds_precise hbounds
  have hreachable : h.Reachable := by
    rw [hrun]
    exact (Reachable.ofLayout hbounds w).recordAll hvalues
  have hmod := held_recordAll hL.toShaped w rs
  rw [← hrun, ← hrecorded] at hmod
  rw [recordAll_eq] at hrun hrecorded
  have hframed : Framed L w h := by
    rw [hrun]
    exact (ofLayout_framed L w).applyAll _
  have hspans : h.Spans s := by
    rw [hrun, hrecorded]
    exact ofLayout_spans (flatMap_work_marks hL.toShaped hpositive) L w
  have hs : ∀ x ∈ s, L.indexFor x < L.slotCount ∧ x ≤ topValue := by
    intro x hx
    rw [hrecorded] at hx
    exact ⟨indexFor_of_mem_acceptedSamples hL.toShaped hx,
      le_topValue_of_mem_acceptedSamples hL.toShaped hvalues hx⟩
  have hbounded := hreachable.consistent.bounded
  obtain ⟨rfl, rfl, -⟩ := hframed
  -- Neither side reaches what the tally can hold, so congruence is equality.
  refine hreachable.reproduced hL (fun t => (hmod t).eq_of_lt_of_lt (hbounded t) ?_) hs hspans
  cases t with
  | slot i => exact (hslots i).trans_eq h.width.two_pow_bits
  | total => exact htotal

/-- Recordings in units of two, of which the last is refused, into a histogram that is reproduced as
a whole. -/
theorem recorded_reproduced :
    Layout.ofBounds ⟨2, 1000, 1⟩ = .ok ⟨⟨2, 1000, 1⟩, 1, 4, 32, 16, 62, 6, 112⟩ ∧
      Layout.Reproducible ⟨⟨2, 1000, 1⟩, 1, 4, 32, 16, 62, 6, 112⟩ {50, 30, 0, 0, 900} ∧
      let h := (recordAll (ofLayout ⟨⟨2, 1000, 1⟩, 1, 4, 32, 16, 62, 6, 112⟩ .bits8)
        [.corrected 50 20, .plain 0 2, .plain 900 1, .plain 5000 1]).1
      Reproduced {50, 30, 0, 0, 900} h ((h.emptyLike .bits8).merge h) := by
  have hbounds : Layout.ofBounds ⟨2, 1000, 1⟩ =
      .ok ⟨⟨2, 1000, 1⟩, 1, 4, 32, 16, 62, 6, 112⟩ := by decide +kernel
  refine ⟨hbounds, ⟨by simp, by simp [topValue]⟩, merge_emptyLike_reproduced hbounds .bits8
    [.corrected 50 20, .plain 0 2, .plain 900 1, .plain 5000 1] (by decide) (by decide) _ _ rfl
    (by decide +kernel) (fun i => ?_) (by decide)⟩
  exact (Multiset.countP_le_card _ _).trans_lt (by decide)

/-- One sample of 1 in units of two, and one of `topValue` in the widest units that there are: the
recordings are made and nothing is dropped, but the merges differ from what was merged. The first
loses its greatest value, the second gains a least one. -/
theorem merge_emptyLike_ne :
    (let empty := ofLayout ⟨⟨2, 4, 1⟩, 1, 4, 32, 16, 62, 1, 32⟩ .bits64
      let h := (empty.record 1 1).1
      let merged := (h.emptyLike .bits64).merge h
      Layout.ofBounds ⟨2, 4, 1⟩ = .ok empty.layout ∧ (empty.record 1 1).2 = .ok () ∧
        merged.2 = 0 ∧ (merged.1 == h) = false ∧ h.max = 1 ∧ merged.1.max = 0) ∧
    (let empty := ofLayout ⟨⟨2 ^ 58, 2 ^ 59, 1⟩, 58, 4, 32, 16, 31 * 2 ^ 58, 1, 32⟩ .bits64
      let h := (empty.record topValue 1).1
      let merged := (h.emptyLike .bits64).merge h
      Layout.ofBounds ⟨2 ^ 58, 2 ^ 59, 1⟩ = .ok empty.layout ∧
        (empty.record topValue 1).2 = .ok () ∧ merged.2 = 0 ∧ (merged.1 == h) = false ∧
        h.min = topValue ∧ merged.1.min = 31 * 2 ^ 58) := by
  decide +kernel

end Histogram

end DynamicRange
