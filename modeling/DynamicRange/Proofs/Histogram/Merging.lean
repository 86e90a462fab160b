import DynamicRange.Proofs.Traversal.Recorded

/-!
# What merges take in and drop

A merge looks at every slot of the source once. The samples of a slot are taken in if the slot
`Fits`, and dropped otherwise, and which slots fit is settled by the layout and the counters of the
histogram that takes them in, not by what it holds. So a merge makes a list of changes that is known
beforehand (`merge_eq`), and the tallies grow by what these changes add.

`merge_accounted` follows: every sample of the source is taken in at the slot of its lowest value or
counted as dropped, and nothing is dropped between histograms that are laid out alike if the
counters are no narrower.
-/

namespace DynamicRange

/-- A value that is not negative has a slot exactly when it is covered. -/
theorem Layout.isSome_slotOf?_iff {L : Layout} (hL : L.Shaped) (v : ℕ) :
    (L.slotOf? v).isSome ↔ L.Covers v := by
  rw [Covers, Int.toNat_natCast, ← indexFor_lt_slotCount_iff hL, Option.isSome_iff_exists]
  simp [slotOf?_eq_some_iff]

namespace Histogram

/-- Whether histograms of a layout, with counters of a width, can take in the samples of a slot of
`s`: a counter can hold their number, and the lowest value of the slot has a slot there. -/
def Fits (s : Histogram) (L : Layout) (w : CounterWidth) (i : ℕ) : Prop :=
  s.count i < 2 ^ w.bits ∧ (L.slotOf? (s.layout.lowestOfIndex i)).isSome

instance (s : Histogram) (L : Layout) (w : CounterWidth) (i : ℕ) : Decidable (s.Fits L w i) :=
  inferInstanceAs (Decidable (_ ∧ _))

/-- The changes by which the samples of a slot are taken in. -/
def handedOver (s : Histogram) (L : Layout) (w : CounterWidth) (i : ℕ) : List CellUpdate :=
  if s.count i ≠ 0 ∧ s.Fits L w i then L.work (s.layout.lowestOfIndex i) (s.count i) else []

/-- The samples of a slot that are dropped. -/
def droppedAt (s : Histogram) (L : Layout) (w : CounterWidth) (i : ℕ) : ℕ :=
  if s.Fits L w i then 0 else s.count i

variable {t s : Histogram} {L : Layout} {w : CounterWidth}

/-! ## A merge as a list of changes -/

/-- The samples of a slot are taken in or dropped. -/
theorem absorb_itemAt (hL : L.Shaped) (hframed : Framed L w t) (dropped i : ℕ) :
    t.absorb dropped (s.itemAt i) =
      if s.Fits L w i then
        (t.applyAll (L.work (s.layout.lowestOfIndex i) (s.count i)), dropped)
      else
        (t, wrapTotal (dropped + s.count i)) := by
  obtain ⟨rfl, rfl, -⟩ := hframed
  have hfits : s.Fits t.layout t.width i ↔
      t.width.fits (s.count i) = true ∧ t.layout.Covers (s.layout.lowestOfIndex i) := by
    rw [Fits, Layout.isSome_slotOf?_iff hL, CounterWidth.fits, decide_eq_true_iff,
      t.width.two_pow_bits]
  rw [absorb]
  by_cases hcounter : t.width.fits (s.count i) = true
  · by_cases hcovers : t.layout.Covers (s.layout.lowestOfIndex i)
    · have hrecording := (Layout.recording_of_covers hL hcovers (s.count i)).2
      rw [if_pos (hfits.mpr ⟨hcounter, hcovers⟩), Layout.work, hrecording]
      simp only [itemAt, hcounter, record, hrecording, if_true]
    · obtain ⟨e, he⟩ := Layout.recording_of_not_covers hL hcovers (s.count i)
      rw [if_neg fun h => hcovers (hfits.mp h).2]
      simp only [itemAt, hcounter, record, he, if_true]
  · rw [if_neg fun h => hcounter (hfits.mp h).1]
    exact if_neg hcounter

/-- A merge makes the changes of all slots, in their order, and drops the samples of those that do
not fit. -/
theorem merge_eq (hL : L.Shaped) (hframed : Framed L w t) (hs : s.Consistent)
    (hcovered : s.Covered) :
    t.merge s =
      (t.applyAll ((List.range s.layout.slotCount).flatMap (s.handedOver L w)),
        ∑ i ∈ Finset.range s.layout.slotCount, s.droppedAt L w i) := by
  have hmost : ∀ n ≤ s.layout.slotCount, ∑ i ∈ Finset.range n, s.droppedAt L w i < 2 ^ 64 := by
    intro n hn
    have hle : ∑ i ∈ Finset.range n, s.droppedAt L w i ≤ ∑ i ∈ Finset.range n, s.count i :=
      Finset.sum_le_sum fun i _ => by unfold droppedAt; split <;> omega
    exact (hle.trans (hcovered.sum_le hn)).trans_lt (hs.bounded .total)
  refine foldRecorded_induction hs hcovered (P := fun n g => g =
    (t.applyAll ((List.range n).flatMap (s.handedOver L w)),
      ∑ i ∈ Finset.range n, s.droppedAt L w i)) ?_ ?_ rfl
  · rintro i a - hempty rfl
    simp [List.range_succ, Finset.sum_range_succ, handedOver, droppedAt, hempty]
  · rintro i a hi hrecorded rfl
    have hnext := hmost (i + 1) hi
    rw [Finset.sum_range_succ] at hnext
    simp only [absorb_itemAt hL (hframed.applyAll _), List.range_succ, List.flatMap_append,
      List.flatMap_singleton, applyAll_append, Finset.sum_range_succ]
    by_cases hfits : s.Fits L w i
    · have htaken : s.handedOver L w i = L.work (s.layout.lowestOfIndex i) (s.count i) :=
        if_pos ⟨hrecorded, hfits⟩
      have hnone : s.droppedAt L w i = 0 := if_pos hfits
      rw [if_pos hfits, htaken, hnone, Nat.add_zero]
    · have htaken : s.handedOver L w i = [] := if_neg fun h => hfits h.2
      have hall : s.droppedAt L w i = s.count i := if_neg hfits
      rw [hall] at hnext
      have hsum : wrapTotal (∑ j ∈ Finset.range i, s.droppedAt L w j + s.count i) =
          ∑ j ∈ Finset.range i, s.droppedAt L w j + s.count i := Nat.mod_eq_of_lt hnext
      rw [if_neg hfits, htaken, hall, hsum]
      rfl

/-- A merge keeps the cells. -/
theorem Framed.merge (hframed : Framed L w t) (s : Histogram) : Framed L w (t.merge s).1 :=
  KeptByRecordings.merge (fun _ r _ hg => hg.run r) s hframed

/-! ## What the tallies gain -/

/-- The changes of a slot that does not fit add nothing, those of one that fits its samples. -/
theorem sum_adds_handedOver (hL : L.Shaped) (i : ℕ) (tally : Tally) :
    ((s.handedOver L w i).map (·.adds tally)).sum =
      if s.Fits L w i then
        L.tally (Multiset.replicate (s.count i) (s.layout.lowestOfIndex i)) tally
      else
        0 := by
  rw [handedOver]
  by_cases hfits : s.Fits L w i
  · rw [if_pos hfits]
    by_cases hempty : s.count i = 0
    · rw [if_neg fun h => h.1 hempty, hempty]
      exact (L.tally_zero tally).symm
    · have hcovers := (Layout.isSome_slotOf?_iff hL _).mp hfits.2
      rw [if_pos ⟨hempty, hfits⟩, Layout.sum_adds_work hL hcovers, Int.toNat_natCast]
  · rw [if_neg hfits, if_neg fun h => hfits h.2]
    rfl

/-- A merge adds to a tally the samples of the slots that fit. -/
theorem held_merge (hL : L.Shaped) (hframed : Framed L w t) (hs : s.Consistent)
    (hcovered : s.Covered) (tally : Tally) :
    (t.merge s).1.held tally ≡ t.held tally + ∑ i ∈ Finset.range s.layout.slotCount,
      (if s.Fits L w i then
        L.tally (Multiset.replicate (s.count i) (s.layout.lowestOfIndex i)) tally
      else
        0) [MOD tally.limit w] := by
  have hsum : ∀ n, (((List.range n).flatMap (s.handedOver L w)).map (·.adds tally)).sum =
      ∑ i ∈ Finset.range n, ((s.handedOver L w i).map (·.adds tally)).sum := by
    intro n
    induction n with
    | zero => rfl
    | succ n ih =>
      rw [List.range_succ, List.flatMap_append, List.map_append, List.sum_append, ih,
        Finset.sum_range_succ, List.flatMap_singleton]
  simp only [merge_eq hL hframed hs hcovered, ← sum_adds_handedOver hL, ← hsum]
  refine held_applyAll hframed (fun u hu => ?_) tally
  obtain ⟨i, -, hi⟩ := List.mem_flatMap.mp hu
  rw [handedOver] at hi
  split at hi
  · exact Layout.admits_of_mem_work hi
  · cases hi

/-! ## Accounts -/

/-- A recorded slot fits where it comes from, if the counters are no narrower there. -/
theorem Consistent.fits_alike (hs : s.Consistent) (hwidth : s.width.bits ≤ w.bits) {i : ℕ}
    (hi : i < s.layout.slotCount) (hrecorded : s.count i ≠ 0) : s.Fits s.layout w i := by
  have hbounded : s.count i < s.width.limit := hs.bounded (.slot i)
  rw [← s.width.two_pow_bits] at hbounded
  rw [Fits, hs.slotOf?_lowestOfIndex hi hrecorded]
  exact ⟨hbounded.trans_le (Nat.pow_le_pow_right (by norm_num) hwidth), rfl⟩

/-- Where the samples of `s` are when `t` has taken in `s`. -/
structure Accounted (t s : Histogram) : Prop where
  /-- The samples of the slots that do not fit are dropped, and those only. -/
  dropped : (t.merge s).2 = ∑ i ∈ Finset.range s.layout.slotCount with
    ¬s.Fits t.layout t.width i, s.count i
  /-- Every slot gains the samples of the slots that fit and whose lowest value it counts. -/
  count : ∀ j < t.layout.slotCount, (t.merge s).1.count j =
    (t.count j + ∑ i ∈ Finset.range s.layout.slotCount with
      s.Fits t.layout t.width i ∧ t.layout.slotOf? (s.layout.lowestOfIndex i) = some j,
      s.count i) % 2 ^ t.width.bits
  /-- No sample is lost, and none is counted twice. -/
  total : (t.merge s).1.total + (t.merge s).2 ≡ t.total + s.total [MOD 2 ^ 64]
  /-- If the two are laid out alike and the counters are no narrower, nothing is dropped, and slots
  are added to slots. -/
  alike : t.layout = s.layout → s.width.bits ≤ t.width.bits → (t.merge s).2 = 0 ∧
    ∀ j < t.layout.slotCount, (t.merge s).1.count j =
      (t.count j + s.count j) % 2 ^ t.width.bits

/-- The samples dropped are those of the slots that do not fit. -/
theorem merge_dropped (ht : t.Consistent) (hs : s.Consistent) (hcovered : s.Covered) :
    (t.merge s).2 = ∑ i ∈ Finset.range s.layout.slotCount with
      ¬s.Fits t.layout t.width i, s.count i := by
  simp only [merge_eq ht.shaped ht.framed hs hcovered, Finset.sum_filter, ite_not]
  rfl

/-- A slot gains the samples of the slots that fit and whose lowest value it counts. -/
theorem merge_count (ht : t.Reachable) (hs : s.Reachable) (hcovered : s.Covered) (j : ℕ) :
    (t.merge s).1.count j =
      (t.count j + ∑ i ∈ Finset.range s.layout.slotCount with
        s.Fits t.layout t.width i ∧ t.layout.slotOf? (s.layout.lowestOfIndex i) = some j,
        s.count i) % 2 ^ t.width.bits := by
  have hmerged := (ht.merge hs).consistent.bounded (.slot j)
  have ht := ht.consistent
  have hs := hs.consistent
  have hheld := held_merge ht.shaped ht.framed hs hcovered (.slot j)
  rw [(ht.framed.merge s).width] at hmerged
  simp only [Layout.tally_replicate, ← ite_and] at hheld
  rw [t.width.two_pow_bits, Finset.sum_filter]
  exact (Nat.mod_eq_of_lt hmerged).symm.trans hheld

/-- What a merge adds to the total and what it drops are together what the source has. -/
theorem merge_total (ht : t.Consistent) (hs : s.Consistent) (hexact : s.Exact) :
    (t.merge s).1.total + (t.merge s).2 ≡ t.total + s.total [MOD 2 ^ 64] := by
  have htotal := held_merge ht.shaped ht.framed hs hexact.covered .total
  simp only [Layout.tally_replicate, ← Finset.sum_filter] at htotal
  calc (t.merge s).1.total + (t.merge s).2
      ≡ t.total + (∑ i ∈ Finset.range s.layout.slotCount with s.Fits t.layout t.width i,
          s.count i) + (t.merge s).2 [MOD 2 ^ 64] := htotal.add_right _
    _ = t.total + s.total := by
        rw [merge_dropped ht hs hexact.covered, hexact, Nat.add_assoc,
          Finset.sum_filter_add_sum_filter_not]

/-- Between histograms that are laid out alike, with counters that are no narrower, a merge drops
nothing and adds slots to slots. -/
theorem merge_alike (ht : t.Reachable) (hs : s.Reachable) (hcovered : s.Covered)
    (hlayout : t.layout = s.layout) (hwidth : s.width.bits ≤ t.width.bits) :
    (t.merge s).2 = 0 ∧ ∀ j < t.layout.slotCount,
      (t.merge s).1.count j = (t.count j + s.count j) % 2 ^ t.width.bits := by
  have hcount := merge_count ht hs hcovered
  have hs := hs.consistent
  refine ⟨?_, fun j hj => ?_⟩
  · rw [merge_dropped ht.consistent hs hcovered, hlayout]
    refine Finset.sum_eq_zero fun i hi => ?_
    obtain ⟨hlt, hnot⟩ := Finset.mem_filter.mp hi
    by_contra hrecorded
    exact hnot (hs.fits_alike hwidth (Finset.mem_range.mp hlt) hrecorded)
  · have hown : ∑ i ∈ Finset.range s.layout.slotCount with
        s.Fits t.layout t.width i ∧ t.layout.slotOf? (s.layout.lowestOfIndex i) = some j,
        s.count i = s.count j := by
      calc _ = ∑ i ∈ Finset.range s.layout.slotCount, if j = i then s.count i else 0 := by
            rw [Finset.sum_filter]
            refine Finset.sum_congr rfl fun i hi => ?_
            have hlt := Finset.mem_range.mp hi
            by_cases hempty : s.count i = 0
            · simp [hempty]
            · simp [hlayout, hs.fits_alike hwidth hlt hempty, hs.slotOf?_lowestOfIndex hlt hempty,
                eq_comm]
        _ = s.count j := by
            rw [Finset.sum_ite_eq, if_pos (Finset.mem_range.mpr (hlayout ▸ hj))]
    rw [hcount, hown]

/-- A merge accounts for every sample of the source, whatever the layouts and the counters of the
two histograms, if the slots of the source come exactly to its total. -/
theorem merge_accounted (ht : t.Reachable) (hs : s.Reachable) (hexact : s.Exact) :
    t.Accounted s where
  dropped := merge_dropped ht.consistent hs.consistent hexact.covered
  count j _ := merge_count ht hs hexact.covered j
  total := merge_total ht.consistent hs.consistent hexact
  alike := merge_alike ht hs hexact.covered

/-- 250 samples of 50, in counters of 8 bits. -/
def taking : Histogram :=
  let empty := ofLayout ⟨⟨1, 100, 1⟩, 0, 4, 32, 16, 31, 3, 64⟩ .bits8
  ((Recording.plain 50 250).run empty).1

/-- Ten samples of 51, 300 of 7 and three of 900, in counters of 16 bits and units of two. -/
def giving : Histogram :=
  let empty := ofLayout ⟨⟨2, 1000, 1⟩, 1, 4, 32, 16, 62, 6, 112⟩ .bits16
  let tens := ((Recording.plain 51 10).run empty).1
  ((Recording.plain 900 3).run ((Recording.plain 7 300).run tens).1).1

/-- Operations lead to these samples. -/
theorem taking_reachable : taking.Reachable :=
  (Reachable.ofLayout (b := ⟨1, 100, 1⟩) (L := ⟨⟨1, 100, 1⟩, 0, 4, 32, 16, 31, 3, 64⟩)
    (by decide +kernel) .bits8).run (.plain 50 250) (by decide)

/-- Operations lead to these samples. -/
theorem giving_reachable : giving.Reachable := by
  have hempty := Reachable.ofLayout (b := ⟨2, 1000, 1⟩)
    (L := ⟨⟨2, 1000, 1⟩, 1, 4, 32, 16, 62, 6, 112⟩) (by decide +kernel) .bits16
  have htens := hempty.run (.plain 51 10) (by decide)
  exact (htens.run (.plain 7 300) (by decide)).run (.plain 900 3) (by decide)

/-- The ten samples of 51 are taken in with those of 50, whose counter starts over. The 300 are too
many for a counter and 900 is too great, so that 303 samples are dropped. -/
theorem taken_accounted : giving.Exact ∧ taking.Accounted giving ∧ (taking.merge giving).2 = 303 ∧
    (taking.merge giving).1.count 41 = 4 ∧ (taking.merge giving).1.total = 260 :=
  ⟨by decide +kernel, merge_accounted taking_reachable giving_reachable (by decide +kernel),
    by decide +kernel, by decide +kernel, by decide +kernel⟩

end Histogram

end DynamicRange
