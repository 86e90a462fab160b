import DynamicRange.Proofs.Layout.Ranges

/-!
# The ends of ranges agree with the slots

The lower end, the upper end, the size, the middle and the successor of a range are computed one by
one, and sums that run past the values are held at `topValue`, which is a value as well.
`ofBounds_rangesAgree` says that they describe one and the same range nevertheless, that of the
values with the same index, for every value there is and not only for those that have a slot.

The index settles all of it. Both ends of a range have the index of its values, what follows the
upper end has the next index (`indexFor_highestEquivalent_succ`), and a range reaches `topValue`
exactly if it is the range of `topValue` (`highestEquivalent_eq_topValue_iff`), so that a successor
held at `topValue` is told from one that is there.
-/

namespace DynamicRange.Layout

/-- How what is said of the range of a value hangs together, a negative value standing for zero. -/
structure RangesAgree (L : Layout) : Prop where
  /-- A value lies between the ends of its range, and these are values. -/
  mem : ∀ v : ℤ, v ≤ topValue → L.lowestEquivalent v ≤ v.toNat ∧ v.toNat ≤ L.highestEquivalent v ∧
    L.highestEquivalent v ≤ topValue
  /-- Equivalent to a value are those between the ends of its range, which are those that have the
  same index. -/
  equivalent_iff : ∀ v : ℤ, v ≤ topValue → ∀ x ≤ topValue,
    (L.equivalent v x ↔ L.lowestEquivalent v ≤ x ∧ x ≤ L.highestEquivalent v) ∧
      (L.equivalent v x ↔ L.indexOf (L.locate v.toNat) = L.indexOf (L.locate x))
  /-- There are as many of them as the size of the range says. -/
  size : ∀ v : ℤ, v ≤ topValue →
    {x : ℕ | x ≤ topValue ∧ L.equivalent v x}.ncard = L.rangeSize v
  /-- The next value is the one behind the upper end, and with it the next range starts; behind the
  topmost range there is none, and `topValue` stands for it. -/
  next : ∀ v : ℤ, v ≤ topValue →
    if L.equivalent v topValue then
      L.highestEquivalent v = topValue ∧ L.nextInequivalent v = topValue
    else
      L.nextInequivalent v = L.highestEquivalent v + 1 ∧ L.nextInequivalent v ≤ topValue ∧
        L.lowestEquivalent (L.nextInequivalent v) = L.nextInequivalent v ∧
        L.indexOf (L.locate (L.nextInequivalent v)) = L.indexOf (L.locate v.toNat) + 1
  /-- Of greater values neither the ends nor the next value are lower. -/
  mono : ∀ v w : ℤ, v ≤ w → w ≤ topValue → L.lowestEquivalent v ≤ L.lowestEquivalent w ∧
    L.highestEquivalent v ≤ L.highestEquivalent w ∧ L.nextInequivalent v ≤ L.nextInequivalent w
  /-- Each end of a range is the same end of its own range. -/
  idem : ∀ v : ℤ, v ≤ topValue →
    L.lowestEquivalent (L.lowestEquivalent v) = L.lowestEquivalent v ∧
      L.highestEquivalent (L.highestEquivalent v) = L.highestEquivalent v
  /-- The middle lies half the size above the lower end, and not above the upper end. -/
  median : ∀ v : ℤ, v ≤ topValue →
    L.medianEquivalent v = L.lowestEquivalent v + L.rangeSize v / 2 ∧
      L.medianEquivalent v ≤ L.highestEquivalent v

section

variable {L : Layout} (hL : L.Precise) {v w : ℤ}
include hL

/-- A value lies between the ends of its range, and these are values. -/
theorem mem_range (hv : v ≤ topValue) : L.lowestEquivalent v ≤ v.toNat ∧
    v.toNat ≤ L.highestEquivalent v ∧ L.highestEquivalent v ≤ topValue := by
  have hend := lowestEquivalent_add_rangeSize_le hL.toShaped hv
  rw [← highestEquivalent_add_one hL hv] at hend
  exact ⟨(lowestEquivalent_le_iff hL.toShaped hv _).mpr le_rfl,
    (le_highestEquivalent_iff hL hv _).mpr le_rfl, Nat.le_of_succ_le_succ hend⟩

/-- A value is in a range exactly if it has the index of the range. -/
theorem mem_range_iff (hv : v ≤ topValue) (x : ℕ) :
    L.lowestEquivalent v ≤ x ∧ x ≤ L.highestEquivalent v ↔
      L.indexFor v.toNat = L.indexFor x := by
  rw [lowestEquivalent_le_iff hL.toShaped hv, le_highestEquivalent_iff hL hv, le_antisymm_iff]

/-- The highest equivalent value has the same index. -/
theorem indexFor_highestEquivalent (hv : v ≤ topValue) :
    L.indexFor (L.highestEquivalent v) = L.indexFor v.toNat := by
  obtain ⟨hlow, hhigh, -⟩ := mem_range hL hv
  exact ((mem_range_iff hL hv _).mp ⟨hlow.trans hhigh, le_rfl⟩).symm

/-- What comes behind the highest equivalent value has the next index. -/
theorem indexFor_highestEquivalent_succ (hv : v ≤ topValue) :
    L.indexFor (L.highestEquivalent v + 1) = L.indexFor v.toNat + 1 := by
  have hnext := indexFor_succ_le hL.toShaped (L.highestEquivalent v)
  have hbehind := le_highestEquivalent_iff hL hv (L.highestEquivalent v + 1)
  rw [indexFor_highestEquivalent hL hv] at hnext
  omega

/-- Values with the same index have the same highest equivalent value. -/
theorem highestEquivalent_congr (hv : v ≤ topValue) (hw : w ≤ topValue)
    (h : L.indexFor v.toNat = L.indexFor w.toNat) :
    L.highestEquivalent v = L.highestEquivalent w :=
  eq_of_forall_le_iff fun x => by
    rw [le_highestEquivalent_iff hL hv, le_highestEquivalent_iff hL hw, h]

/-- The highest equivalent value is the highest of its own range. -/
theorem highestEquivalent_idem (hv : v ≤ topValue) :
    L.highestEquivalent (L.highestEquivalent v) = L.highestEquivalent v := by
  obtain ⟨-, -, htop⟩ := mem_range hL hv
  refine highestEquivalent_congr hL (Int.ofNat_le.mpr htop) hv ?_
  rw [Int.toNat_natCast, indexFor_highestEquivalent hL hv]

/-- The range that reaches `topValue` is the range of `topValue`. -/
theorem highestEquivalent_eq_topValue_iff (hv : v ≤ topValue) :
    L.highestEquivalent v = topValue ↔ L.equivalent v topValue := by
  have htop : (topValue : ℤ) ≤ topValue := le_rfl
  obtain ⟨-, hhigh, hle⟩ := mem_range hL htop
  rw [Int.toNat_natCast] at hhigh
  rw [equivalent_iff hL.toShaped hv htop, Int.toNat_natCast]
  constructor
  · intro heq
    rw [← heq, indexFor_highestEquivalent hL hv]
  · intro hindex
    exact (highestEquivalent_congr hL hv htop hindex).trans (le_antisymm hle hhigh)

/-- The next value is the one behind the highest equivalent value, held at `topValue`. -/
theorem nextInequivalent_eq (hv : v ≤ topValue) :
    L.nextInequivalent v = min (L.highestEquivalent v + 1) topValue := by
  rw [highestEquivalent_add_one hL hv]
  rfl

/-- Of greater values neither the ends nor the next value are lower. -/
theorem ends_mono (hvw : v ≤ w) (hw : w ≤ topValue) :
    L.lowestEquivalent v ≤ L.lowestEquivalent w ∧ L.highestEquivalent v ≤ L.highestEquivalent w ∧
      L.nextInequivalent v ≤ L.nextInequivalent w := by
  have hv := hvw.trans hw
  have hindex := indexFor_mono hL.toShaped (Int.toNat_le_toNat hvw)
  have hhighest : L.highestEquivalent v ≤ L.highestEquivalent w := by
    rwa [le_highestEquivalent_iff hL hw, indexFor_highestEquivalent hL hv]
  refine ⟨?_, hhighest, ?_⟩
  · rwa [lowestEquivalent_le_iff hL.toShaped hv, indexFor_lowestEquivalent hL.toShaped hw]
  · rw [nextInequivalent_eq hL hv, nextInequivalent_eq hL hw]
    exact min_le_min_right _ (Nat.succ_le_succ hhighest)

/-- The middle of a range lies half its size above its lowest value, and in the range. -/
theorem medianEquivalent_eq (hv : v ≤ topValue) :
    L.medianEquivalent v = L.lowestEquivalent v + L.rangeSize v / 2 ∧
      L.medianEquivalent v ≤ L.highestEquivalent v := by
  obtain ⟨-, -, htop⟩ := mem_range hL hv
  have hpos := rangeSize_pos hL.toShaped v
  have hend := highestEquivalent_add_one hL hv
  have hmedian :
      L.medianEquivalent v = min (L.lowestEquivalent v + L.rangeSize v / 2) topValue := by
    rw [medianEquivalent, Nat.shiftRight_one]
    rfl
  omega

/-- Outside the topmost range the next value is the lowest of the next range. -/
theorem nextInequivalent_of_not_equivalent (hv : v ≤ topValue) (hne : ¬L.equivalent v topValue) :
    L.nextInequivalent v = L.highestEquivalent v + 1 ∧ L.nextInequivalent v ≤ topValue ∧
      L.lowestEquivalent (L.nextInequivalent v) = L.nextInequivalent v ∧
      L.indexFor (L.nextInequivalent v) = L.indexFor v.toNat + 1 := by
  obtain ⟨-, -, htop⟩ := mem_range hL hv
  have hbelow := lt_of_le_of_ne htop fun h => hne ((highestEquivalent_eq_topValue_iff hL hv).mp h)
  have hindex := indexFor_highestEquivalent_succ hL hv
  rw [nextInequivalent_eq hL hv, min_eq_left hbelow]
  refine ⟨rfl, hbelow, le_antisymm (lowestEquivalent_le hL.toShaped hbelow) ?_, hindex⟩
  -- A lower value of that range would lie in the range before, whose values have another index.
  by_contra hlower
  have hbefore := (le_highestEquivalent_iff hL hv _).mp (Nat.le_of_lt_succ (not_le.mp hlower))
  rw [indexFor_lowestEquivalent hL.toShaped (Int.ofNat_le.mpr hbelow), Int.toNat_natCast,
    hindex] at hbefore
  omega

end

/-- In every accepted layout the ends, the size, the middle and the successor of a range agree with
each other and with the indices of values. -/
theorem ofBounds_rangesAgree {b : Bounds} {L : Layout} (h : ofBounds b = .ok L) :
    L.RangesAgree := by
  have hL := ofBounds_precise h
  refine ⟨fun v => mem_range hL, fun v hv x hx => ?_, fun v hv => ?_, fun v hv => ?_,
    fun v w => ends_mono hL, fun v hv => ⟨?_, highestEquivalent_idem hL hv⟩,
    fun v => medianEquivalent_eq hL⟩
  · have hsame := equivalent_iff hL.toShaped hv (Int.ofNat_le.mpr hx)
    rw [Int.toNat_natCast] at hsame
    exact ⟨hsame.trans (mem_range_iff hL hv x).symm, hsame⟩
  · rw [setOf_equivalent hL.toShaped hv, ← Finset.coe_Ico, Set.ncard_coe_finset, Nat.card_Ico,
      Nat.add_sub_cancel_left]
  · split
    · next htopmost =>
      have hhighest := (highestEquivalent_eq_topValue_iff hL hv).mpr htopmost
      exact ⟨hhighest, by rw [nextInequivalent_eq hL hv, hhighest]; decide⟩
    · next hbelow => exact nextInequivalent_of_not_equivalent hL hv hbelow
  · -- The lower end only depends on the value that stands for a negative one.
    obtain ⟨hlow, hhigh, htop⟩ := mem_range hL hv
    exact lowestEquivalent_idem hL.toShaped (a := v.toNat) (hhigh.trans htop)

/-- In slots of `2 ^ 58` values and more, the values from `2 ^ 63 - 2 ^ 58` form the topmost range,
from which no next one starts. -/
theorem rangesAgree_topmost :
    ofBounds ⟨2 ^ 58, 2 ^ 59, 1⟩ = .ok ⟨⟨2 ^ 58, 2 ^ 59, 1⟩, 58, 4, 32, 16, 31 * 2 ^ 58, 1, 32⟩ ∧
      RangesAgree ⟨⟨2 ^ 58, 2 ^ 59, 1⟩, 58, 4, 32, 16, 31 * 2 ^ 58, 1, 32⟩ ∧
      let L : Layout := ⟨⟨2 ^ 58, 2 ^ 59, 1⟩, 58, 4, 32, 16, 31 * 2 ^ 58, 1, 32⟩
      L.nextInequivalent (2 ^ 58 + 5) = 2 ^ 59 ∧ L.highestEquivalent (2 ^ 58 + 5) = 2 ^ 59 - 1 ∧
        L.lowestEquivalent (2 ^ 63 - 5) = 2 ^ 63 - 2 ^ 58 ∧
        L.nextInequivalent (2 ^ 63 - 5) = topValue :=
  ⟨by decide +kernel, ofBounds_rangesAgree (b := ⟨2 ^ 58, 2 ^ 59, 1⟩) (by decide +kernel),
    by decide +kernel⟩

end DynamicRange.Layout
