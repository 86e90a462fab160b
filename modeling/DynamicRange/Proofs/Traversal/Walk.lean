import DynamicRange.Proofs.Histogram.Reachable
import DynamicRange.Proofs.Layout.Ranges

/-!
# Walks along the slots

A cursor goes from location to location and adds up counts. Its walk visits the slots in the order
of their indices: `Cursor.after` is the cursor that has visited the slots of the first indices, and
a move leads from one such cursor to the next (`move?_after`). What lies ahead of it, and whether it
is at the last slot, is settled by how many slots it has visited (`nextLowest_after`,
`atLastSlot_after`), so that every traversal can be followed along indices.
-/

namespace DynamicRange

/-! ## The locations of successive indices -/

namespace Layout

variable {L : Layout} (hL : L.Shaped)
include hL

/-- A proper location is the one that its index names. -/
theorem locationOf_indexOf {l : Location} (hl : L.Proper l) (hb : l.bucket < 0x100000000) :
    L.locationOf (L.indexOf l) = l := by
  obtain ⟨bucket, sub⟩ := l
  obtain ⟨hlt, hle⟩ := hl
  have hpos := Nat.two_pow_pos L.halfMagnitude
  rw [indexOf_eq hL, locationOf, hL.halfCount_eq, Nat.shiftRight_eq_div_pow,
    Nat.and_two_pow_sub_one_eq_mod]
  dsimp only at hlt hle hb ⊢
  rcases lt_or_ge sub (2 ^ L.halfMagnitude) with hlow | hhigh
  · -- The lower half belongs to the first bucket.
    have hfirst : bucket = 0 := by
      by_contra hne
      exact absurd (hle hne) (Nat.not_le.mpr hlow)
    rw [hfirst, Nat.zero_mul, Nat.zero_add, Nat.div_eq_of_lt hlow, Nat.mod_eq_of_lt hlow,
      if_pos rfl]
  · obtain ⟨place, rfl⟩ := Nat.exists_eq_add_of_le hhigh
    have hplace : place < 2 ^ L.halfMagnitude := by
      rw [pow_succ] at hlt
      omega
    have hsum : bucket * 2 ^ L.halfMagnitude + (2 ^ L.halfMagnitude + place) =
        place + 2 ^ L.halfMagnitude * (bucket + 1) := by ring
    rw [hsum, Nat.add_mul_div_left _ _ hpos, Nat.add_mul_mod_self_left, Nat.div_eq_of_lt hplace,
      Nat.mod_eq_of_lt hplace, if_neg (by omega), Nat.zero_add, Nat.add_sub_cancel,
      Nat.mod_eq_of_lt hb, Nat.add_comm place]

/-- The next index names the location that follows. -/
theorem locationOf_succ {i : ℕ} (hi : i < L.slotCount) :
    L.locationOf (i + 1) = L.following (L.locationOf i) := by
  obtain ⟨hl, hindex, hbucket⟩ := locationOf_spec hL hi
  obtain ⟨hnext, hnextIndex⟩ := following_spec hL hl
  have hfits := hL.last_fits
  have hlater : (L.following (L.locationOf i)).bucket ≤ (L.locationOf i).bucket + 1 := by
    rw [following]
    split <;> simp
  rw [← hindex, ← hnextIndex, locationOf_indexOf hL hnext (by omega), hindex]

/-- A proper location belongs to one of the buckets exactly when its index is one of a slot. -/
theorem bucket_lt_bucketCount_iff {l : Location} (hl : L.Proper l) :
    l.bucket < L.bucketCount ↔ L.indexOf l < L.slotCount := by
  have hsub := hl.sub_lt
  have hpos := hL.bucketCount_pos
  rw [pow_succ] at hsub
  rw [indexOf_eq hL, hL.slotCount_eq, Nat.add_mul]
  constructor
  · intro hlt
    have hbuckets : (l.bucket + 1) * 2 ^ L.halfMagnitude ≤ L.bucketCount * 2 ^ L.halfMagnitude :=
      Nat.mul_le_mul_right _ hlt
    rw [Nat.add_mul] at hbuckets
    omega
  · intro hlt
    by_contra hge
    have hupper := hl.le_sub (by omega)
    have hbuckets : L.bucketCount * 2 ^ L.halfMagnitude ≤ l.bucket * 2 ^ L.halfMagnitude :=
      Nat.mul_le_mul_right _ (not_lt.mp hge)
    omega

/-- The last place of the last bucket has the last index, and no other location has. -/
theorem last_place_iff {l : Location} (hl : L.Proper l) :
    l.bucket + 1 = L.bucketCount ∧ l.sub + 1 = L.subCount ↔ L.indexOf l + 1 = L.slotCount := by
  have hbucket := bucket_lt_bucketCount_iff hL hl
  have hsub := hl.sub_lt
  rw [indexOf_eq hL, hL.slotCount_eq] at *
  rw [hL.subCount_eq]
  rw [pow_succ] at hsub ⊢
  constructor
  · rintro ⟨hb, hs⟩
    rw [← hb]
    simp only [Nat.add_mul]
    omega
  · intro hlast
    have hlt := hbucket.mpr (by omega)
    -- A bucket before the last one ends before the last slot.
    have hb : l.bucket + 1 = L.bucketCount := by
      by_contra hne
      have hbuckets : (l.bucket + 2) * 2 ^ L.halfMagnitude
          ≤ L.bucketCount * 2 ^ L.halfMagnitude := Nat.mul_le_mul_right _ (by omega)
      simp only [Nat.add_mul] at hlast hbuckets
      omega
    refine ⟨hb, ?_⟩
    rw [← hb] at hlast
    simp only [Nat.add_mul] at hlast
    omega

/-- The index of a value names the location of the value. -/
theorem locationOf_indexFor {v : ℕ} (hv : v ≤ topValue) :
    L.locationOf (L.indexFor v) = L.locate v := by
  have hshort : bitLength v ≤ 63 := bitLength_le_iff.mpr (by simp only [topValue] at hv; omega)
  have hbucket : (L.locate v).bucket = bitLength v - (L.unitMagnitude + L.halfMagnitude + 1) :=
    bucketOf_eq hL v
  exact locationOf_indexOf hL (locate_proper hL v) (by omega)

/-- The lowest value of the slot of a value is the lowest equivalent value. -/
theorem lowestOfIndex_indexFor {v : ℕ} (hv : v ≤ topValue) :
    L.lowestOfIndex (L.indexFor v) = L.lowestEquivalent v := by
  rw [lowestOfIndex, locationOf_indexFor hL hv, lowestEquivalent, Int.toNat_natCast]

end Layout

/-! ## Cursors behind the first slots -/

/-- Before the first slot there are no samples. -/
theorem Histogram.countIn_zero (h : Histogram) : h.countIn 0 0 = 0 := by
  rw [countIn_eq]
  rfl

/-- One more slot adds its samples to those of a run. -/
theorem Histogram.countIn_succ (h : Histogram) (n : ℕ) :
    h.countIn 0 (n + 1) = wrapTotal (h.countIn 0 n + h.count n) := by
  rw [countIn_eq, countIn_eq, ← Finset.range_eq_Ico, ← Finset.range_eq_Ico, Finset.sum_range_succ,
    wrapTotal, wrapTotal, wrapTotal, Nat.mod_add_mod]

namespace Cursor

/-- The cursor that has visited the slots of the first `n` indices, and `reported` samples at its
last report. -/
def after (h : Histogram) (reported : ℕ) : ℕ → Cursor
  | 0 => { start h with reported }
  | n + 1 => ⟨some (h.layout.locationOf n), h.count n, h.countIn 0 (n + 1), reported, h.total⟩

variable (h : Histogram) (reported n : ℕ)

theorem start_eq_after : start h = after h 0 0 := rfl

theorem after_total : (after h reported n).total = h.total := by cases n <;> rfl

theorem after_reported : (after h reported n).reported = reported := by cases n <;> rfl

theorem after_passed : (after h reported n).passed = h.countIn 0 n := by
  cases n with
  | zero => exact h.countIn_zero.symm
  | succ n => rfl

variable {h n} (hL : h.layout.Shaped)
include hL

/-- The next location is that of the next index. -/
theorem next_after (hn : n ≤ h.layout.slotCount) :
    (after h reported n).next h.layout = h.layout.locationOf n := by
  cases n with
  | zero => simp [after, start, next, Layout.locationOf]
  | succ n => exact (Layout.locationOf_succ hL hn).symm

/-- A move visits the slot of the next index. -/
theorem move?_after (hn : n < h.layout.slotCount) :
    (after h reported n).move? h = some (after h reported (n + 1)) := by
  obtain ⟨-, hindex, hbucket⟩ := Layout.locationOf_spec hL hn
  simp only [move?, next_after reported hL hn.le, if_pos hbucket, hindex, after_passed,
    after_reported, after_total, ← h.countIn_succ]
  rfl

/-- The next slot begins at the lowest value of the next index. -/
theorem nextLowest_after (hn : n ≤ h.layout.slotCount) :
    (after h reported n).nextLowest h.layout = h.layout.lowestOfIndex n := by
  rw [nextLowest, next_after reported hL hn, Layout.lowestOfIndex]

/-- Behind the last slot there is no move. -/
theorem move?_after_last : (after h reported h.layout.slotCount).move? h = none := by
  have hpos := hL.slotCount_pos
  obtain ⟨hl, hindex, -⟩ := Layout.locationOf_spec hL (Nat.sub_one_lt hpos.ne')
  obtain ⟨hnext, hnextIndex⟩ := Layout.following_spec hL hl
  have hbucket := Layout.bucket_lt_bucketCount_iff hL hnext
  rw [← Layout.locationOf_succ hL (Nat.sub_one_lt hpos.ne'), Nat.sub_one_add_one hpos.ne'] at *
  rw [move?, next_after reported hL le_rfl, if_neg (by rw [hbucket]; omega)]

/-- A search goes on to the slot of the next index, if samples lie ahead. -/
theorem seek_after (goal : Cursor → Bool) (hn : n < h.layout.slotCount)
    (hahead : (after h reported n).hasNext = true) :
    (after h reported n).seek h goal =
      if goal (after h reported (n + 1)) then
        (after h reported (n + 1), true)
      else
        (after h reported (n + 1)).seek h goal := by
  rw [seek, if_pos hahead]
  split
  · next hnone => simp [move?_after reported hL hn] at hnone
  · next c hmoved =>
    rw [move?_after reported hL hn, Option.some.injEq] at hmoved
    rw [hmoved]

/-- Behind the last slot a search finds nothing. -/
theorem seek_after_last (goal : Cursor → Bool) :
    (after h reported h.layout.slotCount).seek h goal =
      (after h reported h.layout.slotCount, false) := by
  rw [seek]
  split
  · split
    · rfl
    · next hmoved => simp [move?_after_last reported hL] at hmoved
  · rfl

/-- A search ends behind some of the slots ahead, and where it is successful it has visited one
that meets its goal. -/
theorem seek_after_cases (goal : Cursor → Bool) (hn : n ≤ h.layout.slotCount) :
    ∃ m found, (after h reported n).seek h goal = (after h reported m, found) ∧ n ≤ m ∧
      m ≤ h.layout.slotCount ∧ (found = true → n < m ∧ goal (after h reported m) = true) := by
  induction hn using Nat.decreasingInduction with
  | self => exact ⟨_, _, seek_after_last reported hL goal, le_rfl, le_rfl, by simp⟩
  | of_succ n hn ih =>
    by_cases hahead : (after h reported n).hasNext = true
    · rw [seek_after reported hL goal hn hahead]
      by_cases hgoal : goal (after h reported (n + 1)) = true
      · exact ⟨n + 1, true, if_pos hgoal, n.le_succ, hn, fun _ => ⟨n.lt_succ_self, hgoal⟩⟩
      · obtain ⟨m, found, hseek, hnm, hm, hfound⟩ := ih
        exact ⟨m, found, (if_neg hgoal).trans hseek, (n.le_succ).trans hnm, hm,
          fun h => ⟨n.lt_succ_self.trans (hfound h).1, (hfound h).2⟩⟩
    · exact ⟨n, false, by rw [seek, if_neg hahead], le_rfl, hn.le, by simp⟩

/-- A cursor is at the last slot when it has visited all of them. -/
theorem atLastSlot_after (hn : n ≤ h.layout.slotCount) :
    (after h reported n).atLastSlot h.layout = decide (n = h.layout.slotCount) := by
  cases n with
  | zero => simp [after, start, atLastSlot, hL.slotCount_pos.ne]
  | succ n =>
    obtain ⟨hl, hindex, -⟩ := Layout.locationOf_spec hL hn
    have hlast := Layout.last_place_iff hL hl
    rw [hindex] at hlast
    rw [decide_eq_decide.mpr hlast.symm, Bool.decide_and]
    rfl

end Cursor

/-! ## Slots that hold samples -/

/-- The lowest value of a slot, as it is computed, is a value. -/
theorem Layout.lowestOfIndex_le (L : Layout) (i : ℕ) : (L.lowestOfIndex i : ℤ) ≤ topValue :=
  Int.ofNat_le.mpr (L.lowestAt_le _)

namespace Histogram

variable {h : Histogram} (hh : h.Consistent) {i : ℕ}
include hh

/-- The layout of a consistent histogram keeps its precision. -/
theorem Consistent.precise : h.layout.Precise := by
  obtain ⟨b, hbounds⟩ := hh.accepted
  exact Layout.ofBounds_precise hbounds

/-- The lowest value of a slot that holds samples has the index of the slot. -/
theorem Consistent.indexFor_lowestOfIndex (hi : i < h.layout.slotCount)
    (hrecorded : h.count i ≠ 0) : h.layout.indexFor (h.layout.lowestOfIndex i) = i := by
  obtain ⟨hl, hindex, -⟩ := Layout.locationOf_spec hh.shaped hi
  have htop : h.layout.exactLowest i ≤ topValue :=
    not_lt.mp fun hpast => hrecorded (hh.past_top i hi hpast)
  rw [Layout.lowestOfIndex_eq hh.shaped hi, min_eq_left htop, Layout.exactLowest,
    Layout.indexFor_lowestExactly hh.shaped hl, hindex]

/-- So it is counted in that slot. -/
theorem Consistent.slotOf?_lowestOfIndex (hi : i < h.layout.slotCount)
    (hrecorded : h.count i ≠ 0) : h.layout.slotOf? (h.layout.lowestOfIndex i) = some i :=
  Layout.slotOf?_eq_some_iff.mpr ⟨hh.indexFor_lowestOfIndex hi hrecorded, hi⟩

end Histogram

/-! ## Walks that do not start over -/

namespace Histogram

/-- The counts of the slots come exactly to the total. -/
def Exact (h : Histogram) : Prop := h.total = ∑ i ∈ Finset.range h.layout.slotCount, h.count i

instance (h : Histogram) : Decidable h.Exact := inferInstanceAs (Decidable (_ = _))

/-- The counts of the slots come to no more than the total, as they do unless counters of slots
started over more often than the total. -/
def Covered (h : Histogram) : Prop := ∑ i ∈ Finset.range h.layout.slotCount, h.count i ≤ h.total

theorem Exact.covered {h : Histogram} (hexact : h.Exact) : h.Covered := hexact.ge

namespace Covered

variable {h : Histogram} (hcovered : h.Covered) {n : ℕ} (hn : n ≤ h.layout.slotCount)
include hcovered hn

/-- The first slots have no more samples than there are. -/
theorem sum_le : ∑ i ∈ Finset.range n, h.count i ≤ h.total :=
  (Finset.sum_le_sum_of_subset (Finset.range_subset_range.mpr hn)).trans hcovered

/-- The samples in the first slots are not so many that their number starts over. -/
theorem countIn_eq_sum (hh : h.Consistent) :
    h.countIn 0 n = ∑ i ∈ Finset.range n, h.count i := by
  rw [countIn_eq, ← Finset.range_eq_Ico]
  exact Nat.mod_eq_of_lt ((hcovered.sum_le hn).trans_lt (hh.bounded .total))

/-- Samples lie ahead as long as the slots visited do not come to the total. -/
theorem hasNext_after_iff (hh : h.Consistent) (reported : ℕ) :
    (Cursor.after h reported n).hasNext = true ↔ ∑ i ∈ Finset.range n, h.count i < h.total := by
  rw [Cursor.hasNext, Cursor.after_passed, Cursor.after_total, hcovered.countIn_eq_sum hn hh,
    decide_eq_true_iff]

omit hn in
/-- What the numbers of samples in two runs of first slots differ by. The totals do not start
over. -/
theorem sum_add_totalSince (hh : h.Consistent) {m : ℕ} (hnm : n ≤ m)
    (hm : m ≤ h.layout.slotCount) :
    ∑ i ∈ Finset.range n, h.count i + totalSince (h.countIn 0 m) (h.countIn 0 n) =
      ∑ i ∈ Finset.range m, h.count i := by
  have hsum := Finset.sum_le_sum_of_subset (f := h.count) (Finset.range_subset_range.mpr hnm)
  have hbound := (hcovered.sum_le hm).trans_lt (hh.bounded .total)
  rw [hcovered.countIn_eq_sum hm hh, hcovered.countIn_eq_sum (hnm.trans hm) hh, totalSince,
    wrapTotal]
  simp only [Tally.limit] at hbound
  omega

end Covered

end Histogram

end DynamicRange
