import DynamicRange.Proofs.Traversal.Walk
import DynamicRange.Traversal.Recorded

/-!
# The recorded slots, index by index

If the slots of a histogram come to no more than its total, the traversal of the recorded slots
reports every slot that is not empty, and no other, in the order of indices (`nextRecorded?_after`).
What it reports of a slot is `Histogram.itemAt`. So whatever is built up from the recorded slots is
built up by one pass over all indices (`foldRecorded_induction`).
-/

namespace DynamicRange

/-- What is reported of a recorded slot. -/
def Histogram.itemAt (h : Histogram) (i : ℕ) : Item where
  reached := h.layout.highestEquivalent (h.layout.lowestOfIndex i)
  lowest := h.layout.lowestOfIndex i
  percentile := percentage (h.countIn 0 (i + 1)) h.total
  count := h.count i
  cumulative := h.countIn 0 (i + 1)
  sinceLast := h.count i

namespace Cursor

variable {α : Type} {h : Histogram} {f : α → Item → α} {a : α} {c : Cursor}

/-- If no item lies ahead, nothing is taken in. -/
theorem foldRecorded_of_none (hnone : c.nextRecorded? h = none) : c.foldRecorded h f a = a := by
  rw [foldRecorded]
  split
  · rfl
  · next hfound => simp [hnone] at hfound

/-- If an item lies ahead, it is taken in first. -/
theorem foldRecorded_of_some {x : Item} {c' : Cursor} (hsome : c.nextRecorded? h = some (x, c')) :
    c.foldRecorded h f a = c'.foldRecorded h f (f a x) := by
  rw [foldRecorded]
  split
  · next hnone => simp [hsome] at hnone
  · next hfound =>
    obtain ⟨rfl, rfl⟩ := Prod.mk.inj (Option.some.inj (hsome.symm.trans hfound))
    rfl

/-- Cursors that find the same item next take in the same. -/
theorem foldRecorded_congr {d : Cursor} (hnext : c.nextRecorded? h = d.nextRecorded? h) :
    c.foldRecorded h f a = d.foldRecorded h f a := by
  rcases hd : d.nextRecorded? h with _ | ⟨x, d'⟩
  · rw [foldRecorded_of_none hd, foldRecorded_of_none (hnext.trans hd)]
  · rw [foldRecorded_of_some hd, foldRecorded_of_some (hnext.trans hd)]

end Cursor

section

variable {h : Histogram} (hh : h.Consistent) (hcovered : h.Covered)
include hh hcovered

namespace Cursor

/-- The report of a slot, when all samples before it were reported. -/
theorem report_after_succ {n : ℕ} (hn : n < h.layout.slotCount) :
    let c := after h (h.countIn 0 n) (n + 1)
    c.report h.layout (c.highest h.layout) c.percentile =
      (h.itemAt n, after h (h.countIn 0 (n + 1)) (n + 1)) := by
  have hsince : totalSince (h.countIn 0 (n + 1)) (h.countIn 0 n) = h.count n := by
    have hsum := hcovered.sum_add_totalSince hh (Nat.le_succ n) hn
    rwa [Finset.sum_range_succ, Nat.add_left_cancel_iff] at hsum
  refine Prod.ext ?_ rfl
  simp only [report, after, hsince]
  rfl

/-- When all samples before a slot were reported, the slot is passed over if it is empty and
reported if it is not. -/
theorem nextRecorded?_after {n : ℕ} (hn : n < h.layout.slotCount) :
    (after h (h.countIn 0 n) n).nextRecorded? h =
      if h.count n = 0 then
        (after h (h.countIn 0 (n + 1)) (n + 1)).nextRecorded? h
      else
        some (h.itemAt n, after h (h.countIn 0 (n + 1)) (n + 1)) := by
  have hpassed : ∑ i ∈ Finset.range (n + 1), h.count i =
      ∑ i ∈ Finset.range n, h.count i + h.count n := Finset.sum_range_succ ..
  have hbound := hcovered.sum_le (n := n + 1) hn
  have hhere := hcovered.hasNext_after_iff hn.le hh (h.countIn 0 n)
  split
  · next hempty =>
    have hsame : h.countIn 0 (n + 1) = h.countIn 0 n := by
      rw [hcovered.countIn_eq_sum hn hh, hcovered.countIn_eq_sum hn.le hh, hpassed, hempty,
        Nat.add_zero]
    have hthere := hcovered.hasNext_after_iff (n := n + 1) hn hh (h.countIn 0 n)
    rw [hsame, nextRecorded?, nextRecorded?]
    by_cases hnext : (after h (h.countIn 0 n) n).hasNext = true
    · rw [seek_after _ hh.shaped _ hn hnext, if_neg (by simp [after, hempty])]
    · -- Nothing lies ahead of the empty slot, so nothing lies behind it.
      have hdone : ¬(after h (h.countIn 0 n) (n + 1)).hasNext = true := by
        rw [hthere]
        rw [hhere] at hnext
        omega
      rw [seek, seek, if_neg hnext, if_neg hdone]
  · next hrecorded =>
    have hnext := hhere.mpr (by omega)
    rw [nextRecorded?, seek_after _ hh.shaped _ hn hnext, if_pos (by simp [after, hrecorded])]
    exact congrArg some (report_after_succ hh hcovered hn)

omit hcovered in
/-- Behind the last slot nothing is reported. -/
theorem nextRecorded?_after_last (reported : ℕ) :
    (after h reported h.layout.slotCount).nextRecorded? h = none := by
  rw [nextRecorded?, seek_after_last reported hh.shaped]

/-- What holds before some index, and is kept at every index from there on, be its slot empty or
taken in, holds behind the last one. -/
theorem foldRecorded_after_induction {α : Type} {P : ℕ → α → Prop} {f : α → Item → α}
    (hempty : ∀ i a, i < h.layout.slotCount → h.count i = 0 → P i a → P (i + 1) a)
    (hitem : ∀ i a, i < h.layout.slotCount → h.count i ≠ 0 → P i a → P (i + 1) (f a (h.itemAt i)))
    {n : ℕ} (hn : n ≤ h.layout.slotCount) {a : α} (ha : P n a) :
    P h.layout.slotCount ((after h (h.countIn 0 n) n).foldRecorded h f a) := by
  induction hn using Nat.decreasingInduction generalizing a with
  | self => rwa [foldRecorded_of_none (nextRecorded?_after_last hh _)]
  | of_succ n hn ih =>
    have hnext := nextRecorded?_after hh hcovered hn
    by_cases hcount : h.count n = 0
    · rw [if_pos hcount] at hnext
      rw [foldRecorded_congr hnext]
      exact ih (hempty n a hn hcount ha)
    · rw [if_neg hcount] at hnext
      rw [foldRecorded_of_some hnext]
      exact ih (hitem n a hn hcount ha)

end Cursor

/-- What holds before the first index, and is kept at every index, be its slot empty or taken in,
holds behind the last one. -/
theorem Histogram.foldRecorded_induction {α : Type} {P : ℕ → α → Prop} {f : α → Item → α}
    (hempty : ∀ i a, i < h.layout.slotCount → h.count i = 0 → P i a → P (i + 1) a)
    (hitem : ∀ i a, i < h.layout.slotCount → h.count i ≠ 0 → P i a → P (i + 1) (f a (h.itemAt i)))
    {a : α} (ha : P 0 a) : P h.layout.slotCount (h.foldRecorded f a) := by
  have hfold := Cursor.foldRecorded_after_induction hh hcovered hempty hitem
    (Nat.zero_le _) ha
  rwa [h.countIn_zero] at hfold

end

end DynamicRange
