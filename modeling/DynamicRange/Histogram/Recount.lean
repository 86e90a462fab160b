import DynamicRange.Histogram.Query

/-!
# Recounting

The number of samples, and the least and greatest of them, can be found again from the slots alone.
After a counter has started over this is the only way to make the number of samples agree with the
slots.
-/

namespace DynamicRange.Histogram

/-- The first index whose slot is not empty, among the `n` indices from `start` on. -/
def firstRecorded? (h : Histogram) (start : Nat) : Nat → Option Nat
  | 0 => none
  | n + 1 => if h.count start ≠ 0 then some start else h.firstRecorded? (start + 1) n

/-- The last index below a bound whose slot is not empty. -/
def lastRecorded? (h : Histogram) : Nat → Option Nat
  | 0 => none
  | n + 1 => if h.count n ≠ 0 then some n else h.lastRecorded? n

/-- Counts the samples anew and takes the lowest value of the first slot that has some, the slot of
zero apart, and the highest of the last. -/
def recount (h : Histogram) : Histogram :=
  let total := h.countIn 0 h.size
  let least := (h.firstRecorded? 1 (h.size - 1)).elim topValue h.layout.lowestOfIndex
  let greatest := (h.lastRecorded? h.size).elim 0 fun index =>
    h.layout.highestEquivalent (h.layout.lowestOfIndex index)
  { h with total, least, greatest }

end DynamicRange.Histogram
