import DynamicRange.Histogram.Basic

/-!
# Counts of values

The counts asked for here are sums over runs of slots. A value stands for its slot, a negative one
for the slot of zero, and one past the last slot for the last slot.
-/

namespace DynamicRange.Histogram

/-- The samples in the slots from index `start` to before `stop`. -/
def countIn (h : Histogram) (start stop : Nat) : Nat :=
  wrapTotal ((h.slots.extract start stop).foldl (· + ·) 0)

/-- The samples equivalent to `v`. -/
def countAt (h : Histogram) (v : Int) : Nat := h.count (h.layout.clampedSlotOf v)

/-- The samples from the lowest value equivalent to `low` to the highest equivalent to `high`. -/
def countBetween (h : Histogram) (low high : Int) : Nat :=
  let start := h.layout.clampedSlotOf low
  let last := h.layout.clampedSlotOf high
  if last < start then 0 else h.countIn start (last + 1)

/-- The samples up to the highest value equivalent to `v`. -/
def countUpTo (h : Histogram) (v : Int) : Nat := h.countIn 0 (h.layout.clampedSlotOf v + 1)

/-- How many per cent `count` is of `total`. -/
def percentage (count total : Nat) : Float := 100.0 * countToFloat count / countToFloat total

/-- The percentage of the samples up to the highest value equivalent to `v`; all of them if there
are none. -/
def percentileBelow (h : Histogram) (v : Int) : Float :=
  if h.total = 0 then 100.0 else percentage (h.countUpTo v) h.total

end DynamicRange.Histogram
