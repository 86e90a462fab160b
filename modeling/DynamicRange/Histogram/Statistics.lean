import DynamicRange.Traversal.Recorded

/-!
# Statistics

Mean and deviation take every sample at the middle of its slot. The value at a percentile is found
in two steps: the percentile and the number of samples give a rank (`rankAt`), and the value at a
rank is the highest value of the first slot up to which that many samples are counted
(`valueAtRank`).
-/

namespace DynamicRange.Histogram

/-- The middle of the slot that an item reports. -/
def middle (h : Histogram) (x : Item) : Float :=
  countToFloat (h.layout.medianEquivalent x.lowest)

/-- The mean of the samples; zero if there are none. -/
def mean (h : Histogram) : Float :=
  if h.total = 0 then
    0.0
  else
    h.foldRecorded (fun sum x => sum + h.middle x * countToFloat x.count / countToFloat h.total) 0.0

/-- The standard deviation of the samples, taken as the whole population; zero if there are
none. -/
def deviation (h : Histogram) : Float :=
  if h.total = 0 then
    0.0
  else
    let mean := h.mean
    let squares := h.foldRecorded
      (fun sum x =>
        let off := h.middle x - mean
        sum + off * off * countToFloat x.count)
      0.0
    (squares / countToFloat h.total).sqrt

/-- The rank, counted from one, of the sample at a percentile among `total` samples, rounded to the
nearest. A percentile that is not below 100 counts as 100. -/
def rankAt (percentile : Float) (total : Nat) : Nat :=
  let percentile := if percentile < 100.0 then percentile else 100.0
  Nat.max ((percentile / 100.0) * countToFloat total + 0.5).toUInt64.toNat 1

/-- The highest value equivalent to the sample of a rank; zero if there are fewer samples. -/
def valueAtRank (h : Histogram) (rank : Nat) : Nat :=
  match (Cursor.start h).seek h (rank ≤ ·.passed) with
  | (c, true) => c.highest h.layout
  | (_, false) => 0

/-- The value that the given percentage of the samples lie at or below, as far as the layout
tells. -/
def valueAtPercentile (h : Histogram) (percentile : Float) : Nat :=
  h.valueAtRank (rankAt percentile h.total)

end DynamicRange.Histogram
