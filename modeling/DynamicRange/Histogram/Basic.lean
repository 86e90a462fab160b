import DynamicRange.Counter
import DynamicRange.Layout.Description
import DynamicRange.Layout.Equivalence

/-!
# Histograms

A histogram counts samples in the slots of its layout. Beside the slots it keeps the number of
samples and the least and greatest value among them, which `min` and `max` report to within the
resolution of the layout.
-/

namespace DynamicRange

/-- Counts of samples, by slot. -/
structure Histogram where
  /-- How values are divided into slots. -/
  layout : Layout
  /-- The size of the counter in each slot. -/
  width : CounterWidth
  /-- The number of samples, modulo `2 ^ 64`. -/
  total : Nat
  /-- The least nonzero value recorded; `topValue` as long as there is none. -/
  least : Nat
  /-- The greatest value recorded; zero as long as there is none. -/
  greatest : Nat
  /-- The count in each slot. -/
  slots : Array Nat

namespace Histogram

/-- A histogram without samples. -/
def ofLayout (layout : Layout) (width : CounterWidth) : Histogram where
  layout
  width
  total := 0
  least := topValue
  greatest := 0
  slots := Array.replicate layout.slotCount 0

/-- A histogram without samples for some bounds, or the reason why there is none. -/
def ofBounds (b : Bounds) (width : CounterWidth) : Except CreationError Histogram :=
  (Layout.ofBounds b).map (ofLayout · width)

/-- A histogram without samples that tells all values up to `highest` from zero. -/
def ofHighest (highest : Int) (digits : Nat) (width : CounterWidth) :
    Except CreationError Histogram :=
  ofBounds ⟨1, highest, digits⟩ width

/-- A histogram without samples, laid out like `h`. -/
def emptyLike (h : Histogram) (width : CounterWidth) : Histogram := ofLayout h.layout width

/-- Whether no sample was recorded. -/
def isEmpty (h : Histogram) : Bool := h.total == 0

/-- The number of slots. -/
def size (h : Histogram) : Nat := h.slots.size

/-- The bytes that the slots take up. -/
def slotBytes (h : Histogram) : Nat := h.size * h.width.bytes

/-- The count in the slot at an index, if there is such a slot. -/
def count? (h : Histogram) (index : Nat) : Option Nat := h.slots[index]?

/-- The count in the slot at an index, none counting as zero. -/
def count (h : Histogram) (index : Nat) : Nat := h.slots.getD index 0

/-- The lowest nonzero value recorded, as far as the layout tells; `topValue` if there is none. -/
def min (h : Histogram) : Nat :=
  if h.least = topValue then h.least else h.layout.lowestEquivalent h.least

/-- The highest value recorded, as far as the layout tells; zero if there is none. -/
def max (h : Histogram) : Nat :=
  if h.greatest = 0 then 0 else h.layout.highestEquivalent h.greatest

/-- Two histograms are equal if they are laid out alike and agree on the number of samples, on
the ends that they report and on every slot. The sizes of their counters do not matter. -/
instance : BEq Histogram where
  beq a b :=
    decide (a.layout = b.layout) && a.total == b.total && a.max == b.max && a.min == b.min &&
      a.slots == b.slots

/-- A histogram on one line: its layout, the number of samples and their ends. -/
def describe (h : Histogram) : String :=
  describeFields "Histogram"
    [("config", h.layout.describe), ("total_count", toString h.total), ("min", toString h.min),
      ("max", toString h.max)]

end Histogram

end DynamicRange
