import DynamicRange.Layout.Slot

/-!
# Equivalent values

Values that share a slot are equivalent: a layout cannot tell them apart. The values equivalent to
one value form a range, described here by its ends, its middle and its size. A negative value stands
for zero.
-/

namespace DynamicRange.Layout

/-- The lowest value equivalent to `v`. -/
def lowestEquivalent (L : Layout) (v : Int) : Nat := L.lowestAt (L.locate v.toNat)

/-- The number of values equivalent to `v`: one unit, doubled once for every bucket. A place past
the end of its bucket would belong to the next one. -/
def rangeSize (L : Layout) (v : Int) : Nat :=
  let l := L.locate v.toNat
  let bucket := if L.subCount ≤ l.sub then l.bucket + 1 else l.bucket
  1 <<< (L.unitMagnitude + bucket)

/-- The least value above all those equivalent to `v`, held at `topValue`. -/
def nextInequivalent (L : Layout) (v : Int) : Nat :=
  saturatingAdd (L.lowestEquivalent v) (L.rangeSize v)

/-- The highest value equivalent to `v`. -/
def highestEquivalent (L : Layout) (v : Int) : Nat :=
  let next := L.nextInequivalent v
  if next = topValue then next else next - 1

/-- The middle of the values equivalent to `v`, rounded up. -/
def medianEquivalent (L : Layout) (v : Int) : Nat :=
  saturatingAdd (L.lowestEquivalent v) (L.rangeSize v >>> 1)

/-- Whether two values share a slot. -/
def equivalent (L : Layout) (v w : Int) : Bool := L.lowestEquivalent v == L.lowestEquivalent w

/-- The index of the slot that counts `v`, or of the last slot if `v` lies past it. -/
def clampedSlotOf (L : Layout) (v : Int) : Nat := (L.slotOf? v.toNat).getD L.lastIndex

end DynamicRange.Layout
