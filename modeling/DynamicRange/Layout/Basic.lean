import DynamicRange.Word

/-!
# Layouts

A layout says how the values are divided into slots. It is derived from three bounds: the lowest
value that must be told from zero, the highest value that must fit, and the number of decimal
digits to which values are told apart. Values are counted in units of the greatest power of two
that is at most the lowest value, and a bucket is a run of `subCount` equally wide slots, enough
for single-unit resolution up to twice the wanted power of ten. Every bucket after the first is
twice as wide as the one before and shares its lower half with the buckets below it, so only its
upper half has slots of its own.

`Layout.ofBounds` refuses bounds that no layout serves; of several reasons, the one listed first
in `CreationError` wins.
-/

namespace DynamicRange

/-- Why no layout, or no histogram, can be made. -/
inductive CreationError where
  /-- The lowest value is not positive. -/
  | lowestNotPositive
  /-- The number of digits is not between one and five. -/
  | digitsOutOfRange
  /-- The highest value is less than twice the lowest. -/
  | highestBelowTwiceLowest
  /-- The slots of one bucket reach past the greatest value. -/
  | digitsBeyondLowest
  /-- There is no room for the slots. -/
  | allocationFailed
  deriving DecidableEq, Repr

/-- The sentence that reports a creation error. -/
def CreationError.message : CreationError → String
  | .lowestNotPositive => "lowest trackable value must be >= 1"
  | .digitsOutOfRange => "significant figures must be between 1 and 5"
  | .highestBelowTwiceLowest => "highest trackable value must be >= 2 * lowest trackable value"
  | .digitsBeyondLowest =>
    "cannot represent significant figures worth of values beyond lowest value"
  | .allocationFailed => "could not allocate counts array"

/-- What a user asks of a layout. -/
structure Bounds where
  /-- The lowest value told from zero. -/
  lowest : Int
  /-- The highest value that must fit. -/
  highest : Int
  /-- The decimal digits to which values are told apart. -/
  digits : Nat
  deriving DecidableEq, Repr

/-- How values are divided into slots. -/
structure Layout extends Bounds where
  /-- The binary logarithm of the unit in which values are counted. -/
  unitMagnitude : Nat
  /-- The binary logarithm of `halfCount`. -/
  halfMagnitude : Nat
  /-- The number of slots across one bucket. -/
  subCount : Nat
  /-- The number of slots across the upper half of a bucket. -/
  halfCount : Nat
  /-- The bits that a value inside the first bucket may have, the bits below the unit apart. -/
  mask : Nat
  /-- The number of buckets. -/
  bucketCount : Nat
  /-- The number of slots in all. -/
  slotCount : Nat
  deriving DecidableEq, Repr

/-- The number of buckets that cover the values up to `highest`, when `count` buckets have been
laid and the last of them ends at about `reach`. The bucket that would end past `topValue` is the
last one. -/
def coveringBuckets (highest reach count : Nat) : Nat :=
  if 0 < reach ∧ reach < highest then
    if topValue / 2 < reach then count + 1 else coveringBuckets highest (reach <<< 1) (count + 1)
  else count
termination_by highest - reach
decreasing_by simp only [Nat.shiftLeft_eq]; omega

/-- The binary logarithm of the unit for a lowest value: the unit is the greatest power of two
that is not above it. -/
def Bounds.unitMagnitude (b : Bounds) : Nat := bitLength b.lowest.toNat - 1

/-- The binary logarithm of half the slots across a bucket: a bucket has the least power of two
that is not below `2 * 10 ^ digits`. -/
def Bounds.halfMagnitude (b : Bounds) : Nat := max (bitLength (2 * Nat.pow 10 b.digits - 1)) 1 - 1

/-- The layout that bounds lead to, whether or not they may be used. -/
def Bounds.layout (b : Bounds) : Layout :=
  let unitMagnitude := b.unitMagnitude
  let halfMagnitude := b.halfMagnitude
  let subCount := 1 <<< (halfMagnitude + 1)
  let halfCount := subCount / 2
  let mask := (subCount - 1) <<< unitMagnitude
  let bucketCount := coveringBuckets b.highest.toNat mask 1
  { b with
    unitMagnitude, halfMagnitude, subCount, halfCount, mask, bucketCount
    slotCount := (bucketCount + 1) * halfCount }

/-- The layout for some bounds, or the first reason why there is none. -/
def Layout.ofBounds (b : Bounds) : Except CreationError Layout :=
  if b.lowest < 1 then
    .error .lowestNotPositive
  else if b.digits < 1 ∨ 5 < b.digits then
    .error .digitsOutOfRange
  else if b.highest < min (2 * b.lowest) topValue then
    .error .highestBelowTwiceLowest
  else if 63 < b.unitMagnitude + b.halfMagnitude + 1 then
    .error .digitsBeyondLowest
  else
    .ok b.layout

end DynamicRange
