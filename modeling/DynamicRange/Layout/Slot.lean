import DynamicRange.Layout.Basic

/-!
# The slots of a layout

A slot has two names. Its location is a bucket and a place among the `subCount` places across that
bucket; its index counts the slots from the lowest upwards. The first bucket uses all its places,
every other bucket only those of its upper half. `Layout.locate` finds the location of a value,
`Layout.slotOf?` its index, and `Layout.lowestAt` and `Layout.lowestOfIndex` lead from either name
back to the lowest value of the slot.
-/

namespace DynamicRange

/-- A bucket, and a place across it. -/
structure Location where
  /-- The bucket, counted from the lowest. -/
  bucket : Nat
  /-- The place, counted from the start of the bucket. -/
  sub : Nat
  deriving DecidableEq, Repr

namespace Layout

/-- The first bucket that holds `v`: the number of doublings by which `v` exceeds the first
bucket. -/
def bucketOf (L : Layout) (v : Nat) : Nat :=
  bitLength (v ||| L.mask) - L.unitMagnitude - (L.halfMagnitude + 1)

/-- The location of `v`. -/
def locate (L : Layout) (v : Nat) : Location :=
  let bucket := L.bucketOf v
  ⟨bucket, v >>> (bucket + L.unitMagnitude)⟩

/-- The index of a location, which may lie past the last slot. The upper half of a bucket starts at
one `halfCount` for each bucket up to it. -/
def indexOf (L : Layout) (l : Location) : Nat :=
  (l.bucket + 1) * L.halfCount + l.sub - L.halfCount

/-- The index of the slot that counts `v`; none if `v` lies past the last slot. -/
def slotOf? (L : Layout) (v : Nat) : Option Nat :=
  let index := L.indexOf (L.locate v)
  if index < L.slotCount then some index else none

/-- The lowest value at a location, held at `topValue`. -/
def lowestAt (L : Layout) (l : Location) : Nat :=
  let shift := l.bucket + L.unitMagnitude
  if 63 < bitLength l.sub + shift then topValue else l.sub <<< shift

/-- The location that an index names. Bucket numbers have 32 bits; those of a layout's own slots
are far smaller. -/
def locationOf (L : Layout) (index : Nat) : Location :=
  let half := index >>> L.halfMagnitude
  let place := index &&& (L.halfCount - 1)
  if half = 0 then ⟨0, place⟩ else ⟨(half - 1) % 0x100000000, place + L.halfCount⟩

/-- The lowest value of the slot at an index. -/
def lowestOfIndex (L : Layout) (index : Nat) : Nat := L.lowestAt (L.locationOf index)

/-- The index of the last slot. -/
def lastIndex (L : Layout) : Nat := L.slotCount - 1

/-- The location that follows `l` in the order of values. -/
def following (L : Layout) (l : Location) : Location :=
  if l.sub + 1 < L.subCount then ⟨l.bucket, l.sub + 1⟩ else ⟨l.bucket + 1, L.halfCount⟩

end Layout

end DynamicRange
