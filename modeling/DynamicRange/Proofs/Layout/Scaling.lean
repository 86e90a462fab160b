import DynamicRange.Proofs.Layout.Derivation
import DynamicRange.Proofs.Layout.Ranges

/-!
# Layouts of scaled bounds

If the lowest and the highest value are multiplied by a power of two, the layout that is derived
from them stays the same up to its unit, which is multiplied by that power: `Layout.scale` says what
becomes of a layout, and `Bounds.layout_scale` that it is what scaled bounds lead to. The number of
buckets is kept since it is the least one that covers the highest value (`coveringBuckets_isLeast`),
whichever way the loop that counts them ends.

In the scaled layout a value is where, without its last digits, it was before (`locate_scale`). All
else follows from this: indices are kept, and whatever stands for a value is scaled.
-/

namespace DynamicRange

/-- A number has one digit less for each halving. -/
theorem bitLength_div_two_pow (n m : ℕ) : bitLength (n / 2 ^ m) = bitLength n - m := by
  refine eq_of_forall_ge_iff fun k => ?_
  rw [bitLength_le_iff, Nat.div_lt_iff_lt_mul (Nat.two_pow_pos m), ← pow_add, ← bitLength_le_iff]
  omega

/-- As many buckets cover a highest value as cover the scaled one from a scaled reach. -/
theorem coveringBuckets_scale {highest reach count m : ℕ} (hhighest : highest * 2 ^ m ≤ topValue)
    (hpos : 0 < reach) :
    coveringBuckets (highest * 2 ^ m) (reach * 2 ^ m) count =
      coveringBuckets highest reach count := by
  have hscale := Nat.two_pow_pos m
  have hleast : IsLeast {n | count ≤ n ∧ highest * 2 ^ m ≤ reach * 2 ^ m * 2 ^ (n - count)}
      (coveringBuckets (highest * 2 ^ m) (reach * 2 ^ m) count) :=
    coveringBuckets_isLeast hhighest (Nat.mul_pos hpos hscale)
  have hcovers : ∀ n, highest * 2 ^ m ≤ reach * 2 ^ m * 2 ^ (n - count) ↔
      highest ≤ reach * 2 ^ (n - count) := by
    intro n
    rw [Nat.mul_right_comm, Nat.mul_le_mul_right_iff hscale]
  simp only [hcovers] at hleast
  exact hleast.unique
    (coveringBuckets_isLeast ((Nat.le_mul_of_pos_right _ hscale).trans hhighest) hpos)

/-- Bounds on values that are multiplied by `2 ^ m`. -/
def Bounds.scale (b : Bounds) (m : ℕ) : Bounds :=
  { b with lowest := b.lowest * 2 ^ m, highest := b.highest * 2 ^ m }

/-- A layout with units that are multiplied by `2 ^ m`. -/
def Layout.scale (L : Layout) (m : ℕ) : Layout :=
  { L with
    toBounds := L.toBounds.scale m
    unitMagnitude := L.unitMagnitude + m
    mask := L.mask * 2 ^ m }

/-- A product with a power of two, as a natural number. -/
theorem toNat_mul_two_pow (v : ℤ) (m : ℕ) : (v * 2 ^ m).toNat = v.toNat * 2 ^ m := by
  rcases le_total 0 v with hv | hv
  · rw [Int.toNat_mul hv (by positivity), Int.toNat_pow_of_nonneg (by norm_num)]
    rfl
  · rw [Int.toNat_of_nonpos hv, Nat.zero_mul]
    exact Int.toNat_of_nonpos (Int.mul_nonpos_of_nonpos_of_nonneg hv (by positivity))

namespace Layout

section

variable {b : Bounds} {L L' : Layout} {m : ℕ}

/-- Scaled bounds lead to the scaled layout. -/
theorem ofBounds_scale (h : ofBounds b = .ok L) (h' : ofBounds (b.scale m) = .ok L')
    (hhighest : b.highest * 2 ^ m ≤ topValue) : L' = L.scale m := by
  have hL := ofBounds_shaped h
  obtain ⟨hlowest, -⟩ := bounds_of_ofBounds h
  obtain ⟨rfl, -⟩ := eq_layout_of_ofBounds h
  obtain ⟨rfl, -⟩ := eq_layout_of_ofBounds h'
  have hunit : (b.scale m).unitMagnitude = b.unitMagnitude + m := by
    have hlength : 0 < bitLength b.lowest.toNat := lt_bitLength_iff.mpr (by omega)
    show bitLength (b.lowest * 2 ^ m).toNat - 1 = bitLength b.lowest.toNat - 1 + m
    rw [toNat_mul_two_pow, bitLength_mul_two_pow (by omega)]
    omega
  have hmask : (b.scale m).layout.mask = b.layout.mask * 2 ^ m := by
    show (b.layout.subCount - 1) <<< (b.scale m).unitMagnitude =
      (b.layout.subCount - 1) <<< b.unitMagnitude * 2 ^ m
    rw [hunit, Nat.shiftLeft_add, Nat.shiftLeft_eq _ m]
  have hbuckets : (b.scale m).layout.bucketCount = b.layout.bucketCount := by
    have hpos : 0 < b.layout.mask := by
      rw [hL.mask_eq]
      exact (Nat.two_pow_pos _).trans_le (mask_bounds _ _).1
    have hfits : b.highest.toNat * 2 ^ m ≤ topValue := by
      rw [← toNat_mul_two_pow]
      omega
    show coveringBuckets (b.highest * 2 ^ m).toNat (b.scale m).layout.mask 1 =
      coveringBuckets b.highest.toNat b.layout.mask 1
    rw [hmask, toNat_mul_two_pow, coveringBuckets_scale hfits hpos]
  have hslots : (b.scale m).layout.slotCount = b.layout.slotCount := by
    show ((b.scale m).layout.bucketCount + 1) * b.layout.halfCount =
      (b.layout.bucketCount + 1) * b.layout.halfCount
    rw [hbuckets]
  show Layout.mk (b.scale m) (b.scale m).unitMagnitude _ _ _ (b.scale m).layout.mask
    (b.scale m).layout.bucketCount (b.scale m).layout.slotCount = _
  rw [hunit, hmask, hbuckets, hslots]
  rfl

end

/-! ## Values in a scaled layout -/

section

variable {L : Layout} {m : ℕ} (hL : L.Shaped) (hL' : (L.scale m).Shaped)

/-- The lowest value at a location is scaled. -/
theorem lowestExactly_scale (L : Layout) (m : ℕ) (l : Location) :
    (L.scale m).lowestExactly l = L.lowestExactly l * 2 ^ m := by
  show l.sub * 2 ^ (l.bucket + (L.unitMagnitude + m)) = _
  rw [← add_assoc, pow_add, ← mul_assoc, lowestExactly]

include hL hL'

/-- A value is where it was before without its last digits. -/
theorem locate_scale (w : ℕ) : (L.scale m).locate w = L.locate (w / 2 ^ m) := by
  have hunit : (L.scale m).unitMagnitude = L.unitMagnitude + m := rfl
  have hhalf : (L.scale m).halfMagnitude = L.halfMagnitude := rfl
  have hbucket : (L.scale m).bucketOf w = L.bucketOf (w / 2 ^ m) := by
    rw [bucketOf_eq hL', bucketOf_eq hL, bitLength_div_two_pow, hunit, hhalf]
    omega
  rw [locate_eq, locate_eq, hbucket, hunit, Nat.div_div_eq_div_mul, ← pow_add]
  congr 3
  omega

/-- A value has the slot that it had before without its last digits. -/
theorem slotOf?_scale (w : ℕ) : (L.scale m).slotOf? w = L.slotOf? (w / 2 ^ m) := by
  show (if L.indexOf ((L.scale m).locate w) < L.slotCount then
    some (L.indexOf ((L.scale m).locate w)) else none) = _
  rw [locate_scale hL hL']
  rfl

/-- The number of equivalent values is scaled. -/
theorem rangeSize_scale (w : ℕ) :
    (L.scale m).rangeSize w = L.rangeSize (w / 2 ^ m : ℕ) * 2 ^ m := by
  rw [rangeSize_eq hL', rangeSize_eq hL, Int.toNat_natCast, Int.toNat_natCast, locate_scale hL hL',
    ← pow_add, add_assoc]
  rfl

/-- The lowest equivalent value is scaled. -/
theorem lowestEquivalent_scale {w : ℕ} (hw : w ≤ topValue) :
    (L.scale m).lowestEquivalent w = L.lowestEquivalent (w / 2 ^ m : ℕ) * 2 ^ m := by
  have hvalue : w / 2 ^ m ≤ topValue := (Nat.div_le_self _ _).trans hw
  rw [lowestEquivalent_eq hL' (Int.ofNat_le.mpr hw),
    lowestEquivalent_eq hL (Int.ofNat_le.mpr hvalue), lowestExactly_scale, Int.toNat_natCast,
    Int.toNat_natCast, locate_scale hL hL']

/-- The lowest value of a slot is scaled, and held at `topValue`. -/
theorem lowestOfIndex_scale {i : ℕ} (hi : i < L.slotCount) :
    (L.scale m).lowestOfIndex i = min (L.lowestOfIndex i * 2 ^ m) topValue := by
  have hexact : (L.scale m).exactLowest i = L.exactLowest i * 2 ^ m := lowestExactly_scale L m _
  have hgrows : topValue ≤ topValue * 2 ^ m := Nat.le_mul_of_pos_right _ (Nat.two_pow_pos m)
  rw [lowestOfIndex_eq hL' hi, lowestOfIndex_eq hL hi, hexact, ← Nat.mul_min_mul_right, min_assoc,
    min_eq_right hgrows]

end

end Layout

end DynamicRange
