import DynamicRange.Proofs.Layout.Shape
import Mathlib.Data.Nat.Log
import Mathlib.Order.Bounds.Basic
import Mathlib.Tactic.Positivity

/-!
# How a layout follows from its bounds

`ofBounds_derivedFrom` says which bounds are accepted, and what layout they lead to, in exact
arithmetic: logarithms of any numbers, least powers of two, and the least number of buckets that
cover the highest value.

Two things stand between the derivation and this. The doubling of the lowest value is held at
`topValue`, but a lowest value for which that matters leaves no room for a bucket
(`two_mul_lowest_le`). And the loop that lays buckets leaves early when one more doubling would run
past the values. That last bucket covers all values, so the number of buckets is the least one
nevertheless (`coveringBuckets_isLeast`), and the same loop in words of 64 bits gives it without
ever doubling past `topValue` (`layBuckets?_eq`).
-/

namespace DynamicRange

/-! ## Logarithms -/

/-- A number has one digit more than its binary logarithm, rounded down. -/
theorem bitLength_sub_one (n : ℕ) : bitLength n - 1 = Nat.log 2 n := by
  rcases Nat.eq_zero_or_pos n with rfl | hpos
  · simp [bitLength]
  · rw [bitLength, if_neg hpos.ne', Nat.add_sub_cancel, Nat.log2_eq_log_two]

/-- The number before `n` has as many digits as the binary logarithm of `n` says, rounded up. -/
theorem bitLength_pred (n : ℕ) : bitLength (n - 1) = Nat.clog 2 n := by
  refine eq_of_forall_ge_iff fun m => ?_
  have hpos := Nat.two_pow_pos m
  rw [bitLength_le_iff, Nat.clog_le_iff_le_pow one_lt_two]
  omega

/-- The least power of two that reaches a number is named by its binary logarithm, rounded up. -/
theorem isLeast_two_pow_clog (n : ℕ) :
    IsLeast {p | (∃ k, p = 2 ^ k) ∧ n ≤ p} (2 ^ Nat.clog 2 n) := by
  refine ⟨⟨⟨_, rfl⟩, Nat.le_pow_clog one_lt_two n⟩, ?_⟩
  rintro _ ⟨⟨k, rfl⟩, hle⟩
  exact Nat.pow_le_pow_right (by norm_num) (Nat.clog_le_of_le_pow hle)

namespace Bounds

/-- The unit is named by the binary logarithm of the lowest value, rounded down. -/
theorem unitMagnitude_eq (b : Bounds) : b.unitMagnitude = Nat.log 2 b.lowest.toNat :=
  bitLength_sub_one _

/-- The places of a bucket are named by the binary logarithm of twice the power of ten, rounded
up. -/
theorem halfMagnitude_add_one (b : Bounds) :
    b.halfMagnitude + 1 = Nat.clog 2 (2 * 10 ^ b.digits) := by
  have hplaces : b.halfMagnitude = max (bitLength (2 * 10 ^ b.digits - 1)) 1 - 1 := rfl
  have hten : 0 < 10 ^ b.digits := by positivity
  have hpos : 0 < Nat.clog 2 (2 * 10 ^ b.digits) := Nat.clog_pos one_lt_two (by omega)
  rw [hplaces, bitLength_pred]
  omega

/-- A lowest value that leaves room for the first bucket can be doubled. -/
theorem two_mul_lowest_le {b : Bounds} (hdigits : 1 ≤ b.digits)
    (hfits : b.unitMagnitude + b.halfMagnitude + 1 ≤ 63) : 2 * b.lowest ≤ topValue := by
  have hten : 10 ^ 1 ≤ 10 ^ b.digits := Nat.pow_le_pow_right (by norm_num) hdigits
  have hplaces : 1 < Nat.clog 2 (2 * 10 ^ b.digits) :=
    (Nat.lt_clog_iff_pow_lt one_lt_two).mpr (by omega)
  rw [← halfMagnitude_add_one] at hplaces
  have hbelow : b.lowest.toNat < 2 ^ (b.unitMagnitude + 1) := by
    rw [unitMagnitude_eq]
    exact Nat.lt_pow_succ_log_self one_lt_two _
  have hunit : 2 ^ (b.unitMagnitude + 1) ≤ 2 ^ 62 := Nat.pow_le_pow_right (by norm_num) (by omega)
  simp only [topValue]
  omega

end Bounds

/-! ## Laying buckets -/

/-- The number of buckets is the least one with which the reach, doubled for every bucket laid,
covers the highest value. -/
theorem coveringBuckets_isLeast {highest reach count : ℕ} (hhighest : highest ≤ topValue)
    (hpos : 0 < reach) :
    IsLeast {n | count ≤ n ∧ highest ≤ reach * 2 ^ (n - count)}
      (coveringBuckets highest reach count) := by
  induction reach, count using coveringBuckets.induct highest with
  | case1 reach count h hhalf =>
    rw [coveringBuckets, if_pos h, if_pos hhalf]
    have htop : topValue < 2 * reach := by
      simp only [topValue] at hhalf ⊢
      omega
    refine ⟨⟨Nat.le_succ count, ?_⟩, ?_⟩
    · rw [Nat.add_sub_cancel_left, pow_one]
      omega
    · -- Without another bucket the reach stays below the highest value.
      rintro n ⟨hn, hcover⟩
      rcases hn.eq_or_lt with rfl | hlt
      · rw [Nat.sub_self, pow_zero, mul_one] at hcover
        omega
      · exact hlt
  | case2 reach count h hhalf ih =>
    rw [coveringBuckets, if_pos h, if_neg hhalf]
    have hdouble : reach <<< 1 = reach * 2 := Nat.shiftLeft_eq reach 1
    obtain ⟨⟨hcount, hcover⟩, hleast⟩ := ih (by rw [hdouble]; omega)
    have hnext : ∀ n, count < n →
        reach <<< 1 * 2 ^ (n - (count + 1)) = reach * 2 ^ (n - count) := by
      intro n hn
      rw [hdouble, mul_assoc, ← pow_succ']
      congr 2
      omega
    refine ⟨⟨Nat.le_of_succ_le hcount, hnext _ hcount ▸ hcover⟩, ?_⟩
    rintro n ⟨hn, hreach⟩
    rcases hn.eq_or_lt with rfl | hlt
    · rw [Nat.sub_self, pow_zero, mul_one] at hreach
      omega
    · exact hleast ⟨hlt, (hnext n hlt).symm ▸ hreach⟩
  | case3 reach count h =>
    rw [coveringBuckets, if_neg h]
    refine ⟨⟨le_rfl, ?_⟩, fun n hn => hn.1⟩
    rw [Nat.sub_self, pow_zero, mul_one]
    omega

/-- The same loop in words of 64 bits with a sign, for a number of rounds: none if it takes more of
them, or if the reach is doubled past `topValue`. -/
def layBuckets? (highest : ℕ) : (rounds reach count : ℕ) → Option ℕ
  | 0, _, _ => none
  | rounds + 1, reach, count =>
    if reach < highest then
      if topValue / 2 < reach then some (count + 1)
      else if reach <<< 1 ≤ topValue then layBuckets? highest rounds (reach <<< 1) (count + 1)
      else none
    else some count

/-- In words the loop ends within a round for every bucket, and gives the same number. -/
theorem layBuckets?_eq {highest reach count rounds : ℕ} (hhighest : highest ≤ topValue)
    (hpos : 0 < reach) (hrounds : coveringBuckets highest reach count < count + rounds) :
    layBuckets? highest rounds reach count = some (coveringBuckets highest reach count) := by
  induction reach, count using coveringBuckets.induct highest generalizing rounds with
  | case1 reach count h hhalf =>
    rw [coveringBuckets, if_pos h, if_pos hhalf] at hrounds ⊢
    obtain ⟨rounds, rfl⟩ := Nat.exists_eq_succ_of_ne_zero (show rounds ≠ 0 by omega)
    rw [layBuckets?, if_pos h.2, if_pos hhalf]
  | case2 reach count h hhalf ih =>
    rw [coveringBuckets, if_pos h, if_neg hhalf] at hrounds ⊢
    have hdouble : reach <<< 1 = reach * 2 := Nat.shiftLeft_eq reach 1
    have hpos' : 0 < reach <<< 1 := by omega
    have hcount : count + 1 ≤ coveringBuckets highest (reach <<< 1) (count + 1) :=
      (coveringBuckets_isLeast hhighest hpos').1.1
    obtain ⟨rounds, rfl⟩ := Nat.exists_eq_succ_of_ne_zero (show rounds ≠ 0 by omega)
    -- Half of the values are not yet passed, so that the doubled reach is a value.
    have hfits : reach <<< 1 ≤ topValue := by
      simp only [topValue] at hhalf ⊢
      omega
    rw [layBuckets?, if_pos h.2, if_neg hhalf, if_pos hfits]
    exact ih hpos' (by omega)
  | case3 reach count h =>
    rw [coveringBuckets, if_neg h] at hrounds ⊢
    obtain ⟨rounds, rfl⟩ := Nat.exists_eq_succ_of_ne_zero (show rounds ≠ 0 by omega)
    rw [layBuckets?, if_neg (by omega)]

/-! ## The derivation -/

namespace Layout

/-- Bounds are accepted exactly if they are in order and leave room for the first bucket. -/
theorem exists_ofBounds_eq_ok_iff (b : Bounds) : (∃ L, ofBounds b = .ok L) ↔
    1 ≤ b.lowest ∧ (1 ≤ b.digits ∧ b.digits ≤ 5) ∧ 2 * b.lowest ≤ b.highest ∧
      Nat.log 2 b.lowest.toNat + Nat.clog 2 (2 * 10 ^ b.digits) ≤ 63 := by
  rw [← b.unitMagnitude_eq, ← b.halfMagnitude_add_one, ← add_assoc, ofBounds]
  split_ifs with h1 h2 h3 h4
  · exact iff_of_false (by simp) (by omega)
  · exact iff_of_false (by simp) (by omega)
  · exact iff_of_false (by simp) (by omega)
  · exact iff_of_false (by simp) (by omega)
  · have hdouble := Bounds.two_mul_lowest_le (b := b) (by omega) (by omega)
    exact iff_of_true ⟨_, rfl⟩ ⟨by omega, by omega, by omega, by omega⟩

/-- How a layout is derived from bounds, in exact arithmetic. -/
structure DerivedFrom (L : Layout) (b : Bounds) : Prop where
  /-- The layout keeps its bounds. -/
  toBounds : L.toBounds = b
  /-- The unit is named by the binary logarithm of the lowest value, rounded down. -/
  unitMagnitude : L.unitMagnitude = Nat.log 2 b.lowest.toNat
  /-- A bucket has as many places as the least power of two that reaches twice the power of ten. -/
  subCount : IsLeast {p | (∃ k, p = 2 ^ k) ∧ 2 * 10 ^ b.digits ≤ p} L.subCount
  /-- The mask is the last place of the first bucket, in units, and it is a value. -/
  mask : L.mask = (L.subCount - 1) * 2 ^ L.unitMagnitude ∧ L.mask ≤ topValue
  /-- There are as few buckets as cover the highest value. -/
  bucketCount : IsLeast {n | 1 ≤ n ∧ b.highest ≤ (L.mask * 2 ^ (n - 1) : ℕ)} L.bucketCount
  /-- Each bucket has slots in its upper half, the first one in both. -/
  slotCount : L.slotCount = (L.bucketCount + 1) * L.subCount / 2
  /-- In words the buckets are laid in as many rounds, and no doubling runs past the values. -/
  laid : layBuckets? b.highest.toNat L.bucketCount L.mask 1 = some L.bucketCount

/-- For every highest value there is, bounds are accepted exactly if the lowest value is positive,
the digits are one to five, the highest value is at least twice the lowest and the first bucket ends
among the values, and an accepted layout is derived from them as said. -/
theorem ofBounds_derivedFrom (b : Bounds) (hhighest : b.highest ≤ topValue) :
    ((∃ L, ofBounds b = .ok L) ↔
      1 ≤ b.lowest ∧ (1 ≤ b.digits ∧ b.digits ≤ 5) ∧ 2 * b.lowest ≤ b.highest ∧
        Nat.log 2 b.lowest.toNat + Nat.clog 2 (2 * 10 ^ b.digits) ≤ 63) ∧
      ∀ L, ofBounds b = .ok L → L.DerivedFrom b := by
  refine ⟨exists_ofBounds_eq_ok_iff b, fun L hL => ?_⟩
  have hshaped := ofBounds_shaped hL
  obtain ⟨rfl, hfits⟩ := eq_layout_of_ofBounds hL
  have hmask_pos : 0 < b.layout.mask := by
    rw [hshaped.mask_eq]
    exact (Nat.two_pow_pos _).trans_le (mask_bounds _ _).1
  have hmask_lt : b.layout.mask < 2 ^ 63 := by
    rw [hshaped.mask_eq]
    exact (mask_bounds _ _).2.trans_le (Nat.pow_le_pow_right (by norm_num) hfits)
  have htop : b.highest.toNat ≤ topValue := by omega
  have hleast : IsLeast {n | 1 ≤ n ∧ b.highest.toNat ≤ b.layout.mask * 2 ^ (n - 1)}
      b.layout.bucketCount := coveringBuckets_isLeast htop hmask_pos
  refine ⟨rfl, b.unitMagnitude_eq, ?_, ⟨?_, ?_⟩, ?_, ?_, ?_⟩
  · rw [hshaped.subCount_eq]
    show IsLeast _ (2 ^ (b.halfMagnitude + 1))
    rw [b.halfMagnitude_add_one]
    exact isLeast_two_pow_clog _
  · rw [hshaped.mask_eq, hshaped.subCount_eq]
  · exact Nat.le_of_lt_succ hmask_lt
  · simpa only [Int.toNat_le] using hleast
  · rw [hshaped.slotCount_eq, hshaped.subCount_eq, pow_succ, ← mul_assoc,
      Nat.mul_div_cancel _ two_pos]
  · exact layBuckets?_eq htop hmask_pos (Nat.lt_one_add_iff.mpr le_rfl)

/-- Values up to the greatest one there is, told apart to three digits in units of 512. -/
theorem derivedFrom_toTop :
    (2 ^ 63 - 1 : ℤ) ≤ topValue ∧
      ofBounds ⟨1000, 2 ^ 63 - 1, 3⟩ =
        .ok ⟨⟨1000, 2 ^ 63 - 1, 3⟩, 9, 10, 2048, 1024, 1048064, 45, 47104⟩ ∧
      DerivedFrom ⟨⟨1000, 2 ^ 63 - 1, 3⟩, 9, 10, 2048, 1024, 1048064, 45, 47104⟩
        ⟨1000, 2 ^ 63 - 1, 3⟩ := by
  have hhighest : (2 ^ 63 - 1 : ℤ) ≤ topValue := by decide
  have hbounds : ofBounds ⟨1000, 2 ^ 63 - 1, 3⟩ =
      .ok ⟨⟨1000, 2 ^ 63 - 1, 3⟩, 9, 10, 2048, 1024, 1048064, 45, 47104⟩ := by decide +kernel
  exact ⟨hhighest, hbounds, (ofBounds_derivedFrom ⟨1000, 2 ^ 63 - 1, 3⟩ hhighest).2 _ hbounds⟩

end Layout

end DynamicRange
