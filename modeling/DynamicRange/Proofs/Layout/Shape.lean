import DynamicRange.Layout.Slot
import Mathlib.Data.Nat.Bitwise
import Mathlib.Tactic.Ring

/-!
# The shape of accepted layouts

`Layout.Shaped` collects what the sizes of a layout have to do with each other, and
`Layout.ofBounds_shaped` shows that every layout that `Layout.ofBounds` accepts has this shape.
Whatever is proved about slots rests on the shape alone, not on how a layout is derived.

The one loop of the derivation lays buckets until the highest value is covered.
`coveringBuckets_spec` says what it gives in terms of the exponent that bounds the reach of the
last bucket: the buckets cover the highest value, or else all values there are, and reach past
`topValue` by one doubling at most.
-/

namespace DynamicRange

/-! ## Bit lengths -/

/-- Every number lies below the power of two that its bit length names. -/
theorem lt_two_pow_bitLength (n : Nat) : n < 2 ^ bitLength n := by
  unfold bitLength
  split
  · omega
  · exact Nat.lt_log2_self

/-- A positive number reaches the power of two below its bit length. -/
theorem two_pow_pred_bitLength_le {n : Nat} (h : n ≠ 0) : 2 ^ (bitLength n - 1) ≤ n := by
  simp [bitLength, h, Nat.log2_self_le h]

/-- A number has at most `m` binary digits exactly when it is below `2 ^ m`. -/
theorem bitLength_le_iff {n m : ℕ} : bitLength n ≤ m ↔ n < 2 ^ m := by
  constructor
  · intro h
    calc n < 2 ^ bitLength n := lt_two_pow_bitLength n
      _ ≤ 2 ^ m := Nat.pow_le_pow_right (by norm_num) h
  · intro h
    rcases Nat.eq_zero_or_pos n with rfl | hn
    · simp [bitLength]
    · have hlow := two_pow_pred_bitLength_le hn.ne'
      have hlt : bitLength n - 1 < m :=
        (Nat.pow_lt_pow_iff_right (by norm_num)).mp (hlow.trans_lt h)
      omega

/-- A number has more than `m` binary digits exactly when it is at least `2 ^ m`. -/
theorem lt_bitLength_iff {n m : ℕ} : m < bitLength n ↔ 2 ^ m ≤ n := by
  have h := bitLength_le_iff (n := n) (m := m)
  omega

/-- The bitwise or of two numbers is as long as the longer of them. -/
theorem bitLength_or (a b : ℕ) : bitLength (a ||| b) = max (bitLength a) (bitLength b) := by
  apply le_antisymm
  · rw [bitLength_le_iff]
    exact Nat.or_lt_two_pow (bitLength_le_iff.mp (le_max_left _ _))
      (bitLength_le_iff.mp (le_max_right _ _))
  · have ha : bitLength a ≤ bitLength (a ||| b) :=
      bitLength_le_iff.mpr (Nat.left_le_or.trans_lt (lt_two_pow_bitLength _))
    have hb : bitLength b ≤ bitLength (a ||| b) :=
      bitLength_le_iff.mpr (Nat.right_le_or.trans_lt (lt_two_pow_bitLength _))
    exact max_le ha hb

/-- A number between two neighbouring powers of two is as long as the exponent of the upper
one. -/
theorem bitLength_eq {n m : ℕ} (hlow : 2 ^ m ≤ n) (hhigh : n < 2 ^ (m + 1)) :
    bitLength n = m + 1 := by
  have h1 := lt_bitLength_iff.mpr hlow
  have h2 := bitLength_le_iff.mpr hhigh
  omega

/-- Doubling a positive number adds a digit each time. -/
theorem bitLength_mul_two_pow {n : ℕ} (hn : n ≠ 0) (m : ℕ) :
    bitLength (n * 2 ^ m) = bitLength n + m := by
  have hlen : bitLength n ≠ 0 := by simp [bitLength, hn]
  obtain ⟨k, hk⟩ := Nat.exists_eq_succ_of_ne_zero hlen
  have hlow := lt_bitLength_iff.mp (show k < bitLength n by omega)
  have hhigh := bitLength_le_iff.mp hk.le
  rw [hk, show k.succ + m = k + m + 1 by omega]
  apply bitLength_eq
  · calc 2 ^ (k + m) = 2 ^ k * 2 ^ m := pow_add _ _ _
      _ ≤ n * 2 ^ m := Nat.mul_le_mul_right _ hlow
  · calc n * 2 ^ m < 2 ^ k.succ * 2 ^ m := Nat.mul_lt_mul_of_pos_right hhigh (Nat.two_pow_pos m)
      _ = 2 ^ (k + m + 1) := by rw [← pow_add]; congr 1; omega

/-! ## Laying buckets -/

/-- Buckets laid on from a reach of `e` binary digits cover the highest value, or all values if
that one is no value. Each further bucket stands for one more digit, and there are never more than
64. -/
theorem coveringBuckets_spec {highest reach count e : ℕ} (hlow : 2 ^ e ≤ reach)
    (hhigh : reach < 2 ^ (e + 1)) (he : e < 63) :
    ∃ more, coveringBuckets highest reach count = count + more ∧ e + 1 + more ≤ 64 ∧
      ∀ v ≤ topValue, v ≤ highest → v < 2 ^ (e + 1 + more) := by
  induction reach, count using coveringBuckets.induct highest generalizing e with
  | case1 reach count h hhalf =>
    -- The reach is past half of all values, so the next bucket holds the rest of them.
    have he' : 62 ≤ e := by
      by_contra hlt
      have : 2 ^ (e + 1) ≤ 2 ^ 62 := Nat.pow_le_pow_right (by norm_num) (by omega)
      simp only [topValue] at hhalf
      omega
    refine ⟨1, ?_, by omega, fun v hv _ => ?_⟩
    · rw [coveringBuckets, if_pos h, if_pos hhalf]
    · have : 2 ^ 64 ≤ 2 ^ (e + 1 + 1) := Nat.pow_le_pow_right (by norm_num) (by omega)
      simp only [topValue] at hv
      omega
  | case2 reach count h hhalf ih =>
    have he' : e < 62 := by
      by_contra hge
      have : 2 ^ 62 ≤ 2 ^ e := Nat.pow_le_pow_right (by norm_num) (by omega)
      simp only [topValue] at hhalf
      omega
    have hdouble : reach <<< 1 = 2 * reach := by rw [Nat.shiftLeft_eq]; omega
    obtain ⟨more, hmore, hle, hcover⟩ := ih (e := e + 1) (by rw [hdouble, pow_succ]; omega)
      (by rw [hdouble, pow_succ]; omega) (by omega)
    refine ⟨more + 1, ?_, by omega, fun v hv hvh => ?_⟩
    · rw [coveringBuckets, if_pos h, if_neg hhalf, hmore]
      omega
    · rw [show e + 1 + (more + 1) = e + 1 + 1 + more by omega]
      exact hcover v hv hvh
  | case3 reach count h =>
    have hpos : 0 < reach := lt_of_lt_of_le (Nat.two_pow_pos e) hlow
    refine ⟨0, ?_, by omega, fun v _ hvh => ?_⟩
    · rw [coveringBuckets, if_neg h]
      rfl
    · have hreach : highest ≤ reach := by omega
      exact lt_of_le_of_lt (hvh.trans hreach) hhigh

/-! ## Accepted layouts -/

namespace Layout

/-- The least value that lies past the last slot. -/
def reach (L : Layout) : ℕ := 2 ^ (L.unitMagnitude + L.halfMagnitude + L.bucketCount)

/-- How the sizes of a layout hang together. -/
structure Shaped (L : Layout) : Prop where
  /-- A bucket has a power of two of places. -/
  subCount_eq : L.subCount = 2 ^ (L.halfMagnitude + 1)
  /-- The upper half of a bucket has half of them. -/
  halfCount_eq : L.halfCount = 2 ^ L.halfMagnitude
  /-- The mask has the bits of the places of the first bucket. -/
  mask_eq : L.mask = (2 ^ (L.halfMagnitude + 1) - 1) * 2 ^ L.unitMagnitude
  /-- The first bucket has slots in both halves, each other one in its upper half. -/
  slotCount_eq : L.slotCount = (L.bucketCount + 1) * 2 ^ L.halfMagnitude
  /-- There is a first bucket. -/
  bucketCount_pos : 0 < L.bucketCount
  /-- The first bucket ends among the values. -/
  first_fits : L.unitMagnitude + L.halfMagnitude + 1 ≤ 63
  /-- The last bucket ends within twice the values. -/
  last_fits : L.unitMagnitude + L.halfMagnitude + L.bucketCount ≤ 64
  /-- The buckets hold every value up to the highest wanted. -/
  lt_reach : ∀ v ≤ topValue, (v : ℤ) ≤ L.highest → v < L.reach

/-- There are slots. -/
theorem Shaped.slotCount_pos {L : Layout} (hL : L.Shaped) : 0 < L.slotCount := by
  rw [hL.slotCount_eq]
  exact Nat.mul_pos (Nat.succ_pos _) (Nat.two_pow_pos _)

/-- Accepted bounds leave room for the first bucket, and their layout is the one derived from
them. -/
theorem eq_layout_of_ofBounds {b : Bounds} {L : Layout} (h : ofBounds b = .ok L) :
    L = b.layout ∧ b.unitMagnitude + b.halfMagnitude + 1 ≤ 63 := by
  unfold ofBounds at h
  split_ifs at h with h1 h2 h3 h4
  exact ⟨(Except.ok.inj h).symm, by omega⟩

/-- The mask is as long as the first bucket. -/
theorem mask_bounds (k u : ℕ) :
    2 ^ (u + k) ≤ (2 ^ (k + 1) - 1) * 2 ^ u ∧ (2 ^ (k + 1) - 1) * 2 ^ u < 2 ^ (u + k + 1) := by
  have hk := Nat.two_pow_pos k
  have hu := Nat.two_pow_pos u
  constructor
  · calc 2 ^ (u + k) = 2 ^ k * 2 ^ u := by rw [pow_add, mul_comm]
      _ ≤ (2 ^ (k + 1) - 1) * 2 ^ u := Nat.mul_le_mul_right _ (by rw [pow_succ]; omega)
  · calc (2 ^ (k + 1) - 1) * 2 ^ u < 2 ^ (k + 1) * 2 ^ u :=
          Nat.mul_lt_mul_of_pos_right (by rw [pow_succ]; omega) hu
      _ = 2 ^ (u + k + 1) := by rw [← pow_add]; congr 1; omega

/-- Every accepted layout has the shape. -/
theorem ofBounds_shaped {b : Bounds} {L : Layout} (h : ofBounds b = .ok L) : L.Shaped := by
  obtain ⟨rfl, hfits⟩ := eq_layout_of_ofBounds h
  have hmask : b.layout.mask = (2 ^ (b.halfMagnitude + 1) - 1) * 2 ^ b.unitMagnitude := by
    simp [Bounds.layout, Nat.shiftLeft_eq]
  have hhalf : b.layout.halfCount = 2 ^ b.halfMagnitude := by
    simp [Bounds.layout, Nat.shiftLeft_eq, pow_succ]
  obtain ⟨hlow, hhigh⟩ := mask_bounds b.halfMagnitude b.unitMagnitude
  rw [← hmask] at hlow hhigh
  obtain ⟨more, hmore, hle, hcover⟩ :=
    @coveringBuckets_spec b.highest.toNat b.layout.mask 1 _ hlow hhigh (by omega)
  have hcount : b.layout.bucketCount = 1 + more := hmore
  refine ⟨Nat.one_shiftLeft _, hhalf, hmask, ?_, by omega, hfits, ?_, fun v hv hvh => ?_⟩
  · rw [← show b.layout.halfCount = 2 ^ b.layout.halfMagnitude from hhalf]
    rfl
  · show b.unitMagnitude + b.halfMagnitude + b.layout.bucketCount ≤ 64
    omega
  · have hv' : v ≤ b.highest.toNat := by
      have : (v : ℤ) ≤ b.highest := hvh
      omega
    have hreach : b.layout.reach = 2 ^ (b.unitMagnitude + b.halfMagnitude + 1 + more) := by
      rw [reach, hcount, ← add_assoc]
      rfl
    rw [hreach]
    exact hcover v hv hv'

end Layout

end DynamicRange
