import DynamicRange.Layout.Equivalence
import DynamicRange.Proofs.Layout.Partition
import Mathlib.Algebra.Order.Ring.Int
import Mathlib.Data.Set.Card
import Mathlib.Order.Interval.Finset.Nat
import Mathlib.Tactic.Positivity

/-!
# Ranges of equivalent values

The values equivalent to a value are those of its slot. They are the `rangeSize` values from
`lowestEquivalent` to `highestEquivalent` (`setOf_equivalent`), and the two ends are adjoint to the
index: a value lies at or above the lower end exactly when its index is no lower, and at or below
the upper end exactly when its index is no higher (`lowestEquivalent_le_iff`,
`le_highestEquivalent_iff`).

`ofBounds_boundedError` is what a layout promises to its user. A range is no wider than the lowest
value asked for, or else it is so narrow beside its own lowest value that the two have the decimal
digits asked for in common. The first bucket has enough places for twice the power of ten, so every
place of an upper half stands for at least that power of ten of widths.
-/

namespace DynamicRange.Layout

/-- What the bounds of an accepted layout have to do with its sizes. -/
structure Precise (L : Layout) : Prop extends L.Shaped where
  /-- The unit is not above the lowest value asked for. -/
  two_pow_le_lowest : (2 : ℤ) ^ L.unitMagnitude ≤ L.lowest
  /-- Half of the places across a bucket tell the wanted digits apart. -/
  ten_pow_le : 10 ^ L.digits ≤ 2 ^ L.halfMagnitude
  /-- Five digits, the most that may be asked for, take `2 ^ 17` places. -/
  halfMagnitude_le : L.halfMagnitude ≤ 17

/-- Accepted bounds have a positive lowest value and at most five digits. -/
theorem bounds_of_ofBounds {b : Bounds} {L : Layout} (h : ofBounds b = .ok L) :
    1 ≤ b.lowest ∧ b.digits ≤ 5 := by
  unfold ofBounds at h
  split_ifs at h with h1 h2 h3 h4
  omega

/-- Every accepted layout is as precise as its bounds ask. -/
theorem ofBounds_precise {b : Bounds} {L : Layout} (h : ofBounds b = .ok L) : L.Precise := by
  obtain ⟨hlowest, hdigits⟩ := bounds_of_ofBounds h
  have hL := ofBounds_shaped h
  obtain ⟨rfl, -⟩ := eq_layout_of_ofBounds h
  have hplaces : b.halfMagnitude = max (bitLength (2 * 10 ^ b.digits - 1)) 1 - 1 := rfl
  refine ⟨hL, ?_, ?_, ?_⟩
  · show (2 : ℤ) ^ (bitLength b.lowest.toNat - 1) ≤ b.lowest
    calc (2 : ℤ) ^ (bitLength b.lowest.toNat - 1) ≤ b.lowest.toNat := by
          exact_mod_cast two_pow_pred_bitLength_le (n := b.lowest.toNat) (by omega)
      _ = b.lowest := Int.toNat_of_nonneg (by omega)
  · show 10 ^ b.digits ≤ 2 ^ b.halfMagnitude
    have hcover : 2 * 10 ^ b.digits - 1 < 2 ^ (b.halfMagnitude + 1) :=
      bitLength_le_iff.mp (by omega)
    rw [pow_succ] at hcover
    omega
  · show b.halfMagnitude ≤ 17
    have hmost : 10 ^ b.digits ≤ 10 ^ 5 := Nat.pow_le_pow_right (by norm_num) hdigits
    have hlength : bitLength (2 * 10 ^ b.digits - 1) ≤ 18 := bitLength_le_iff.mpr (by omega)
    omega

/-! ## The ends of a range -/

section

variable {L : Layout}

/-- A range has one unit, doubled for every bucket. -/
theorem rangeSize_eq (hL : L.Shaped) (v : ℤ) :
    L.rangeSize v = 2 ^ ((L.locate v.toNat).bucket + L.unitMagnitude) := by
  have hsub := (locate_proper hL v.toNat).sub_lt
  rw [← hL.subCount_eq] at hsub
  simp only [rangeSize, if_neg (Nat.not_le.mpr hsub), Nat.one_shiftLeft, Nat.add_comm]

/-- No range is empty. -/
theorem rangeSize_pos (hL : L.Shaped) (v : ℤ) : 0 < L.rangeSize v := by
  rw [rangeSize_eq hL]
  exact Nat.two_pow_pos _

/-- The lowest value of what follows a place is one width above. -/
theorem lowestExactly_following (hL : L.Shaped) {l : Location} (hl : L.Proper l) :
    L.lowestExactly (L.following l) = L.lowestExactly l + 2 ^ (l.bucket + L.unitMagnitude) := by
  have hsub := hl.sub_lt
  rw [lowestExactly, lowestExactly, following, hL.subCount_eq, hL.halfCount_eq, ← Nat.succ_mul]
  split
  · rfl
  · next outside =>
    -- The upper half of the next bucket starts where this bucket ends.
    have hlast : l.sub + 1 = 2 ^ (L.halfMagnitude + 1) := by omega
    rw [Nat.succ_eq_add_one, hlast, ← pow_add, ← pow_add]
    congr 1
    simp only
    omega

variable {v w : ℤ}

/-- The lowest equivalent value is the exact lowest value at the location. -/
theorem lowestEquivalent_eq (hL : L.Shaped) (hv : v ≤ topValue) :
    L.lowestEquivalent v = L.lowestExactly (L.locate v.toNat) := by
  have hle := (indexOf_le_indexFor_iff hL (locate_proper hL v.toNat) v.toNat).mp le_rfl
  rw [lowestEquivalent, lowestAt_eq hL (locate_proper hL _), min_eq_left (by omega)]

/-- The range above the lowest equivalent value ends where the next slot starts. -/
theorem lowestEquivalent_add_rangeSize (hL : L.Shaped) (hv : v ≤ topValue) :
    L.lowestEquivalent v + L.rangeSize v =
      L.lowestExactly (L.following (L.locate v.toNat)) := by
  rw [lowestEquivalent_eq hL hv, rangeSize_eq hL,
    lowestExactly_following hL (locate_proper hL _)]

/-- A value is at or above the range of another one exactly when its index is no lower. -/
theorem lowestEquivalent_le_iff (hL : L.Shaped) (hv : v ≤ topValue) (x : ℕ) :
    L.lowestEquivalent v ≤ x ↔ L.indexFor v.toNat ≤ L.indexFor x := by
  rw [lowestEquivalent_eq hL hv]
  exact (indexOf_le_indexFor_iff hL (locate_proper hL _) x).symm

/-- A value is below the end of the range of another one exactly when its index is no higher. -/
theorem lt_lowestEquivalent_add_rangeSize_iff (hL : L.Shaped) (hv : v ≤ topValue) (x : ℕ) :
    x < L.lowestEquivalent v + L.rangeSize v ↔ L.indexFor x ≤ L.indexFor v.toNat := by
  obtain ⟨hnext, hindex⟩ := following_spec hL (locate_proper hL v.toNat)
  rw [lowestEquivalent_add_rangeSize hL hv, ← not_le, ← indexOf_le_indexFor_iff hL hnext, hindex,
    not_le]
  exact Nat.lt_succ_iff

/-- No range reaches past the values. -/
theorem lowestEquivalent_add_rangeSize_le (hL : L.Shaped) (hv : v ≤ topValue) :
    L.lowestEquivalent v + L.rangeSize v ≤ topValue + 1 := by
  have htop : topValue + 1 = 2 ^ 63 := rfl
  have hbucket : (L.locate v.toNat).bucket = _ := bucketOf_eq hL v.toNat
  have hshort : bitLength v.toNat ≤ 63 := bitLength_le_iff.mpr (by omega)
  have hfits := hL.first_fits
  -- The range is a place of a grid that has `2 ^ 63` among its points.
  have hgrid : (2 : ℕ) ^ 63 = 2 ^ (63 - ((L.locate v.toNat).bucket + L.unitMagnitude)) *
      2 ^ ((L.locate v.toNat).bucket + L.unitMagnitude) := by
    rw [← pow_add]
    congr 1
    omega
  have hlow := (lowestEquivalent_le_iff hL hv v.toNat).mpr le_rfl
  rw [lowestEquivalent_eq hL hv, lowestExactly] at hlow ⊢
  have hplace : (L.locate v.toNat).sub < 2 ^ (63 - ((L.locate v.toNat).bucket + L.unitMagnitude)) :=
    Nat.lt_of_mul_lt_mul_right (by rw [← hgrid]; omega)
  rw [rangeSize_eq hL, htop, hgrid, ← Nat.succ_mul]
  exact Nat.mul_le_mul_right _ hplace

/-- The range of a value ends at the highest equivalent value. -/
theorem highestEquivalent_add_one (hL : L.Precise) (hv : v ≤ topValue) :
    L.highestEquivalent v + 1 = L.lowestEquivalent v + L.rangeSize v := by
  have hend := lowestEquivalent_add_rangeSize_le hL.toShaped hv
  have hpos := rangeSize_pos hL.toShaped v
  -- The end of a range is even or small, and `topValue` is neither.
  have hne : L.lowestEquivalent v + L.rangeSize v ≠ topValue := by
    rw [lowestEquivalent_eq hL.toShaped hv, rangeSize_eq hL.toShaped, lowestExactly,
      ← Nat.succ_mul]
    rcases Nat.eq_zero_or_pos ((L.locate v.toNat).bucket + L.unitMagnitude) with h0 | hgt
    · have hsub := (locate_proper hL.toShaped v.toNat).sub_lt
      have hplaces : 2 ^ (L.halfMagnitude + 1) ≤ 2 ^ 18 :=
        Nat.pow_le_pow_right (by norm_num) (by have := hL.halfMagnitude_le; omega)
      rw [h0, pow_zero, mul_one]
      simp only [topValue]
      omega
    · obtain ⟨m, hm⟩ := Nat.exists_eq_succ_of_ne_zero hgt.ne'
      rw [hm, pow_succ, ← mul_assoc]
      simp only [topValue]
      omega
  have hnext : L.nextInequivalent v = min (L.lowestEquivalent v + L.rangeSize v) topValue := rfl
  have hhighest : L.highestEquivalent v =
      if L.nextInequivalent v = topValue then L.nextInequivalent v else L.nextInequivalent v - 1 :=
    rfl
  rw [hhighest]
  split <;> omega

/-- A value is at or below the range of another one exactly when its index is no higher. -/
theorem le_highestEquivalent_iff (hL : L.Precise) (hv : v ≤ topValue) (x : ℕ) :
    x ≤ L.highestEquivalent v ↔ L.indexFor x ≤ L.indexFor v.toNat := by
  rw [← lt_lowestEquivalent_add_rangeSize_iff hL.toShaped hv, ← highestEquivalent_add_one hL hv,
    Nat.lt_succ_iff]

/-- The lowest equivalent value has the same index. -/
theorem indexFor_lowestEquivalent (hL : L.Shaped) (hv : v ≤ topValue) :
    L.indexFor (L.lowestEquivalent v) = L.indexFor v.toNat := by
  rw [lowestEquivalent_eq hL hv]
  exact indexFor_lowestExactly hL (locate_proper hL _)

/-- No value is below the lowest value equivalent to it. -/
theorem lowestEquivalent_le (hL : L.Shaped) {a : ℕ} (ha : a ≤ topValue) :
    L.lowestEquivalent a ≤ a :=
  (lowestEquivalent_le_iff hL (Int.ofNat_le.mpr ha) a).mpr le_rfl

/-- Zero is the lowest value equivalent to it. -/
theorem lowestEquivalent_zero (hL : L.Shaped) : L.lowestEquivalent (0 : ℕ) = 0 :=
  Nat.le_zero.mp (lowestEquivalent_le hL (Nat.zero_le _))

/-- Greater values have lowest equivalent values that are no lower. -/
theorem lowestEquivalent_mono (hL : L.Shaped) {a b : ℕ} (hab : a ≤ b) (hb : b ≤ topValue) :
    L.lowestEquivalent a ≤ L.lowestEquivalent b := by
  rw [lowestEquivalent_le_iff hL (Int.ofNat_le.mpr (hab.trans hb)),
    indexFor_lowestEquivalent hL (Int.ofNat_le.mpr hb)]
  exact indexFor_mono hL hab

/-- The lowest equivalent value is the lowest of its own range. -/
theorem lowestEquivalent_idem (hL : L.Shaped) {a : ℕ} (ha : a ≤ topValue) :
    L.lowestEquivalent (L.lowestEquivalent a) = L.lowestEquivalent a := by
  have hle := lowestEquivalent_le hL ha
  refine le_antisymm (lowestEquivalent_le hL (hle.trans ha)) ?_
  rw [lowestEquivalent_le_iff hL (Int.ofNat_le.mpr ha),
    indexFor_lowestEquivalent hL (Int.ofNat_le.mpr (hle.trans ha)), Int.toNat_natCast,
    Int.toNat_natCast, indexFor_lowestEquivalent hL (Int.ofNat_le.mpr ha), Int.toNat_natCast]

/-- The lowest equivalent value has the same highest equivalent value. -/
theorem highestEquivalent_lowestEquivalent (hL : L.Precise) {a : ℕ} (ha : a ≤ topValue) :
    L.highestEquivalent (L.lowestEquivalent a) = L.highestEquivalent a := by
  have hle := lowestEquivalent_le hL.toShaped ha
  refine eq_of_forall_le_iff fun x => ?_
  rw [le_highestEquivalent_iff hL (Int.ofNat_le.mpr (hle.trans ha)),
    le_highestEquivalent_iff hL (Int.ofNat_le.mpr ha), Int.toNat_natCast,
    indexFor_lowestEquivalent hL.toShaped (Int.ofNat_le.mpr ha)]

/-! ## Equivalence -/

/-- Values are equivalent exactly when they have the same index. -/
theorem equivalent_iff (hL : L.Shaped) (hv : v ≤ topValue) (hw : w ≤ topValue) :
    L.equivalent v w = true ↔ L.indexFor v.toNat = L.indexFor w.toNat := by
  rw [equivalent, beq_iff_eq]
  constructor
  · intro h
    rw [← indexFor_lowestEquivalent hL hv, h, indexFor_lowestEquivalent hL hw]
  · intro h
    apply le_antisymm
    · rw [lowestEquivalent_le_iff hL hv, indexFor_lowestEquivalent hL hw, h]
    · rw [lowestEquivalent_le_iff hL hw, indexFor_lowestEquivalent hL hv, h]

/-- The values equivalent to a value are those of its range. -/
theorem setOf_equivalent (hL : L.Shaped) (hv : v ≤ topValue) :
    {x : ℕ | x ≤ topValue ∧ L.equivalent v x} =
      Set.Ico (L.lowestEquivalent v) (L.lowestEquivalent v + L.rangeSize v) := by
  have hend := lowestEquivalent_add_rangeSize_le hL hv
  ext x
  have hindex : x ∈ Set.Ico (L.lowestEquivalent v) (L.lowestEquivalent v + L.rangeSize v) ↔
      L.indexFor v.toNat = L.indexFor x := by
    rw [Set.mem_Ico, lowestEquivalent_le_iff hL hv, lt_lowestEquivalent_add_rangeSize_iff hL hv,
      le_antisymm_iff]
  rw [hindex]
  constructor
  · rintro ⟨hx, hequivalent⟩
    exact (equivalent_iff hL hv (Int.ofNat_le.mpr hx)).mp hequivalent
  · intro heq
    have hx : x ≤ topValue := by
      have := (Set.mem_Ico.mp (hindex.mpr heq)).2
      omega
    exact ⟨hx, (equivalent_iff hL hv (Int.ofNat_le.mpr hx)).mpr heq⟩

/-- Equivalent values differ by less than the size of their range. -/
theorem abs_sub_lt_rangeSize (hL : L.Shaped) {a b : ℕ} (ha : a ≤ topValue) (hb : b ≤ topValue)
    (h : L.equivalent a b) :
    |(a : ℤ) - b| < L.rangeSize a ∧ L.lowestEquivalent a ≤ min a b := by
  have hrange := setOf_equivalent hL (Int.ofNat_le.mpr ha)
  have hmem_a : a ∈ {x : ℕ | x ≤ topValue ∧ L.equivalent a x} :=
    ⟨ha, (equivalent_iff hL (Int.ofNat_le.mpr ha) (Int.ofNat_le.mpr ha)).mpr rfl⟩
  have hmem_b : b ∈ {x : ℕ | x ≤ topValue ∧ L.equivalent a x} := ⟨hb, h⟩
  rw [hrange, Set.mem_Ico] at hmem_a hmem_b
  rw [abs_lt]
  omega

/-! ## The error that a range allows -/

/-- A range has at most as many values as the lowest value asked for, or its lowest value is at
least as many times as great as the digits ask. -/
theorem rangeSize_le_or (hL : L.Precise) (hv : v ≤ topValue) :
    (L.rangeSize v : ℤ) ≤ L.lowest ∨ L.rangeSize v * 10 ^ L.digits ≤ L.lowestEquivalent v := by
  rw [lowestEquivalent_eq hL.toShaped hv, rangeSize_eq hL.toShaped]
  rcases Nat.eq_zero_or_pos (L.locate v.toNat).bucket with h0 | hpos
  · left
    rw [h0, Nat.zero_add]
    exact_mod_cast hL.two_pow_le_lowest
  · right
    have hplace := hL.ten_pow_le.trans ((locate_proper hL.toShaped v.toNat).le_sub hpos.ne')
    rw [mul_comm]
    exact Nat.mul_le_mul_right _ hplace

/-- Below twice the power of ten of the digits, in units, a range is one unit. -/
theorem rangeSize_eq_unit (hL : L.Precise) {a : ℕ}
    (ha : a < 2 * 10 ^ L.digits * 2 ^ L.unitMagnitude) :
    a ≤ topValue ∧ L.rangeSize a = 2 ^ L.unitMagnitude := by
  have hsmall : a < 2 ^ (L.unitMagnitude + L.halfMagnitude + 1) := by
    calc a < 2 * 10 ^ L.digits * 2 ^ L.unitMagnitude := ha
      _ ≤ 2 * 2 ^ L.halfMagnitude * 2 ^ L.unitMagnitude :=
        Nat.mul_le_mul_right _ (Nat.mul_le_mul_left _ hL.ten_pow_le)
      _ = 2 ^ (L.unitMagnitude + L.halfMagnitude + 1) := by ring
  have htop := Nat.pow_le_pow_right (show 0 < 2 by norm_num) hL.first_fits
  -- So small a value is in the first bucket.
  have hbucket : (L.locate a).bucket = 0 := by
    have hlength := bitLength_le_iff.mpr hsmall
    exact (bucketOf_eq hL.toShaped a).trans (by omega)
  refine ⟨by simp only [topValue]; omega, ?_⟩
  rw [rangeSize_eq hL.toShaped, Int.toNat_natCast, hbucket, Nat.zero_add]

/-- The values of the first range, which starts at zero, are those below the unit. -/
theorem lowestEquivalent_eq_zero_iff (hL : L.Precise) {a : ℕ} (ha : a ≤ topValue) :
    L.lowestEquivalent a = 0 ↔ a < 2 ^ L.unitMagnitude := by
  have hunit := (rangeSize_eq_unit hL (a := 0) (by positivity)).2
  have hrange := lt_lowestEquivalent_add_rangeSize_iff hL.toShaped
    (Int.ofNat_le.mpr (Nat.zero_le topValue)) a
  rw [lowestEquivalent_zero hL.toShaped, hunit, Nat.zero_add] at hrange
  rw [hrange, ← Nat.le_zero, lowestEquivalent_le_iff hL.toShaped (Int.ofNat_le.mpr ha)]
  rfl

/-- The first range ends below the unit. -/
theorem highestEquivalent_zero (hL : L.Precise) :
    L.highestEquivalent (0 : ℕ) + 1 = 2 ^ L.unitMagnitude := by
  have hzero : ((0 : ℕ) : ℤ) ≤ topValue := Int.ofNat_le.mpr (Nat.zero_le _)
  rw [highestEquivalent_add_one hL hzero, lowestEquivalent_zero hL.toShaped, Nat.zero_add]
  exact (rangeSize_eq_unit hL (by positivity)).2

/-- The range of the greatest value starts neither there nor at zero. -/
theorem lowestEquivalent_topValue (hL : L.Precise) :
    L.lowestEquivalent topValue < topValue ∧ L.lowestEquivalent topValue ≠ 0 := by
  have hfits := hL.first_fits
  have hhalf := hL.halfMagnitude_le
  constructor
  · -- The range has so many values that it starts well below its end.
    have hend := lowestEquivalent_add_rangeSize_le hL.toShaped (le_refl (topValue : ℤ))
    have hbucket : (L.locate topValue).bucket = _ := bucketOf_eq hL.toShaped topValue
    have hlength : bitLength topValue = 63 := by decide
    have hwide : 2 ^ 1 ≤ L.rangeSize topValue := by
      rw [rangeSize_eq hL.toShaped, Int.toNat_natCast]
      exact Nat.pow_le_pow_right (by norm_num) (by omega)
    omega
  · have hunit : 2 ^ L.unitMagnitude ≤ 2 ^ 62 := Nat.pow_le_pow_right (by norm_num) (by omega)
    rw [ne_eq, lowestEquivalent_eq_zero_iff hL le_rfl, not_lt]
    exact hunit.trans (by decide)

end

/-- How far values can be from those that stand for them. -/
structure BoundedError (L : Layout) : Prop where
  /-- A range has at most as many values as the lowest value asked for, or its lowest value is at
  least `10 ^ digits` times as great. -/
  rangeSize_le : ∀ v ≤ topValue, (L.rangeSize v : ℤ) ≤ L.lowest ∨
    L.rangeSize v * 10 ^ L.digits ≤ L.lowestEquivalent v
  /-- Below twice that power of ten, in units, every range is one unit. -/
  unit : ∀ v : ℕ, v < 2 * 10 ^ L.digits * 2 ^ L.unitMagnitude →
    L.rangeSize v = 2 ^ L.unitMagnitude ∧
      {x : ℕ | x ≤ topValue ∧ L.equivalent v x}.ncard = 2 ^ L.unitMagnitude
  /-- So equivalent values differ by less than the lowest value asked for, or by less than one part
  in `10 ^ digits`. -/
  error : ∀ v ≤ topValue, ∀ w ≤ topValue, L.equivalent v w →
    |(v : ℤ) - w| < L.lowest ∨ |(v : ℤ) - w| * 10 ^ L.digits < min v w
  /-- The values that are reported for a value are equivalent to it. -/
  reported : ∀ v ≤ topValue, ∀ x ∈ [L.lowestEquivalent v, L.medianEquivalent v,
    L.highestEquivalent v], x ≤ topValue ∧ L.equivalent v x

/-- In every accepted layout the error is bounded as its bounds ask. -/
theorem ofBounds_boundedError {b : Bounds} {L : Layout} (h : ofBounds b = .ok L) :
    L.BoundedError := by
  have hL := ofBounds_precise h
  refine ⟨fun v hv => rangeSize_le_or hL (Int.ofNat_le.mpr hv), fun v hv => ?_,
    fun v hv w hw hvw => ?_, fun v hv x hx => ?_⟩
  · obtain ⟨htop, hsize⟩ := rangeSize_eq_unit hL hv
    refine ⟨hsize, ?_⟩
    rw [setOf_equivalent hL.toShaped (Int.ofNat_le.mpr htop), ← Finset.coe_Ico,
      Set.ncard_coe_finset, Nat.card_Ico, Nat.add_sub_cancel_left, hsize]
  · obtain ⟨hless, hlowest⟩ := abs_sub_lt_rangeSize hL.toShaped hv hw hvw
    rcases rangeSize_le_or hL (Int.ofNat_le.mpr hv) with hnarrow | hproportional
    · exact .inl (hless.trans_le hnarrow)
    · right
      calc |(v : ℤ) - w| * 10 ^ L.digits < L.rangeSize v * 10 ^ L.digits :=
          mul_lt_mul_of_pos_right hless (by positivity)
        _ ≤ L.lowestEquivalent v := by exact_mod_cast hproportional
        _ ≤ (min v w : ℕ) := by exact_mod_cast hlowest
  · -- All three lie in the range.
    have hpos := rangeSize_pos hL.toShaped v
    have hend := lowestEquivalent_add_rangeSize_le hL.toShaped (Int.ofNat_le.mpr hv)
    have hhighest := highestEquivalent_add_one hL (Int.ofNat_le.mpr hv)
    have hmedian :
        L.medianEquivalent v = min (L.lowestEquivalent v + L.rangeSize v / 2) topValue := by
      rw [medianEquivalent, Nat.shiftRight_one]
      rfl
    show x ∈ {x : ℕ | x ≤ topValue ∧ L.equivalent v x}
    rw [setOf_equivalent hL.toShaped (Int.ofNat_le.mpr hv), Set.mem_Ico]
    simp only [List.mem_cons, List.not_mem_nil, or_false] at hx
    omega

/-- Values up to an hour in nanoseconds, told apart to a microsecond or to three digits. -/
theorem boundedError_hour :
    ofBounds ⟨1000, 3600000000000, 3⟩ =
        .ok ⟨⟨1000, 3600000000000, 3⟩, 9, 10, 2048, 1024, 1048064, 23, 24576⟩ ∧
      BoundedError ⟨⟨1000, 3600000000000, 3⟩, 9, 10, 2048, 1024, 1048064, 23, 24576⟩ :=
  ⟨by decide +kernel, ofBounds_boundedError (b := ⟨1000, 3600000000000, 3⟩) (by decide +kernel)⟩

end DynamicRange.Layout
