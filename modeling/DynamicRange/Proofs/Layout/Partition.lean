import DynamicRange.Proofs.Layout.Shape
import Mathlib.Order.Bounds.Basic

/-!
# Slots divide the values in order

The slots of an accepted layout divide the values below its reach into ranges, numbered upwards from
zero without a gap. `ofBounds_orderedPartition` states this, with the lowest value of every slot and
with the one exception: the slots of a last bucket that would start at `2 ^ 63` hold no value.

The proof goes through locations. A *proper* location is one that a layout uses: any place of the
first bucket, and a place in the upper half of any other. Two facts carry everything. A value lies
at or behind a proper location exactly when its slot does (`indexOf_le_indexFor_iff`), so lowest
values and indices are adjoint, and the lowest value of a proper location leads back to that
location (`indexFor_lowestExactly`). The order of slots, their lowest values and the steps from one
to the next follow from these two without any further look at bits.
-/

namespace DynamicRange.Layout

/-- The index of the slot of `v` if there were slots without end. -/
def indexFor (L : Layout) (v : ℕ) : ℕ := L.indexOf (L.locate v)

/-- The lowest value at a location, whether or not there is such a value. -/
def lowestExactly (L : Layout) (l : Location) : ℕ := l.sub * 2 ^ (l.bucket + L.unitMagnitude)

/-- The lowest value of the slot at an index, whether or not there is such a value. -/
def exactLowest (L : Layout) (index : ℕ) : ℕ := L.lowestExactly (L.locationOf index)

/-- A location that stands for a slot: a place in the upper half of a bucket, or in the lower half
of the first bucket. -/
structure Proper (L : Layout) (l : Location) : Prop where
  /-- The place lies across the bucket. -/
  sub_lt : l.sub < 2 ^ (L.halfMagnitude + 1)
  /-- The lower half belongs to the first bucket alone. -/
  le_sub : l.bucket ≠ 0 → 2 ^ L.halfMagnitude ≤ l.sub

/-! ## Locations of values -/

/-- A value below the end of a bucket is at a place across that bucket. -/
theorem shiftRight_lt {L : Layout} {v b : ℕ}
    (h : bitLength v ≤ L.unitMagnitude + L.halfMagnitude + 1 + b) :
    v / 2 ^ (b + L.unitMagnitude) < 2 ^ (L.halfMagnitude + 1) := by
  rw [Nat.div_lt_iff_lt_mul (Nat.two_pow_pos _), ← pow_add, ← bitLength_le_iff]
  omega

/-- A value past the bucket before is in the upper half of the bucket. -/
theorem le_shiftRight {L : Layout} {v b : ℕ}
    (h : L.unitMagnitude + L.halfMagnitude + b < bitLength v) :
    2 ^ L.halfMagnitude ≤ v / 2 ^ (b + L.unitMagnitude) := by
  rw [Nat.le_div_iff_mul_le (Nat.two_pow_pos _), ← pow_add, ← lt_bitLength_iff]
  omega

/-- A value has the slot of its index, if the layout has a slot of that index. -/
theorem slotOf?_eq_some_iff {L : Layout} {v i : ℕ} :
    L.slotOf? v = some i ↔ L.indexFor v = i ∧ i < L.slotCount := by
  show (if L.indexFor v < L.slotCount then some (L.indexFor v) else none) = some i ↔ _
  split <;> simp <;> omega

/-- The place of a value is its number of units, less the digits below its bucket. -/
theorem locate_eq (L : Layout) (v : ℕ) :
    L.locate v = ⟨L.bucketOf v, v / 2 ^ (L.bucketOf v + L.unitMagnitude)⟩ := by
  rw [locate, Nat.shiftRight_eq_div_pow]

section

variable {L : Layout} (hL : L.Shaped)
include hL

/-- The bucket of a value is the number of digits that it has more than the first bucket. -/
theorem bucketOf_eq (v : ℕ) :
    L.bucketOf v = bitLength v - (L.unitMagnitude + L.halfMagnitude + 1) := by
  have hmask : bitLength L.mask = L.unitMagnitude + L.halfMagnitude + 1 := by
    obtain ⟨hlow, hhigh⟩ := mask_bounds L.halfMagnitude L.unitMagnitude
    rw [← hL.mask_eq] at hlow hhigh
    exact bitLength_eq hlow hhigh
  rw [bucketOf, bitLength_or, hmask]
  omega

/-- The upper half of a bucket starts at one half of its size for each bucket up to it. -/
theorem indexOf_eq (l : Location) : L.indexOf l = l.bucket * 2 ^ L.halfMagnitude + l.sub := by
  rw [indexOf, hL.halfCount_eq, Nat.add_mul]
  omega

/-- Every value is at a proper location. -/
theorem locate_proper (v : ℕ) : L.Proper (L.locate v) := by
  have hb := bucketOf_eq hL v
  rw [locate_eq]
  exact ⟨shiftRight_lt (by omega), fun hne => le_shiftRight (by simp only at hne; omega)⟩

/-! ## Lowest values and indices are adjoint -/

/-- The slot of a value is at or behind a proper location exactly when the value is. -/
theorem indexOf_le_indexFor_iff {l : Location} (hl : L.Proper l) (v : ℕ) :
    L.indexOf l ≤ L.indexFor v ↔ L.lowestExactly l ≤ v := by
  have hb := bucketOf_eq hL v
  have hv := locate_proper hL v
  rw [indexFor, indexOf_eq hL, indexOf_eq hL, lowestExactly,
    ← Nat.le_div_iff_mul_le (Nat.two_pow_pos _)]
  rw [locate_eq] at hv ⊢
  obtain ⟨hv_lt, hv_le⟩ := hv
  simp only at hv_lt hv_le ⊢
  have hhalf : 2 ^ (L.halfMagnitude + 1) = 2 * 2 ^ L.halfMagnitude := by rw [pow_succ]; ring
  rcases lt_trichotomy l.bucket (L.bucketOf v) with hlt | heq | hgt
  · -- The value is in a later bucket, so it is behind the location on both sides.
    have hupper := hv_le (by omega)
    have hbuckets : (l.bucket + 1) * 2 ^ L.halfMagnitude ≤ L.bucketOf v * 2 ^ L.halfMagnitude :=
      Nat.mul_le_mul_right _ hlt
    have hsub := hl.sub_lt
    rw [Nat.add_mul] at hbuckets
    have hplace : 2 ^ (L.halfMagnitude + 1) ≤ v / 2 ^ (l.bucket + L.unitMagnitude) := by
      rw [Nat.le_div_iff_mul_le (Nat.two_pow_pos _), ← pow_add, ← lt_bitLength_iff]
      omega
    constructor <;> intro _ <;> omega
  · -- In one bucket the places decide on both sides.
    rw [heq]
    omega
  · -- The value is in an earlier bucket, so it is before the location on both sides.
    have hupper := hl.le_sub (by omega)
    have hbuckets : (L.bucketOf v + 1) * 2 ^ L.halfMagnitude ≤ l.bucket * 2 ^ L.halfMagnitude :=
      Nat.mul_le_mul_right _ hgt
    rw [Nat.add_mul] at hbuckets
    have hplace : v / 2 ^ (l.bucket + L.unitMagnitude) < 2 ^ L.halfMagnitude := by
      rw [Nat.div_lt_iff_lt_mul (Nat.two_pow_pos _), ← pow_add, ← bitLength_le_iff]
      omega
    constructor <;> intro _ <;> omega

/-- The lowest value of a proper location is in the slot of that location. -/
theorem indexFor_lowestExactly {l : Location} (hl : L.Proper l) :
    L.indexFor (L.lowestExactly l) = L.indexOf l := by
  have hbucket : L.bucketOf (L.lowestExactly l) = l.bucket := by
    have hshort : bitLength l.sub ≤ L.halfMagnitude + 1 := bitLength_le_iff.mpr hl.sub_lt
    rw [bucketOf_eq hL, lowestExactly]
    rcases Nat.eq_zero_or_pos l.bucket with h0 | hpos
    · rcases Nat.eq_zero_or_pos l.sub with hs | hs
      · simp [hs, h0, bitLength]
      · rw [bitLength_mul_two_pow hs.ne']
        omega
    · -- Past the first bucket the place has its full number of digits.
      have hlong : L.halfMagnitude < bitLength l.sub := lt_bitLength_iff.mpr (hl.le_sub hpos.ne')
      have hs : l.sub ≠ 0 := by
        rintro hs
        simp [hs, bitLength] at hlong
      rw [bitLength_mul_two_pow hs]
      omega
  rw [indexFor, locate_eq, hbucket, lowestExactly, Nat.mul_div_cancel _ (Nat.two_pow_pos _)]

/-- Zero is in the first slot. -/
theorem indexFor_zero : L.indexFor 0 = 0 := by
  have hfirst : L.Proper ⟨0, 0⟩ := ⟨Nat.two_pow_pos _, fun hne => absurd rfl hne⟩
  have hindex := indexFor_lowestExactly hL hfirst
  rwa [lowestExactly, Nat.zero_mul, indexOf, Nat.zero_add, Nat.one_mul, Nat.add_zero,
    Nat.sub_self] at hindex

/-- A proper location with a lower index has a lower lowest value. -/
theorem lowestExactly_lt {l l' : Location} (hl : L.Proper l) (hl' : L.Proper l')
    (h : L.indexOf l < L.indexOf l') : L.lowestExactly l < L.lowestExactly l' := by
  by_contra hge
  have := (indexOf_le_indexFor_iff hL hl' _).mpr (not_lt.mp hge)
  rw [indexFor_lowestExactly hL hl] at this
  omega

/-! ## The slot that follows -/

/-- What follows a proper location is proper, and its index is the next one. -/
theorem following_spec {l : Location} (hl : L.Proper l) :
    L.Proper (L.following l) ∧ L.indexOf (L.following l) = L.indexOf l + 1 := by
  have hhalf : 2 ^ (L.halfMagnitude + 1) = 2 * 2 ^ L.halfMagnitude := by rw [pow_succ]; ring
  have hpos := Nat.two_pow_pos L.halfMagnitude
  have hsub := hl.sub_lt
  rw [indexOf_eq hL, indexOf_eq hL, following, hL.subCount_eq, hL.halfCount_eq]
  split
  -- A place is followed by the next one across the bucket, the last one by the next upper half.
  · next inside => exact ⟨⟨inside, fun hne => (hl.le_sub hne).trans (Nat.le_succ _)⟩, rfl⟩
  · next outside =>
    refine ⟨⟨by simp only; omega, fun _ => le_rfl⟩, ?_⟩
    simp only [Nat.add_mul]
    omega

/-- From one value to the next the slot stays or goes up by one. -/
theorem indexFor_succ_le (v : ℕ) : L.indexFor (v + 1) ≤ L.indexFor v + 1 := by
  obtain ⟨hn, hni⟩ := following_spec hL (locate_proper hL v)
  obtain ⟨hnn, hnni⟩ := following_spec hL hn
  by_contra hgt
  -- A slot between the two would start at most at `v`, yet come behind the slot of `v`.
  have hskip : L.lowestExactly (L.following (L.following (L.locate v))) ≤ v + 1 := by
    rw [← indexOf_le_indexFor_iff hL hnn, hnni, hni]
    exact not_le.mp hgt
  have hbetween := lowestExactly_lt hL hn hnn (by omega)
  have hle := (indexOf_le_indexFor_iff hL hn v).mpr (by omega)
  rw [hni, indexFor] at hle
  omega

/-- A greater value is in no earlier slot. -/
theorem indexFor_mono {v w : ℕ} (h : v ≤ w) : L.indexFor v ≤ L.indexFor w := by
  have hl := locate_proper hL v
  have hle : L.lowestExactly (L.locate v) ≤ v := (indexOf_le_indexFor_iff hL hl v).mp le_rfl
  exact (indexOf_le_indexFor_iff hL hl w).mpr (hle.trans h)

/-! ## Locations of indices -/

/-- An index below the number of slots names a proper location in one of the buckets, and that
location has the index. -/
theorem locationOf_spec {i : ℕ} (hi : i < L.slotCount) :
    L.Proper (L.locationOf i) ∧ L.indexOf (L.locationOf i) = i ∧
      (L.locationOf i).bucket < L.bucketCount := by
  have hhalf : 2 ^ (L.halfMagnitude + 1) = 2 * 2 ^ L.halfMagnitude := by rw [pow_succ]; ring
  have hmod := Nat.mod_lt i (Nat.two_pow_pos L.halfMagnitude)
  have hdiv := Nat.div_add_mod' i (2 ^ L.halfMagnitude)
  have hbucket : i / 2 ^ L.halfMagnitude < L.bucketCount + 1 := by
    rw [Nat.div_lt_iff_lt_mul (Nat.two_pow_pos _), ← hL.slotCount_eq]
    exact hi
  have hfits := hL.last_fits
  have hpos := hL.bucketCount_pos
  rw [indexOf_eq hL, locationOf, hL.halfCount_eq, Nat.shiftRight_eq_div_pow,
    Nat.and_two_pow_sub_one_eq_mod]
  generalize i / 2 ^ L.halfMagnitude = q at hdiv hbucket ⊢
  split
  · next h0 =>
    subst h0
    refine ⟨⟨by simp only; omega, fun hne => absurd rfl hne⟩, ?_, hpos⟩
    simp only
    omega
  · next h0 =>
    -- There are at most 64 buckets, so that their numbers fit.
    rw [Nat.mod_eq_of_lt (by omega : q - 1 < 0x100000000)]
    refine ⟨⟨by simp only; omega, fun _ => Nat.le_add_left _ _⟩, ?_, by simp only; omega⟩
    obtain ⟨q, rfl⟩ := Nat.exists_eq_succ_of_ne_zero h0
    rw [Nat.succ_mul] at hdiv
    simp only [Nat.succ_sub_one]
    omega

/-- The lowest value of a proper location is the exact one, held at `topValue`. -/
theorem lowestAt_eq {l : Location} (hl : L.Proper l) :
    L.lowestAt l = min (L.lowestExactly l) topValue := by
  have hfits := hL.first_fits
  have htop : topValue + 1 = 2 ^ 63 := rfl
  rw [lowestAt, lowestExactly, Nat.shiftLeft_eq]
  rcases Nat.eq_zero_or_pos l.sub with h0 | hpos
  · -- Only the first bucket has a place zero, and its lowest value is zero.
    have hb : l.bucket = 0 := by
      by_contra hne
      have := hl.le_sub hne
      have := Nat.two_pow_pos L.halfMagnitude
      omega
    rw [h0, hb, if_neg (by simp [bitLength]; omega)]
    simp
  · -- The product has as many digits as the place and the shift together.
    have hlen : bitLength l.sub + (l.bucket + L.unitMagnitude) ≤ 63 ↔
        l.sub * 2 ^ (l.bucket + L.unitMagnitude) < 2 ^ 63 := by
      rw [← bitLength_le_iff, bitLength_mul_two_pow hpos.ne']
    split
    · next h => rw [min_eq_right (by omega)]
    · next h => rw [min_eq_left (by omega)]

/-! ## The partition -/

/-- The index of a value is one of the layout's exactly when the value lies below the reach. -/
theorem indexFor_lt_slotCount_iff (v : ℕ) : L.indexFor v < L.slotCount ↔ v < L.reach := by
  have hb := bucketOf_eq hL v
  have hv := locate_proper hL v
  have hpos := hL.bucketCount_pos
  have hhalf : 2 ^ (L.halfMagnitude + 1) = 2 * 2 ^ L.halfMagnitude := by rw [pow_succ]; ring
  rw [reach, ← bitLength_le_iff, indexFor, indexOf_eq hL, hL.slotCount_eq, Nat.add_mul]
  rw [locate_eq] at hv ⊢
  obtain ⟨hv_lt, hv_le⟩ := hv
  simp only at hv_lt hv_le ⊢
  rcases lt_or_ge (L.bucketOf v) L.bucketCount with hlt | hge
  · have hbuckets : (L.bucketOf v + 1) * 2 ^ L.halfMagnitude
        ≤ L.bucketCount * 2 ^ L.halfMagnitude := Nat.mul_le_mul_right _ hlt
    rw [Nat.add_mul] at hbuckets
    constructor <;> intro _ <;> omega
  · have hupper := hv_le (by omega)
    have hbuckets : L.bucketCount * 2 ^ L.halfMagnitude ≤ L.bucketOf v * 2 ^ L.halfMagnitude :=
      Nat.mul_le_mul_right _ hge
    constructor <;> intro _ <;> omega

/-- The lowest value computed for an index is the exact one, held at `topValue`. -/
theorem lowestOfIndex_eq {i : ℕ} (hi : i < L.slotCount) :
    L.lowestOfIndex i = min (L.exactLowest i) topValue :=
  lowestAt_eq hL (locationOf_spec hL hi).1

/-- A slot starts past `topValue` exactly if it is one of the last bucket and that bucket starts
there. -/
theorem topValue_lt_exactLowest_iff {i : ℕ} (hi : i < L.slotCount) :
    topValue < L.exactLowest i ↔
      L.lowestExactly ⟨L.bucketCount - 1, L.halfCount⟩ = 2 ^ 63 ∧
        L.slotCount - L.halfCount ≤ i := by
  obtain ⟨hl, hli, hlb⟩ := locationOf_spec hL hi
  have htop : topValue + 1 = 2 ^ 63 := rfl
  have hfirst := hL.first_fits
  have hlast := hL.last_fits
  obtain ⟨last, hcount⟩ := Nat.exists_eq_succ_of_ne_zero hL.bucketCount_pos.ne'
  have hsub_lt := hl.sub_lt
  rw [indexOf_eq hL] at hli
  rw [exactLowest, hL.slotCount_eq, hL.halfCount_eq, lowestExactly, lowestExactly, ← pow_add,
    Nat.add_mul, one_mul, Nat.add_sub_cancel, hcount, Nat.succ_sub_one, Nat.succ_mul]
  generalize L.locationOf i = l at *
  dsimp only
  rw [hcount] at hlb hlast
  rw [pow_succ] at hsub_lt
  constructor
  · intro h
    -- The place and its shift have 64 digits together, which only the last bucket can have.
    have hlong : 63 < bitLength (l.sub * 2 ^ (l.bucket + L.unitMagnitude)) := by
      rw [lt_bitLength_iff]
      omega
    have hsub : l.sub ≠ 0 := by
      intro hs
      simp [hs, bitLength] at hlong
    have hshort := bitLength_le_iff.mpr hl.sub_lt
    rw [bitLength_mul_two_pow hsub] at hlong
    have hbucket : l.bucket = last := by omega
    have hupper := hl.le_sub (by omega)
    rw [hbucket] at hli
    exact ⟨by congr 1; omega, by omega⟩
  · rintro ⟨hstart, hi'⟩
    have hbucket : l.bucket = last := by
      by_contra hne
      have : (l.bucket + 1) * 2 ^ L.halfMagnitude ≤ last * 2 ^ L.halfMagnitude :=
        Nat.mul_le_mul_right _ (by omega)
      rw [Nat.succ_mul] at this
      omega
    rw [hbucket] at hli ⊢
    calc topValue < 2 ^ 63 := by omega
      _ = 2 ^ L.halfMagnitude * 2 ^ (last + L.unitMagnitude) := by rw [← pow_add, hstart]
      _ ≤ l.sub * 2 ^ (last + L.unitMagnitude) := Nat.mul_le_mul_right _ (by omega)

end

/-- The slots of a layout divide the values in their order. -/
structure OrderedPartition (L : Layout) : Prop where
  /-- The values below the reach have slots, and no others. -/
  isSome_iff : ∀ v, (L.slotOf? v).isSome ↔
    v < 2 ^ (L.unitMagnitude + L.halfMagnitude + L.bucketCount)
  /-- So all values up to the highest wanted have slots. -/
  isSome_of_le_highest : ∀ v ≤ topValue, (v : ℤ) ≤ L.highest → (L.slotOf? v).isSome
  /-- The index of a slot is below the number of slots. -/
  lt_slotCount : ∀ v i, L.slotOf? v = some i → i < L.slotCount
  /-- A greater value is in no earlier slot. -/
  mono : ∀ v w i j, v ≤ w → L.slotOf? v = some i → L.slotOf? w = some j → i ≤ j
  /-- The next value is in the same slot or in the next one, unless that was the last slot. -/
  step : ∀ v i, L.slotOf? v = some i → L.slotOf? (v + 1) = some i ∨
    L.slotOf? (v + 1) = some (i + 1) ∨ (L.slotOf? (v + 1) = none ∧ i + 1 = L.slotCount)
  /-- A slot that starts among the values has the lowest value that is computed for it. -/
  isLeast : ∀ i < L.slotCount, L.exactLowest i ≤ topValue →
    IsLeast {v | L.slotOf? v = some i} (L.lowestOfIndex i)
  /-- Those lowest values increase strictly. -/
  strictMono : ∀ i j, i < j → j < L.slotCount → L.exactLowest j ≤ topValue →
    L.lowestOfIndex i < L.lowestOfIndex j
  /-- A slot that starts past the values has none, and `topValue` is computed for it. -/
  isEmpty : ∀ i < L.slotCount, topValue < L.exactLowest i →
    L.lowestOfIndex i = topValue ∧ ∀ v ≤ topValue, L.slotOf? v ≠ some i
  /-- Such slots are those of the last bucket, if it starts at `2 ^ 63`. -/
  isEmpty_iff : ∀ i < L.slotCount, topValue < L.exactLowest i ↔
    L.lowestExactly ⟨L.bucketCount - 1, L.halfCount⟩ = 2 ^ 63 ∧ L.slotCount - L.halfCount ≤ i

/-- The slots of every accepted layout divide the values in their order. -/
theorem ofBounds_orderedPartition {b : Bounds} {L : Layout} (h : ofBounds b = .ok L) :
    L.OrderedPartition := by
  have hL := ofBounds_shaped h
  have hsome : ∀ v, (L.slotOf? v).isSome ↔ L.indexFor v < L.slotCount := by
    intro v
    simp [Option.isSome_iff_exists, slotOf?_eq_some_iff]
  refine ⟨fun v => ?_, fun v hv hvh => ?_, fun v i hv => (slotOf?_eq_some_iff.mp hv).2, ?_, ?_, ?_,
    ?_, ?_, fun i hi => topValue_lt_exactLowest_iff hL hi⟩
  · rw [hsome, indexFor_lt_slotCount_iff hL, reach]
  · rw [hsome, indexFor_lt_slotCount_iff hL]
    exact hL.lt_reach v hv hvh
  · intro v w i j hvw hv hw
    rw [← (slotOf?_eq_some_iff.mp hv).1, ← (slotOf?_eq_some_iff.mp hw).1]
    exact indexFor_mono hL hvw
  · intro v i hv
    obtain ⟨rfl, hi⟩ := slotOf?_eq_some_iff.mp hv
    have hle := indexFor_succ_le hL v
    have hge : L.indexFor v ≤ L.indexFor (v + 1) := indexFor_mono hL (by omega)
    rcases Nat.lt_or_ge (L.indexFor (v + 1)) L.slotCount with hin | hout
    · rw [slotOf?_eq_some_iff, slotOf?_eq_some_iff]
      omega
    · refine .inr (.inr ⟨?_, by omega⟩)
      rw [← Option.not_isSome_iff_eq_none, hsome]
      omega
  · intro i hi htop
    obtain ⟨hl, hli, -⟩ := locationOf_spec hL hi
    rw [lowestOfIndex_eq hL hi, min_eq_left htop]
    refine ⟨slotOf?_eq_some_iff.mpr ⟨(indexFor_lowestExactly hL hl).trans hli, hi⟩, fun v hv => ?_⟩
    rw [exactLowest, ← indexOf_le_indexFor_iff hL hl, hli]
    exact (slotOf?_eq_some_iff.mp hv).1.ge
  · intro i j hij hj htop
    obtain ⟨hl, hli, -⟩ := locationOf_spec hL (hij.trans hj)
    obtain ⟨hl', hlj, -⟩ := locationOf_spec hL hj
    have hlt : L.exactLowest i < L.exactLowest j := lowestExactly_lt hL hl hl' (by omega)
    rw [lowestOfIndex_eq hL (hij.trans hj), lowestOfIndex_eq hL hj, min_eq_left htop]
    exact (min_le_left _ _).trans_lt hlt
  · intro i hi htop
    obtain ⟨hl, hli, -⟩ := locationOf_spec hL hi
    refine ⟨by rw [lowestOfIndex_eq hL hi, min_eq_right htop.le], fun v hv hslot => ?_⟩
    have hle := (indexOf_le_indexFor_iff hL hl v).mp
      (by rw [hli]; exact (slotOf?_eq_some_iff.mp hslot).1.ge)
    rw [exactLowest] at htop
    omega

/-- A layout over all values, whose last bucket starts at `2 ^ 63`. -/
theorem orderedPartition_toTop :
    ofBounds ⟨2, 2 ^ 63 - 1, 1⟩ = .ok ⟨⟨2, 2 ^ 63 - 1, 1⟩, 1, 4, 32, 16, 62, 59, 960⟩ ∧
      OrderedPartition ⟨⟨2, 2 ^ 63 - 1, 1⟩, 1, 4, 32, 16, 62, 59, 960⟩ :=
  ⟨by decide +kernel, ofBounds_orderedPartition (b := ⟨2, 2 ^ 63 - 1, 1⟩) (by decide +kernel)⟩

end DynamicRange.Layout
