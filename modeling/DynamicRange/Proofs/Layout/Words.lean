import DynamicRange.Proofs.Traversal.Registers

/-!
# Slots are found in words

Places, indices and lowest values are computed from words of fixed length, in which a difference may
go below zero, a shift may be as long as the word, and a number may lose digits when it is held in a
shorter word. Here every such operation gives nothing in those cases (`sub?`, `shiftLeft?`,
`shiftRight?`, `fit?`), and the functions of a layout are written with them once more.

`ofBounds_worded` says that in an accepted layout they always give what they give in whole numbers:
for all values, for all indices of slots, and for all locations that a cursor comes to or looks at,
the one behind the last slot included. It rests on the few bounds that accepted sizes have, and on
the bucket of a value lying among the first 63 (`bucket_locate_lt`). Two results leave the exact
ones on purpose, a lowest value past `topValue` and a sum past it, and it is said when.
-/

namespace DynamicRange

/-! ## Operations on words -/

/-- A number, if it has at most so many binary digits. -/
def fit? (bits n : ℕ) : Option ℕ := if n < 2 ^ bits then some n else none

/-- A difference, if it does not go below zero. -/
def sub? (n m : ℕ) : Option ℕ := if m ≤ n then some (n - m) else none

/-- A word shifted to higher places, if it is shifted by less than 64 of them and then has at most
so many digits. -/
def shiftLeft? (bits n places : ℕ) : Option ℕ :=
  if places < 64 then fit? bits (n <<< places) else none

/-- A word shifted to lower places, if it is shifted by less than 64 of them. -/
def shiftRight? (n places : ℕ) : Option ℕ := if places < 64 then some (n >>> places) else none

theorem fit?_of_lt {bits n : ℕ} (h : n < 2 ^ bits) : fit? bits n = some n := if_pos h

theorem sub?_of_le {n m : ℕ} (h : m ≤ n) : sub? n m = some (n - m) := if_pos h

theorem shiftLeft?_of_lt {bits n places : ℕ} (hplaces : places < 64)
    (h : n * 2 ^ places < 2 ^ bits) : shiftLeft? bits n places = some (n <<< places) := by
  rw [shiftLeft?, if_pos hplaces, fit?_of_lt (by rwa [Nat.shiftLeft_eq])]

theorem shiftRight?_of_lt {n places : ℕ} (h : places < 64) :
    shiftRight? n places = some (n >>> places) := if_pos h

/-! ## The functions of a layout in words -/

namespace Layout

/-- The first bucket that holds a value, in words. -/
def bucketWord? (L : Layout) (v : ℕ) : Option ℕ := do
  let digits ← sub? (bitLength (v ||| L.mask)) L.unitMagnitude
  sub? digits (L.halfMagnitude + 1)

/-- The location of a value, in words. The place is cut to 32 bits. -/
def locateWord? (L : Layout) (v : ℕ) : Option Location := do
  let bucket ← L.bucketWord? v
  let shift ← fit? 32 (bucket + L.unitMagnitude)
  let place ← shiftRight? v shift
  let sub ← fit? 32 place
  return ⟨bucket, sub⟩

/-- The index of a location, in words. -/
def indexWord? (L : Layout) (l : Location) : Option ℕ := do
  let base ← shiftLeft? 64 (l.bucket + 1) L.halfMagnitude
  let sum ← fit? 64 (base + l.sub)
  sub? sum L.halfCount

/-- The lowest value at a location, in words. -/
def lowestWord? (L : Layout) (l : Location) : Option ℕ := do
  let shift ← fit? 32 (l.bucket + L.unitMagnitude)
  let digits ← fit? 32 (bitLength l.sub + shift)
  if 63 < digits then return topValue else shiftLeft? 63 l.sub shift

/-- The lowest value of the slot at an index, in words. -/
def lowestOfIndexWord? (L : Layout) (index : ℕ) : Option ℕ := do
  let half ← shiftRight? index L.halfMagnitude
  let last ← sub? L.halfCount 1
  let upper ← fit? 64 ((index &&& last) + L.halfCount)
  if half = 0 then
    let place ← sub? upper L.halfCount
    let sub ← fit? 32 place
    L.lowestWord? ⟨0, sub⟩
  else
    let before ← sub? half 1
    let bucket ← fit? 32 before
    let sub ← fit? 32 upper
    L.lowestWord? ⟨bucket, sub⟩

/-- The number of values equivalent to a value, in words. -/
def rangeWord? (L : Layout) (v : ℕ) : Option ℕ := do
  let l ← L.locateWord? v
  let bucket ← if L.subCount ≤ l.sub then fit? 32 (l.bucket + 1) else some l.bucket
  let shift ← fit? 32 (L.unitMagnitude + bucket)
  shiftLeft? 63 1 shift

/-- The location that follows, in words. -/
def followingWord? (L : Layout) (l : Location) : Option Location := do
  let sub ← fit? 32 (l.sub + 1)
  if sub < L.subCount then
    return ⟨l.bucket, sub⟩
  else
    let bucket ← fit? 32 (l.bucket + 1)
    return ⟨bucket, L.halfCount⟩

section

variable {L : Layout} (hL : L.Precise) {v i : ℕ} {l : Location}
include hL

/-! ## Values -/

/-- A value ends below the last digit of 63 in the first bucket that holds it. -/
theorem bucket_locate_lt (hv : v ≤ topValue) :
    (L.locate v).bucket + L.unitMagnitude + L.halfMagnitude + 1 ≤ 63 := by
  have hshort : bitLength v ≤ 63 :=
    bitLength_le_iff.mpr (Nat.lt_succ_of_le hv)
  have hbucket : (L.locate v).bucket = _ := bucketOf_eq hL.toShaped v
  have hfits := hL.first_fits
  omega

/-- A value that is joined with the mask has the digits of the first bucket at least, so that the
bucket of a value is a word. -/
theorem bucketWord?_eq (v : ℕ) : L.bucketWord? v = some (L.bucketOf v) := by
  obtain ⟨hlow, hhigh⟩ := mask_bounds L.halfMagnitude L.unitMagnitude
  rw [← hL.mask_eq] at hlow hhigh
  have hmask := bitLength_eq hlow hhigh
  have hor := bitLength_or v L.mask
  rw [bucketWord?, sub?_of_le (by omega)]
  exact sub?_of_le (by omega)

/-- The place of a value is one of the bucket. -/
theorem sub_locate_lt (v : ℕ) : (L.locate v).sub < L.subCount := by
  rw [hL.subCount_eq]
  exact (locate_proper hL.toShaped v).sub_lt

/-- There are so few places across a bucket that their numbers are short. -/
theorem subCount_le : L.subCount ≤ 2 ^ 18 := by
  rw [hL.subCount_eq]
  exact Nat.pow_le_pow_right two_pos (Nat.succ_le_succ hL.halfMagnitude_le)

/-- The location of a value is computed in words. -/
theorem locateWord?_eq (hv : v ≤ topValue) : L.locateWord? v = some (L.locate v) := by
  have hbucket : L.bucketOf v + L.unitMagnitude + _ + 1 ≤ 63 := bucket_locate_lt hL hv
  have hshift : L.bucketOf v + L.unitMagnitude < 64 := by omega
  have hsub : v >>> (L.bucketOf v + L.unitMagnitude) < 2 ^ 32 :=
    ((sub_locate_lt hL v).trans_le (subCount_le hL)).trans (by decide)
  simp only [locateWord?, bucketWord?_eq hL, Option.bind_eq_bind, Option.bind_some,
    fit?_of_lt (hshift.trans (by decide : 64 < 2 ^ 32)), shiftRight?_of_lt hshift,
    fit?_of_lt hsub]
  rfl

/-- The size of the range of a value is computed in words, and no place is past its bucket. -/
theorem rangeWord?_eq (hv : v ≤ topValue) : L.rangeWord? v = some (L.rangeSize v) := by
  have hbucket := bucket_locate_lt hL hv
  have hplace := Nat.not_le.mpr (sub_locate_lt hL v)
  have hshift : L.unitMagnitude + (L.locate v).bucket < 63 := by omega
  have hpow : 1 * 2 ^ (L.unitMagnitude + (L.locate v).bucket) < 2 ^ 63 := by
    rw [one_mul]
    exact Nat.pow_lt_pow_right one_lt_two hshift
  simp only [rangeWord?, locateWord?_eq hL hv, Option.bind_eq_bind, Option.bind_some,
    if_neg hplace, fit?_of_lt ((hshift.trans (by decide)).trans (by decide : 64 < 2 ^ 32)),
    shiftLeft?_of_lt (hshift.trans (by decide)) hpow, rangeSize, Int.toNat_natCast]

/-! ## Locations -/

/-- What can be relied on at a location. -/
structure WordedAt (L : Layout) (l : Location) : Prop where
  /-- The place lies across the bucket. -/
  sub_lt : l.sub < L.subCount
  /-- The index is computed in words. -/
  index : L.indexWord? l = some (L.indexOf l)
  /-- The lowest value is computed in words. -/
  lowest : L.lowestWord? l = some (L.lowestAt l)
  /-- It is the exact product, unless that is past `topValue`. -/
  exact : L.lowestAt l = if l.sub * 2 ^ (l.bucket + L.unitMagnitude) < 2 ^ 63 then
    l.sub * 2 ^ (l.bucket + L.unitMagnitude) else topValue
  /-- The location that follows is computed in words. -/
  following : L.followingWord? l = some (L.following l)

/-- The index of a location is computed in words. -/
theorem indexWord?_eq (hsub : l.sub < L.subCount) (hbucket : l.bucket ≤ 64) :
    L.indexWord? l = some (L.indexOf l) := by
  have hhalf := hL.halfMagnitude_le
  have hpow : 2 ^ L.halfMagnitude ≤ 2 ^ 17 := Nat.pow_le_pow_right two_pos hhalf
  have hplace := hsub.trans_le (subCount_le hL)
  have hbase : (l.bucket + 1) * 2 ^ L.halfMagnitude ≤ 65 * 2 ^ 17 :=
    Nat.mul_le_mul (by omega) hpow
  have hleast : 2 ^ L.halfMagnitude ≤ (l.bucket + 1) * 2 ^ L.halfMagnitude :=
    Nat.le_mul_of_pos_left _ (Nat.succ_pos _)
  have hsum : (l.bucket + 1) <<< L.halfMagnitude + l.sub < 2 ^ 64 := by
    rw [Nat.shiftLeft_eq]
    omega
  have hdifference : L.halfCount ≤ (l.bucket + 1) <<< L.halfMagnitude + l.sub := by
    rw [Nat.shiftLeft_eq, hL.halfCount_eq]
    omega
  simp only [indexWord?, shiftLeft?_of_lt (show L.halfMagnitude < 64 by omega)
    (show (l.bucket + 1) * 2 ^ L.halfMagnitude < 2 ^ 64 by omega), Option.bind_eq_bind,
    Option.bind_some, fit?_of_lt hsum, sub?_of_le hdifference]
  rw [indexOf, Nat.shiftLeft_eq, hL.halfCount_eq]

/-- The lowest value at a location is computed in words, with a shift of less than 64 places. -/
theorem lowestWord?_eq (hl : L.Proper l) (hbucket : l.bucket ≤ 64) :
    L.lowestWord? l = some (L.lowestAt l) := by
  have hfits := hL.first_fits
  have hshort : bitLength l.sub ≤ L.halfMagnitude + 1 := bitLength_le_iff.mpr hl.sub_lt
  have hhalf := hL.halfMagnitude_le
  have hshift : l.bucket + L.unitMagnitude < 2 ^ 32 := by omega
  have hdigits : bitLength l.sub + (l.bucket + L.unitMagnitude) < 2 ^ 32 := by omega
  simp only [lowestWord?, Option.bind_eq_bind, Option.bind_some, fit?_of_lt hshift,
    fit?_of_lt hdigits, lowestAt]
  split
  · rfl
  · next hvalue =>
    have hfit := L.lowestAt_le l
    rw [lowestAt, if_neg hvalue, Nat.shiftLeft_eq] at hfit
    -- Only the first bucket has a place zero, so there the shift is that of the unit.
    have hplaces : l.bucket + L.unitMagnitude < 64 := by omega
    exact shiftLeft?_of_lt hplaces (Nat.lt_succ_of_le hfit)

/-- At a proper location in a bucket that is not far past the last one everything is computed in
words. -/
theorem wordedAt_of_proper (hl : L.Proper l) (hbucket : l.bucket ≤ 64) : L.WordedAt l := by
  have hsub : l.sub < L.subCount := hL.subCount_eq ▸ hl.sub_lt
  have hplace := hsub.trans_le (subCount_le hL)
  refine ⟨hsub, indexWord?_eq hL hsub hbucket, lowestWord?_eq hL hl hbucket, ?_, ?_⟩
  · have htop : topValue + 1 = 2 ^ 63 := rfl
    rw [lowestAt_eq hL.toShaped hl, lowestExactly]
    split <;> omega
  · simp only [followingWord?, following, Option.bind_eq_bind, Option.bind_some,
      fit?_of_lt (show l.sub + 1 < 2 ^ 32 by omega),
      fit?_of_lt (show l.bucket + 1 < 2 ^ 32 by omega)]
    split <;> rfl

/-- The lowest value of the slot at an index is computed in words. -/
theorem lowestOfIndexWord?_eq (hi : i < L.slotCount) :
    L.lowestOfIndexWord? i = some (L.lowestOfIndex i) := by
  obtain ⟨hl, -, hbucket⟩ := locationOf_spec hL.toShaped hi
  have hlast := hL.last_fits
  have hlowest := lowestWord?_eq hL hl (by omega)
  have hhalf := hL.halfMagnitude_le
  have hpow : 2 ^ L.halfMagnitude ≤ 2 ^ 17 := Nat.pow_le_pow_right two_pos hhalf
  have hpos := Nat.two_pow_pos L.halfMagnitude
  rw [← hL.halfCount_eq] at hpow hpos
  have hplace : i &&& (L.halfCount - 1) ≤ L.halfCount - 1 := Nat.and_le_right
  have hhalves : i >>> L.halfMagnitude ≤ L.bucketCount := by
    rw [Nat.shiftRight_eq_div_pow, ← Nat.lt_succ_iff, Nat.div_lt_iff_lt_mul (Nat.two_pow_pos _)]
    exact hL.slotCount_eq ▸ hi
  simp only [lowestOfIndexWord?, Option.bind_eq_bind, Option.bind_some,
    shiftRight?_of_lt (show L.halfMagnitude < 64 by omega), sub?_of_le hpos,
    fit?_of_lt (show (i &&& (L.halfCount - 1)) + L.halfCount < 2 ^ 64 by omega),
    fit?_of_lt (show (i &&& (L.halfCount - 1)) + L.halfCount < 2 ^ 32 by omega),
    sub?_of_le (Nat.le_add_left _ _), Nat.add_sub_cancel,
    fit?_of_lt (show i &&& (L.halfCount - 1) < 2 ^ 32 by omega)]
  rw [lowestOfIndex]
  rw [locationOf] at hlowest ⊢
  split
  · next hfirst => rwa [if_pos hfirst] at hlowest
  · next hlater =>
    -- The bucket is none of so many that its number would be cut.
    have hfit : i >>> L.halfMagnitude - 1 < 2 ^ 32 := by omega
    have hcut : (i >>> L.halfMagnitude - 1) % 0x100000000 = i >>> L.halfMagnitude - 1 :=
      Nat.mod_eq_of_lt hfit
    rw [if_neg hlater, hcut] at hlowest
    rwa [sub?_of_le (Nat.pos_of_ne_zero hlater), Option.bind_some, fit?_of_lt hfit,
      Option.bind_some, hcut]

/-! ## Cursors -/

/-- At the location of the index behind some slots everything is computed in words, also behind the
last slot. -/
theorem wordedAt_locationOf (hi : i ≤ L.slotCount) : L.WordedAt (L.locationOf i) := by
  have hlast := hL.last_fits
  have hpos := hL.bucketCount_pos
  refine wordedAt_of_proper hL (proper_locationOf hL.toShaped hi) ?_
  cases i with
  | zero =>
    have hfirst := (locationOf_spec hL.toShaped hL.slotCount_pos).2.2
    omega
  | succ i =>
    have hbucket := (locationOf_spec hL.toShaped hi).2.2
    rw [locationOf_succ hL.toShaped hi, following]
    split <;> dsimp only <;> omega

end

/-- What can be relied on when places, indices and lowest values are computed in words. -/
structure Worded (L : Layout) : Prop where
  /-- The numbers of places and the mask are computed in words. -/
  sizes : shiftLeft? 32 1 (L.halfMagnitude + 1) = some L.subCount ∧
    shiftLeft? 63 (L.subCount - 1) L.unitMagnitude = some L.mask
  /-- The location of a value is computed in words. -/
  locate : ∀ v ≤ topValue, L.bucketWord? v = some (L.bucketOf v) ∧
    L.locateWord? v = some (L.locate v) ∧ L.WordedAt (L.locate v)
  /-- The size of the range of a value is computed in words, with a digit for the sign left over,
  and it is the one of the bucket, not of the next one. -/
  rangeSize : ∀ v ≤ topValue, L.rangeWord? v = some (L.rangeSize v) ∧ 0 < L.rangeSize v ∧
    L.rangeSize v ≤ topValue ∧ L.rangeSize v = 2 ^ (L.unitMagnitude + L.bucketOf v)
  /-- The lowest value of a slot is computed in words. -/
  lowestOfIndex : ∀ i < L.slotCount, L.lowestOfIndexWord? i = some (L.lowestOfIndex i) ∧
    L.WordedAt (L.locationOf i)
  /-- A cursor comes to and looks at no other locations. -/
  cursor : ∀ h : Histogram, h.layout = L → ∀ n c,
    (fun c? : Option Cursor => c?.bind (·.move? h))^[n] (some (Cursor.start h)) = some c →
      (∀ l, c.slot? = some l → L.WordedAt l) ∧ L.WordedAt (c.next L)
  /-- The end of a range is past `topValue` by one at most, and held at `topValue` only then. -/
  saturates : ∀ v ≤ topValue, L.lowestEquivalent v + L.rangeSize v ≤ 2 ^ 63 ∧
    (L.nextInequivalent v ≠ L.lowestEquivalent v + L.rangeSize v ↔
      L.lowestEquivalent v + L.rangeSize v = 2 ^ 63)

/-- In every accepted layout places, indices and lowest values are computed in words. -/
theorem ofBounds_worded {b : Bounds} {L : Layout} (h : ofBounds b = .ok L) : L.Worded := by
  have hL := ofBounds_precise h
  have hfits := hL.first_fits
  refine ⟨⟨?_, ?_⟩, fun v hv => ⟨bucketWord?_eq hL v, locateWord?_eq hL hv, ?_⟩,
    fun v hv => ⟨rangeWord?_eq hL hv, rangeSize_pos hL.toShaped v, ?_, ?_⟩,
    fun i hi => ⟨lowestOfIndexWord?_eq hL hi, wordedAt_locationOf hL hi.le⟩, ?_, fun v hv => ?_⟩
  · have hplaces := (hL.subCount_eq ▸ subCount_le hL).trans_lt (by decide : 2 ^ 18 < 2 ^ 32)
    rw [shiftLeft?_of_lt (by omega) (by rwa [one_mul]), Nat.one_shiftLeft, hL.subCount_eq]
  · have hmask := (mask_bounds L.halfMagnitude L.unitMagnitude).2.trans_le
      (Nat.pow_le_pow_right two_pos hfits)
    rw [hL.subCount_eq, shiftLeft?_of_lt (by omega) hmask, Nat.shiftLeft_eq, hL.mask_eq]
  · have hbucket := bucket_locate_lt hL hv
    exact wordedAt_of_proper hL (locate_proper hL.toShaped v) (by omega)
  · have hbucket := bucket_locate_lt hL hv
    rw [rangeSize_eq hL.toShaped, Int.toNat_natCast]
    exact (Nat.pow_le_pow_right two_pos (by omega)).trans (by decide : 2 ^ 62 ≤ topValue)
  · rw [rangeSize_eq hL.toShaped, Int.toNat_natCast, Nat.add_comm]
    rfl
  · rintro g rfl n c hc
    obtain ⟨hn, rfl⟩ := Registers.eq_after_of_iterate hL.toShaped hc
    rw [Cursor.next_after 0 hL.toShaped hn]
    refine ⟨fun l hl => ?_, wordedAt_locationOf hL hn⟩
    cases n with
    | zero => cases hl
    | succ n =>
      obtain rfl := Option.some.inj hl
      exact wordedAt_locationOf hL (Nat.le_of_succ_le hn)
  · have hend := lowestEquivalent_add_rangeSize_le hL.toShaped (Int.ofNat_le.mpr hv)
    have htop : topValue + 1 = 2 ^ 63 := rfl
    have hnext : L.nextInequivalent v = min (L.lowestEquivalent v + L.rangeSize v) topValue := rfl
    omega

/-- A layout over all values, whose third and last bucket starts at `2 ^ 63`. The range of
`topValue` ends there, and the lowest value of the location behind the last slot is held at
`topValue`. -/
theorem worded_toTop :
    let L : Layout := ⟨⟨2 ^ 57, 2 ^ 63 - 1, 1⟩, 57, 4, 32, 16, 31 * 2 ^ 57, 3, 64⟩
    ofBounds ⟨2 ^ 57, 2 ^ 63 - 1, 1⟩ = .ok L ∧ L.Worded ∧
      L.locateWord? topValue = some ⟨1, 31⟩ ∧ L.rangeWord? topValue = some (2 ^ 58) ∧
      L.lowestWord? ⟨1, 31⟩ = some (31 * 2 ^ 58) ∧ 31 * 2 ^ 58 + 2 ^ 58 = 2 ^ 63 ∧
      L.followingWord? ⟨2, 31⟩ = some ⟨3, 16⟩ ∧ L.indexWord? ⟨3, 16⟩ = some 64 ∧
      L.lowestWord? ⟨3, 16⟩ = some topValue :=
  ⟨by decide +kernel, ofBounds_worded (b := ⟨2 ^ 57, 2 ^ 63 - 1, 1⟩) (by decide +kernel),
    by decide +kernel⟩

end Layout

end DynamicRange
