import DynamicRange.Proofs.Binary64.Packing
import Mathlib.Data.Rat.Floor

/-!
# Values and bounds of floats

Of a float it is known that it has a positive value (`HasValue`), or that it does not exceed a bound
(`AtMost`): it may then be negative, zero or a negative infinity, but not NaN. Under sums, products
and quotients with positive floats both go over to the nearest binary64 number, as long as that is
below the infinity, and what is cut to 64 bits in the end does not exceed the whole part of the
bound.

That a float does not exceed a positive value is what a comparison with a float of that value tells
(`le_iff_atMost`).
-/

namespace DynamicRange.Binary64

open Float.Model Float.Model.UnpackedFloat

variable {x y : Float} {u : UnpackedFloat} {a b c q : ℚ}

/-! ## What operations come to -/

theorem unpacked_mul (x y : Float) :
    unpacked (x * y) = stored (UnpackedFloat.mul Format.binary64 (unpacked x) (unpacked y)) := rfl

theorem unpacked_div (x y : Float) :
    unpacked (x / y) = stored (UnpackedFloat.div Format.binary64 (unpacked x) (unpacked y)) := rfl

theorem unpacked_add (x y : Float) :
    unpacked (x + y) = stored (UnpackedFloat.add Format.binary64 (unpacked x) (unpacked y)) := rfl

theorem lt_iff_compare (x y : Float) :
    x < y ↔ UnpackedFloat.compare (unpacked x) (unpacked y) = some .lt := by
  have hmodel : x < y ↔ x.toModel < y.toModel := decide_eq_true_iff
  exact hmodel.trans beq_iff_eq

theorem le_iff_compare (x y : Float) :
    x ≤ y ↔ (UnpackedFloat.compare (unpacked x) (unpacked y)).any (·.isLE) = true := by
  have hmodel : x ≤ y ↔ x.toModel ≤ y.toModel := decide_eq_true_iff
  exact hmodel

/-- What a float stands for is canonical. -/
theorem canonical_of_unpacked {s : Sign} {m : ℕ} {e : ℤ} {hm : 0 < m}
    (h : unpacked x = .finite s m e hm) : Canonical m e :=
  (canonical_of_unpack h).1

/-- The exponent of a number below the infinity is that of some float. -/
theorem Canonical.exponent_le {m : ℕ} {e : ℤ} (h : Canonical m e)
    (hlt : (m : ℚ) * 2 ^ e < 2 ^ (1024 : ℤ)) : e ≤ 971 := by
  rcases h.lastPlace.le with rfl | ⟨-, hlow⟩
  · norm_num
  · have htop := (zpow_lt_zpow_iff_right₀ one_lt_two).mp (hlow.trans_lt hlt)
    omega

/-! ## Values -/

/-- A float stands for a positive number. -/
inductive HasValue (x : Float) : ℚ → Prop where
  | intro {m : ℕ} {e : ℤ} {hm : 0 < m} (h : unpacked x = .finite .positive m e hm) :
    HasValue x (m * 2 ^ e)

theorem HasValue.of_eq {m : ℕ} {e : ℤ} {hm : 0 < m} (h : unpacked x = .finite .positive m e hm)
    (ha : a = m * 2 ^ e) : HasValue x a :=
  ha ▸ ⟨h⟩

theorem HasValue.pos (h : HasValue x a) : 0 < a := by
  obtain @⟨m, e, hm, -⟩ := h
  positivity

/-- The value of a float is nearest to itself. -/
theorem HasValue.nearest (h : HasValue x a) : Nearest a a := by
  obtain ⟨h⟩ := h
  exact .of_canonical (canonical_of_unpacked h)

/-- A half is lost where the last place is that of the twos at least. -/
theorem HasValue.nearest_add_half (h : HasValue x a) (hlow : 2 ^ 53 ≤ a) :
    Nearest (a + 1 / 2) a := by
  obtain @⟨m, e, hm, h⟩ := h
  have hcanonical := canonical_of_unpacked h
  have he : 1 ≤ e := by
    have htop := (zpow_lt_zpow_iff_right₀ one_lt_two).mp
      ((zpow_natCast (2 : ℚ) 53).trans_le hlow |>.trans_lt hcanonical.lastPlace.lt)
    omega
  have htwo : (2 : ℚ) ≤ 2 ^ e :=
    (zpow_one (2 : ℚ)).symm.trans_le (zpow_le_zpow_right₀ one_le_two he)
  -- In units of the last place the half is a quarter at most.
  have hshare : (1 / 2 : ℚ) / 2 ^ e ≤ 1 / 4 := by
    rw [div_le_iff₀ (by positivity)]
    linarith
  have hshare' : (0 : ℚ) < 1 / 2 / 2 ^ e := by positivity
  refine .intro ⟨?_, .inr ⟨by omega, ?_⟩⟩ ?_
  · calc (m : ℚ) * 2 ^ e + 1 / 2 < (m + 1) * 2 ^ e := by linarith
      _ ≤ 2 ^ (53 : ℤ) * 2 ^ e :=
        mul_le_mul_of_nonneg_right (by exact_mod_cast hcanonical.lt) (by positivity)
      _ = 2 ^ (e + 53) := by rw [add_comm, zpow_add₀ two_ne_zero]
  · rcases hcanonical.lastPlace.le with hlowest | ⟨-, hle⟩
    · omega
    · linarith
  · rw [add_div, mul_div_cancel_right₀ _ (by positivity)]
    exact .of_lt (by linarith) (by linarith)

/-- A positive result below the infinity is the value of what it is stored as. -/
theorem Rounded.hasValue (h : Rounded .positive q u) (hx : unpacked x = stored u)
    (hc : Nearest q c) (hpos : 0 < c) (hlt : c < 2 ^ (1024 : ℤ)) : HasValue x c := by
  cases h with
  | zero hzero => exact absurd (hzero.unique hc) hpos.ne
  | @finite m e hm hcanonical hn =>
    obtain rfl := hn.unique hc
    rw [stored_finite _ _ hcanonical, if_pos (hcanonical.exponent_le hlt)] at hx
    exact ⟨hx⟩

/-- The product of floats. -/
theorem HasValue.mul (hx : HasValue x a) (hy : HasValue y b) (hc : Nearest (a * b) c) (hpos : 0 < c)
    (hlt : c < 2 ^ (1024 : ℤ)) : HasValue (x * y) c := by
  obtain @⟨m, d, hm, hx⟩ := hx
  obtain @⟨n, e, hn, hy⟩ := hy
  have hrounded := mul_rounded .positive .positive hm hn (canonical_of_unpacked hx)
    (canonical_of_unpacked hy)
  refine hrounded.hasValue ?_ hc hpos hlt
  rw [unpacked_mul, hx, hy]

/-- The quotient of floats. -/
theorem HasValue.div (hx : HasValue x a) (hy : HasValue y b) (hc : Nearest (a / b) c) (hpos : 0 < c)
    (hlt : c < 2 ^ (1024 : ℤ)) : HasValue (x / y) c := by
  obtain @⟨m, d, hm, hx⟩ := hx
  obtain @⟨n, e, hn, hy⟩ := hy
  refine (div_rounded .positive .positive hm hn).hasValue ?_ hc hpos hlt
  rw [unpacked_div, hx, hy]

/-- The sum of floats. -/
theorem HasValue.add (hx : HasValue x a) (hy : HasValue y b) (hc : Nearest (a + b) c) (hpos : 0 < c)
    (hlt : c < 2 ^ (1024 : ℤ)) : HasValue (x + y) c := by
  have hsum := add_pos hx.pos hy.pos
  obtain @⟨m, d, hm, hx⟩ := hx
  obtain @⟨n, e, hn, hy⟩ := hy
  have hrounded := (add_rounded .positive .positive hm hn (d := d) (e := e)).1 hsum
  refine hrounded.hasValue ?_ hc hpos hlt
  rw [unpacked_add, hx, hy]

/-! ## Bounds -/

/-- What is stored is a number that does not exceed a bound. -/
inductive AtMost (b : ℚ) : UnpackedFloat → Prop where
  | infinity : AtMost b (.infinity .negative)
  | zero (s : Sign) : AtMost b (.zero s)
  | negative {m : ℕ} {e : ℤ} {hm : 0 < m} : AtMost b (.finite .negative m e hm)
  | positive {m : ℕ} {e : ℤ} {hm : 0 < m} (h : (m : ℚ) * 2 ^ e ≤ b) :
    AtMost b (.finite .positive m e hm)

/-- A float does not exceed its value. -/
theorem HasValue.atMost (h : HasValue x a) : AtMost a (unpacked x) := by
  obtain ⟨h⟩ := h
  rw [h]
  exact .positive le_rfl

/-- What does not exceed a bound does not exceed a greater one. -/
theorem AtMost.mono {u : UnpackedFloat} (h : AtMost b u) (hbc : b ≤ c) : AtMost c u := by
  cases h with
  | infinity => exact .infinity
  | zero s => exact .zero s
  | negative => exact .negative
  | positive hle => exact .positive (hle.trans hbc)

/-- A float that compares as less than a value does not exceed it. -/
theorem AtMost.of_lt (h : x < y) (hy : HasValue y b) : AtMost b (unpacked x) := by
  rw [lt_iff_compare] at h
  obtain @⟨n, d, hn, hy⟩ := hy
  have hcanonical := canonical_of_unpacked hy
  rw [hy] at h
  rcases hx : unpacked x with ⟨_ | _⟩ | _ | _ | ⟨_ | _, m, e, hm⟩ <;> rw [hx] at h
  case infinity.positive => cases h
  case infinity.negative => exact .infinity
  case notANumber => cases h
  case zero s => exact .zero s
  case finite.negative => exact .negative
  case finite.positive =>
    have hcanonical' := canonical_of_unpacked hx
    have horder : e < d ∨ e = d ∧ m < n := by
      simpa [UnpackedFloat.compare, Ordering.then_eq_lt, compare_lt_iff_lt] using h
    exact .positive ((hcanonical'.le_iff hcanonical).mpr
      (horder.imp_right fun ⟨he, hm⟩ => ⟨he, hm.le⟩))

/-- A float is at most another one exactly if it does not exceed the value of that. -/
theorem le_iff_atMost (hy : HasValue y b) : x ≤ y ↔ AtMost b (unpacked x) := by
  rw [le_iff_compare]
  obtain @⟨n, d, hn, hy⟩ := hy
  have hcanonical := canonical_of_unpacked hy
  rw [hy]
  rcases hx : unpacked x with ⟨_ | _⟩ | _ | _ | ⟨_ | _, m, e, hm⟩
  case infinity.positive => exact iff_of_false Bool.false_ne_true nofun
  case infinity.negative => exact iff_of_true rfl .infinity
  case notANumber => exact iff_of_false Bool.false_ne_true nofun
  case zero s => exact iff_of_true rfl (.zero s)
  case finite.negative => exact iff_of_true rfl .negative
  case finite.positive =>
    have horder := (canonical_of_unpacked hx).le_iff hcanonical
    rw [UnpackedFloat.compare, Option.any_some, Ordering.isLE_then_iff_or, compare_lt_iff_lt,
      compare_eq_iff_eq, Nat.isLE_compare, ← horder]
    exact ⟨.positive, fun h => by cases h; assumption⟩

/-- What is at most a zero does not exceed any bound. -/
theorem AtMost.of_le_zero {s : Sign} (hy : unpacked y = .zero s) (h : x ≤ y) :
    AtMost b (unpacked x) := by
  rw [le_iff_compare, hy] at h
  rcases hx : unpacked x with ⟨_ | _⟩ | _ | t | ⟨_ | _, m, e, hm⟩ <;> rw [hx] at h
  case infinity.positive => cases h
  case infinity.negative => exact .infinity
  case notANumber => cases h
  case zero => exact .zero t
  case finite.negative => exact .negative
  case finite.positive => cases h

theorem atMost_stored_infinity : AtMost b (stored (.infinity .negative)) :=
  (stored_infinity .negative).symm ▸ .infinity

theorem atMost_stored_zero (s : Sign) : AtMost b (stored (.zero s)) :=
  (stored_zero s).symm ▸ .zero s

/-- A positive result does not exceed what is nearest to a bound. -/
theorem Rounded.atMost (h : Rounded .positive q u) (hle : q ≤ b) (hc : Nearest b c)
    (hlt : c < 2 ^ (1024 : ℤ)) : AtMost c (stored u) := by
  cases h with
  | zero => exact atMost_stored_zero _
  | finite hcanonical hn =>
    have hbound := hn.le_of_le hc hle
    rw [stored_finite _ _ hcanonical, if_pos (hcanonical.exponent_le (hbound.trans_lt hlt))]
    exact .positive hbound

/-- A negative result does not exceed any bound. -/
theorem Rounded.atMost_of_negative (h : Rounded .negative q u) : AtMost c (stored u) := by
  cases h with
  | zero => exact atMost_stored_zero _
  | finite hcanonical =>
    rw [stored_finite _ _ hcanonical]
    split
    · exact .negative
    · exact .infinity

section

variable (hx : AtMost a (unpacked x)) (hy : HasValue y b) (hlt : c < 2 ^ (1024 : ℤ))
include hx hy hlt

/-- The product with a positive float does not exceed what is nearest to that of the bound. -/
theorem AtMost.mul (hc : Nearest (a * b) c) : AtMost c (unpacked (x * y)) := by
  have hpos := hy.pos.le
  obtain ⟨hy⟩ := hy
  rw [unpacked_mul, hy]
  generalize hu : unpacked x = u at hx
  cases hx with
  | infinity => exact atMost_stored_infinity
  | zero s => exact atMost_stored_zero _
  | negative =>
    exact (mul_rounded .negative .positive _ _ (canonical_of_unpacked hu)
      (canonical_of_unpacked hy)).atMost_of_negative
  | positive hbound =>
    exact (mul_rounded .positive .positive _ _ (canonical_of_unpacked hu)
      (canonical_of_unpacked hy)).atMost (mul_le_mul_of_nonneg_right hbound hpos) hc hlt

/-- The quotient by a positive float does not exceed what is nearest to that of the bound. -/
theorem AtMost.div (hc : Nearest (a / b) c) : AtMost c (unpacked (x / y)) := by
  have hpos := hy.pos.le
  obtain ⟨hy⟩ := hy
  rw [unpacked_div, hy]
  generalize unpacked x = u at hx
  cases hx with
  | infinity => exact atMost_stored_infinity
  | zero s => exact atMost_stored_zero _
  | negative => exact (div_rounded .negative .positive _ _).atMost_of_negative
  | positive hbound =>
    exact (div_rounded .positive .positive _ _).atMost
      (div_le_div_of_nonneg_right hbound hpos) hc hlt

/-- The sum with a positive float does not exceed what is nearest to that of the bound. -/
theorem AtMost.add (ha : 0 ≤ a) (hc : Nearest (a + b) c) : AtMost c (unpacked (x + y)) := by
  have hself := hy.nearest
  have hmore := le_add_of_nonneg_left (a := b) ha
  obtain @⟨n, e, hn, hy⟩ := hy
  rw [unpacked_add, hy]
  generalize unpacked x = u at hx
  cases hx with
  | infinity => exact atMost_stored_infinity
  | zero s => exact Rounded.atMost (.finite (canonical_of_unpacked hy) hself) hmore hc hlt
  | @negative m d hm =>
    have hle : (0 : ℚ) ≤ m * 2 ^ d := by positivity
    have hrounded := add_rounded .negative .positive hm hn (d := d) (e := e)
    simp only [Sign.apply, Int.cast_neg, Int.cast_natCast] at hrounded
    -- Either number may be the greater one, and the sum has its sign.
    obtain ⟨hpos, hzero, hneg⟩ := hrounded
    rcases lt_trichotomy 0 (-(m : ℚ) * 2 ^ d + n * 2 ^ e) with h | h | h
    · exact (hpos h).atMost (by linarith) hc hlt
    · exact hzero h.symm ▸ atMost_stored_zero _
    · exact (hneg h).atMost_of_negative
  | @positive m d hm hbound =>
    have hrounded := (add_rounded .positive .positive hm hn (d := d) (e := e)).1
    simp only [Sign.apply, Int.cast_natCast] at hrounded
    exact (hrounded (by positivity)).atMost (by linarith) hc hlt

end

/-! ## Whole parts -/

/-- The greatest number of 64 bits takes the place of all that are greater. -/
theorem toNat_ofNatClamp (n : ℕ) : (UInt64.ofNatClamp n).toNat = min n (2 ^ 64 - 1) := by
  rw [UInt64.ofNatClamp]
  split
  · next hlt =>
    have hle : n ≤ 2 ^ 64 - 1 := Nat.le_pred_of_lt hlt
    rw [min_eq_left hle]
    exact UInt64.toNat_ofNatLT
  · next hge =>
    have hle : 2 ^ 64 - 1 ≤ n := (Nat.pred_le _).trans (not_lt.mp hge)
    rw [min_eq_right hle]
    rfl

theorem toNat_toUInt64 (x : Float) : x.toUInt64.toNat =
    min ((unpacked x).toInt 0 (UInt64.size - 1)).toNat (2 ^ 64 - 1) :=
  toNat_ofNatClamp _

/-- Shifts leave the whole part of a number. -/
theorem roundToInt_eq (s : Sign) (m : ℕ) (e : ℤ) :
    roundToInt s m e = s.apply ⌊(m : ℚ) * 2 ^ e⌋₊ := by
  obtain ⟨hvalue, hexponent, -⟩ := decreaseExponent_spec m e 0
  rw [roundToInt]
  generalize decreaseExponent m e 0 = result at *
  obtain ⟨m', e'⟩ := result
  dsimp only at hvalue hexponent ⊢
  obtain ⟨k, hk⟩ : ∃ k : ℕ, e' + k = 0 := ⟨(-e').toNat, by omega⟩
  have hshift := shiftToExponent_eq m' e' .exact k
  rw [hk] at hshift
  have hwhole : (m : ℚ) * 2 ^ e = m' / 2 ^ k := by
    rw [← hvalue, eq_neg_of_add_eq_zero_left hk, zpow_neg, zpow_natCast, div_eq_mul_inv]
  obtain ⟨hlow, hhigh⟩ := ((represents_exact m').shiftRight k).bounds
  rw [hshift, hwhole, (Nat.floor_eq_iff (by positivity)).mpr ⟨hlow, hhigh⟩]

/-- The whole part of a value, or the greatest number of 64 bits. -/
theorem HasValue.toUInt64 (h : HasValue x a) : x.toUInt64.toNat = min ⌊a⌋₊ (2 ^ 64 - 1) := by
  obtain @⟨m, e, hm, hx⟩ := h
  rw [toNat_toUInt64, hx, UnpackedFloat.toInt, roundToInt_eq]
  rfl

/-- What does not exceed a bound has no greater whole part. -/
theorem AtMost.toUInt64_le (h : AtMost b (unpacked x)) :
    x.toUInt64.toNat ≤ min ⌊b⌋₊ (2 ^ 64 - 1) := by
  rw [toNat_toUInt64]
  refine min_le_min_right _ ?_
  generalize unpacked x = u at h
  cases h with
  | infinity => exact Nat.zero_le _
  | zero => exact Nat.zero_le _
  | negative =>
    rw [UnpackedFloat.toInt, roundToInt_eq]
    exact (Int.toNat_eq_zero.mpr (neg_nonpos.mpr (Int.natCast_nonneg _))).trans_le (Nat.zero_le _)
  | positive h =>
    rw [UnpackedFloat.toInt, roundToInt_eq]
    exact Nat.floor_mono h

end DynamicRange.Binary64
