import DynamicRange.Proofs.Binary64.Nearest
import Mathlib

/-!
# Operations round to the nearest numbers

The operations on `Float` compute a mantissa with two residual bits, shift it to the last place and
round it there. The residual bits say where the exact number lies between two mantissas
(`Represents`), which shifts keep, so that what comes of it is the nearest binary64 number, with the
sign of the operation (`roundWithAccuracy_rounded`).

Sums, products and quotients of canonical numbers are of that kind.
-/

namespace DynamicRange.Binary64

open Float.Model Float.Model.UnpackedFloat ExtendedMantissa

/-! ## Mantissas with residual bits -/

/-- A mantissa and its residual bits stand for a number in units of the last place. -/
def Represents : ExtendedMantissa → ℚ → Prop
  | ⟨m, false, false⟩, q => q = m
  | ⟨m, false, true⟩, q => m < q ∧ 2 * q < 2 * m + 1
  | ⟨m, true, false⟩, q => 2 * q = 2 * m + 1
  | ⟨m, true, true⟩, q => 2 * m + 1 < 2 * q ∧ q < m + 1

namespace Represents

variable {em : ExtendedMantissa} {q : ℚ}

/-- The mantissa is the whole part of the number. -/
theorem bounds (h : Represents em q) : em.mantissa ≤ q ∧ q < em.mantissa + 1 := by
  obtain ⟨m, _ | _, _ | _⟩ := em
  · rw [show q = m from h]
    exact ⟨le_rfl, lt_add_one _⟩
  · obtain ⟨hlow, hhigh⟩ := h
    constructor <;> dsimp only <;> linarith
  · have hhalf : 2 * q = 2 * m + 1 := h
    constructor <;> dsimp only <;> linarith
  · obtain ⟨hlow, hhigh⟩ := h
    constructor <;> dsimp only <;> linarith

/-- A shift to the next higher place halves the number. -/
theorem shiftRightOne (h : Represents em q) : Represents em.shiftRightOne (q / 2) := by
  obtain ⟨m, round, sticky⟩ := em
  obtain ⟨k, rfl | rfl⟩ := m.even_or_odd'
  · have hshift : ExtendedMantissa.shiftRightOne ⟨2 * k, round, sticky⟩ =
        ⟨k, false, round || sticky⟩ := by simp [ExtendedMantissa.shiftRightOne]
    rw [hshift]
    rcases round with _ | _ <;> rcases sticky with _ | _ <;>
      simp only [Represents, Bool.or_false, Bool.or_true] at h ⊢ <;> push_cast at h
    · linarith
    · exact ⟨by linarith, by linarith⟩
    · exact ⟨by linarith, by linarith⟩
    · exact ⟨by linarith, by linarith⟩
  · have hshift : ExtendedMantissa.shiftRightOne ⟨2 * k + 1, round, sticky⟩ =
        ⟨k, true, round || sticky⟩ := by simp [ExtendedMantissa.shiftRightOne]; omega
    rw [hshift]
    rcases round with _ | _ <;> rcases sticky with _ | _ <;>
      simp only [Represents, Bool.or_false, Bool.or_true] at h ⊢ <;> push_cast at h
    · linarith
    · exact ⟨by linarith, by linarith⟩
    · exact ⟨by linarith, by linarith⟩
    · exact ⟨by linarith, by linarith⟩

/-- Shifts to higher places divide the number by a power of two. -/
theorem shiftRight (h : Represents em q) (n : ℕ) : Represents (em >>> n) (q / 2 ^ n) := by
  change Represents (n.repeat ExtendedMantissa.shiftRightOne em) _
  induction n with
  | zero => simpa [Nat.repeat] using h
  | succ n ih =>
    rw [pow_succ, ← div_div]
    exact ih.shiftRightOne

/-- The rounded mantissa is the whole number nearest to the number. -/
theorem nearestEven (h : Represents em q) : NearestEven q em.roundedMantissa := by
  obtain ⟨m, _ | _, _ | _⟩ := em
  · exact (show q = m from h) ▸ .self m
  · obtain ⟨hlow, hhigh⟩ := h
    exact .of_lt (n := m) hhigh (by linarith)
  · have hhalf : 2 * q = 2 * m + 1 := h
    change NearestEven q (m + m % 2)
    rcases Nat.mod_two_eq_zero_or_one m with hmod | hmod
    · rw [hmod]
      exact .of_even hmod hhalf.le (by push_cast; linarith)
    · rw [hmod]
      exact .of_even (by omega) (by push_cast; linarith) (by push_cast; linarith)
  · obtain ⟨hlow, hhigh⟩ := h
    exact .of_lt (n := m + 1) (by push_cast; linarith) (by push_cast; linarith)

end Represents

/-- A quotient and how its remainder compares with the divisor stand for the exact quotient. -/
theorem represents_div (num : ℕ) {den : ℕ} (hden : 0 < den) :
    Represents (ofMantissaAndAccuracy (num / den) (accuracyOfFraction (num % den) den))
      (num / den) := by
  have hpos : (0 : ℚ) < den := by exact_mod_cast hden
  have hparts : (num : ℚ) = den * (num / den : ℕ) + (num % den : ℕ) := by
    exact_mod_cast (Nat.div_add_mod num den).symm
  have hrest : (num % den : ℕ) < (den : ℚ) := by exact_mod_cast Nat.mod_lt num hden
  rw [accuracyOfFraction]
  generalize num / den = n at *
  generalize num % den = r at *
  rw [hparts, add_div, mul_div_cancel_left₀ _ hpos.ne']
  split
  · next hzero =>
    rw [hzero, Nat.cast_zero, zero_div, add_zero]
    rfl
  · next hne =>
    have hr : (0 : ℚ) < r / den := div_pos (by exact_mod_cast Nat.pos_of_ne_zero hne) hpos
    have hr' : (r : ℚ) / den < 1 := (div_lt_one hpos).mpr hrest
    have htwice : 2 * ((n : ℚ) + r / den) = 2 * n + 2 * r / den := by ring
    -- Twice the remainder tells on which side of the half the rest of the quotient lies.
    rcases hcmp : compare (2 * r) den with _ | _ | _
    · have hlt : (2 * r : ℚ) < den := by exact_mod_cast compare_lt_iff_lt.mp hcmp
      refine ⟨by linarith, ?_⟩
      rw [htwice]
      exact add_lt_add_right ((div_lt_one hpos).mpr hlt) _
    · have heq : (2 * r : ℚ) = den := by exact_mod_cast compare_eq_iff_eq.mp hcmp
      change 2 * ((n : ℚ) + r / den) = 2 * n + 1
      rw [htwice, heq, div_self hpos.ne']
    · have hgt : (den : ℚ) < 2 * r := by exact_mod_cast compare_gt_iff_gt.mp hcmp
      refine ⟨?_, by linarith⟩
      rw [htwice]
      exact add_lt_add_right ((one_lt_div hpos).mpr hgt) _

theorem ofMantissaAndAccuracy_mantissa (m : ℕ) (acc : Accuracy) :
    (ofMantissaAndAccuracy m acc).mantissa = m := by
  rcases acc with _ | _ | _ | _ <;> rfl

/-- Every mantissa stands for itself. -/
theorem represents_exact (m : ℕ) : Represents (ofMantissaAndAccuracy m .exact) m := rfl

/-! ## The last place -/

/-- A number is at least the power of two that its digits say. -/
theorem two_zpow_le {m : ℕ} (hm : 0 < m) (e : ℤ) : (2 : ℚ) ^ (m.log2 + e) ≤ m * 2 ^ e := by
  have hle : 2 ^ m.log2 ≤ m := Nat.log2_self_le hm.ne'
  rw [zpow_add₀ two_ne_zero, zpow_natCast]
  exact mul_le_mul_of_nonneg_right (by exact_mod_cast hle) (by positivity)

/-- A number is below the power of two that comes behind the digits of its whole part. -/
theorem lt_two_zpow {m : ℕ} {q : ℚ} (hq : q < m + 1) (e : ℤ) :
    q * 2 ^ e < 2 ^ (m.log2 + 1 + e) := by
  have hle : m + 1 ≤ 2 ^ (m.log2 + 1) := Nat.lt_log2_self
  rw [zpow_add₀ two_ne_zero]
  exact mul_lt_mul_of_pos_right (hq.trans_le (by exact_mod_cast hle)) (by positivity)

/-- The exponent that a mantissa and an exponent are brought to. -/
theorem targetExponent_eq (m : ℕ) (e : ℤ) :
    Format.binary64.targetExponent (totalExponent m e) = max (m.log2 + 1 + e - 53) (-1074) := rfl

/-- A number whose whole part is not zero, or is zero in the lowest place at most, has its last
place where its whole part says. -/
theorem lastPlace_target {m : ℕ} {e : ℤ} {q : ℚ} (hq : m ≤ q ∧ q < m + 1)
    (hzero : m = 0 → e ≤ -1074) :
    LastPlace (q * 2 ^ e) (Format.binary64.targetExponent (totalExponent m e)) := by
  rw [targetExponent_eq]
  have hpos : (0 : ℚ) < 2 ^ e := by positivity
  refine ⟨(lt_two_zpow hq.2 e).trans_le (zpow_le_zpow_right₀ one_le_two (by omega)), ?_⟩
  rcases Nat.eq_zero_or_pos m with hm | hm
  · have he := hzero hm
    rw [hm]
    exact .inl (max_eq_right (by norm_num; omega))
  · rcases le_or_gt (m.log2 + 1 + e - 53) (-1074) with hle | hlt
    · exact .inl (max_eq_right hle)
    · refine .inr ⟨lt_max_of_lt_left hlt, ?_⟩
      rw [max_eq_left hlt.le, show (m.log2 + 1 + e - 53 + 52 : ℤ) = m.log2 + e by ring]
      exact (two_zpow_le hm e).trans (mul_le_mul_of_nonneg_right hq.1 hpos.le)

/-! ## Rounding -/

/-- A result with a sign that is nearest to a magnitude. -/
inductive Rounded (s : Sign) (x : ℚ) : UnpackedFloat → Prop where
  | zero (h : Nearest x 0) : Rounded s x (.zero s)
  | finite {m : ℕ} {e : ℤ} {hm : 0 < m} (hc : Canonical m e) (h : Nearest x (m * 2 ^ e)) :
    Rounded s x (.finite s m e hm)

/-- A shift to a higher place shifts mantissa and exponent by as much. -/
theorem shiftToExponent_eq (m : ℕ) (e : ℤ) (acc : Accuracy) (k : ℕ) :
    shiftToExponent m e acc (e + k) = (ofMantissaAndAccuracy m acc >>> k, e + k) := by
  rw [shiftToExponent, add_sub_cancel_left, Int.toNat_natCast]

/-- A mantissa that has at most 53 digits is not shifted further. -/
theorem shiftToTargetExponent_of_lt {n : ℕ} {p : ℤ} (hn : n < 2 ^ 53) (hp : -1074 ≤ p) :
    shiftToTargetExponent Format.binary64 n p .exact = (⟨n, false, false⟩, p) := by
  have hlog : n.log2 ≤ 52 := by
    rcases eq_or_ne n 0 with rfl | hne
    · decide
    · exact Nat.le_of_lt_succ ((Nat.log2_lt hne).mpr hn)
  have hshift : (max (n.log2 + 1 + p - 53) (-1074) - p).toNat = 0 := by omega
  rw [shiftToTargetExponent, targetExponent_eq, shiftToExponent, hshift, Nat.cast_zero, add_zero]
  rfl

/-- A mantissa that was rounded up to 54 digits is shifted by one of them. -/
theorem shiftToTargetExponent_of_eq {p : ℤ} (hp : -1074 ≤ p) :
    shiftToTargetExponent Format.binary64 (2 ^ 53) p .exact = (⟨2 ^ 52, false, false⟩, p + 1) := by
  have hshift : (max ((2 ^ 53).log2 + 1 + p - 53) (-1074) - p).toNat = 1 := by
    rw [Nat.log2_two_pow]
    omega
  rw [shiftToTargetExponent, targetExponent_eq, shiftToExponent, hshift, Nat.cast_one]
  rfl

/-- A mantissa that is nearest to a number in its last place is brought to the canonical form of the
nearest binary64 number. -/
theorem shiftToTargetExponent_canonical {x : ℚ} {p : ℤ} {n : ℕ} (hp : LastPlace x p)
    (hn : NearestEven (x / 2 ^ p) n) :
    let result := shiftToTargetExponent Format.binary64 n p .exact
    Canonical result.1.mantissa result.2 ∧ Nearest x (result.1.mantissa * 2 ^ result.2) := by
  have hnearest := Nearest.intro hp hn
  have hmax : n ≤ 2 ^ 53 := hn.le_of_le (.self _) hp.div_lt.le
  rcases hmax.eq_or_lt with rfl | hlt
  · have hcarry : ((2 ^ 53 : ℕ) : ℚ) * 2 ^ p = (2 ^ 52 : ℕ) * 2 ^ (p + 1) := by
      rw [zpow_add_one₀ two_ne_zero]
      push_cast
      ring
    rw [shiftToTargetExponent_of_eq hp.ge]
    exact ⟨⟨by norm_num, .inr ⟨Int.lt_add_one_of_le hp.ge, le_rfl⟩⟩, hcarry ▸ hnearest⟩
  · rw [shiftToTargetExponent_of_lt hlt hp.ge]
    exact ⟨⟨hlt, hp.le_div.imp_right fun ⟨hlow, hdigits⟩ =>
      ⟨hlow, (NearestEven.self _).le_of_le hn hdigits⟩⟩, hnearest⟩

/-- A mantissa that stands for a number, in a place not beyond its last place, is rounded to the
nearest binary64 number. -/
theorem roundWithAccuracy_rounded (s : Sign) {m : ℕ} {e p : ℤ} {acc : Accuracy} {q : ℚ}
    (hq : Represents (ofMantissaAndAccuracy m acc) q) (hzero : m = 0 → e ≤ -1074)
    (hp : LastPlace (q * 2 ^ e) p) (hle : e ≤ p) :
    Rounded s (q * 2 ^ e) (roundWithAccuracy Format.binary64 s m e acc) := by
  have hbounds := hq.bounds
  rw [ofMantissaAndAccuracy_mantissa] at hbounds
  have htarget : Format.binary64.targetExponent (totalExponent m e) = p :=
    (lastPlace_target hbounds hzero).unique hp
  obtain ⟨k, rfl⟩ := Int.exists_add_of_le hle
  have hfirst : shiftToTargetExponent Format.binary64 m e acc =
      (ofMantissaAndAccuracy m acc >>> k, e + k) := by
    rw [shiftToTargetExponent, htarget, shiftToExponent_eq]
  -- The first shift rounds in the last place, and the second one carries one digit at most.
  have hn : NearestEven (q * 2 ^ e / 2 ^ (e + k))
      (ofMantissaAndAccuracy m acc >>> k).roundedMantissa := by
    rw [zpow_add₀ two_ne_zero, mul_comm, mul_div_mul_left _ _ (by positivity), zpow_natCast]
    exact (hq.shiftRight k).nearestEven
  obtain ⟨hcanonical, hnearest⟩ := shiftToTargetExponent_canonical hp hn
  simp only [roundWithAccuracy, hfirst]
  split
  · next hnone =>
    rw [hnone, Nat.cast_zero, zero_mul] at hnearest
    exact .zero hnearest
  · exact .finite hcanonical hnearest

/-- A decrease of the exponent to one that is not above another keeps the number. -/
theorem decreaseExponent_spec (m : ℕ) (e d : ℤ) :
    let result := decreaseExponent m e d
    (result.1 : ℚ) * 2 ^ result.2 = m * 2 ^ e ∧ result.2 = min e d ∧ (0 < m → 0 < result.1) := by
  obtain ⟨k, hk⟩ : ∃ k : ℕ, k = (e - d).toNat := ⟨_, rfl⟩
  have hresult : decreaseExponent m e d = (m * 2 ^ k, e - k) := by
    rw [decreaseExponent, Nat.shiftLeft_eq, hk]
  rw [hresult]
  refine ⟨?_, by dsimp only; omega, fun hm => by positivity⟩
  have hsplit : (2 : ℚ) ^ e = 2 ^ (e - k) * 2 ^ k := by
    rw [← zpow_natCast, ← zpow_add₀ two_ne_zero, sub_add_cancel]
  rw [hsplit]
  push_cast
  ring

/-- A mantissa and an exponent without residue are rounded to the nearest binary64 number, whatever
the exponent. -/
theorem round_rounded (s : Sign) {m : ℕ} (hm : 0 < m) (e : ℤ) :
    Rounded s (m * 2 ^ e) (UnpackedFloat.round Format.binary64 s m e) := by
  have hp := lastPlace_target (m := m) (e := e) ⟨le_rfl, lt_add_one (m : ℚ)⟩
    fun hzero => absurd hzero hm.ne'
  rw [UnpackedFloat.round]
  generalize Format.binary64.targetExponent (totalExponent m e) = p at *
  obtain ⟨hvalue, hle, hpos⟩ := decreaseExponent_spec m e p
  generalize decreaseExponent m e p = result at *
  obtain ⟨m', e'⟩ := result
  dsimp only at hvalue hle hpos ⊢
  rw [← hvalue] at hp ⊢
  exact roundWithAccuracy_rounded s (represents_exact m') (fun hzero => absurd hzero (hpos hm).ne')
    hp (hle ▸ min_le_right e p)

/-- A number of few enough digits is nearest to itself. -/
theorem Nearest.self {k : ℕ} {d : ℤ} (hpos : 0 < k) (hk : k < 2 ^ 53) (hd : -1074 ≤ d) :
    Nearest (k * 2 ^ d) (k * 2 ^ d) := by
  obtain ⟨y, hy⟩ : ∃ y, Nearest ((k : ℚ) * 2 ^ d) y := by
    have hrounded := round_rounded .positive hpos d
    generalize UnpackedFloat.round Format.binary64 .positive k d = u at hrounded
    cases hrounded with
    | zero h => exact ⟨_, h⟩
    | finite _ h => exact ⟨_, h⟩
  exact hy.eq_self rfl hk hd ▸ hy

/-- Whole numbers of few enough digits are. -/
theorem Nearest.natCast {n : ℕ} (hpos : 0 < n) (hn : n < 2 ^ 53) : Nearest n n := by
  have h := Nearest.self hpos hn (d := 0) (by norm_num)
  rwa [zpow_zero, mul_one] at h

/-- Powers of two are. -/
theorem Nearest.two_pow (n : ℕ) : Nearest (2 ^ n) (2 ^ n) := by
  have h := Nearest.self one_pos (by norm_num : 1 < 2 ^ 53) (d := n) (by omega)
  rwa [Nat.cast_one, one_mul, zpow_natCast] at h

/-- What is nearest to a number that is not great is below the infinity. -/
theorem Nearest.lt_two_pow {x y : ℚ} (h : Nearest x y) {n : ℕ} (hx : x ≤ 2 ^ n) (hn : n < 1024) :
    y < 2 ^ (1024 : ℤ) := by
  refine (h.le_of_le (.two_pow n) hx).trans_lt ?_
  rw [← zpow_natCast]
  exact zpow_lt_zpow_right₀ one_lt_two (by exact_mod_cast hn)

/-- A whole number in some place is rounded with the sign that it has. -/
theorem normalize_rounded (M : ℤ) (e : ℤ) (z : Sign) :
    (0 < (M : ℚ) * 2 ^ e →
        Rounded .positive (M * 2 ^ e) (UnpackedFloat.normalize Format.binary64 M e z)) ∧
      ((M : ℚ) * 2 ^ e = 0 → UnpackedFloat.normalize Format.binary64 M e z = .zero z) ∧
      ((M : ℚ) * 2 ^ e < 0 →
        Rounded .negative (-(M * 2 ^ e)) (UnpackedFloat.normalize Format.binary64 M e z)) := by
  have hpos : (0 : ℚ) < 2 ^ e := by positivity
  rw [UnpackedFloat.normalize]
  rcases lt_trichotomy M 0 with hM | rfl | hM
  · have hneg : (M : ℚ) * 2 ^ e < 0 := mul_neg_of_neg_of_pos (by exact_mod_cast hM) hpos
    have hcast : ((-M).toNat : ℚ) = -M := by exact_mod_cast Int.toNat_of_nonneg (by omega)
    have hround := round_rounded .negative (m := (-M).toNat) (by omega) e
    rw [hcast, neg_mul] at hround
    rw [compare_lt_iff_lt.mpr hM]
    exact ⟨fun h => absurd h hneg.not_gt, fun h => absurd h hneg.ne, fun _ => hround⟩
  · rw [Int.cast_zero, zero_mul, compare_eq_iff_eq.mpr rfl]
    exact ⟨fun h => absurd h (lt_irrefl _), fun _ => rfl, fun h => absurd h (lt_irrefl _)⟩
  · have hgt : 0 < (M : ℚ) * 2 ^ e := mul_pos (by exact_mod_cast hM) hpos
    have hcast : (M.toNat : ℚ) = M := by exact_mod_cast Int.toNat_of_nonneg hM.le
    have hround := round_rounded .positive (m := M.toNat) (by omega) e
    rw [hcast] at hround
    rw [compare_gt_iff_gt.mpr hM]
    exact ⟨fun _ => hround, fun h => absurd h hgt.ne', fun h => absurd h hgt.not_gt⟩

/-! ## Operations -/

section

variable (s t : Sign) {m n : ℕ} {d e : ℤ} (hm : 0 < m) (hn : 0 < n)

/-- A product of canonical numbers is the one nearest to the exact product. -/
theorem mul_rounded (hmd : Canonical m d) (hne : Canonical n e) :
    Rounded (s * t) ((m * 2 ^ d) * (n * 2 ^ e))
      (UnpackedFloat.mul Format.binary64 (.finite s m d hm) (.finite t n e hn)) := by
  have hpos : 0 < m * n := Nat.mul_pos hm hn
  have hvalue : ((m : ℚ) * 2 ^ d) * (n * 2 ^ e) = (m * n : ℕ) * 2 ^ (d + e) := by
    rw [zpow_add₀ two_ne_zero]
    push_cast
    ring
  have hp := lastPlace_target (m := m * n) (e := d + e) ⟨le_rfl, lt_add_one _⟩
    fun hzero => absurd hzero hpos.ne'
  rw [hvalue, UnpackedFloat.mul]
  refine roundWithAccuracy_rounded _ (represents_exact _) (fun hzero => absurd hzero hpos.ne') hp ?_
  rw [targetExponent_eq]
  -- Either the product has 53 digits at least, or both numbers are in the lowest place.
  have hdigits : 2 ^ 52 ≤ m * n → 52 ≤ (m * n).log2 := fun hle =>
    (Nat.le_log2 hpos.ne').mpr hle
  rcases hmd.le with rfl | ⟨-, hle⟩
  · rcases hne.le with rfl | ⟨-, hle⟩
    · omega
    · have := hdigits (hle.trans (Nat.le_mul_of_pos_left n hm))
      omega
  · have := hdigits (hle.trans (Nat.le_mul_of_pos_right m hn))
    omega

/-- A quotient of numbers is the one nearest to the exact quotient. -/
theorem div_rounded :
    Rounded (s / t) ((m * 2 ^ d) / (n * 2 ^ e))
      (UnpackedFloat.div Format.binary64 (.finite s m d hm) (.finite t n e hn)) := by
  have hnpos : (0 : ℚ) < n * 2 ^ e := by positivity
  obtain ⟨D, hD⟩ : ∃ D : ℤ, D = totalExponent m d - totalExponent n e := ⟨_, rfl⟩
  have hlow : (2 : ℚ) ^ (D - 1) < (m * 2 ^ d) / (n * 2 ^ e) := by
    rw [lt_div_iff₀ hnpos]
    calc (2 : ℚ) ^ (D - 1) * (n * 2 ^ e) < 2 ^ (D - 1) * 2 ^ (n.log2 + 1 + e) :=
          mul_lt_mul_of_pos_left (lt_two_zpow (lt_add_one _) e) (by positivity)
      _ = 2 ^ (m.log2 + d) := by
          rw [← zpow_add₀ two_ne_zero, hD, totalExponent, totalExponent]
          congr 1
          ring
      _ ≤ m * 2 ^ d := two_zpow_le hm d
  rw [UnpackedFloat.div, divCore, ← hD]
  dsimp only
  have htarget : Format.binary64.targetExponent D = max (D - 53) (-1074) := rfl
  obtain ⟨c, hc⟩ : ∃ c : ℤ, c = min (d - e) (Format.binary64.targetExponent D) := ⟨_, rfl⟩
  obtain ⟨k, hk⟩ : ∃ k : ℕ, k = (d - e - c).toNat := ⟨_, rfl⟩
  have hvalue : (m * 2 ^ d : ℚ) / (n * 2 ^ e) = ((m <<< k : ℕ) / n) * 2 ^ c := by
    have hsplit : (2 : ℚ) ^ d = 2 ^ k * 2 ^ c * 2 ^ e := by
      rw [← zpow_natCast, ← zpow_add₀ two_ne_zero, ← zpow_add₀ two_ne_zero]
      congr 1
      omega
    rw [hsplit, Nat.shiftLeft_eq, div_eq_iff hnpos.ne']
    push_cast
    field_simp
  rw [← hc, ← hk]
  rw [hvalue] at hlow ⊢
  have hq := represents_div (m <<< k) hn
  -- The exponent is low enough for a quotient that is below the next power of two.
  have hfine : ∀ p : ℤ, ((m <<< k : ℕ) : ℚ) / n * 2 ^ c < 2 ^ p → c ≤ max (p - 53) (-1074) := by
    intro p hlt
    have hDp := (zpow_lt_zpow_iff_right₀ one_lt_two).mp (hlow.trans hlt)
    omega
  have hbounds := hq.bounds
  rw [ofMantissaAndAccuracy_mantissa] at hbounds
  have hzero : (m <<< k) / n = 0 → c ≤ -1074 := by
    intro hnone
    rw [hnone, Nat.cast_zero, zero_add] at hbounds
    have hc := hfine c (mul_lt_of_lt_one_left (by positivity) hbounds.2)
    omega
  have hp := lastPlace_target hbounds hzero
  refine roundWithAccuracy_rounded _ hq hzero hp ?_
  have hle := hfine _ hp.lt
  rwa [add_sub_cancel_right, max_eq_left hp.ge] at hle

/-- A sum of numbers is the one nearest to the exact sum, and the sign is that of the sum. -/
theorem add_rounded :
    let sum := (s.apply m : ℚ) * 2 ^ d + (t.apply n : ℚ) * 2 ^ e
    let result := UnpackedFloat.add Format.binary64 (.finite s m d hm) (.finite t n e hn)
    (0 < sum → Rounded .positive sum result) ∧ (sum = 0 → result = .zero .positive) ∧
      (sum < 0 → Rounded .negative (-sum) result) := by
  have happly : ∀ (s : Sign) (m : ℕ) (d c : ℤ), c ≤ d →
      (s.apply (decreaseExponent m d c).1 : ℚ) * 2 ^ c = s.apply m * 2 ^ d := by
    intro s m d c hle
    obtain ⟨hvalue, hexponent, -⟩ := decreaseExponent_spec m d c
    rw [hexponent, min_eq_right hle] at hvalue
    cases s <;> simp [Sign.apply, hvalue]
  have hsum := normalize_rounded (s.apply (decreaseExponent m d (min d e)).1 +
    t.apply (decreaseExponent n e (min d e)).1) (min d e) .positive
  rw [Int.cast_add, add_mul, happly s m d _ (min_le_left d e), happly t n e _ (min_le_right d e)]
    at hsum
  exact hsum

end

/-- Every positive number has a nearest binary64 number, were there no greatest one. -/
theorem exists_nearest (hq : 0 < q) : ∃ c, Nearest q c := by
  have hnum : 0 < q.num.toNat := Int.pos_iff_toNat_pos.mp (Rat.num_pos.mpr hq)
  have hparts : ((q.num.toNat : ℚ) * 2 ^ (0 : ℤ)) / ((q.den : ℚ) * 2 ^ (0 : ℤ)) = q := by
    rw [zpow_zero, mul_one, mul_one]
    conv_rhs => rw [← Rat.num_div_den q]
    rw [← Int.toNat_of_nonneg (Rat.num_nonneg.mpr hq.le), Int.cast_natCast]
    rfl
  have hrounded := div_rounded .positive .positive hnum q.den_pos (d := 0) (e := 0)
  rw [hparts] at hrounded
  generalize UnpackedFloat.div _ _ _ = u at hrounded
  cases hrounded with
  | zero h => exact ⟨_, h⟩
  | finite _ h => exact ⟨_, h⟩

end DynamicRange.Binary64
