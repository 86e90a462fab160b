import Mathlib.Algebra.Order.Field.Power
import Mathlib.Algebra.Order.Ring.Abs
import Mathlib.Tactic.Linarith
import Mathlib.Tactic.NormNum
import Mathlib.Tactic.Positivity
import Mathlib.Tactic.Ring

/-!
# The nearest binary64 numbers

A positive number is rounded to binary64 in two steps. Its size gives the place of the last digit
that is kept (`LastPlace`), and in that place the number is rounded to the nearest whole number, a
half going to the even neighbour (`NearestEven`). `Nearest` puts the two together.

Of that rounding only two things are needed. It does not reverse the order of numbers
(`Nearest.le_of_le`), and numbers with few enough digits are left as they are (`Nearest.eq_self`).
-/

namespace DynamicRange.Binary64

/-- `n` is the whole number nearest to `x`, and the even one where two are equally near. -/
structure NearestEven (x : ℚ) (n : ℕ) : Prop where
  le : 2 * x ≤ 2 * n + 1
  ge : 2 * (n : ℚ) ≤ 2 * x + 1
  tie : n % 2 = 1 → 2 * x < 2 * n + 1 ∧ 2 * (n : ℚ) < 2 * x + 1

namespace NearestEven

variable {x y : ℚ} {m n : ℕ}

/-- A whole number is nearest to all numbers that are less than a half away. -/
theorem of_lt (hlow : 2 * x < 2 * n + 1) (hhigh : 2 * (n : ℚ) < 2 * x + 1) : NearestEven x n :=
  ⟨hlow.le, hhigh.le, fun _ => ⟨hlow, hhigh⟩⟩

/-- A whole number is nearest to itself. -/
theorem self (n : ℕ) : NearestEven n n := .of_lt (lt_add_one _) (lt_add_one _)

/-- An even number is nearest to the halves beside it. -/
theorem of_even (heven : n % 2 = 0) (hlow : 2 * x ≤ 2 * n + 1) (hhigh : 2 * (n : ℚ) ≤ 2 * x + 1) :
    NearestEven x n :=
  ⟨hlow, hhigh, fun hodd => absurd hodd (by omega)⟩

/-- Greater numbers have no lesser nearest numbers. -/
theorem le_of_le (hx : NearestEven x m) (hy : NearestEven y n) (hxy : x ≤ y) : m ≤ n := by
  by_contra hlt
  have hnext : (n : ℚ) + 1 ≤ m := by exact_mod_cast not_le.mp hlt
  have hxm := hx.ge
  have hyn := hy.le
  -- Both numbers are the half between two neighbours, one of which is odd.
  have hsame : m = n + 1 := by
    have hle : (m : ℚ) ≤ n + 1 := by linarith
    exact_mod_cast le_antisymm hle hnext
  rcases Nat.mod_two_eq_zero_or_one n with heven | hodd
  · have htie := (hx.tie (by omega)).2
    linarith
  · have htie := (hy.tie hodd).1
    linarith

/-- There is one nearest number. -/
theorem unique (hm : NearestEven x m) (hn : NearestEven x n) : m = n :=
  le_antisymm (hm.le_of_le hn le_rfl) (hn.le_of_le hm le_rfl)

end NearestEven

/-- The last digit that is kept of a positive number stands for `2 ^ e`: 53 digits are kept, and
none for less than `2 ^ (-1074)`. -/
structure LastPlace (x : ℚ) (e : ℤ) : Prop where
  lt : x < 2 ^ (e + 53)
  le : e = -1074 ∨ (-1074 < e ∧ 2 ^ (e + 52) ≤ x)

namespace LastPlace

variable {x y : ℚ} {d e : ℤ}

theorem ge (h : LastPlace x e) : -1074 ≤ e := by
  rcases h.le with rfl | ⟨hlt, -⟩
  · rfl
  · exact hlt.le

/-- If a number is below `2 ^ (d + 53)`, no digit beyond `2 ^ d` is dropped. -/
theorem le_of_lt (h : LastPlace x e) (hd : -1074 ≤ d) (hx : x < 2 ^ (d + 53)) : e ≤ d := by
  rcases h.le with rfl | ⟨-, hlow⟩
  · exact hd
  · have hlt := (zpow_lt_zpow_iff_right₀ one_lt_two).mp (hlow.trans_lt hx)
    omega

/-- The last place of a greater number is not lower. -/
theorem le_of_le (hx : LastPlace x d) (hy : LastPlace y e) (hxy : x ≤ y) : d ≤ e :=
  hx.le_of_lt hy.ge (hxy.trans_lt hy.lt)

/-- There is one last place. -/
theorem unique (hd : LastPlace x d) (he : LastPlace x e) : d = e :=
  le_antisymm (hd.le_of_le he le_rfl) (he.le_of_le hd le_rfl)

end LastPlace

/-- `y` is the binary64 number nearest to the positive number `x`, were there no greatest one. -/
inductive Nearest (x : ℚ) : ℚ → Prop where
  | intro {e : ℤ} {n : ℕ} (he : LastPlace x e) (hn : NearestEven (x / 2 ^ e) n) :
    Nearest x (n * 2 ^ e)

/-- A mantissa and an exponent as a binary64 number has them, were there no greatest exponent. -/
structure Canonical (m : ℕ) (e : ℤ) : Prop where
  lt : m < 2 ^ 53
  le : e = -1074 ∨ (-1074 < e ∧ 2 ^ 52 ≤ m)

/-- The last place of a canonical number is that of its mantissa. -/
theorem Canonical.lastPlace {m : ℕ} {e : ℤ} (h : Canonical m e) :
    LastPlace ((m : ℚ) * 2 ^ e) e := by
  have hpos : (0 : ℚ) < 2 ^ e := by positivity
  have hlt : (m : ℚ) < 2 ^ 53 := by exact_mod_cast h.lt
  refine ⟨?_, h.le.imp_right fun ⟨he, hm⟩ => ⟨he, ?_⟩⟩
  · rw [zpow_add₀ two_ne_zero, mul_comm]
    exact mul_lt_mul_of_pos_left (by exact_mod_cast hlt) hpos
  · have hle : (2 : ℚ) ^ 52 ≤ m := by exact_mod_cast hm
    rw [zpow_add₀ two_ne_zero, mul_comm]
    exact mul_le_mul_of_nonneg_right (by exact_mod_cast hle) hpos.le

/-- Canonical numbers are ordered by their exponents first and then by their mantissas. -/
theorem Canonical.le_iff {m n : ℕ} {d e : ℤ} (hm : Canonical m d) (hn : Canonical n e) :
    (m : ℚ) * 2 ^ d ≤ n * 2 ^ e ↔ d < e ∨ d = e ∧ m ≤ n := by
  constructor
  · intro hle
    rcases (hm.lastPlace.le_of_le hn.lastPlace hle).lt_or_eq with hlt | rfl
    · exact .inl hlt
    · exact .inr ⟨rfl, by exact_mod_cast le_of_mul_le_mul_right hle (by positivity)⟩
  · rintro (hlt | ⟨rfl, hle⟩)
    · -- The number of the lower exponent would have the higher last place.
      refine le_of_not_ge fun hge => ?_
      exact absurd (hn.lastPlace.le_of_le hm.lastPlace hge) hlt.not_ge
    · exact mul_le_mul_of_nonneg_right (by exact_mod_cast hle) (by positivity)

/-- In its last place a number has 53 digits at most. -/
theorem LastPlace.div_lt {x : ℚ} {e : ℤ} (h : LastPlace x e) : x / 2 ^ e < (2 ^ 53 : ℕ) := by
  rw [div_lt_iff₀ (by positivity)]
  refine h.lt.trans_eq ?_
  rw [add_comm, zpow_add₀ two_ne_zero]
  norm_num

/-- In its last place a number has 53 digits, unless that is the lowest place there is. -/
theorem LastPlace.le_div {x : ℚ} {e : ℤ} (h : LastPlace x e) :
    e = -1074 ∨ (-1074 < e ∧ (2 ^ 52 : ℕ) ≤ x / 2 ^ e) := by
  refine h.le.imp_right fun ⟨he, hx⟩ => ⟨he, ?_⟩
  rw [le_div_iff₀ (by positivity)]
  refine hx.trans_eq' ?_
  rw [add_comm, zpow_add₀ two_ne_zero]
  norm_num

namespace Nearest

variable {x x' y y' : ℚ}

/-- Greater numbers have no lesser nearest numbers. -/
theorem le_of_le (hx : Nearest x y) (hx' : Nearest x' y') (hle : x ≤ x') : y ≤ y' := by
  obtain @⟨d, m, hd, hm⟩ := hx
  obtain @⟨e, n, he, hn⟩ := hx'
  rcases (hd.le_of_le he hle).eq_or_lt with rfl | hlt
  · have hmn := hm.le_of_le hn (div_le_div_of_nonneg_right hle (by positivity))
    exact mul_le_mul_of_nonneg_right (by exact_mod_cast hmn) (by positivity)
  · -- Between the numbers lies a power of two that both places have.
    have hmax : m ≤ 2 ^ 53 := hm.le_of_le (.self _) hd.div_lt.le
    have hmin : 2 ^ 52 ≤ n := by
      rcases he.le_div with rfl | ⟨-, hlow⟩
      · exact absurd hlt (not_lt.mpr hd.ge)
      · exact (NearestEven.self _).le_of_le hn hlow
    calc (m : ℚ) * 2 ^ d ≤ 2 ^ (53 : ℤ) * 2 ^ d :=
          mul_le_mul_of_nonneg_right (by exact_mod_cast hmax) (by positivity)
      _ = 2 ^ (53 + d) := (zpow_add₀ two_ne_zero 53 d).symm
      _ ≤ 2 ^ (52 + e) := zpow_le_zpow_right₀ one_le_two (by omega)
      _ = 2 ^ (52 : ℤ) * 2 ^ e := zpow_add₀ two_ne_zero 52 e
      _ ≤ n * 2 ^ e := mul_le_mul_of_nonneg_right (by exact_mod_cast hmin) (by positivity)

/-- There is one nearest number. -/
theorem unique (hy : Nearest x y) (hy' : Nearest x y') : y = y' :=
  le_antisymm (hy.le_of_le hy' le_rfl) (hy'.le_of_le hy le_rfl)

/-- A number whose digits are all kept is nearest to itself. -/
theorem eq_self (h : Nearest x y) {k : ℕ} {d : ℤ} (hx : x = k * 2 ^ d) (hk : k < 2 ^ 53)
    (hd : -1074 ≤ d) : y = x := by
  obtain @⟨e, n, he, hn⟩ := h
  have hlt : x < 2 ^ (d + 53) := by
    rw [hx, add_comm, zpow_add₀ two_ne_zero]
    exact mul_lt_mul_of_pos_right (by exact_mod_cast hk) (by positivity)
  obtain ⟨j, hj⟩ := Int.exists_add_of_le (he.le_of_lt hd hlt)
  have hwhole : x / 2 ^ e = (k * 2 ^ j : ℕ) := by
    rw [hx, hj, zpow_add₀ two_ne_zero, zpow_natCast, div_eq_iff (by positivity)]
    push_cast
    ring
  rw [hwhole] at hn
  rw [hn.unique (.self _), ← hwhole, div_mul_cancel₀ _ (by positivity)]

/-- A canonical number is nearest to itself. -/
theorem of_canonical {m : ℕ} {e : ℤ} (h : Canonical m e) :
    Nearest ((m : ℚ) * 2 ^ e) ((m : ℚ) * 2 ^ e) := by
  refine .intro h.lastPlace ?_
  rw [mul_div_cancel_right₀ _ (by positivity)]
  exact .self m

end Nearest

end DynamicRange.Binary64
