import DynamicRange.Decimal.Fixed
import DynamicRange.Proofs.Binary64.Arithmetic
import DynamicRange.Proofs.Histogram.Ranks
import DynamicRange.Proofs.Layout.Agreement

/-!
# Values at percentiles

The rank of a percentile is computed with floats, and no percentile has a greater one than 100
(`rankAt_lastRank`). For this the number of samples is rounded first and then its sum with a half,
so that from `2 ^ 52` samples on the last rank may be another number than that of the samples
(`lastRank`). A percentile whose rank is not beyond the samples has the value of a slot that holds
some, and so has every percentile if the last rank is not (`valueAtPercentile_recorded`). It may be
beyond them, and it may be before the last of them (`valueAtPercentile_rounded`).
-/

namespace DynamicRange

open Binary64

/-- A rounded quotient is the whole number nearest to the quotient. -/
theorem Decimal.nearestEven_roundDiv (num : ℕ) {den : ℕ} (hden : 0 < den) :
    NearestEven (num / den : ℚ) (roundDiv num den) := by
  have hpos : (0 : ℚ) < den := by exact_mod_cast hden
  have hparts : (num : ℚ) = (num / den : ℕ) * den + (num % den : ℕ) := by
    exact_mod_cast (Nat.div_add_mod' num den).symm
  have hrest : ((num % den : ℕ) : ℚ) / den < 1 :=
    (div_lt_one hpos).mpr (by exact_mod_cast Nat.mod_lt num hden)
  have hrest' : (0 : ℚ) ≤ ((num % den : ℕ) : ℚ) / den := by positivity
  have htwice : 2 * (((num % den : ℕ) : ℚ) / den) = (2 * (num % den) : ℕ) / den := by
    push_cast
    ring
  rw [hparts, add_div, mul_div_cancel_right₀ _ hpos.ne', roundDiv]
  generalize num / den = n at *
  generalize ((num % den : ℕ) : ℚ) / den = f at *
  rcases lt_trichotomy (2 * (num % den)) den with hlt | heq | hgt
  · rw [if_pos (.inl hlt)]
    have hhalf : 2 * f < 1 := htwice ▸ (div_lt_one hpos).mpr (by exact_mod_cast hlt)
    exact .of_lt (by linarith) (by linarith)
  · have hhalf : 2 * f = 1 := by rw [htwice, heq, div_self hpos.ne']
    split
    · next h =>
      exact .of_even (by omega) (by linarith) (by linarith)
    · next h =>
      exact .of_even (by omega) (by push_cast; linarith) (by push_cast; linarith)
  · rw [if_neg (by omega)]
    have hhalf : 1 < 2 * f := htwice ▸ (one_lt_div hpos).mpr (by exact_mod_cast hgt)
    exact .of_lt (by push_cast; linarith) (by push_cast; linarith)

/-! ## The rank of the percentile 100 -/

open Histogram (rankAt)

variable {total : ℕ} {T w : ℚ}

/-- The rank that is computed for the percentile 100. A number of samples below `2 ^ 53` is a float,
and below `2 ^ 52` a half more is one too. From there on a half more is halfway between two floats,
of which the even one is taken. From `2 ^ 53` on the number itself is rounded to 53 digits. -/
def lastRank (total : ℕ) : ℕ :=
  if total < 2 ^ 52 then
    total
  else if total < 2 ^ 53 then
    total + total % 2
  else
    let unit := 2 ^ (total.log2 - 52)
    min (Decimal.roundDiv total unit * unit) (2 ^ 64 - 1)

/-- Up to `2 ^ 52` samples the last rank is that of the last sample. -/
theorem lastRank_of_le (htotal : total ≤ 2 ^ 52) : lastRank total = total := by
  rcases htotal.eq_or_lt with rfl | hlt
  · rfl
  · exact if_pos hlt

theorem hasValue_hundred : HasValue 100.0 100 := by
  have h : unpacked 100.0 = .finite .positive (25 * 2 ^ 48) (-46) (by decide) := rfl
  exact .of_eq h (by norm_num)

theorem hasValue_one : HasValue (100.0 / 100.0) 1 := by
  have hone : (100.0 / 100.0 : Float) = 1.0 := by decide +kernel
  have h : unpacked 1.0 = .finite .positive (2 ^ 52) (-52) (by decide) := rfl
  rw [hone]
  exact .of_eq h (by norm_num)

theorem hasValue_half : HasValue 0.5 (1 / 2) := by
  have h : unpacked 0.5 = .finite .positive (2 ^ 52) (-53) (by decide) := rfl
  exact .of_eq h (by norm_num)

section

variable (hpos : 0 < total) (htotal : total < 2 ^ 64) (hT : Nearest total T)
include hpos htotal hT

/-- The number of samples as a float. -/
theorem hasValue_countToFloat : HasValue (countToFloat total) T := by
  have hone : (1 : ℚ) ≤ total := by exact_mod_cast hpos
  have htop : (total : ℚ) ≤ 2 ^ 65 := by exact_mod_cast htotal.le.trans (by norm_num)
  have hword : total.toUInt64.toNat = total := Nat.mod_eq_of_lt htotal
  have hrounded := (normalize_rounded total.toUInt64.toNat 0 .positive).1
  rw [hword, Int.cast_natCast, zpow_zero, mul_one] at hrounded
  refine (hrounded (one_pos.trans_le hone)).hasValue ?_ hT
    (one_pos.trans_le (hasValue_one.nearest.le_of_le hT hone)) (hT.lt_two_pow htop (by norm_num))
  exact congrArg (fun n : ℕ => stored (Float.Model.UnpackedFloat.normalize _ n 0 .positive)) hword

/-- The rank of a percentile is not greater than the whole part of the number of samples and a half,
both rounded, and percentiles that are not below 100 have that rank. -/
theorem rankAt_nearest (hw : Nearest (T + 1 / 2) w) (p : Float) :
    rankAt p total ≤ max (min ⌊w⌋₊ (2 ^ 64 - 1)) 1 ∧
      (¬p < 100.0 → rankAt p total = max (min ⌊w⌋₊ (2 ^ 64 - 1)) 1) := by
  have hcount := hasValue_countToFloat hpos htotal hT
  have hT64 : T ≤ 2 ^ 64 := hT.le_of_le (.two_pow 64) (by exact_mod_cast htotal.le)
  have hTtop : T < 2 ^ (1024 : ℤ) := hcount.nearest.lt_two_pow (n := 65) (by linarith) (by norm_num)
  have hwtop : w < 2 ^ (1024 : ℤ) := hw.lt_two_pow (n := 65) (by linarith) (by norm_num)
  constructor
  · -- No percentile is above 100, and every operation keeps the bound.
    have hp : AtMost 100 (unpacked (if p < 100.0 then p else 100.0)) := by
      split
      · next h => exact .of_lt h hasValue_hundred
      · exact hasValue_hundred.atMost
    have hshare := hp.div hasValue_hundred (one_lt_zpow₀ one_lt_two (by norm_num))
      ((div_self (by norm_num : (100 : ℚ) ≠ 0)).symm ▸ hasValue_one.nearest)
    have hproduct := hshare.mul hcount hTtop ((one_mul T).symm ▸ hcount.nearest)
    have hsum := hproduct.add hasValue_half hwtop hcount.pos.le hw
    exact max_le_max_right 1 hsum.toUInt64_le
  · -- The percentile 100 has the bound as its value at every operation.
    intro hp
    have hTw : T ≤ w := hcount.nearest.le_of_le hw (by norm_num)
    have hproduct := hasValue_one.mul hcount ((one_mul T).symm ▸ hcount.nearest) hcount.pos hTtop
    have hsum := hproduct.add hasValue_half hw (hcount.pos.trans_le hTw) hwtop
    rw [rankAt, if_neg hp]
    exact congrArg (max · 1) hsum.toUInt64

end

/-- Below `2 ^ 52` the half is kept. -/
theorem nearest_add_half_of_lt (htotal : total < 2 ^ 52) :
    Nearest ((total : ℚ) + 1 / 2) (total + 1 / 2) := by
  have h : Nearest ((2 * total + 1 : ℕ) * 2 ^ (-1 : ℤ)) ((2 * total + 1 : ℕ) * 2 ^ (-1 : ℤ)) :=
    .self (by omega) (by omega) (by norm_num)
  have hhalf : ((2 * total + 1 : ℕ) : ℚ) * 2 ^ (-1 : ℤ) = total + 1 / 2 := by
    rw [zpow_neg_one]
    push_cast
    ring
  rwa [hhalf] at h

/-- From `2 ^ 52` on the last place is that of the ones or a higher one. -/
theorem lastPlace_log2 (htotal : 2 ^ 52 ≤ total) {q : ℚ} (hq : total ≤ q ∧ q < total + 1) :
    LastPlace q (total.log2 - 52 : ℕ) := by
  have hne : total ≠ 0 := by omega
  have hlog : 52 ≤ total.log2 := (Nat.le_log2 hne).mpr htotal
  have h := lastPlace_target (e := 0) hq fun hzero => absurd hzero hne
  rwa [targetExponent_eq, zpow_zero, mul_one,
    show max ((total.log2 : ℤ) + 1 + 0 - 53) (-1074) = (total.log2 - 52 : ℕ) by omega] at h

/-- From `2 ^ 52` to `2 ^ 53` the half is halfway between two neighbours. -/
theorem nearest_add_half_of_le (hlow : 2 ^ 52 ≤ total) (hhigh : total < 2 ^ 53) :
    Nearest ((total : ℚ) + 1 / 2) (total + total % 2 : ℕ) := by
  have hlog : total.log2 - 52 = 0 := by
    have hdigits := (Nat.log2_lt (by omega)).mpr hhigh
    omega
  have hplace : LastPlace ((total : ℚ) + 1 / 2) 0 := by
    have h := lastPlace_log2 hlow (q := total + 1 / 2) ⟨by linarith, by linarith⟩
    rwa [hlog, Nat.cast_zero] at h
  have heven : NearestEven (((total : ℚ) + 1 / 2) / 2 ^ (0 : ℤ)) (total + total % 2) := by
    rw [zpow_zero, div_one]
    rcases Nat.mod_two_eq_zero_or_one total with hmod | hmod <;>
      exact .of_even (by omega) (by rw [hmod]; push_cast; linarith)
        (by rw [hmod]; push_cast; linarith)
  have h := Nearest.intro hplace heven
  rwa [zpow_zero, mul_one] at h

/-- From `2 ^ 52` on numbers are rounded to multiples of the last place. -/
theorem nearest_roundDiv (htotal : 2 ^ 52 ≤ total) :
    Nearest total (Decimal.roundDiv total (2 ^ (total.log2 - 52)) * 2 ^ (total.log2 - 52) : ℕ) := by
  have hplace := lastPlace_log2 htotal ⟨le_rfl, lt_add_one (total : ℚ)⟩
  generalize total.log2 - 52 = k at *
  have heven : NearestEven ((total : ℚ) / 2 ^ (k : ℤ)) (Decimal.roundDiv total (2 ^ k)) := by
    rw [zpow_natCast]
    exact_mod_cast Decimal.nearestEven_roundDiv total (Nat.two_pow_pos k)
  have h := Nearest.intro hplace heven
  rw [zpow_natCast] at h
  exact_mod_cast h

/-- Of the ranks of percentiles none is greater than the last one, which percentiles that are not
below 100 have. -/
theorem rankAt_lastRank (hpos : 0 < total) (htotal : total < 2 ^ 64) (p : Float) :
    rankAt p total ≤ lastRank total ∧ (¬p < 100.0 → rankAt p total = lastRank total) := by
  rw [lastRank]
  split
  · next hsmall =>
    have hrank := rankAt_nearest hpos htotal (.natCast hpos (by omega))
      (nearest_add_half_of_lt hsmall) p
    have hfloor : ⌊(total : ℚ) + 1 / 2⌋₊ = total :=
      (Nat.floor_eq_iff (by positivity)).mpr ⟨by linarith, by linarith⟩
    rwa [hfloor, show max (min total (2 ^ 64 - 1)) 1 = total by omega] at hrank
  next hlarge =>
  split
  · next hmiddle =>
    have hrank := rankAt_nearest hpos htotal (.natCast hpos hmiddle)
      (nearest_add_half_of_le (not_lt.mp hlarge) hmiddle) p
    rwa [Nat.floor_natCast, show max (min (total + total % 2) (2 ^ 64 - 1)) 1 = total + total % 2 by
      omega] at hrank
  · next hgreat =>
    have hT := nearest_roundDiv (not_lt.mp hlarge)
    dsimp only
    generalize Decimal.roundDiv total _ * _ = n at hT ⊢
    -- The rounded number is even, and so far from its neighbours that a half is lost.
    have hlow : (2 : ℚ) ^ 53 ≤ n :=
      (Nearest.two_pow 53).le_of_le hT (by exact_mod_cast not_lt.mp hgreat)
    have hlow' : 2 ^ 53 ≤ n := by exact_mod_cast hlow
    have hrank := rankAt_nearest hpos htotal hT
      ((hasValue_countToFloat hpos htotal hT).nearest_add_half hlow) p
    rwa [Nat.floor_natCast, show max (min n (2 ^ 64 - 1)) 1 = min n (2 ^ 64 - 1) by omega] at hrank

/-! ## The value at a percentile -/

namespace Histogram

variable {h : Histogram}

/-- Where all samples are of one value, the highest value of a slot that holds samples is equivalent
to it. -/
theorem StandsFor.equivalent_highestOfIndex {n v i : ℕ} (hs : h.StandsFor (.replicate n v))
    (hh : h.Consistent) (hv : v ≤ topValue) (hi : i < h.layout.slotCount)
    (hrecorded : h.count i ≠ 0) : h.layout.equivalent v (h.layout.highestOfIndex i) := by
  have hhigh : (h.layout.highestOfIndex i : ℤ) ≤ topValue :=
    Int.ofNat_le.mpr (Layout.mem_range hh.precise (h.layout.lowestOfIndex_le i)).2.2
  rw [Layout.equivalent_iff hh.shaped (Int.ofNat_le.mpr hv) hhigh, Int.toNat_natCast,
    Int.toNat_natCast, hh.indexFor_highestOfIndex hi hrecorded]
  exact hs.indexFor_of_replicate hi hrecorded

/-- The value at a percentile is that of a slot that holds samples if its rank is not beyond them,
so that it is equivalent to a value of which all samples are, and zero if it is. No rank is beyond
the samples if the last one is not. A percentile that is not below 100, as NaN is not, has the last
rank. If that is the rank of the last sample, its value is that of the last slot that holds samples.
Up to `2 ^ 52` samples it is the rank of the last sample. -/
theorem valueAtPercentile_recorded (hh : h.Reachable) (hexact : h.Exact) (hpos : 0 < h.total) :
    (∀ p, rankAt p h.total ≤ h.total →
      (∃ i < h.layout.slotCount, h.count i ≠ 0 ∧
        h.valueAtPercentile p = h.layout.highestEquivalent (h.layout.lowestOfIndex i)) ∧
      ∀ n v : ℕ, v ≤ topValue → h.StandsFor (.replicate n v) →
        h.layout.equivalent v (h.valueAtPercentile p)) ∧
    (∀ p, h.total < rankAt p h.total → h.valueAtPercentile p = 0) ∧
    (lastRank h.total ≤ h.total →
      (∀ p, ∃ i < h.layout.slotCount, h.count i ≠ 0 ∧
        h.valueAtPercentile p = h.layout.highestEquivalent (h.layout.lowestOfIndex i)) ∧
      (∀ p, ¬p < 100.0 → ∃ i < h.layout.slotCount,
        IsLeast {i | lastRank h.total ≤ ∑ k ∈ Finset.range (i + 1), h.count k} i ∧
          h.count i ≠ 0 ∧
          (lastRank h.total = h.total → ∀ j < h.layout.slotCount, i < j → h.count j = 0) ∧
          h.valueAtPercentile p = h.layout.highestEquivalent (h.layout.lowestOfIndex i)) ∧
      ∀ n v : ℕ, v ≤ topValue → h.StandsFor (.replicate n v) →
        ∀ p, h.layout.equivalent v (h.valueAtPercentile p)) ∧
    (h.total < lastRank h.total → ∀ p, ¬p < 100.0 → h.valueAtPercentile p = 0) ∧
    (h.total ≤ 2 ^ 52 → lastRank h.total = h.total) := by
  have hconsistent := hh.consistent
  have hrank := rankAt_lastRank hpos (hconsistent.bounded .total)
  have hvalue := fun p => valueAtRank_spec hconsistent hexact
    (show 0 < rankAt p h.total from Nat.le_max_right _ _)
  have hslot : ∀ p, rankAt p h.total ≤ h.total → ∃ i < h.layout.slotCount, h.count i ≠ 0 ∧
      h.valueAtPercentile p = h.layout.highestOfIndex i := fun p hwithin => by
    obtain ⟨i, hi, -, hrecorded, hv⟩ := (hvalue p).1 hwithin
    exact ⟨i, hi, hrecorded, hv⟩
  have hone : ∀ p, rankAt p h.total ≤ h.total → ∀ n v : ℕ, v ≤ topValue →
      h.StandsFor (.replicate n v) → h.layout.equivalent v (h.valueAtPercentile p) := by
    intro p hwithin n v hvtop hs
    obtain ⟨i, hi, hrecorded, hv⟩ := hslot p hwithin
    exact hv ▸ hs.equivalent_highestOfIndex hconsistent hvtop hi hrecorded
  have hwithin : lastRank h.total ≤ h.total → ∀ p, rankAt p h.total ≤ h.total :=
    fun hlast p => (hrank p).1.trans hlast
  refine ⟨fun p hp => ⟨hslot p hp, hone p hp⟩, fun p => (hvalue p).2,
    fun hlast => ⟨fun p => hslot p (hwithin hlast p), fun p hp => ?_,
      fun n v hvtop hs p => hone p (hwithin hlast p) n v hvtop hs⟩,
    fun hlast p hp => (hvalue p).2 (((hrank p).2 hp).symm ▸ hlast), lastRank_of_le⟩
  obtain ⟨i, hi, hleast, hrecorded, hv⟩ := (hvalue p).1 (hwithin hlast p)
  rw [(hrank p).2 hp] at hleast
  refine ⟨i, hi, hleast, hrecorded, fun hall j hj hij => ?_, hv⟩
  exact hexact.count_eq_zero ((hexact.covered.sum_le hi).antisymm (hall.symm.trans_le hleast.1))
    hij hj

/-- Of one sample each of 5, 50 and 100 every percentile has the value of one, and the percentiles
that are not below 100 have the value of the last. -/
theorem spread_recorded : spread.Exact ∧ spread.total = 3 ∧ lastRank 3 = 3 ∧
    (∀ p, ∃ i < spread.layout.slotCount, spread.count i ≠ 0 ∧
      spread.valueAtPercentile p =
        spread.layout.highestEquivalent (spread.layout.lowestOfIndex i)) ∧
    ∀ p, ¬p < 100.0 → ∃ i < spread.layout.slotCount, spread.count i ≠ 0 ∧
      (∀ j < spread.layout.slotCount, i < j → spread.count j = 0) ∧
      spread.valueAtPercentile p =
        spread.layout.highestEquivalent (spread.layout.lowestOfIndex i) := by
  have hexact : spread.Exact := by decide +kernel
  have htotal : spread.total = 3 := by decide +kernel
  have hlast : lastRank 3 = 3 := by decide
  obtain ⟨-, -, hwithin, -⟩ :=
    valueAtPercentile_recorded spread_reachable hexact (by decide +kernel)
  rw [htotal, hlast] at hwithin
  obtain ⟨hall, htop, -⟩ := hwithin le_rfl
  refine ⟨hexact, htotal, hlast, hall, fun p hp => ?_⟩
  obtain ⟨i, hi, -, hrecorded, hbehind, hv⟩ := htop p hp
  exact ⟨i, hi, hrecorded, hbehind rfl, hv⟩

/-- As many samples of 5 as are rounded up by a half. -/
def roundedUp : Histogram :=
  let empty := Histogram.ofLayout ⟨⟨1, 100, 1⟩, 0, 4, 32, 16, 31, 3, 64⟩ .bits64
  (empty.recordAll [.plain 5 (2 ^ 52 + 1)]).1

/-- So many samples of 5 and one of 50 that they are rounded down by one. -/
def roundedDown : Histogram :=
  let empty := Histogram.ofLayout ⟨⟨1, 100, 1⟩, 0, 4, 32, 16, 31, 3, 64⟩ .bits64
  (empty.recordAll [.plain 5 (2 ^ 53), .plain 50 1]).1

/-- Recordings lead to samples, the number of which is rounded up so that the value at the
percentile 100 is zero, which is the value of no slot that holds samples, or rounded down so that it
is that of a slot in front of the last one. -/
theorem valueAtPercentile_rounded :
    (roundedUp.Reachable ∧ roundedUp.Exact ∧ roundedUp.total = 2 ^ 52 + 1 ∧
      lastRank (2 ^ 52 + 1) = 2 ^ 52 + 2 ∧ roundedUp.valueAtPercentile 100.0 = 0 ∧
      ∀ i < roundedUp.layout.slotCount, roundedUp.count i ≠ 0 →
        roundedUp.layout.highestEquivalent (roundedUp.layout.lowestOfIndex i) = 5) ∧
    (roundedDown.Reachable ∧ roundedDown.Exact ∧ roundedDown.total = 2 ^ 53 + 1 ∧
      lastRank (2 ^ 53 + 1) = 2 ^ 53 ∧ roundedDown.valueAtPercentile 100.0 = 5 ∧
      ∃ i < roundedDown.layout.slotCount, roundedDown.count i ≠ 0 ∧
        roundedDown.layout.highestEquivalent (roundedDown.layout.lowestOfIndex i) = 51) := by
  have hempty := Histogram.Reachable.ofLayout (b := ⟨1, 100, 1⟩)
    (L := ⟨⟨1, 100, 1⟩, 0, 4, 32, 16, 31, 3, 64⟩) (by decide +kernel) .bits64
  refine ⟨⟨hempty.recordAll (by decide), ?_⟩, hempty.recordAll (by decide), ?_⟩
  · decide +kernel
  · decide +kernel

end Histogram

end DynamicRange
