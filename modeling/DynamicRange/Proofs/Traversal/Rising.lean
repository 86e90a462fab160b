import DynamicRange.Proofs.Histogram.Percentiles
import DynamicRange.Traversal.Percentile

/-!
# The samples up to the items of percentile levels

Where counters have started over, the slots need not come to the total, and even the number of
samples passed may start over while a call is under way. Still the samples up to the items do not
fall. A slot that is left without having reached the level has a lower percentage than the slot at
which the level is reached, and percentages do not fall as numbers of samples grow
(`le_percentage_of_le`), so more samples are passed there. A call that reports at 100 has passed as
many samples as the total, or all slots, which come to no less than was passed before
(`Consistent.countIn_le`).

Each call keeps what the next one needs to know of where it begins (`Standing`), and what a whole
traversal reports follows along the calls (`rising`).
-/

namespace DynamicRange

open Binary64
open Histogram (percentage)

/-! ## Percentages -/

section

variable {count total : ℕ} {P T C a : ℚ} (htotal : 0 < total) (htotal' : total < 2 ^ 64)
include htotal htotal'

/-- A percentage is rounded three times. -/
theorem hasValue_percentage (hpos : 0 < count) (hcount : count < 2 ^ 64) (hP : Nearest count P)
    (hT : Nearest total T) (hC : Nearest (100 * P) C) (ha : Nearest (C / T) a) :
    HasValue (percentage count total) a := by
  have hP1 : 1 ≤ P := hasValue_one.nearest.le_of_le hP (by exact_mod_cast hpos)
  have hP64 : P ≤ 2 ^ 64 := hP.le_of_le (.two_pow 64) (by exact_mod_cast hcount.le)
  have hT1 : 1 ≤ T := hasValue_one.nearest.le_of_le hT (by exact_mod_cast htotal)
  have hT64 : T ≤ 2 ^ 64 := hT.le_of_le (.two_pow 64) (by exact_mod_cast htotal'.le)
  have hC1 : 1 ≤ C := hasValue_one.nearest.le_of_le hC (by linarith)
  have hC71 : C ≤ 2 ^ 71 := hC.le_of_le (.two_pow 71) (by linarith)
  have hproduct := hasValue_hundred.mul (hasValue_countToFloat hpos hcount hP) hC
    (one_pos.trans_le hC1) (hC.lt_two_pow (n := 71) (by linarith) (by norm_num))
  -- The quotient is not so small that it might be rounded to zero.
  have hsmall : Nearest ((1 : ℕ) * 2 ^ (-64 : ℤ)) ((1 : ℕ) * 2 ^ (-64 : ℤ)) :=
    .self one_pos (by norm_num) (by norm_num)
  have hquotient : ((1 : ℕ) : ℚ) * 2 ^ (-64 : ℤ) ≤ C / T := by
    rw [le_div_iff₀ (by linarith)]
    norm_num
    linarith
  refine hproduct.div (hasValue_countToFloat htotal htotal' hT) ha
    (lt_of_lt_of_le (by positivity) (hsmall.le_of_le ha hquotient))
    (ha.lt_two_pow (n := 71) ?_ (by norm_num))
  exact (div_le_self (by linarith) hT1).trans hC71

/-- The percentage of no samples is zero. -/
theorem unpacked_percentage_zero : unpacked (percentage 0 total) = .zero .positive := by
  obtain ⟨T, hT⟩ := exists_nearest (q := total) (by exact_mod_cast htotal)
  obtain ⟨hvalue⟩ := hasValue_countToFloat htotal htotal' hT
  have hnone : unpacked (100.0 * countToFloat 0) = .zero .positive := rfl
  rw [percentage, unpacked_div, hnone, hvalue]
  exact stored_zero .positive

/-- Whatever a percentage reaches, that of a greater number of samples reaches. -/
theorem le_percentage_of_le {m n : ℕ} (hmn : m ≤ n) (hn : n < 2 ^ 64) {level : Float}
    (hlevel : level ≤ percentage m total) : level ≤ percentage n total := by
  rcases hmn.eq_or_lt with rfl | hlt
  · exact hlevel
  have hn0 : 0 < n := (Nat.zero_le m).trans_lt hlt
  obtain ⟨T, hT⟩ := exists_nearest (q := total) (by exact_mod_cast htotal)
  have hT1 : 1 ≤ T := hasValue_one.nearest.le_of_le hT (by exact_mod_cast htotal)
  have hsteps : ∀ k : ℕ, 0 < k → ∃ P C a, Nearest k P ∧ Nearest (100 * P) C ∧
      Nearest (C / T) a := by
    intro k hk
    obtain ⟨P, hP⟩ := exists_nearest (q := k) (by exact_mod_cast hk)
    have hP1 : 1 ≤ P := hasValue_one.nearest.le_of_le hP (by exact_mod_cast hk)
    obtain ⟨C, hC⟩ := exists_nearest (q := 100 * P) (by linarith)
    have hC1 : 1 ≤ C := hasValue_one.nearest.le_of_le hC (by linarith)
    obtain ⟨a, ha⟩ := exists_nearest (q := C / T) (by positivity)
    exact ⟨P, C, a, hP, hC, ha⟩
  obtain ⟨Q, D, b, hQ, hD, hb⟩ := hsteps n hn0
  have hgreater := hasValue_percentage htotal htotal' hn0 hn hQ hT hD hb
  rw [le_iff_atMost hgreater]
  rcases Nat.eq_zero_or_pos m with rfl | hm
  · exact .of_le_zero (unpacked_percentage_zero htotal htotal') hlevel
  · obtain ⟨P, C, a, hP, hC, ha⟩ := hsteps m hm
    have hlesser := hasValue_percentage htotal htotal' hm (hlt.trans hn) hP hT hC ha
    rw [le_iff_atMost hlesser] at hlevel
    have hPQ : P ≤ Q := hP.le_of_le hQ (by exact_mod_cast hmn)
    have hCD : C ≤ D := hC.le_of_le hD (by linarith)
    exact hlevel.mono (ha.le_of_le hb (div_le_div_of_nonneg_right hCD (by linarith)))

end

/-! ## All slots together -/

namespace Histogram.Consistent

variable {h : Histogram} (hh : h.Consistent)
include hh

/-- Counters of 32 bits are too short for the samples of all slots to start over. -/
theorem sum_lt_of_narrow (hnarrow : h.width ≠ .bits64) :
    ∑ i ∈ Finset.range h.layout.slotCount, h.count i < 2 ^ 64 := by
  have hcount : ∀ i ∈ Finset.range h.layout.slotCount, h.count i ≤ 2 ^ 32 := by
    intro i _
    have hlt : h.count i < h.width.limit := hh.bounded (.slot i)
    cases hw : h.width <;> rw [hw] at hlt hnarrow
    case bits64 => exact absurd rfl hnarrow
    all_goals exact hlt.le.trans (by decide)
  have hL := hh.precise
  have hslots : h.layout.slotCount ≤ 65 * 2 ^ 17 := by
    have hfits := hL.last_fits
    rw [hL.slotCount_eq]
    exact Nat.mul_le_mul (by omega) (Nat.pow_le_pow_right two_pos hL.halfMagnitude_le)
  calc ∑ i ∈ Finset.range h.layout.slotCount, h.count i
      ≤ h.layout.slotCount * 2 ^ 32 := by
        simpa using Finset.sum_le_card_nsmul _ _ _ hcount
    _ ≤ 65 * 2 ^ 17 * 2 ^ 32 := Nat.mul_le_mul_right _ hslots
    _ < 2 ^ 64 := by decide

/-- All slots together come to no fewer samples than the first of them, as long as those do not have
as many as the total. -/
theorem countIn_le {n : ℕ} (hn : n ≤ h.layout.slotCount) (hahead : h.countIn 0 n < h.total) :
    h.countIn 0 n ≤ h.countIn 0 h.layout.slotCount := by
  rcases eq_or_ne h.width .bits64 with hwide | hnarrow
  · -- They come to the total, modulo what the total starts over at.
    have htotal : h.total < 2 ^ 64 := hh.bounded .total
    have hsum := hh.sum
    rw [hwide] at hsum
    have hall : h.countIn 0 h.layout.slotCount = h.total := by
      rw [h.countIn_eq, ← Finset.range_eq_Ico]
      exact Eq.trans hsum (Nat.mod_eq_of_lt htotal)
    rw [hall]
    exact hahead.le
  · have hlt := hh.sum_lt_of_narrow hnarrow
    have hle : ∑ i ∈ Finset.range n, h.count i ≤ ∑ i ∈ Finset.range h.layout.slotCount, h.count i :=
      Finset.sum_le_sum_of_subset (Finset.range_subset_range.mpr hn)
    have hwrap : ∀ s < 2 ^ 64, wrapTotal s = s := fun s hs => Nat.mod_eq_of_lt hs
    rwa [h.countIn_eq, h.countIn_eq, ← Finset.range_eq_Ico, ← Finset.range_eq_Ico, hwrap _ hlt,
      hwrap _ (hle.trans_lt hlt)]

end Histogram.Consistent

/-! ## Where searches end, whatever the slots come to -/

namespace Cursor

/-- The place where a search from behind the first `n` slots ends. -/
inductive Ended (h : Histogram) (reported : ℕ) (goal : Cursor → Bool) (n : ℕ) :
    Cursor × Bool → Prop where
  /-- The goal is met. -/
  | met {m : ℕ} (hnm : n < m) (hm : m ≤ h.layout.slotCount)
    (hmet : goal (after h reported m) = true) : Ended h reported goal n (after h reported m, true)
  /-- No samples lie ahead, or no slots. -/
  | missed {m : ℕ} (hm : m ≤ h.layout.slotCount)
    (hend : (after h reported m).hasNext = false ∨ m = h.layout.slotCount) :
    Ended h reported goal n (after h reported m, false)

/-- A cursor that has reported its samples is still behind the same slots. -/
theorem after_with_reported (h : Histogram) (reported n k : ℕ) :
    { after h reported n with reported := k } = after h k n := by cases n <;> rfl

/-- Every search ends so. -/
theorem ended_after {h : Histogram} (hL : h.layout.Shaped) (reported : ℕ) (goal : Cursor → Bool)
    {n : ℕ} (hn : n ≤ h.layout.slotCount) :
    Ended h reported goal n ((after h reported n).seek h goal) := by
  induction hn using Nat.decreasingInduction with
  | self =>
    rw [seek_after_last reported hL goal]
    exact .missed le_rfl (.inr rfl)
  | of_succ n hn ih =>
    rcases hahead : (after h reported n).hasNext with _ | _
    · rw [seek, hahead, if_neg Bool.false_ne_true]
      exact .missed hn.le (.inl hahead)
    · rw [seek_after reported hL goal hn hahead]
      split
      · next hmet => exact .met n.lt_succ_self hn hmet
      · generalize (after h reported (n + 1)).seek h goal = result at ih ⊢
        cases ih with
        | met hnm hm hmet => exact .met (n.lt_succ_self.trans hnm) hm hmet
        | missed hm hend => exact .missed hm hend

end Cursor

/-! ## Calls -/

namespace PercentileLevels

/-- A traversal that has visited the first `n` slots, whatever those come to. -/
structure Standing (h : Histogram) (t : PercentileLevels) (n : ℕ) : Prop where
  /-- The cursor is behind these slots. -/
  cursor : ∃ reported, t.cursor = .after h reported n
  le : n ≤ h.layout.slotCount
  /-- The last of them holds samples, if the last report was made at a level. -/
  recorded : t.finished = false → n ≠ 0 → t.cursor.count ≠ 0
  /-- No samples lie ahead, or no slots, if it was made at 100. -/
  spent : t.finished = true → t.cursor.hasNext = false ∨ n = h.layout.slotCount

/-- What a call comes to that gives an item behind the first `n` slots. -/
structure Rise (h : Histogram) (passed : ℕ) (x : Item) (t' : PercentileLevels) : Prop where
  /-- The item has the samples passed in the end. -/
  cumulative : x.cumulative = t'.cursor.passed
  /-- These are no fewer than before. -/
  le : passed ≤ t'.cursor.passed
  standing : ∃ n, Standing h t' n

variable {h : Histogram} {t t' : PercentileLevels} {x : Item} {reported m n passed : ℕ}

/-- An item that is reported behind the first slots. -/
theorem Rise.behind {k : ℕ} (hx : x.cumulative = (Cursor.after h reported m).passed)
    (hcursor : t'.cursor = { Cursor.after h reported m with reported := k })
    (hm : m ≤ h.layout.slotCount) (hle : passed ≤ h.countIn 0 m)
    (hrecorded : t'.finished = false → m ≠ 0 → (Cursor.after h reported m).count ≠ 0)
    (hspent : t'.finished = true →
      (Cursor.after h reported m).hasNext = false ∨ m = h.layout.slotCount) :
    Rise h passed x t' := by
  refine ⟨hx.trans (congrArg Cursor.passed hcursor).symm, ?_, m,
    ⟨k, hcursor.trans (Cursor.after_with_reported ..)⟩, hm, ?_, ?_⟩
  all_goals rw [hcursor]
  · rwa [Cursor.after_passed]
  · exact hrecorded
  · exact hspent

/-- A report at 100 is made behind the slots visited. -/
theorem rise_of_finish? (hcursor : t.cursor = .after h reported m) (hm : m ≤ h.layout.slotCount)
    (hend : (Cursor.after h reported m).hasNext = false ∨ m = h.layout.slotCount)
    (hle : passed ≤ h.countIn 0 m) (hitem : t.finish? h = some (x, t')) : Rise h passed x t' := by
  unfold finish? at hitem
  split at hitem
  · cases hitem
  · cases hitem
    rw [hcursor]
    exact .behind rfl rfl hm hle nofun fun _ => hend

/-- A slot that is left without having reached the level has fewer samples up to it than the slot
that reaches the level. -/
theorem countIn_le_of_reachedBy (hh : h.Consistent) (htotal : 0 < h.total)
    (hleft : t.reachedBy (.after h reported n) = false)
    (hrecorded : n ≠ 0 → (Cursor.after h reported n).count ≠ 0)
    (hmet : t.reachedBy (.after h reported m) = true) : h.countIn 0 n ≤ h.countIn 0 m := by
  have hbound : ∀ k, h.countIn 0 k < 2 ^ 64 := fun k => Nat.mod_lt _ (Nat.two_pow_pos 64)
  have hpercentile : ∀ k, (Cursor.after h reported k).percentile =
      Histogram.percentage (h.countIn 0 k) h.total := by
    intro k
    rw [Cursor.percentile, Cursor.after_passed, Cursor.after_total]
  rcases eq_or_ne n 0 with rfl | hn
  · rw [h.countIn_zero]
    exact Nat.zero_le _
  rw [reachedBy, hpercentile, decide_eq_true (hrecorded hn), Bool.true_and,
    decide_eq_false_iff_not] at hleft
  rw [reachedBy, hpercentile, Bool.and_eq_true, decide_eq_true_iff] at hmet
  by_contra hless
  exact hleft (le_percentage_of_le htotal (hh.bounded .total) (not_le.mp hless).le (hbound n)
    (of_decide_eq_true hmet.2))

/-- A call that gives an item leads behind slots that have no fewer samples. -/
theorem Standing.rise (hh : h.Consistent) (hstanding : Standing h t n)
    (hnext : t.next? h = some (x, t')) : Rise h t.cursor.passed x t' := by
  obtain ⟨⟨reported, hcursor⟩, hle, hrecorded, hspent⟩ := hstanding
  have hpassed : t.cursor.passed = h.countIn 0 n := by rw [hcursor, Cursor.after_passed]
  unfold next? at hnext
  split at hnext
  · cases hnext
  rw [hpassed]
  split at hnext
  · next hdone =>
    rw [Bool.not_eq_true', hcursor] at hdone
    exact rise_of_finish? hcursor hle (.inl hdone) le_rfl hnext
  next hahead =>
  rw [Bool.not_eq_true', Bool.not_eq_false] at hahead
  have hbelow : h.countIn 0 n < h.total := by
    rwa [hcursor, Cursor.hasNext, Cursor.after_passed, Cursor.after_total, decide_eq_true_iff]
      at hahead
  rcases hreached : t.reachedBy t.cursor with _ | _
  · rw [hreached, if_neg Bool.false_ne_true] at hnext
    rw [hcursor] at hnext hreached
    have hended := Cursor.ended_after hh.shaped reported t.reachedBy hle
    generalize (Cursor.after h reported n).seek h t.reachedBy = result at hended hnext
    cases hended with
    | @met m hnm hm hmet =>
      -- There is a slot ahead, so the last report was made at a level.
      have hopen : t.finished = false := Bool.eq_false_iff.mpr fun hfinished =>
        (hspent hfinished).elim (fun hdone => Bool.false_ne_true (hdone.symm.trans hahead))
          fun hlast => (hnm.trans_le hm).ne hlast
      rw [hcursor] at hrecorded
      have hcount : (Cursor.after h reported m).count ≠ 0 :=
        of_decide_eq_true (Bool.and_elim_left hmet)
      cases hnext
      exact .behind rfl rfl hm (countIn_le_of_reachedBy hh (Nat.zero_lt_of_lt hbelow) hreached
        (hrecorded hopen) hmet) (fun _ _ => hcount)
        fun hfinished => absurd (hopen.symm.trans hfinished) Bool.false_ne_true
    | @missed m hm hend =>
      refine rise_of_finish? (t := { t with cursor := Cursor.after h reported m }) rfl hm hend ?_
        hnext
      rcases hend with hdone | rfl
      · rw [Cursor.hasNext, Cursor.after_passed, Cursor.after_total, decide_eq_false_iff_not,
          not_lt] at hdone
        exact hbelow.le.trans hdone
      · exact hh.countIn_le hle hbelow
  · rw [hreached, if_pos rfl] at hnext
    rw [hcursor] at hnext hrecorded hspent
    cases hnext
    exact .behind rfl rfl hle le_rfl hrecorded hspent

/-! ## Calls one after the other -/

/-- What is reported by the calls of a traversal up to now. -/
structure Rising (h : Histogram) (xs : List Item) (t : PercentileLevels) : Prop where
  standing : ∃ n, Standing h t n
  /-- From item to item the samples up to them do not fall. -/
  pairwise : (xs.map (·.cumulative)).Pairwise (· ≤ ·)
  /-- No item has more than the samples passed, -/
  le : ∀ x ∈ xs, x.cumulative ≤ t.cursor.passed
  /-- and the last one has as many. -/
  last : ∀ x ∈ xs.getLast?, x.cumulative = t.cursor.passed
  /-- A report at 100 is an item. -/
  nonempty : t.finished = true → xs ≠ []

/-- The calls of a traversal report ever more samples, or as many as before. -/
theorem rising (hh : h.Consistent) {ticks : ℕ} {t₀ : PercentileLevels} {xs : List Item}
    (hstart : start h ticks = .ok t₀) (hyields : Yields (next? h) t₀ xs t) : Rising h xs t := by
  induction hyields with
  | nil =>
    rw [start] at hstart
    split at hstart
    · cases hstart
    · cases hstart
      exact ⟨⟨0, ⟨0, rfl⟩, Nat.zero_le _, fun _ hn => absurd rfl hn, nofun⟩, .nil, nofun, nofun,
        nofun⟩
  | @snoc xs x t t' _ hnext ih =>
    obtain ⟨⟨n, hstanding⟩, hpairwise, hbelow, -, -⟩ := ih
    obtain ⟨hcumulative, hle, hbehind⟩ := hstanding.rise hh hnext
    have hall : ∀ y ∈ xs ++ [x], y.cumulative ≤ t'.cursor.passed := by
      rw [List.forall_mem_append, List.forall_mem_singleton]
      exact ⟨fun y hy => (hbelow y hy).trans hle, hcumulative.le⟩
    refine ⟨hbehind, ?_, hall, ?_,
      fun _ => List.append_ne_nil_of_right_ne_nil _ (List.cons_ne_nil _ _)⟩
    · rw [List.map_append, List.pairwise_append, List.map_singleton]
      refine ⟨hpairwise, List.pairwise_singleton .., ?_⟩
      rw [List.forall_mem_map]
      intro y hy
      rw [List.forall_mem_singleton, hcumulative]
      exact hall y (List.mem_append_left _ hy)
    · rw [List.getLast?_concat]
      rintro y ⟨⟩
      exact hcumulative

/-- Where there are samples, a traversal comes to an end with a report at 100 only. -/
theorem finished_of_next?_eq_none (htotal : t.cursor.total ≠ 0) (hend : t.next? h = none) :
    t.finished = true := by
  have hfinish : ∀ {t : PercentileLevels}, t.finish? h = none → t.finished = true := by
    intro t hnone
    unfold finish? at hnone
    split at hnone
    · assumption
    · cases hnone
  unfold next? at hend
  rw [if_neg htotal] at hend
  split at hend
  · exact hfinish hend
  · generalize (if t.reachedBy t.cursor then (t.cursor, true) else t.cursor.seek h t.reachedBy) =
      found at hend
    obtain ⟨c, _ | _⟩ := found
    · exact hfinish (t := { t with cursor := c }) hend
    · cases hend

/-- If the slots come to the total, the last item has all samples. -/
theorem Rising.cumulative_getLast? (hh : h.Consistent) (hexact : h.Exact) {xs : List Item}
    (hrising : Rising h xs t) (htotal : h.total ≠ 0) (hend : t.next? h = none) :
    (xs.map (·.cumulative)).getLast? = some h.total := by
  obtain ⟨⟨n, ⟨reported, hcursor⟩, hle, -, hspent⟩, -, -, hlast, hnonempty⟩ := hrising
  have hfinished : t.finished = true :=
    finished_of_next?_eq_none (by rwa [hcursor, Cursor.after_total]) hend
  have hpassed : t.cursor.passed = h.total := by
    rw [hcursor, Cursor.after_passed, hexact.covered.countIn_eq_sum hle hh]
    refine (hexact.covered.sum_le hle).antisymm ?_
    rcases hspent hfinished with hdone | rfl
    · rwa [hcursor, ← Bool.not_eq_true, hexact.covered.hasNext_after_iff hle hh, not_lt] at hdone
    · exact hexact.le
  rw [List.getLast?_map, List.getLast?_eq_getLast_of_ne_nil (hnonempty hfinished), Option.map_some,
    hlast _ (List.getLast?_eq_getLast_of_ne_nil (hnonempty hfinished)), hpassed]

end PercentileLevels

end DynamicRange
