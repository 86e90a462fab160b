import DynamicRange.Proofs.Histogram.Reachable

/-!
# Samples that were held up

A sample that took longer than the interval at which samples were expected stands for as many
samples as the intervals that it took: itself, and those that were held up behind it, each of which
took an interval less than the one before (`backfill`). `recordCorrected_backfilled` says that
recording it is recording each of these once, or nothing at all, and that this is settled by the
value that was measured.

The values fall, and a layout that covers a value covers all lower ones, so the first value decides
for all (`Layout.Covers.of_mem_backfill`). They stay at or above the interval, so the differences by
which they fall are words (`recordDownIn_eq`).
-/

namespace DynamicRange

/-- The values that a sample of `v` expected every `interval` stands for: `v`, `v - interval` and so
on, one for each interval in `v`, and `v` alone if it is not above the interval or if there is no
interval. -/
def backfill (v interval : ℤ) : List ℤ :=
  if 0 < interval ∧ interval < v then
    (List.range (v / interval).toNat).map fun j : ℕ => v - j * interval
  else
    [v]

/-- They are the value and those held up behind it. -/
theorem cons_heldUp (v interval : ℤ) :
    v :: heldUp (v - interval) interval = backfill v interval := by
  rw [backfill]
  split
  · next h => rw [← heldUp_cons ⟨h.1, h.2.le⟩, heldUp, if_pos h.1]
  · rw [heldUp_eq_nil (by omega)]

/-- There is one for each interval in the value, or the value alone. -/
theorem length_backfill (v interval : ℤ) : (backfill v interval).length =
    if 0 < interval ∧ interval < v then (v / interval).toNat else 1 := by
  rw [backfill]
  split <;> simp

/-- Those behind the value come to an interval and are lower. -/
theorem eq_or_lt_of_mem_backfill {v interval x : ℤ} (hx : x ∈ backfill v interval) :
    x = v ∨ 0 < interval ∧ interval ≤ x ∧ x < v := by
  rw [← cons_heldUp] at hx
  rcases List.mem_cons.mp hx with rfl | hbehind
  · exact .inl rfl
  · obtain ⟨hpos, hlow, hhigh⟩ := le_of_mem_heldUp hbehind
    exact .inr ⟨hpos, hlow, by omega⟩

/-- All of them are covered if the value is. -/
theorem Layout.Covers.of_mem_backfill {L : Layout} {v interval x : ℤ} (hv : L.Covers v)
    (hx : x ∈ backfill v interval) : L.Covers x := by
  rw [← cons_heldUp] at hx
  exact (hv.of_mem_cons_heldUp hx).1

/-! ## Differences in words -/

/-- An integer that 64 bits with a sign can hold. -/
def word? (n : ℤ) : Option ℤ := if -0x8000000000000000 ≤ n ∧ n ≤ topValue then some n else none

/-- The difference of a value and an interval to which it comes is a word. -/
theorem word?_sub {v interval : ℤ} (h : 0 < interval ∧ interval ≤ v) (hv : v ≤ topValue) :
    word? (v - interval) = some (v - interval) :=
  if_pos (by omega)

namespace Histogram

/-- Records a sample of `v`, of `v - interval` and so on down to `interval`, for a number of rounds:
none if it takes more of them, or if a difference is no word. -/
def recordDownIn (interval : ℤ) :
    (rounds : ℕ) → Histogram → ℤ → Option (Histogram × Except RecordError Unit)
  | 0, _, _ => none
  | rounds + 1, h, v =>
    if interval ≤ v then
      match h.record v 1 with
      | (h, .error e) => some (h, .error e)
      | (h, .ok ()) => (word? (v - interval)).bind (recordDownIn interval rounds h)
    else
      some (h, .ok ())

/-- Records a sample and those held up behind it, for a number of rounds: none if it takes more of
them, or if a difference is no word. -/
def recordCorrectedIn (rounds : ℕ) (h : Histogram) (v interval : ℤ) :
    Option (Histogram × Except RecordError Unit) :=
  match h.record v 1 with
  | (h, .error e) => some (h, .error e)
  | (h, .ok ()) =>
    if interval ≤ 0 ∨ v ≤ interval then some (h, .ok ())
    else (word? (v - interval)).bind (recordDownIn interval rounds h)

/-- Recording downwards takes a round for each interval in the value and one more, in which it
ends. -/
theorem recordDownIn_eq {h : Histogram} {v interval : ℤ} {rounds : ℕ} (hpos : 0 < interval)
    (hnonneg : 0 ≤ v) (hv : v ≤ topValue) (hrounds : v / interval < rounds) :
    recordDownIn interval rounds h v = some (h.recordDown v interval) := by
  fun_induction recordDown h v interval generalizing rounds with
  | case1 h v hle g e hrecord =>
    have hquotient := Int.ediv_nonneg hnonneg hpos.le
    obtain ⟨rounds, rfl⟩ := Nat.exists_eq_succ_of_ne_zero (show rounds ≠ 0 by omega)
    rw [recordDownIn, if_pos hle.2, hrecord]
  | case2 h v hle g hrecord ih =>
    obtain ⟨hone, hquotient⟩ := sub_ediv_interval hle
    obtain ⟨rounds, rfl⟩ := Nat.exists_eq_succ_of_ne_zero (show rounds ≠ 0 by omega)
    rw [recordDownIn, if_pos hle.2, hrecord]
    simp only [word?_sub hle hv, Option.bind_some]
    exact ih (by omega) (by omega) (by omega)
  | case3 h v hlt =>
    have hquotient := Int.ediv_nonneg hnonneg hpos.le
    obtain ⟨rounds, rfl⟩ := Nat.exists_eq_succ_of_ne_zero (show rounds ≠ 0 by omega)
    rw [recordDownIn, if_neg (by omega)]

/-- A sample and those held up behind it are recorded in a round for each interval in the value, and
all differences are words. -/
theorem recordCorrectedIn_eq (h : Histogram) {v : ℤ} (hv : v ≤ topValue) (interval : ℤ) :
    recordCorrectedIn (v / interval).toNat h v interval = some (h.recordCorrected v interval) := by
  rw [recordCorrectedIn, recordCorrected]
  rcases h.record v 1 with ⟨g, _ | ⟨⟨⟩⟩⟩
  · rfl
  · dsimp only
    split
    · rfl
    · next hlong =>
      have hle : 0 < interval ∧ interval ≤ v := by omega
      obtain ⟨hone, hquotient⟩ := sub_ediv_interval hle
      rw [word?_sub hle hv, Option.bind_some]
      exact recordDownIn_eq hle.1 (by omega) (by omega) (by omega)

/-! ## Recording all of them -/

/-- What becomes of a sample and those held up behind it is what becomes of the sample alone. -/
theorem outcomeCorrected_eq {L : Layout} (hL : L.Shaped) (v interval : ℤ) :
    L.outcomeCorrected v interval = L.outcome v 1 := by
  by_cases hv : L.Covers v
  · have hplain : (Recording.plain v 1).outcome L = .ok () :=
      (Recording.outcome_eq_ok_iff hL).mpr hv
    have hcorrected : (Recording.corrected v interval).outcome L = .ok () :=
      (Recording.outcome_eq_ok_iff hL).mpr hv
    exact hcorrected.trans hplain.symm
  · obtain ⟨e, he⟩ := Layout.recording_of_not_covers hL hv 1
    rw [Layout.outcomeCorrected, Layout.outcome, he]
    rfl

/-- Recording one sample of each of some values makes the changes and has the outcomes of each. -/
theorem recordAll_plain (h : Histogram) (vs : List ℤ) :
    h.recordAll (vs.map (.plain · 1)) =
      (h.applyAll (vs.flatMap (h.layout.work · 1)), vs.map (h.layout.outcome · 1)) := by
  rw [recordAll_eq, List.flatMap_map, List.map_map]
  rfl

section

variable {h : Histogram} {v : ℤ}

/-- A sample of a covered value and those held up behind it are recorded one after the other. -/
theorem recordCorrected_of_covers (hL : h.layout.Shaped) (hv : h.layout.Covers v) (interval : ℤ) :
    (h.recordCorrected v interval).1 =
        (h.recordAll ((backfill v interval).map (.plain · 1))).1 ∧
      ∀ x ∈ (h.recordAll ((backfill v interval).map (.plain · 1))).2, x = .ok () := by
  have hrun : h.recordCorrected v interval = (Recording.corrected v interval).run h := rfl
  rw [recordAll_plain]
  constructor
  · rw [hrun, Recording.run_eq, Recording.work_corrected hL hv, cons_heldUp]
  · intro x hx
    obtain ⟨w, hw, rfl⟩ := List.mem_map.mp hx
    exact (Recording.outcome_eq_ok_iff (r := .plain w 1) hL).mpr (hv.of_mem_backfill hw)

/-- A sample of a covered value adds as many to the total as it stands for. -/
theorem Consistent.total_recordCorrected (hh : h.Consistent) (hv : h.layout.Covers v)
    (interval : ℤ) : (h.recordCorrected v interval).1.total =
      wrapTotal (h.total + (backfill v interval).length) := by
  have hheld := held_run hh.shaped hh.framed (r := .corrected v interval) hv .total
  have hbounded := hh.bounded.run (.corrected v interval) .total
  have hsamples : h.layout.tally (Recording.corrected v interval).samples .total =
      (backfill v interval).length := by
    rw [← cons_heldUp]
    simp [Layout.tally, Recording.samples]
  rw [hsamples] at hheld
  exact (Nat.mod_eq_of_lt hbounded).symm.trans hheld

end

/-- What it means to record a sample of `v` that was expected every `interval`. -/
structure Backfilled (h : Histogram) (v interval : ℤ) : Prop where
  /-- The outcome is that of recording the value alone. -/
  outcome : (h.recordCorrected v interval).2 = (h.record v 1).2
  /-- If the value is refused, the histogram stays as it was. -/
  refused : ∀ e, (h.record v 1).2 = .error e → (h.recordCorrected v interval).1 = h
  /-- Otherwise the histogram is as if each of the values had been recorded once, and none of them
  is refused. -/
  made : (h.record v 1).2 = .ok () →
    (h.recordCorrected v interval).1 =
        (h.recordAll ((backfill v interval).map (.plain · 1))).1 ∧
      ∀ x ∈ (h.recordAll ((backfill v interval).map (.plain · 1))).2, x = .ok ()
  /-- The values behind the first come to an interval, and so are not negative. -/
  values : ∀ x ∈ backfill v interval, x = v ∨ 0 < interval ∧ interval ≤ x ∧ x < v
  /-- There is one more sample for each interval in the value, or a single one. -/
  total : (h.record v 1).2 = .ok () → (h.recordCorrected v interval).1.total =
    wrapTotal (h.total + if 0 < interval ∧ interval < v then (v / interval).toNat else 1)
  /-- In words it is done in a round for each interval in the value, and all differences are
  words. -/
  inWords :
    recordCorrectedIn (v / interval).toNat h v interval = some (h.recordCorrected v interval)

/-- In any reachable histogram, a sample of any value that was expected at any interval is recorded
with those held up behind it, or refused like the value alone. -/
theorem recordCorrected_backfilled {h : Histogram} (hh : h.Reachable) {v : ℤ} (hv : v ≤ topValue)
    (interval : ℤ) : h.Backfilled v interval := by
  have hconsistent := hh.consistent
  have hL := hconsistent.shaped
  have houtcome : (h.recordCorrected v interval).2 = (h.record v 1).2 := by
    rw [recordCorrected_outcome, record_outcome, outcomeCorrected_eq hL]
  have hcovers : (h.record v 1).2 = .ok () → h.layout.Covers v := by
    rw [record_outcome]
    exact (Recording.outcome_eq_ok_iff (r := .plain v 1) hL).mp
  refine ⟨houtcome, fun e he => ?_, fun hok => recordCorrected_of_covers hL (hcovers hok) interval,
    fun x => eq_or_lt_of_mem_backfill, fun hok => ?_, recordCorrectedIn_eq h hv interval⟩
  · exact Recording.run_of_error (r := .corrected v interval) hL (houtcome.trans he)
  · rw [hconsistent.total_recordCorrected (hcovers hok), length_backfill]

/-- A sample of 65 that was expected every 20 stands for three, one of `topValue` that was expected
every other unit is refused. -/
theorem twenties_backfilled :
    let h := ofLayout ⟨⟨1, 100, 1⟩, 0, 4, 32, 16, 31, 3, 64⟩ .bits8
    h.Reachable ∧ (65 : ℤ) ≤ topValue ∧ h.Backfilled 65 20 ∧ backfill 65 20 = [65, 45, 25] ∧
      (h.record 65 1).2 = .ok () ∧ (h.recordCorrected 65 20).1.total = 3 ∧
      h.Backfilled topValue 2 ∧ (h.record topValue 1).2 = .error .outOfRange := by
  have hh : (ofLayout ⟨⟨1, 100, 1⟩, 0, 4, 32, 16, 31, 3, 64⟩ .bits8).Reachable :=
    .ofLayout (b := ⟨1, 100, 1⟩) (by decide +kernel) .bits8
  exact ⟨hh, by decide, recordCorrected_backfilled hh (by decide) 20, by decide +kernel,
    by decide +kernel, by decide +kernel, recordCorrected_backfilled hh le_rfl 2, by decide +kernel⟩

end Histogram

end DynamicRange
