import DynamicRange.Proofs.Histogram.Cells
import DynamicRange.Proofs.Layout.Partition
import Mathlib.Algebra.BigOperators.Group.List.Basic
import Mathlib.Data.Multiset.Replicate

/-!
# Recordings

A recording is a call that records, either some samples of one value or a sample with those held up
behind it. What it does is settled by the layout: the changes that it makes and its outcome are the
same in whatever state it finds the cells (`Recording.run_eq`), and so is what a list of recordings
does (`recordAll_eq`).

In an accepted layout a recording is made or refused as a whole. It is made exactly if the layout
covers the value that was measured (`Recording.outcome_eq_ok_iff`), since the samples held up are
of lower values, none of which is refused. If it is refused it changes nothing
(`Recording.work_of_not_covers`).
-/

namespace DynamicRange

/-- The values `v`, `v - interval`, `v - 2 * interval` and so on that come to an interval or
more. -/
def heldUp (v interval : ℤ) : List ℤ :=
  if 0 < interval then
    (List.range (v / interval).toNat).map fun j : ℕ => v - j * interval
  else
    []

/-- A value that comes to an interval has one interval more than the value behind it. -/
theorem sub_ediv_interval {v interval : ℤ} (h : 0 < interval ∧ interval ≤ v) :
    1 ≤ v / interval ∧ (v - interval) / interval = v / interval - 1 := by
  obtain ⟨hpos, hle⟩ := h
  refine ⟨(Int.le_ediv_iff_mul_le hpos).mpr (by omega), ?_⟩
  rw [Int.sub_ediv_of_dvd v dvd_rfl, Int.ediv_self hpos.ne']

/-- A value that comes to an interval is held up, and so are the values behind it. -/
theorem heldUp_cons {v interval : ℤ} (h : 0 < interval ∧ interval ≤ v) :
    heldUp v interval = v :: heldUp (v - interval) interval := by
  -- There is one more value than behind it, and the multiples of the interval are shifted by one.
  obtain ⟨hone, hquotient⟩ := sub_ediv_interval h
  have hcount : (v / interval).toNat = (v / interval - 1).toNat + 1 := by omega
  rw [heldUp, heldUp, if_pos h.1, if_pos h.1, hquotient, hcount, List.range_succ_eq_map,
    List.map_cons, List.map_map]
  congr 1
  · simp
  · refine List.map_congr_left fun j _ => ?_
    simp only [Function.comp_apply, Nat.cast_succ]
    ring

/-- A value that does not come to an interval is not held up. -/
theorem heldUp_eq_nil {v interval : ℤ} (h : ¬(0 < interval ∧ interval ≤ v)) :
    heldUp v interval = [] := by
  rw [heldUp]
  split
  · next hpos =>
    have hnone : v / interval < 1 := Int.ediv_lt_of_lt_mul hpos (by omega)
    rw [Int.toNat_of_nonpos (by omega)]
    rfl
  · rfl

/-- The values held up come to an interval and are not above the first of them. -/
theorem le_of_mem_heldUp {v interval w : ℤ} (h : w ∈ heldUp v interval) :
    0 < interval ∧ interval ≤ w ∧ w ≤ v := by
  rw [heldUp] at h
  split at h
  · next hpos =>
    obtain ⟨j, hj, rfl⟩ := List.mem_map.mp h
    rw [List.mem_range] at hj
    have hfits : ((j : ℤ) + 1) * interval ≤ v := (Int.le_ediv_iff_mul_le hpos).mp (by omega)
    have hnonneg : 0 ≤ (j : ℤ) * interval := Int.mul_nonneg (Int.natCast_nonneg j) hpos.le
    rw [add_mul, one_mul] at hfits
    omega
  · cases h

namespace Layout

variable {L : Layout}

/-- Whether a value can be recorded: it is not negative and lies below the reach. -/
def Covers (L : Layout) (v : ℤ) : Prop := 0 ≤ v ∧ v.toNat < L.reach

instance (L : Layout) (v : ℤ) : Decidable (L.Covers v) :=
  inferInstanceAs (Decidable (_ ∧ _))

/-- What becomes of a recording of samples of one value. -/
def outcome (L : Layout) (v : ℤ) (n : ℕ) : Except RecordError Unit :=
  (L.recording v n).map fun _ => ()

/-- What becomes of a recording of `v`, `v - interval`, and so on down to `interval`. -/
def outcomeDown (L : Layout) (v interval : ℤ) : Except RecordError Unit :=
  if 0 < interval ∧ interval ≤ v then
    match L.recording v 1 with
    | .error e => .error e
    | .ok _ => L.outcomeDown (v - interval) interval
  else
    .ok ()
termination_by v.toNat
decreasing_by omega

/-- What becomes of a recording of a sample and those that were held up behind it. -/
def outcomeCorrected (L : Layout) (v interval : ℤ) : Except RecordError Unit :=
  match L.recording v 1 with
  | .error e => .error e
  | .ok _ =>
    if interval ≤ 0 ∨ v ≤ interval then .ok () else L.outcomeDown (v - interval) interval

/-- A lower value is covered too. -/
theorem Covers.of_le {v w : ℤ} (hv : L.Covers v) (hw : 0 ≤ w) (hle : w ≤ v) : L.Covers w := by
  obtain ⟨-, hreach⟩ := hv
  exact ⟨hw, by omega⟩

/-- The values held up behind a covered value are covered. -/
theorem Covers.sub {v interval : ℤ} (hv : L.Covers v) (h : 0 < interval ∧ interval ≤ v) :
    L.Covers (v - interval) :=
  hv.of_le (by omega) (by omega)

/-- A covered value and the values held up behind it are covered, and it is the greatest. -/
theorem Covers.of_mem_cons_heldUp {v interval w : ℤ} (hv : L.Covers v)
    (hw : w ∈ v :: heldUp (v - interval) interval) : L.Covers w ∧ w ≤ v := by
  rcases List.mem_cons.mp hw with rfl | hbehind
  · exact ⟨hv, le_rfl⟩
  · obtain ⟨hpos, hlow, hhigh⟩ := le_of_mem_heldUp hbehind
    exact ⟨hv.of_le (by omega) (by omega), by omega⟩

/-- A value that is covered has a slot, and recording it adds to that slot. -/
theorem recording_of_covers (hL : L.Shaped) {v : ℤ} (hv : L.Covers v) (n : ℕ) :
    L.indexFor v.toNat < L.slotCount ∧
      L.recording v n = .ok ([.addToSlot (L.indexFor v.toNat) n, .addToTotal n] ++
        (if v = 0 then [] else [.lowerLeast v.toNat]) ++ [.raiseGreatest v.toNat]) := by
  have hindex : L.indexFor v.toNat < L.slotCount := (indexFor_lt_slotCount_iff hL _).mpr hv.2
  refine ⟨hindex, ?_⟩
  rw [recording, if_neg (not_lt.mpr hv.1), slotOf?_eq_some_iff.mpr ⟨rfl, hindex⟩]

/-- A value that is not covered is refused. -/
theorem recording_of_not_covers (hL : L.Shaped) {v : ℤ} (hv : ¬L.Covers v) (n : ℕ) :
    ∃ e, L.recording v n = .error e := by
  rw [recording]
  split
  · exact ⟨_, rfl⟩
  · next hsign =>
    have hnone : L.slotOf? v.toNat = none := by
      rw [← Option.not_isSome_iff_eq_none, Option.isSome_iff_exists]
      rintro ⟨i, hi⟩
      obtain ⟨rfl, hlt⟩ := slotOf?_eq_some_iff.mp hi
      exact hv ⟨not_lt.mp hsign, (indexFor_lt_slotCount_iff hL _).mp hlt⟩
    exact ⟨_, by rw [hnone]⟩

/-- Recording down from a covered value is never refused. -/
theorem outcomeDown_of_covers (hL : L.Shaped) {v interval : ℤ} (hv : L.Covers v) :
    L.outcomeDown v interval = .ok () := by
  fun_induction outcomeDown with
  | case1 v hle e he => simp [(recording_of_covers hL hv 1).2] at he
  | case2 v hle us hus ih => exact ih (hv.sub hle)
  | case3 => rfl

/-- Recording down from a covered value records all the values held up. -/
theorem workDown_of_covers (hL : L.Shaped) {v interval : ℤ} (hv : L.Covers v) :
    L.workDown v interval = (heldUp v interval).flatMap (L.work · 1) := by
  fun_induction workDown with
  | case1 v hle e he => simp [(recording_of_covers hL hv 1).2] at he
  | case2 v hle us hus ih => rw [heldUp_cons hle, List.flatMap_cons, ih (hv.sub hle), work, hus]
  | case3 v hle => rw [heldUp_eq_nil hle, List.flatMap_nil]

end Layout

/-- A call that records. -/
inductive Recording where
  /-- Records `n` samples of `v`. -/
  | plain (v : ℤ) (n : ℕ)
  /-- Records a sample of `v` that was expected every `interval`, and those held up behind it. -/
  | corrected (v interval : ℤ)
  deriving DecidableEq

namespace Recording

/-- The value that was measured. -/
def value : Recording → ℤ
  | plain v _ | corrected v _ => v

/-- Runs a recording. -/
def run (h : Histogram) : Recording → Histogram × Except RecordError Unit
  | plain v n => h.record v n
  | corrected v interval => h.recordCorrected v interval

/-- The changes that a recording makes. -/
def work (L : Layout) : Recording → List CellUpdate
  | plain v n => L.work v n
  | corrected v interval => L.workCorrected v interval

/-- What becomes of a recording. -/
def outcome (L : Layout) : Recording → Except RecordError Unit
  | plain v n => L.outcome v n
  | corrected v interval => L.outcomeCorrected v interval

/-- The samples that are recorded if nothing is refused. -/
def samples : Recording → Multiset ℕ
  | plain v n => Multiset.replicate n v.toNat
  | corrected v interval => ((v :: heldUp (v - interval) interval).map Int.toNat : List ℕ)

end Recording

namespace Histogram

/-- Runs recordings one after the other; gives their outcomes too. -/
def recordAll (h : Histogram) : List Recording → Histogram × List (Except RecordError Unit)
  | [] => (h, [])
  | r :: rs =>
    let (h, outcome) := r.run h
    let (h, outcomes) := h.recordAll rs
    (h, outcome :: outcomes)

/-! ## Recordings in any state -/

/-- What becomes of a recording of one value is settled by the layout. -/
theorem record_outcome (h : Histogram) (v : ℤ) (n : ℕ) :
    (h.record v n).2 = h.layout.outcome v n := by
  rcases h.record_cases v n with ⟨us, hus, hrecord⟩ | ⟨e, he, hrecord⟩
  · rw [hrecord, Layout.outcome, hus]
    rfl
  · rw [hrecord, Layout.outcome, he]
    rfl

/-- What becomes of a recording of falling values is settled by the layout. -/
theorem recordDown_outcome (h : Histogram) (v interval : ℤ) :
    (h.recordDown v interval).2 = h.layout.outcomeDown v interval := by
  -- Each value is recorded in a changed histogram, whose layout is still that of `h`.
  fun_induction recordDown with
  | case1 h v hv g e hrecord =>
    rw [Layout.outcomeDown, if_pos hv]
    rcases h.record_cases v 1 with ⟨us, hus, hok⟩ | ⟨e', he, herror⟩
    · simp [hok] at hrecord
    · rw [herror] at hrecord
      rw [he, Except.error.inj (Prod.mk.inj hrecord).2]
  | case2 h v hv g hrecord ih =>
    rw [Layout.outcomeDown, if_pos hv]
    rcases h.record_cases v 1 with ⟨us, hus, hok⟩ | ⟨e', he, herror⟩
    · rw [hok] at hrecord
      rw [ih, hus, ← (Prod.mk.inj hrecord).1, h.applyAll_layout]
    · simp [herror] at hrecord
  | case3 h v hv => rw [Layout.outcomeDown, if_neg hv]

/-- What becomes of a recording of a sample with those held up is settled by the layout. -/
theorem recordCorrected_outcome (h : Histogram) (v interval : ℤ) :
    (h.recordCorrected v interval).2 = h.layout.outcomeCorrected v interval := by
  unfold recordCorrected Layout.outcomeCorrected
  rcases h.record_cases v 1 with ⟨us, hus, hok⟩ | ⟨e, he, herror⟩
  · rw [hok, hus]
    simp only
    split
    · rfl
    · rw [recordDown_outcome, h.applyAll_layout]
  · rw [herror, he]

end Histogram

namespace Recording

/-- A recording makes the changes and has the outcome that the layout settles. -/
theorem run_eq (h : Histogram) (r : Recording) :
    r.run h = (h.applyAll (r.work h.layout), r.outcome h.layout) := by
  cases r with
  | plain v n => exact Prod.ext (h.record_eq v n) (h.record_outcome v n)
  | corrected v interval =>
    exact Prod.ext (h.recordCorrected_eq v interval) (h.recordCorrected_outcome v interval)

end Recording

/-- Recordings one after the other make the changes and have the outcomes that the layout
settles. -/
theorem Histogram.recordAll_eq (h : Histogram) (rs : List Recording) :
    h.recordAll rs =
      (h.applyAll (rs.flatMap (·.work h.layout)), rs.map (·.outcome h.layout)) := by
  induction rs generalizing h with
  | nil => rfl
  | cons r rs ih =>
    simp only [recordAll, r.run_eq, ih, applyAll_layout, List.flatMap_cons, List.map_cons,
      applyAll_append]

/-! ## Recordings in an accepted layout -/

namespace Recording

variable {L : Layout} {r : Recording}

/-- A recording changes only cells that there are. -/
theorem admits_of_mem_work {u : CellUpdate} (h : u ∈ r.work L) : L.Admits u := by
  cases r with
  | plain v n => exact Layout.admits_of_mem_work h
  | corrected v interval => exact Layout.admits_of_mem_workCorrected h

/-- If the value is covered, the sample and those held up behind it are recorded, one after the
other. -/
theorem work_corrected (hL : L.Shaped) {v : ℤ} (hv : L.Covers v) (interval : ℤ) :
    (corrected v interval).work L =
      (v :: heldUp (v - interval) interval).flatMap (L.work · 1) := by
  rw [work, Layout.workCorrected, List.flatMap_cons, Layout.work]
  rw [(Layout.recording_of_covers hL hv 1).2]
  dsimp only
  congr 1
  -- If there is no interval, or the value is not above it, nothing is held up behind the value.
  split
  · rw [heldUp_eq_nil (by omega), List.flatMap_nil]
  · exact Layout.workDown_of_covers hL (hv.sub (by omega))

/-- A recording is made exactly if the layout covers its value. -/
theorem outcome_eq_ok_iff (hL : L.Shaped) : r.outcome L = .ok () ↔ L.Covers r.value := by
  cases r with
  | plain v n =>
    show (L.recording v n).map (fun _ => ()) = .ok () ↔ L.Covers v
    by_cases hv : L.Covers v
    · simp [(Layout.recording_of_covers hL hv n).2, hv, Except.map]
    · obtain ⟨e, he⟩ := Layout.recording_of_not_covers hL hv n
      simp [he, hv, Except.map]
  | corrected v interval =>
    show L.outcomeCorrected v interval = .ok () ↔ L.Covers v
    by_cases hv : L.Covers v
    · rw [Layout.outcomeCorrected, (Layout.recording_of_covers hL hv 1).2, iff_true_right hv]
      dsimp only
      -- Once the first value is made, none of those held up is refused.
      split
      · rfl
      · exact Layout.outcomeDown_of_covers hL (hv.sub (by omega))
    · obtain ⟨e, he⟩ := Layout.recording_of_not_covers hL hv 1
      simp [Layout.outcomeCorrected, he, hv]

/-- A recording of a value that is not covered changes nothing. -/
theorem work_of_not_covers (hL : L.Shaped) (hv : ¬L.Covers r.value) : r.work L = [] := by
  cases r with
  | plain v n =>
    obtain ⟨e, he⟩ : ∃ e, L.recording v n = .error e := Layout.recording_of_not_covers hL hv n
    rw [work, Layout.work, he]
  | corrected v interval =>
    obtain ⟨e, he⟩ : ∃ e, L.recording v 1 = .error e := Layout.recording_of_not_covers hL hv 1
    rw [work, Layout.workCorrected, he]

/-- A recording that is refused leaves the histogram as it was. -/
theorem run_of_error {h : Histogram} (hL : h.layout.Shaped) {e : RecordError}
    (herror : (r.run h).2 = .error e) : (r.run h).1 = h := by
  have hv : ¬h.layout.Covers r.value := by
    rw [← outcome_eq_ok_iff hL, ← show (r.run h).2 = r.outcome h.layout by rw [run_eq], herror]
    simp
  rw [run_eq, work_of_not_covers hL hv]
  rfl

end Recording

end DynamicRange
