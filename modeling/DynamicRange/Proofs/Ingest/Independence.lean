import DynamicRange.Proofs.Ingest.Completion

/-!
# Ingestion does not depend on threads and intervals

A crew comes to what its lines come to when one thread ingests them, whatever the number of its
workers, the length of its intervals and its schedule (`Crew.schedule_ingested`). If all values can
be recorded, then that is one total, which has one sample for each line, and is the histogram into
which one was merged that has recorded all values. Else it is the error of one of the values that
cannot be recorded; with several of them, the schedule settles which one.

Which of the two it is does not depend on the number of lines. That the feeder returns, and what is
in the total, is for fewer than `2 ^ 63` lines: with more of them in one interval an epoch would
start over, and from `2 ^ 64` lines on no total could tell their number. There are schedules for
every crew (`Crew.exists_schedule`).
-/

namespace DynamicRange

open Histogram (ofLayout Gathers)

namespace Ingest

variable {b : Bounds} {L : Layout} {values : List ℤ} {total : Histogram}
  {result other : Except IngestError Histogram}

/-- A total has one sample of each of some values. -/
structure Complete (L : Layout) (values : List ℤ) (total : Histogram) : Prop where
  samples : total.total = values.length
  slots : ∀ i < L.slotCount,
    total.count? i = some (values.countP fun v => L.slotOf? v.toNat = some i)
  merged : total = ((ofLayout L .bits64).merge
    ((ofLayout L .bits64).recordAll (values.map (Recording.plain · 1))).1).1

/-- Some values come to a total if all of them can be recorded, which is complete if they are not
too many, or to the error of one that cannot be recorded. -/
def Ingested (L : Layout) (values : List ℤ) : Except IngestError Histogram → Prop
  | .ok total =>
    (∀ v ∈ values, 0 ≤ v ∧ (L.slotOf? v.toNat).isSome) ∧
      (values.length < 2 ^ 63 → Complete L values total)
  | .error e => ∃ v ∈ values, v < 0 ∧ e = .unrecordable .negative ∨
    0 ≤ v ∧ L.slotOf? v.toNat = none ∧ e = .unrecordable .outOfRange

/-- A total that gathers values that can all be recorded has one sample of each. -/
theorem complete_of_gathers (hbounds : Layout.ofBounds b = .ok L)
    (hvalues : ∀ v ∈ values, v ≤ topValue) (hfew : values.length < 2 ^ 63)
    (hcovers : ∀ v ∈ values, L.Covers v)
    (htotal : Gathers L .bits64 (L.samplesOf values) total) : Complete L values total := by
  have hsamples : L.samplesOf values = (values.map Int.toNat : List ℕ) :=
    Layout.samplesOf_of_covers hcovers
  have hlimit : CounterWidth.bits64.limit = 2 ^ 64 := rfl
  refine ⟨?_, fun i hi => ?_, ?_⟩
  · rw [htotal.total, hsamples]
    simp
  · have hsize : i < total.slots.size := by
      rw [htotal.reachable.consistent.size, htotal.layout]
      exact hi
    have hcount : total.count? i = some (total.count i) := by
      simp [Histogram.count?, Histogram.count, hsize]
    rw [hcount, htotal.count i hi, hsamples, Multiset.coe_countP, List.countP_map]
    rfl
  · -- The other histogram gathers the same samples.
    have hnone : Gathers L .bits64 (L.samplesOf 0) (ofLayout L .bits64) :=
      Histogram.ofLayout_gathers hbounds .bits64
    have hmerged := hnone.merge_recorded hbounds hvalues (by rw [Multiset.card_zero]; omega)
    rw [zero_add] at hmerged
    rw [Histogram.recordAll_eq, List.flatMap_map]
    exact htotal.unique hmerged

/-- The answers of some values are what they come to. -/
theorem Answers.ingested (hbounds : Layout.ofBounds b = .ok L)
    (hvalues : ∀ v ∈ values, v ≤ topValue) (hresult : Answers L values result) :
    Ingested L values result := by
  rcases result with e | total
  · obtain ⟨v, hv, reason, houtcome, rfl⟩ := hresult
    refine ⟨v, hv, ?_⟩
    unfold Layout.outcome Layout.recording at houtcome
    by_cases hsign : v < 0
    · rw [if_pos hsign] at houtcome
      cases houtcome
      exact .inl ⟨hsign, rfl⟩
    · rw [if_neg hsign] at houtcome
      rcases hslot : L.slotOf? v.toNat with _ | i
      · rw [hslot] at houtcome
        cases houtcome
        exact .inr ⟨not_lt.mp hsign, rfl, rfl⟩
      · rw [hslot] at houtcome
        cases houtcome
  · obtain ⟨hcovers, htotal⟩ := hresult
    refine ⟨fun v hv => ⟨(hcovers v hv).1, ?_⟩, fun hfew =>
      complete_of_gathers hbounds hvalues hfew hcovers (htotal hfew)⟩
    have hL := (Layout.ofBounds_precise hbounds).toShaped
    rw [Layout.isSome_slotOf?_iff hL, Int.toNat_of_nonneg (hcovers v hv).1]
    exact hcovers v hv

/-- Two answers of the same values agree on the total. -/
theorem Answers.eq_ok (hbounds : Layout.ofBounds b = .ok L) (hfew : values.length < 2 ^ 63)
    (hresult : Answers L values result) (hother : Answers L values other)
    (hok : result = .ok total) : other = .ok total := by
  subst hok
  have hL := (Layout.ofBounds_precise hbounds).toShaped
  rcases other with e | total'
  · obtain ⟨v, hv, reason, houtcome, -⟩ := hother
    have hcovered := (Recording.outcome_eq_ok_iff (r := .plain v 1) hL).mpr (hresult.1 v hv)
    cases houtcome.symm.trans hcovered
  · rw [(hother.2 hfew).unique (hresult.2 hfew)]

end Ingest

namespace Crew

open Ingest (Ingested)

variable {n : ℕ} {b : Bounds} {L : Layout} {values : List ℤ}

open Classical in
/-- A step of somebody, if there is one. -/
noncomputable def goOn (L : Layout) (interval : ℕ) (s : Crew n) : Crew n :=
  if h : ∃ s', Step L interval s s' then h.choose else s

/-- Every crew has a schedule. -/
theorem exists_schedule [NeZero n] (hbounds : Layout.ofBounds b = .ok L)
    {lines : List (List UInt8)} (hlines : List.Forall₂ Ingest.Bears lines values) (interval : ℕ) :
    ∃ run : ℕ → Crew n, Schedule L interval lines run := by
  have hmoves : ∀ s : Crew n, (∃ s', Step L interval s s') →
      Step L interval s (goOn L interval s) := by
    intro s hs
    rw [goOn, dif_pos hs]
    exact hs.choose_spec
  have hstep : ∀ s : Crew n, Step L interval s (goOn L interval s) ∨ goOn L interval s = s := by
    intro s
    by_cases hs : ∃ s', Step L interval s s'
    · exact .inl (hmoves s hs)
    · exact .inr (dif_neg hs)
  let run : ℕ → Crew n := fun k => (goOn L interval)^[k] (start L lines)
  have hnext : ∀ k, run (k + 1) = goOn L interval (run k) := fun k =>
    Function.iterate_succ_apply' ..
  have hreachable : ∀ k, (run k).Reachable L interval lines := by
    intro k
    induction k with
    | zero => exact .refl
    | succ k ih =>
      rw [hnext]
      rcases hstep (run k) with hmoved | hrest
      · exact ih.tail hmoved
      · rwa [hrest]
  refine ⟨run, rfl, fun k => ?_, fun k hk => ⟨k, le_rfl, fun heq => ?_⟩⟩
  · rw [hnext]
    exact hstep (run k)
  · have hlt := ((hreachable k).accounted hbounds hlines).cost_lt (hmoves (run k) hk)
    rw [← hnext, heq] at hlt
    exact lt_irrefl _ hlt

/-- However many workers there are, however long the intervals are and however the threads are
scheduled, the feeder returns nothing but what the values come to. Unless there are too many lines,
it does return, and it returns a total if and only if it is the total that is returned line by
line. -/
theorem schedule_ingested (hbounds : Layout.ofBounds b = .ok L) {bytes : List UInt8}
    (hlines : List.Forall₂ Ingest.Bears (Text.lines bytes) values) (writers interval : ℕ)
    {run : ℕ → Crew (max writers 1)} (hrun : Schedule L interval (Text.lines bytes) run) :
    (∀ k result, (run k).feeder = .returned result → Ingested L values result) ∧
      (values.length < 2 ^ 63 →
        (∃ k result, (run k).feeder = .returned result) ∧
          ∀ k result, (run k).feeder = .returned result →
            ∀ j, Ingested L values (Ingest.run b j bytes) ∧
              ∀ total, result = .ok total ↔ Ingest.run b j bytes = .ok total) := by
  have hvalues := Ingest.le_topValue_of_lines hlines
  have hworkers : NeZero (max writers 1) := ⟨by omega⟩
  have hanswers : ∀ k result, (run k).feeder = .returned result →
      Ingest.Answers L values result := by
    intro k result hreturned
    obtain ⟨rest, -, howes⟩ := ((hrun.reachable k).accounted hbounds hlines).sent
    simp only [Owes, hreturned] at howes
    exact howes
  refine ⟨fun k result hreturned => (hanswers k result hreturned).ingested hbounds hvalues,
    fun hfew => ⟨hrun.returns hbounds hlines hfew, fun k result hreturned j => ?_⟩⟩
  have hcrew := hanswers k result hreturned
  have hline := Ingest.run_answers hbounds hlines hfew j
  exact ⟨hline.ingested hbounds hvalues, fun total =>
    ⟨hcrew.eq_ok hbounds hfew hline, hline.eq_ok hbounds hfew hcrew⟩⟩

/-- Two lines with 7 on them, one of them ended by two bytes and one with blanks and a sign. -/
def sevens : List UInt8 := [0x37, 0x0D, 0x0A, 0x20, 0x2B, 0x37, 0x20, 0x0A]

/-- Two workers ingest two lines, with intervals of one line. -/
theorem sevens_ingested :
    Layout.ofBounds ⟨1, 100, 1⟩ = .ok ⟨⟨1, 100, 1⟩, 0, 4, 32, 16, 31, 3, 64⟩ ∧
      ∃ run : ℕ → Crew (max 2 1),
        Schedule ⟨⟨1, 100, 1⟩, 0, 4, 32, 16, 31, 3, 64⟩ 0 (Text.lines sevens) run ∧
          ∃ k total, (run k).feeder = .returned (.ok total) ∧ total.total = 2 ∧
            total.count? 7 = some 2 := by
  have hbounds : Layout.ofBounds ⟨1, 100, 1⟩ =
      .ok ⟨⟨1, 100, 1⟩, 0, 4, 32, 16, 31, 3, 64⟩ := by decide +kernel
  have hlines : List.Forall₂ Ingest.Bears (Text.lines sevens) [7, 7] :=
    .cons (by unfold Ingest.Bears; decide +kernel)
      (.cons (by unfold Ingest.Bears; decide +kernel) .nil)
  have hworkers : NeZero (max 2 1) := ⟨by decide⟩
  obtain ⟨run, hrun⟩ := exists_schedule (n := max 2 1) hbounds hlines 0
  obtain ⟨hall, hreturns⟩ := schedule_ingested hbounds hlines 2 0 hrun
  obtain ⟨⟨k, result, hreturned⟩, -⟩ := hreturns (by decide)
  have hingested := hall k result hreturned
  refine ⟨hbounds, run, hrun, k, ?_⟩
  rcases result with e | total
  · obtain ⟨v, hv, hlost⟩ := hingested
    have hslot : v = 7 := by simpa using hv
    rw [hslot] at hlost
    rcases hlost with ⟨hsign, -⟩ | ⟨-, hnone, -⟩
    · exact absurd hsign (by decide)
    · exact absurd hnone (by decide)
  · have hcomplete := hingested.2 (by decide)
    exact ⟨total, hreturned, hcomplete.samples,
      (hcomplete.slots 7 (by decide)).trans (by decide)⟩

end Crew

end DynamicRange
