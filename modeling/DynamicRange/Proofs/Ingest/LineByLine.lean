import DynamicRange.Ingest
import DynamicRange.Proofs.Histogram.Gathering
import DynamicRange.Proofs.Recorder.Sequential

/-!
# Lines ingested one by one

When all lines bear values, the values decide what comes of them, and the intervals do not matter: a
total that gathers the values, or the error of one that cannot be recorded (`Ingest.run_answers`).
After each line the active histogram holds the values of the interval, the other one is empty, and
the total gathers all values before (`Ingest.Holds`).
-/

namespace DynamicRange

open Histogram (ofLayout Gathers)

namespace Recorder

variable {α : Type}

/-- An update changes the active histogram, and answers for it. -/
theorem update_spec (r : Recorder) (f : Histogram → Histogram × α) :
    (r.update f).1.active = r.active ∧ (r.update f).1.inactive = r.inactive ∧
      (∀ side, (r.update f).1.histogram side =
        if side = r.active then (f (r.histogram r.active)).1 else r.histogram side) ∧
      (r.update f).2 = (f (r.histogram r.active)).2 := by
  obtain ⟨phaser, active, inactive, left, right⟩ := r
  cases active
  · exact ⟨rfl, rfl, fun side => by cases side <;> rfl, rfl⟩
  · exact ⟨rfl, rfl, fun side => by cases side <;> rfl, rfl⟩

/-- A collection adds the histogram that was active to the total and resets it, and goes on with the
other one. -/
theorem collect_spec {r : Recorder} (hsides : r.active ≠ r.inactive) (total : Histogram) :
    (r.collect total).1.active = r.inactive ∧ (r.collect total).1.inactive = r.active ∧
      (r.collect total).1.histogram r.inactive = r.snapshot ∧
      (r.collect total).1.histogram r.active = (r.histogram r.active).reset ∧
      (r.collect total).2.1 = (total.merge (r.histogram r.active)).1 := by
  obtain ⟨phaser, active, inactive, left, right⟩ := r
  cases active <;> cases inactive
  · exact absurd rfl hsides
  · exact ⟨rfl, rfl, rfl, rfl, rfl⟩
  · exact ⟨rfl, rfl, rfl, rfl, rfl⟩
  · exact absurd rfl hsides

end Recorder

namespace Ingest

variable {b : Bounds} {L : Layout} {s : Ingest} {r : Recorder} {total : Histogram}
  {line : List UInt8} {lines : List (List UInt8)} {v : ℤ}
  {values collected current rest : List ℤ}

/-! ## Lines that bear values -/

/-- A line bears a value. -/
def Bears (line : List UInt8) (v : ℤ) : Prop :=
  ((Text.decode? line).bind fun text => Text.value? (Text.trim text)) = some v

/-- The value that a line bears is read off it. -/
theorem Bears.valueOn (hline : Bears line v) (number : ℕ) : Ingest.valueOn number line = .ok v := by
  obtain ⟨text, htext, hvalue⟩ := Option.bind_eq_some_iff.mp hline
  simp [Ingest.valueOn, htext, hvalue]

/-- No line bears a number beyond the values. -/
theorem Bears.le_topValue (hline : Bears line v) : v ≤ topValue := by
  obtain ⟨text, -, hvalue⟩ := Option.bind_eq_some_iff.mp hline
  obtain ⟨-, hrange⟩ := Option.filter_eq_some_iff.mp hvalue
  simp only [Bool.and_eq_true, decide_eq_true_eq] at hrange
  exact hrange.2

/-- The values on some lines are none beyond the values that there are. -/
theorem le_topValue_of_lines (hlines : List.Forall₂ Bears lines values) :
    ∀ v ∈ values, v ≤ topValue := by
  induction hlines with
  | nil => exact fun v hv => absurd hv List.not_mem_nil
  | cons hline _ ih => exact List.forall_mem_cons.mpr ⟨hline.le_topValue, ih⟩

/-- What may come of some values: if all of them can be recorded, a total, which gathers them if
they are not too many, and else the error of one that cannot be recorded. -/
def Answers (L : Layout) (values : List ℤ) : Except IngestError Histogram → Prop
  | .ok total =>
    (∀ v ∈ values, L.Covers v) ∧
      (values.length < 2 ^ 63 → Gathers L .bits64 (L.samplesOf values) total)
  | .error e => ∃ v ∈ values, ∃ reason, L.outcome v 1 = .error reason ∧ e = .unrecordable reason

/-! ## One line after the other -/

/-- The values of the current interval are in the active histogram, and those before in the
total. -/
structure Holds (L : Layout) (collected current : List ℤ) (r : Recorder) (total : Histogram) :
    Prop where
  sides : r.active ≠ r.inactive
  active : r.histogram r.active = (ofLayout L .bits64).applyAll (current.flatMap (L.work · 1))
  inactive : r.snapshot = ofLayout L .bits64
  total : Gathers L .bits64 (L.samplesOf collected) total

/-- A value is recorded into the active histogram, or cannot be recorded. -/
theorem Holds.record (hr : Holds L collected current r total) (v : ℤ) :
    Holds L collected (current ++ [v]) (r.record v 1).1 total ∧
      (r.record v 1).2 = L.outcome v 1 := by
  obtain ⟨hactive, hinactive, hhistogram, houtcome⟩ := r.update_spec (·.record v 1)
  have hlayout : (r.histogram r.active).layout = L := by
    rw [hr.active, Histogram.applyAll_layout]
    rfl
  unfold Recorder.record
  refine ⟨⟨?_, ?_, ?_, hr.total⟩, ?_⟩
  · rw [hactive, hinactive]
    exact hr.sides
  · rw [hactive, hhistogram, if_pos rfl, Histogram.record_eq, hlayout, hr.active,
      List.flatMap_append, Histogram.applyAll_append]
    simp
  · rw [Recorder.snapshot, hinactive, hhistogram, if_neg hr.sides.symm]
    exact hr.inactive
  · rw [houtcome, Histogram.record_outcome, hlayout]

/-- A collection moves the values of the interval to the total. -/
theorem Holds.collect (hbounds : Layout.ofBounds b = .ok L)
    (hr : Holds L collected current r total) (hcurrent : ∀ v ∈ current, v ≤ topValue)
    (hfew : (collected ++ current).length < 2 ^ 63) :
    Holds L (collected ++ current) [] (r.collect total).1 (r.collect total).2.1 := by
  obtain ⟨hactive, hinactive, hnext, hreset, htotal⟩ := Recorder.collect_spec hr.sides total
  have hlimit : CounterWidth.bits64.limit = 2 ^ 64 := rfl
  rw [List.length_append] at hfew
  refine ⟨?_, ?_, ?_, ?_⟩
  · rw [hactive, hinactive]
    exact hr.sides.symm
  · rw [hactive, hnext]
    exact hr.inactive
  · rw [Recorder.snapshot, hinactive, hreset, hr.active]
    exact Histogram.reset_recorded hbounds hcurrent (by omega)
  · rw [htotal, hr.active, ← Multiset.coe_add]
    exact hr.total.merge_recorded hbounds hcurrent (by rw [Multiset.coe_card]; omega)

/-- A line is ingested, unless its value cannot be recorded. -/
theorem Holds.readLine (hbounds : Layout.ofBounds b = .ok L)
    (hs : Holds L collected current s.recorder s.total)
    (hcurrent : ∀ x ∈ current ++ [v], x ≤ (topValue : ℤ))
    (hfew : (collected ++ (current ++ [v])).length < 2 ^ 63) (hline : Bears line v)
    (interval : ℕ) :
    (∃ reason, L.outcome v 1 = .error reason ∧
      Ingest.readLine interval s line = .error (.unrecordable reason)) ∨
    L.outcome v 1 = .ok () ∧ ∃ s' collected' current',
      Ingest.readLine interval s line = .ok s' ∧
        Holds L collected' current' s'.recorder s'.total ∧
        collected' ++ current' = collected ++ (current ++ [v]) := by
  obtain ⟨recorder, total, number⟩ := s
  obtain ⟨hnext, houtcome⟩ := hs.record v
  rcases hrecord : recorder.record v 1 with ⟨r, reason | ⟨⟩⟩
  · rw [hrecord] at houtcome
    refine .inl ⟨reason, houtcome.symm, ?_⟩
    simp only [Ingest.readLine, hline.valueOn, bind, Except.bind, hrecord]
    rfl
  · rw [hrecord] at houtcome hnext
    refine .inr ⟨houtcome.symm, ?_⟩
    have hread : Ingest.readLine interval ⟨recorder, total, number⟩ line =
        .ok (if (number + 1) % Nat.max interval 1 = 0 then
          Ingest.collect ⟨r, total, number + 1⟩ else ⟨r, total, number + 1⟩) := by
      simp only [Ingest.readLine, hline.valueOn, bind, Except.bind, hrecord]
      rfl
    by_cases hlast : (number + 1) % Nat.max interval 1 = 0
    · rw [if_pos hlast] at hread
      exact ⟨_, _, _, hread, hnext.collect hbounds hcurrent hfew, List.append_nil _⟩
    · rw [if_neg hlast] at hread
      exact ⟨_, _, _, hread, hnext, rfl⟩

/-- What comes of the lines that are left, when some values are held. -/
theorem Holds.foldlM_answers (hbounds : Layout.ofBounds b = .ok L)
    (hlines : List.Forall₂ Bears lines rest) (interval : ℕ)
    (hs : Holds L collected current s.recorder s.total)
    (hcovers : ∀ v ∈ collected ++ current, L.Covers v)
    (hvalues : ∀ v ∈ collected ++ current ++ rest, v ≤ topValue)
    (hfew : (collected ++ current ++ rest).length < 2 ^ 63) :
    Answers L (collected ++ current ++ rest)
      ((lines.foldlM (Ingest.readLine interval) s).map (·.collect.total)) := by
  induction hlines generalizing s collected current with
  | nil =>
    simp only [List.append_nil] at hvalues hfew ⊢
    refine ⟨hcovers, fun _ => (hs.collect hbounds (fun v hv => ?_) hfew).total⟩
    exact hvalues v (List.mem_append_right _ hv)
  | @cons line v lines rest hline hlines ih =>
    have hsplit : collected ++ current ++ v :: rest = collected ++ (current ++ [v]) ++ rest := by
      simp
    rw [hsplit] at hvalues hfew ⊢
    have hcurrent : ∀ x ∈ current ++ [v], x ≤ (topValue : ℤ) := fun x hx =>
      hvalues x (List.mem_append_left _ (List.mem_append_right _ hx))
    have hheld : (collected ++ (current ++ [v])).length < 2 ^ 63 := by
      rw [List.length_append] at hfew
      omega
    rw [List.foldlM_cons]
    rcases hs.readLine hbounds hcurrent hheld hline interval with
      ⟨reason, houtcome, hread⟩ | ⟨houtcome, s', collected', current', hread, hnext, hall⟩
    · rw [hread]
      exact ⟨v, by simp, reason, houtcome, rfl⟩
    · rw [hread, ← hall]
      rw [← hall] at hvalues hfew
      refine ih hnext (fun x hx => ?_) hvalues hfew
      have hL := (Layout.ofBounds_precise hbounds).toShaped
      have hv : L.Covers v := (Recording.outcome_eq_ok_iff (r := .plain v 1) hL).mp houtcome
      rw [hall, ← List.append_assoc] at hx
      rcases List.mem_append.mp hx with hold | hnew
      · exact hcovers x hold
      · rwa [List.mem_singleton.mp hnew]

/-- Whatever the interval, the values on the lines decide what comes of them. -/
theorem run_answers (hbounds : Layout.ofBounds b = .ok L) {bytes : List UInt8}
    (hlines : List.Forall₂ Bears (Text.lines bytes) values) (hfew : values.length < 2 ^ 63)
    (interval : ℕ) : Answers L values (Ingest.run b interval bytes) := by
  have hrun : Ingest.run b interval bytes =
      ((Text.lines bytes).foldlM (Ingest.readLine interval)
        ⟨.ofHistogram (ofLayout L .bits64), ofLayout L .bits64, 0⟩).map (·.collect.total) := by
    simp only [Ingest.run, Recorder.ofBounds, Histogram.ofBounds, hbounds]
    rfl
  have hstart : Holds L [] [] (Recorder.ofHistogram (ofLayout L .bits64)) (ofLayout L .bits64) :=
    ⟨Side.noConfusion, rfl, rfl, Histogram.ofLayout_gathers hbounds .bits64⟩
  rw [hrun]
  exact hstart.foldlM_answers hbounds hlines interval (s := ⟨_, _, 0⟩)
    (fun v hv => absurd hv List.not_mem_nil) (le_topValue_of_lines hlines) hfew

end Ingest

end DynamicRange
