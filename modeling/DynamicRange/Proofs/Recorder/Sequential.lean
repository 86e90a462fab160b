import DynamicRange.Proofs.Recorder.Phases

/-!
# Updates and samples that nobody interrupts

The steps of the traffic are those into which the operations of a recorder fall. When no other
thread gets in between, the steps of one thread lead to just what the operation gives: the update
of a writer (`update_run`), so its recordings (`record_run`, `recordCorrected_run`), the sample of
a reader for which no writer is left to wait (`sample_run`), and the reset of a snapshot
(`reset_run`).
-/

namespace DynamicRange

namespace Recorder

variable {α β : Type} (r : Recorder) (side : Side)

/-- Two changes on one side are one. -/
theorem modify_modify (f g : Histogram → Histogram) :
    ((r.modify side fun h => (f h, ())).1.modify side fun h => (g h, ())).1 =
      (r.modify side fun h => (g (f h), ())).1 := by
  cases side <;> rfl

/-- A change that changes nothing. -/
theorem modify_id : (r.modify side fun h => (h, ())).1 = r := by cases side <;> rfl

/-- What becomes of a recorder depends on what becomes of the histogram that is changed. -/
theorem modify_congr {r : Recorder} {side : Side} {f : Histogram → Histogram × α}
    {g : Histogram → Histogram × β}
    (hfg : (f (r.histogram side)).1 = (g (r.histogram side)).1) :
    (r.modify side f).1 = (r.modify side g).1 := by
  obtain ⟨phaser, active, inactive, left, right⟩ := r
  cases side with
  | left => exact congrArg (Recorder.mk phaser active inactive · right) hfg
  | right => exact congrArg (Recorder.mk phaser active inactive left ·) hfg

/-- Updates that change the active histogram alike lead to the same recorder. -/
theorem update_congr {r : Recorder} {f : Histogram → Histogram × α} {g : Histogram → Histogram × β}
    (hfg : (f (r.histogram r.active)).1 = (g (r.histogram r.active)).1) :
    (r.update f).1 = (r.update g).1 := by
  have hentered : r.enter.2.histogram r.active = r.histogram r.active := histogram_withPhaser ..
  rw [← hentered] at hfg
  exact congrArg (Recorder.leave · r.enter.1) (modify_congr hfg)

end Recorder

namespace Traffic

variable {ω ρ : Type} {s : Traffic ω ρ} {L : Layout} [DecidableEq ω] [DecidableEq ρ] {w : ω} {r : ρ}

/-- A writer can make the rest of its changes. -/
theorem change_run {t : Ticket} {c : Call} {us : List CellUpdate}
    (hw : s.writers w = .inside t c us) :
    ∃ s', Relation.ReflTransGen (Step L) s s' ∧ s'.writers w = .inside t c [] ∧
      s'.recorder = (s.recorder.modify c.side fun h => (h.applyAll us, ())).1 := by
  induction us generalizing s with
  | nil => exact ⟨s, .refl, hw, (s.recorder.modify_id c.side).symm⟩
  | cons u us ih =>
    have hnext : (s.change w t c u us).writers w = .inside t c us := by simp [change]
    obtain ⟨s', hrun, hw', hrecorder⟩ := ih hnext
    refine ⟨s', .head (.change hw) hrun, hw', ?_⟩
    rw [hrecorder]
    exact Recorder.modify_modify ..

/-- A writer can run an update that makes some changes, and gets what the update gives. -/
theorem update_run (work : List CellUpdate) (hw : s.writers w = .outside)
    (hwork : ∀ u ∈ work, L.Admits u) :
    ∃ s', Relation.ReflTransGen (Step L) s s' ∧ s'.writers w = .outside ∧
      s'.recorder = (s.recorder.update fun h => (h.applyAll work, ())).1 := by
  have hentered : (s.enter w work).writers w = .entered s.ticket work := by simp [enter]
  have hinside : ((s.enter w work).lookUp w s.ticket work).writers w =
      .inside s.ticket ((s.enter w work).call work) work := by simp [lookUp]
  obtain ⟨s', hrun, hw', hrecorder⟩ := change_run (L := L) hinside
  refine ⟨s'.leave w s.ticket, .tail (.head (.enter hw hwork) (.head (.lookUp hentered) hrun))
    (.leave hw'), by simp [leave], ?_⟩
  show s'.recorder.leave _ = _
  rw [hrecorder]
  rfl

/-- A writer can record samples of one value. -/
theorem record_run (hw : s.writers w = .outside)
    (hlayout : (s.recorder.histogram s.recorder.active).layout = L) (v : ℤ) (n : ℕ) :
    ∃ s', Relation.ReflTransGen (Step L) s s' ∧ s'.writers w = .outside ∧
      s'.recorder = (s.recorder.record v n).1 := by
  obtain ⟨s', hrun, hw', hrecorder⟩ :=
    update_run (L.work v n) hw fun _ => Layout.admits_of_mem_work
  refine ⟨s', hrun, hw', hrecorder.trans (Recorder.update_congr ?_)⟩
  rw [Histogram.record_eq, hlayout]

/-- A writer can record a sample with those that were held up behind it. -/
theorem recordCorrected_run (hw : s.writers w = .outside)
    (hlayout : (s.recorder.histogram s.recorder.active).layout = L) (v interval : ℤ) :
    ∃ s', Relation.ReflTransGen (Step L) s s' ∧ s'.writers w = .outside ∧
      s'.recorder = (s.recorder.recordCorrected v interval).1 := by
  obtain ⟨s', hrun, hw', hrecorder⟩ :=
    update_run (L.workCorrected v interval) hw fun _ => Layout.admits_of_mem_workCorrected
  refine ⟨s', hrun, hw', hrecorder.trans (Recorder.update_congr ?_)⟩
  rw [Histogram.recordCorrected_eq, hlayout]

/-- The flip of a reader can take some steps. -/
theorem advance_run {f : Flip} (hr : s.readers r = .flipping f) (n : ℕ) :
    ∃ s', Relation.ReflTransGen (Step L) s s' ∧
      s'.readers r = .flipping (Flip.steps s.recorder.phaser f n).2 ∧
      s'.recorder = { s.recorder with phaser := (Flip.steps s.recorder.phaser f n).1 } := by
  induction n generalizing s f with
  | zero => exact ⟨s, .refl, hr, rfl⟩
  | succ n ih =>
    rcases eq_or_ne f .finished with rfl | hf
    · -- A finished flip goes nowhere.
      exact ih hr
    · have hnext : (s.advance r f).readers r = .flipping (f.step s.recorder.phaser).2 := by
        simp [advance, turn]
      obtain ⟨s', hrun, hr', hrecorder⟩ := ih hnext
      exact ⟨s', .head (.advance hr hf) hrun, hr', hrecorder⟩

/-- A reader can take a sample, if its flip has no writer to wait for. -/
theorem sample_run (hr : s.readers r = .away) (hfree : s.lock = none)
    (hdrained : s.recorder.phaser.flip.2 = .finished) :
    ∃ s', Relation.ReflTransGen (Step L) s s' ∧ s'.readers r = .holding [] ∧
      s'.recorder = s.recorder.sample := by
  have hlocked : (s.acquire r).readers r = .locked := by simp [acquire, turn]
  have hswapped : ((s.acquire r).swap r).readers r = .flipping .choosing := by simp [swap, turn]
  obtain ⟨s', hrun, hr', hrecorder⟩ := advance_run (L := L) hswapped 4
  have hfinished : s'.readers r = .flipping .finished := by
    rw [hr']
    exact congrArg Sampler.flipping hdrained
  refine ⟨s'.handOut r, .tail (.head (.acquire hr hfree) (.head (.swap hlocked) hrun))
    (.handOut hfinished), by simp [handOut, turn], ?_⟩
  exact hrecorder

/-- A reader can clear the cells that it is to clear. -/
theorem clear_run {cells : List Cell} (hr : s.readers r = .holding cells) :
    ∃ s', Relation.ReflTransGen (Step L) s s' ∧ s'.readers r = .holding [] ∧
      s'.recorder =
        (s.recorder.modify s.recorder.inactive fun h => (cells.foldl Histogram.clear h, ())).1 := by
  induction cells generalizing s with
  | nil => exact ⟨s, .refl, hr, (s.recorder.modify_id _).symm⟩
  | cons x cells ih =>
    have hnext : (s.clear r x cells).readers r = .holding cells := by simp [clear, turn]
    obtain ⟨s', hrun, hr', hrecorder⟩ := ih hnext
    refine ⟨s', .head (.clear hr) hrun, hr', ?_⟩
    rw [hrecorder, show (s.clear r x cells).recorder.inactive = s.recorder.inactive from
      Recorder.inactive_modify ..]
    exact Recorder.modify_modify ..

/-- A reader can reset its snapshot. -/
theorem reset_run {width : CounterWidth} (hr : s.readers r = .holding [])
    (hframed : Histogram.Framed L width s.recorder.snapshot) :
    ∃ s', Relation.ReflTransGen (Step L) s s' ∧ s'.readers r = .holding [] ∧
      s'.recorder = (s.recorder.modify s.recorder.inactive fun h => (h.reset, ())).1 := by
  have hnext : (s.turn r (.holding L.cells)).readers r = .holding L.cells := by simp [turn]
  obtain ⟨s', hrun, hr', hrecorder⟩ := clear_run (L := L) hnext
  exact ⟨s', .head (.reset hr) hrun, hr',
    hrecorder.trans (Recorder.modify_congr (Histogram.clear_cells hframed))⟩

end Traffic

end DynamicRange
