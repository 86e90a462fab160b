import DynamicRange.Proofs.Recorder.Intervals

/-!
# The snapshots of a recorder

`Reachable.sampled` says what holds of the snapshots that were handed out, and of the one that is
held. There is one snapshot for every interval. It holds the whole work of all calls that looked up
its histogram, and its log names no call of a later interval. While it is held, it stays as it was
handed out, but for the cells that its owner clears.

Two kinds of steps have to do with it. A writer that changes a cell is not in the histogram that is
held, and when a flip is finished, the calls of all earlier intervals have made all of their
changes. Both follow from the phases of the writers inside.
-/

namespace DynamicRange

/-- A histogram after cells of it were cleared, the latest of which is the first. -/
def Histogram.clearAll (h : Histogram) (cells : List Cell) : Histogram :=
  cells.foldr (fun x g => g.clear x) h

namespace Traffic

variable {ω ρ : Type} {s s' : Traffic ω ρ} {h : Histogram} {L : Layout}

/-- What holds of the snapshots that were handed out, and of the one that is held. -/
structure Sampled (h : Histogram) (s : Traffic ω ρ) : Prop where
  intervals : s.samples.map (·.interval) = (List.range s.samples.length).reverse
  side : ∀ p ∈ s.samples, p.side = Side.nth p.interval
  contents : ∀ p ∈ s.samples,
    p.contents = ((Recorder.ofHistogram h).histogram p.side).replay p.log
  past : ∀ p ∈ s.samples, ∀ c u, .changed c u ∈ p.log → c.interval ≤ p.interval
  whole : ∀ p ∈ s.samples, ∀ c ∈ s.calls, c.interval ≤ p.interval → c.side = p.side →
    changesOf c p.log = c.work
  resets : ∀ n side x, .cleared n side x ∈ s.log → n < s.samples.length
  held : ∀ r pending, s.readers r = .holding pending → ∃ p ps, s.samples = p :: ps ∧
    p.side = s.recorder.inactive ∧
    s.recorder.snapshot = p.contents.clearAll (clearedIn p.interval s.log)

/-- The intervals of the snapshots are the first ones. -/
theorem Sampled.interval_lt (hsampled : s.Sampled h) {p : Sample} (hp : p ∈ s.samples) :
    p.interval < s.samples.length := by
  have hmem : p.interval ∈ s.samples.map (·.interval) := List.mem_map_of_mem hp
  rw [hsampled.intervals] at hmem
  simpa using hmem

/-- The latest snapshot is of the latest interval. -/
theorem Sampled.interval_head (hsampled : s.Sampled h) {p : Sample} {ps : List Sample}
    (hsamples : s.samples = p :: ps) : p.interval + 1 = s.samples.length := by
  have hintervals := hsampled.intervals
  rw [hsamples, List.length_cons, List.range_succ, List.reverse_append] at hintervals
  have hhead : p.interval = ps.length := by simpa using (List.cons.inj hintervals).1
  rw [hsamples, List.length_cons, hhead]

/-- There is a snapshot of every interval before the latest. -/
theorem Sampled.exists_interval (hsampled : s.Sampled h) {n : ℕ} (hn : n < s.samples.length) :
    ∃ p ∈ s.samples, p.interval = n := by
  have hmem : n ∈ s.samples.map (·.interval) := by
    rw [hsampled.intervals]
    simpa using hn
  simpa using hmem

/-- Nothing is cleared in a snapshot before it is handed out. -/
theorem Sampled.clearedIn_eq_nil (hsampled : s.Sampled h) :
    clearedIn s.samples.length s.log = [] := by
  unfold clearedIn
  rw [List.filterMap_eq_nil_iff]
  intro x hx
  cases x with
  | changed => rfl
  | cleared n side x =>
    have hlt := hsampled.resets n side x hx
    simp [Touch.cell?, hlt.ne]

/-- No two snapshots are of the same interval. -/
theorem Sampled.nodup (hsampled : s.Sampled h) : (s.samples.map (·.interval)).Nodup := by
  rw [hsampled.intervals, List.nodup_reverse]
  exact List.nodup_range

variable [DecidableEq ρ] {r : ρ}

/-- A reader that goes on to something other than a snapshot holds none. -/
theorem holding_of_turn {x : Sampler} (hx : ∀ pending, x ≠ .holding pending) {q : ρ}
    {pending : List Cell} (hq : (s.turn r x).readers q = .holding pending) :
    s.readers q = .holding pending := by
  rcases update_cases hq with ⟨-, hnew⟩ | ⟨-, hold⟩
  · exact absurd hnew (hx pending)
  · exact hold

variable [DecidableEq ω]

/-- A writer inside is not in a histogram that a reader holds. -/
theorem Reachable.side_ne_of_holding [Fintype ω] (hs : s.Reachable h) (hb : s.Unwrapped)
    {pending : List Cell} (hr : s.readers r = .holding pending) {w : ω} {t : Ticket} {c : Call}
    {rest : List CellUpdate} (hw : s.writers w = .inside t c rest) :
    c.side ≠ s.recorder.inactive := by
  have hquiet := hs.quiet hb (r := r) (.inl (by rw [hr]; rfl))
  have hpace := hs.paced.of_readers_eq hr
  rw [(hs.side_of_quiet hquiet hpace.1 hw).2, hs.paced.opposite]
  exact Side.other_ne _

/-- The snapshot that is handed out next is of the interval after those of all others. -/
theorem Reachable.sample_interval (hs : s.Reachable h) (hr : s.readers r = .flipping .finished) :
    s.sample.interval = s.samples.length := by
  have hpace := hs.paced.of_readers_eq hr
  show s.swaps - 1 = s.samples.length
  rw [← hpace.2, Nat.add_sub_cancel]

/-- Handing out a snapshot keeps what holds of the snapshots: no writer is left in it. -/
theorem Sampled.handOut [Fintype ω] (hsampled : s.Sampled h) (hs : s.Reachable h)
    (hb : s.Unwrapped) (hr : s.readers r = .flipping .finished) : (s.handOut r).Sampled h := by
  have hquiet := hs.quiet hb (r := r) (.inr (by rw [hr]; rfl))
  obtain ⟨hpace, hlength⟩ := hs.paced.of_readers_eq hr
  have hinterval := hs.sample_interval hr
  have hside : s.recorder.inactive = Side.nth s.samples.length := by
    rw [hs.paced.inactive, ← hlength, Side.nth_succ, Side.other_other]
  -- A call that found this histogram active did so before it was swapped out.
  have hbefore : ∀ c ∈ s.calls, c.side = s.recorder.inactive → c.interval ≤ s.samples.length := by
    intro c hc hcs
    obtain ⟨-, hle, hcside⟩ := hs.booked.call c hc
    have hne : c.interval ≠ s.swaps := by
      intro heq
      rw [hcs, heq, hs.paced.inactive] at hcside
      exact Side.other_ne _ hcside
    omega
  -- In each part, the new snapshot stands before the old ones, for which nothing changes.
  refine ⟨?_, ?_, ?_, ?_, ?_, ?_, ?_⟩
  · show s.sample.interval :: s.samples.map _ = (List.range (s.samples.length + 1)).reverse
    rw [hinterval, hsampled.intervals, List.range_succ, List.reverse_append]
    rfl
  · intro p hp
    rcases List.mem_cons.mp hp with rfl | hold
    · rw [hinterval]
      exact hside
    · exact hsampled.side p hold
  · intro p hp
    rcases List.mem_cons.mp hp with rfl | hold
    · exact hs.histogram_eq _
    · exact hsampled.contents p hold
  · intro p hp c u hmem
    rcases List.mem_cons.mp hp with rfl | hold
    · obtain ⟨hlog, hcside⟩ := List.mem_filter.mp hmem
      rw [hinterval]
      exact hbefore c (hs.booked.logged c u hlog) (of_decide_eq_true hcside)
    · exact hsampled.past p hold c u hmem
  · intro p hp c hc hle hcs
    rcases List.mem_cons.mp hp with rfl | hold
    · refine (changesOf_filter hcs s.log).trans ?_
      rcases hs.booked.settled c hc with ⟨w, t, rest, hw⟩ | hwork
      · -- A writer inside would have looked up the other histogram.
        have hcall := (hs.side_of_quiet hquiet hpace hw).1
        rw [hinterval] at hle
        omega
      · exact hwork
    · exact hsampled.whole p hold c hc hle hcs
  · intro n side x hmem
    exact (hsampled.resets n side x hmem).trans (Nat.lt_succ_self _)
  · intro q pending hq
    refine ⟨s.sample, s.samples, rfl, rfl, ?_⟩
    show s.recorder.snapshot = s.recorder.snapshot.clearAll (clearedIn s.sample.interval s.log)
    rw [hinterval, hsampled.clearedIn_eq_nil]
    rfl

/-- Clearing a cell of a snapshot keeps what holds of the snapshots. -/
theorem Sampled.clear (hsampled : s.Sampled h) (hs : s.Reachable h) {x : Cell} {rest : List Cell}
    (hr : s.readers r = .holding (x :: rest)) : (s.clear r x rest).Sampled h := by
  obtain ⟨p, ps, hsamples, hside, hheld⟩ := hsampled.held r _ hr
  have hhead := hsampled.interval_head hsamples
  obtain ⟨-, hlength⟩ := hs.paced.of_readers_eq hr
  refine ⟨hsampled.intervals, hsampled.side, hsampled.contents, hsampled.past, hsampled.whole,
    ?_, ?_⟩
  · intro n side y hmem
    rcases List.mem_cons.mp hmem with heq | hold
    · cases heq
      show s.swaps - 1 < s.samples.length
      omega
    · exact hsampled.resets n side y hold
  · intro q pending _
    refine ⟨p, ps, hsamples, hside.trans (Recorder.inactive_modify ..).symm, ?_⟩
    have hsnapshot : (s.clear r x rest).recorder.snapshot = s.recorder.snapshot.clear x := by
      show (s.recorder.modify _ _).1.snapshot = _
      rw [Recorder.snapshot_modify, if_pos rfl]
      rfl
    have hcleared : clearedIn p.interval (s.clear r x rest).log =
        x :: clearedIn p.interval s.log := by
      show clearedIn p.interval (.cleared (s.swaps - 1) _ x :: s.log) = _
      rw [clearedIn_cons, Touch.cell?, if_pos (by omega)]
      rfl
    rw [hsnapshot, hcleared, hheld]
    rfl

/-- Steps keep what holds of the snapshots. -/
theorem Sampled.step [Fintype ω] (hsampled : s.Sampled h) (hs : s.Reachable h) (hb : s.Unwrapped)
    (hstep : Step L s s') : s'.Sampled h := by
  obtain ⟨hintervals, hside, hcontents, hpast, hwhole, hresets, hheld⟩ := id hsampled
  cases hstep with
  | enter | leave =>
    refine ⟨hintervals, hside, hcontents, hpast, hwhole, hresets, fun q pending hq => ?_⟩
    obtain ⟨p, ps, hsamples, hp, hsnapshot⟩ := hheld q pending hq
    exact ⟨p, ps, hsamples, hp, (Recorder.histogram_withPhaser ..).trans hsnapshot⟩
  | @lookUp w t work hentered =>
    refine ⟨hintervals, hside, hcontents, hpast, fun p hp c hc hle hcs => ?_, hresets, hheld⟩
    rcases List.mem_cons.mp hc with rfl | hold
    · -- The new call is of a later interval than all snapshots.
      have hlt := hsampled.interval_lt hp
      have hcount := hs.counts_le.2
      have hnow : s.swaps ≤ p.interval := hle
      omega
    · exact hwhole p hp c hold hle hcs
  | @change w t c u rest hinside =>
    refine ⟨hintervals, hside, hcontents, hpast, hwhole, ?_, fun q pending hq => ?_⟩
    · intro n side x hmem
      exact hresets n side x (by simpa [change] using hmem)
    · obtain ⟨p, ps, hsamples, hp, hsnapshot⟩ := hheld q pending hq
      refine ⟨p, ps, hsamples, hp.trans (Recorder.inactive_modify ..).symm, ?_⟩
      -- The writer is in the active histogram.
      have hne := hs.side_ne_of_holding hb hq hinside
      show (s.recorder.modify _ _).1.snapshot = _
      rw [Recorder.snapshot_modify, if_neg hne.symm]
      exact hsnapshot
  | @acquire r haway hfree =>
    exact ⟨hintervals, hside, hcontents, hpast, hwhole, hresets,
      fun q pending hq => hheld q pending (holding_of_turn (by simp) hq)⟩
  | @swap r hlocked =>
    refine ⟨hintervals, hside, hcontents, hpast, hwhole, hresets, fun q pending hq => ?_⟩
    -- No other reader holds a snapshot.
    have hq := holding_of_turn (by simp) hq
    have heq : r = q := hs.reader_unique (by simp [hlocked]) (by simp [hq])
    rw [← heq, hlocked] at hq
    cases hq
  | @advance r f hflipping _ =>
    refine ⟨hintervals, hside, hcontents, hpast, hwhole, hresets, fun q pending hq => ?_⟩
    obtain ⟨p, ps, hsamples, hp, hsnapshot⟩ := hheld q pending (holding_of_turn (by simp) hq)
    exact ⟨p, ps, hsamples, hp, (Recorder.histogram_withPhaser ..).trans hsnapshot⟩
  | handOut hfinished => exact hsampled.handOut hs hb hfinished
  | @reset r hholding =>
    exact ⟨hintervals, hside, hcontents, hpast, hwhole, hresets,
      fun q pending _ => hheld r [] hholding⟩
  | clear hholding => exact hsampled.clear hs hholding
  | @drop r hholding =>
    exact ⟨hintervals, hside, hcontents, hpast, hwhole, hresets,
      fun q pending hq => hheld q pending (holding_of_turn (by simp) hq)⟩

/-- What holds of the snapshots holds in every run whose epochs do not start over. -/
theorem Reachable.sampled [Fintype ω] (hs : s.Reachable h) (hb : s.Unwrapped) : s.Sampled h := by
  induction hs with
  | refl => constructor <;> simp [start]
  | tail hreach hstep ih =>
    have hbefore := hstep.unwrapped hb
    exact (ih hbefore).step hreach hbefore hstep

end Traffic

end DynamicRange
