import DynamicRange.Proofs.Recorder.Samples

/-!
# A snapshot is exclusive, and an exact cut

`reachable_cut` says what a reader holds from the moment a sample is handed out to it until it
drops it, however writers and readers are interleaved: a histogram that no writer can reach, with
the whole work of all calls that looked up the active histogram before the swap of the sample and
found this one, and with nothing of any later call.

A call comes before the swap of a sample exactly if its interval is not greater than that of the
sample, since both count the swaps that went before.
-/

namespace DynamicRange

namespace Traffic

variable {ω ρ : Type} {s s' : Traffic ω ρ} {h : Histogram} {L : Layout}
variable [DecidableEq ω] [DecidableEq ρ] {r : ρ}

/-- What a reader is owed that holds a snapshot, in a run that began with the samples of `h`. -/
structure Cut (h : Histogram) (s : Traffic ω ρ) (r : ρ) (p : Sample) : Prop where
  /-- The snapshot is the latest one, and the histograms have not been swapped again. -/
  latest : s.samples.head? = some p ∧ p.interval + 1 = s.swaps
  /-- It is not the active histogram. -/
  inactive : s.recorder.inactive = p.side
  /-- No other reader holds a snapshot, or the lock. -/
  alone : ∀ q, s.readers q ≠ .away → q = r
  /-- No writer inside has found this histogram. -/
  apart : ∀ w t c rest, s.writers w = .inside t c rest → c.side ≠ p.side
  /-- A step of a writer leaves the histogram as it is. -/
  steady : ∀ s', Step h.layout s s' → s'.readers = s.readers →
    s'.recorder.snapshot = s.recorder.snapshot
  /-- It is as it was handed out, but for the cells that its owner has cleared. -/
  kept : s.recorder.snapshot = p.contents.clearAll (clearedIn p.interval s.log)
  /-- What was handed out is what the log of the snapshot says. -/
  contents : p.contents = ((Recorder.ofHistogram h).histogram p.side).replay p.log
  /-- All changes of the calls that found this histogram before the swap are in it. -/
  whole : ∀ c ∈ s.calls, c.interval ≤ p.interval → c.side = p.side → changesOf c p.log = c.work
  /-- All changes of all calls before the swap are in this snapshot or in an earlier one. -/
  earlier : ∀ c ∈ s.calls, c.interval ≤ p.interval → ∃ q ∈ s.samples, q.interval = c.interval ∧
    q.contents = ((Recorder.ofHistogram h).histogram q.side).replay q.log ∧
    changesOf c q.log = c.work
  /-- No change of a call behind the swap is in it. -/
  past : ∀ c u, .changed c u ∈ p.log → c.interval ≤ p.interval

/-- A step that leaves the readers where they are does not change a snapshot that is held. -/
theorem Reachable.snapshot_of_step [Fintype ω] (hs : s.Reachable h) (hb : s.Unwrapped)
    {pending : List Cell} (hr : s.readers r = .holding pending) (hstep : Step L s s')
    (hreaders : s'.readers = s.readers) : s'.recorder.snapshot = s.recorder.snapshot := by
  cases hstep with
  | enter | leave | advance => exact Recorder.histogram_withPhaser ..
  | lookUp | acquire | handOut | reset | drop => rfl
  | @change w t c u rest hinside =>
    show (s.recorder.modify _ _).1.snapshot = _
    rw [Recorder.snapshot_modify, if_neg (hs.side_ne_of_holding hb hr hinside).symm]
  -- The other steps of readers that reach the histograms go on to something else.
  | @swap q hlocked =>
    have hq := congrFun hreaders q
    simp [swap, turn, hlocked] at hq
  | @clear q x rest hholding =>
    have hq := congrFun hreaders q
    simp [clear, turn, hholding] at hq

/-- However writers and readers are interleaved, one of the histograms is active and the other is
not, and what a reader holds is an exact cut. -/
theorem reachable_cut [Fintype ω] (hs : s.Reachable h) :
    s.recorder.active = s.recorder.inactive.other ∧
      (s.Unwrapped → ∀ r pending, s.readers r = .holding pending → ∃ p, s.Cut h r p) := by
  refine ⟨hs.paced.opposite, fun hb r pending hr => ?_⟩
  have hsampled := hs.sampled hb
  obtain ⟨p, ps, hsamples, hside, hkept⟩ := hsampled.held r pending hr
  have hp : p ∈ s.samples := by
    rw [hsamples]
    exact List.mem_cons_self
  have hpace := hs.paced.of_readers_eq hr
  refine ⟨p, ⟨?_, ?_⟩, hside.symm, ?_, ?_, ?_, hkept, hsampled.contents p hp,
    hsampled.whole p hp, ?_, hsampled.past p hp⟩
  · rw [hsamples]
    rfl
  · exact (hsampled.interval_head hsamples).trans hpace.2
  · intro q hq
    exact hs.reader_unique hq (by simp [hr])
  · intro w t c rest hw
    rw [hside]
    exact hs.side_ne_of_holding hb hr hw
  · intro s' hstep hreaders
    exact hs.snapshot_of_step hb hr hstep hreaders
  · intro c hc hle
    -- The histogram that the call found was handed out after the next swap.
    obtain ⟨q, hq, hinterval⟩ := hsampled.exists_interval (hle.trans_lt (hsampled.interval_lt hp))
    have hcall : c.side = q.side := by
      rw [(hs.booked.call c hc).2.2, hsampled.side q hq, hinterval]
    exact ⟨q, hq, hinterval, hsampled.contents q hq,
      hsampled.whole q hq c hc hinterval.ge hcall⟩

/-- An empty histogram of a small layout. -/
def small : Histogram := .ofLayout ⟨⟨1, 2, 1⟩, 0, 4, 32, 16, 31, 1, 32⟩ .bits8

/-- The ticket of the first writer of the first phase. -/
def early : Ticket := ⟨1, 0⟩

/-- The ticket of the first writer of the next phase. -/
def late : Ticket := ⟨Phase.odd.firstEpoch + 1, 1⟩

/-- A writer looks up the active histogram, a reader swaps the histograms and begins a phase,
another writer looks up the histogram that is active now, the first one changes a cell and leaves,
and the reader is handed the snapshot. -/
def overtaken : Traffic Bool Unit :=
  let work := [.addToSlot 0 1]
  let working := ((start small).enter false work).lookUp false early work
  let chosen := ((working.acquire ()).swap ()).advance () .choosing
  let begun := (chosen.advance () (.clearing .odd)).advance () (.beginning .odd)
  let joined := (begun.enter true work).lookUp true late work
  let changed := joined.change false early ⟨0, 0, .left, work⟩ (.addToSlot 0 1) []
  let left := changed.leave false early
  (left.advance () (.draining .even 1)).handOut ()

/-- Threads can come to where the late writer is in the snapshot and the early one is not. -/
theorem overtaken_reachable : overtaken.Reachable small := by
  have hnew : (start small : Traffic Bool Unit).Reachable small := .refl
  have hadmits : ∀ u ∈ [CellUpdate.addToSlot 0 1], small.layout.Admits u := by
    intro u hu
    rw [List.mem_singleton.mp hu]
    show 0 < 32
    decide
  have hworking := (hnew.tail (.enter (w := false) rfl hadmits)).tail
    (.lookUp (w := false) (t := early) rfl)
  have hchosen := ((hworking.tail (.acquire (r := ()) rfl rfl)).tail (.swap (r := ()) rfl)).tail
    (.advance (r := ()) (f := .choosing) rfl (by decide))
  have hcleared := hchosen.tail (.advance (r := ()) (f := .clearing .odd) rfl (by decide))
  have hbegun := hcleared.tail (.advance (r := ()) (f := .beginning .odd) rfl (by decide))
  have hjoined := (hbegun.tail (.enter (w := true) rfl hadmits)).tail
    (.lookUp (w := true) (t := late) rfl)
  have hchanged := hjoined.tail
    (.change (w := false) (t := early) (c := ⟨0, 0, .left, [.addToSlot 0 1]⟩) rfl)
  have hleft := hchanged.tail
    (.leave (w := false) (t := early) (c := ⟨0, 0, .left, [.addToSlot 0 1]⟩) rfl)
  have hdrained := hleft.tail (.advance (r := ()) (f := .draining .even 1) rfl (by decide))
  exact hdrained.tail (.handOut (r := ()) rfl)

/-- The snapshot is a cut between the two writers. -/
theorem overtaken_cut : overtaken.readers () = .holding [] ∧ ∃ p, overtaken.Cut small () p := by
  refine ⟨rfl, (reachable_cut overtaken_reachable).2 (fun n => ?_) () [] rfl⟩
  have hentries : overtaken.crowd.entries n ≤ overtaken.tickets.length := List.countP_le_length
  have hlength : overtaken.tickets.length = 2 := rfl
  omega

end Traffic

end DynamicRange
