import DynamicRange.Proofs.Recorder.Refills

/-!
# What the reader of a collector waits for

A reader only ever waits for writers that are inside: when all of them are outside, it can make its
next access, until its snapshot is empty (`Reachable.reader_moves`). And it does not go on for ever:
each access takes it nearer to the end of its round (`ReaderStep.cost_lt`), as each access of a
writer takes the writer nearer to the end of its recording (`WriterStep.cost_lt`).

No writer enters without a value, so that the number of values bounds how often the phases are
entered (`Reachable.moderate`).
-/

namespace DynamicRange

namespace Layout

/-- A recording of samples of one value makes four changes at most. -/
theorem length_work_le (L : Layout) (v : ℤ) (n : ℕ) : (L.work v n).length ≤ 4 := by
  unfold work recording
  split
  · exact Nat.zero_le _
  · next updates hupdates =>
    split at hupdates
    · cases hupdates
    · split at hupdates
      · cases hupdates
      · obtain rfl := Except.ok.inj hupdates
        split <;> simp

end Layout

/-- Whether a writer has entered and not yet looked up the active histogram. -/
def Writer.searching : Writer → ℕ
  | entered .. => 1
  | outside | inside .. => 0

/-- The accesses that a writer has before it, when a recording by it makes some changes. -/
def Writer.cost (changes : ℕ) : Writer → ℕ
  | outside => changes + 3
  | entered _ work => work.length + 2
  | inside _ _ rest => rest.length + 1

/-- The accesses that a reader has before it in a round, up to where it has a snapshot, and those by
which it clears cells. -/
def Sampler.cost : Sampler → ℕ
  | away => 8
  | locked => 7
  | flipping .choosing => 6
  | flipping (.clearing _) => 5
  | flipping (.beginning _) => 4
  | flipping (.draining ..) => 3
  | flipping .finished => 2
  | holding pending => pending.length + 1

/-- The accesses to a snapshot that are still ahead. -/
def Stage.cost (L : Layout) : Stage → ℕ
  | resting | fetching => L.cells.length + 1
  | emptying => 0

/-- A step of a flip that leads elsewhere leads nearer to the end. -/
theorem Flip.step_cost_lt {p : Phaser} {f : Flip} (hmoves : (f.step p).2 ≠ f) :
    (Sampler.flipping (f.step p).2).cost < (Sampler.flipping f).cost := by
  cases f with
  | choosing | clearing | beginning => exact Nat.lt_succ_self _
  | draining last stopped =>
    rw [Flip.step_draining] at hmoves ⊢
    split at hmoves
    · next hdrained =>
      rw [if_pos hdrained]
      exact Nat.lt_succ_self _
    · exact absurd rfl hmoves
  | finished => exact absurd rfl hmoves

namespace Collector

open Histogram (ofLayout)

variable {ω : Type} {s s' : Collector ω} {L : Layout}

/-- The accesses that the reader has before it in its round. -/
def readerCost (L : Layout) (s : Collector ω) : ℕ :=
  s.stage.cost L + (s.traffic.readers ()).cost

variable [DecidableEq ω]

omit [DecidableEq ω] in
/-- The reader is none of the writers, and hears nothing. -/
theorem ReaderStep.frame (hstep : ReaderStep L s s') :
    s'.traffic.writers = s.traffic.writers ∧ s'.heard = s.heard := by
  cases hstep <;> exact ⟨rfl, rfl⟩

omit [DecidableEq ω] in
/-- Every access of the reader leads nearer to the end of its round. -/
theorem ReaderStep.cost_lt (hstep : ReaderStep L s s') : s'.readerCost L < s.readerCost L := by
  unfold readerCost
  cases hstep with
  | acquire hresting haway =>
    simp [hresting, haway, Traffic.acquire, Traffic.turn, Stage.cost, Sampler.cost]
  | swap hlocked => simp [hlocked, Traffic.swap, Traffic.turn, Sampler.cost]
  | advance hflipping hmoves =>
    have hlt := Flip.step_cost_lt hmoves
    simpa [hflipping, Traffic.advance, Traffic.turn] using hlt
  | handOut hfinished => simp [hfinished, Traffic.handOut, Traffic.turn, Sampler.cost]
  | merge hfetching hholding =>
    simp [hfetching, hholding, Traffic.turn, Stage.cost, Sampler.cost]
  | clear hholding => simp [hholding, Traffic.clear, Traffic.turn, Sampler.cost]

/-- What a writer does is nothing to the other writers, nor to the reader. -/
theorem WriterStep.frame {w : ω} {v : ℤ} (hstep : WriterStep L w v s s') :
    (∀ w', w' ≠ w → s'.traffic.writers w' = s.traffic.writers w') ∧ s'.stage = s.stage ∧
      s'.traffic.readers = s.traffic.readers := by
  cases hstep <;> exact ⟨fun w' hne => Function.update_of_ne hne .., rfl, rfl⟩

/-- Every access of a writer leads nearer to the end of its recording. -/
theorem WriterStep.cost_lt {w : ω} {v : ℤ} (hstep : WriterStep L w v s s') :
    (s'.traffic.writers w).cost (L.work v 1).length <
      (s.traffic.writers w).cost (L.work v 1).length := by
  cases hstep with
  | enter houtside => simp [houtside, Traffic.enter, Writer.cost]
  | lookUp hentered => simp [hentered, Traffic.lookUp, Writer.cost]
  | change hinside => simp [hinside, Traffic.change, Writer.cost]

variable [Fintype ω]

/-- Every entry was made for a value that was heard, or that the writer is about to tell. -/
theorem Reachable.length_tickets (hs : s.Reachable L) :
    s.traffic.tickets.length = s.heard.length + ∑ w, (s.traffic.writers w).searching := by
  induction hs with
  | refl => simp [start, Traffic.start, Writer.searching]
  | @tail s s' _ hstep ih =>
    cases hstep with
    | @write _ w v _ hstep =>
      cases hstep with
      | enter houtside =>
        have hsum := Crowd.sum_comp_update Writer.searching s.traffic.writers w
          (.entered s.traffic.ticket (L.work v 1))
        rw [houtside] at hsum
        change _ + 0 = _ + 1 at hsum
        simp only [Traffic.enter, List.length_cons]
        omega
      | @lookUp t hentered =>
        have hsum := Crowd.sum_comp_update Writer.searching s.traffic.writers w
          (.inside t (s.traffic.call (L.work v 1)) (L.work v 1))
        rw [hentered] at hsum
        change _ + 1 = _ + 0 at hsum
        simp only [Traffic.lookUp, List.length_cons]
        omega
      | @change t c u rest hinside =>
        have hsum := Crowd.sum_comp_update Writer.searching s.traffic.writers w (.inside t c rest)
        rw [hinside] at hsum
        exact ih.trans (congrArg (s.heard.length + ·) hsum.symm)
    | @leave w t c hinside =>
      have hsum := Crowd.sum_comp_update Writer.searching s.traffic.writers w .outside
      rw [hinside] at hsum
      exact ih.trans (congrArg (s.heard.length + ·) hsum.symm)
    | read hstep =>
      rw [hstep.frame.1]
      cases hstep <;> exact ih
    | drop => exact ih

/-- As long as fewer than `2 ^ 63` values were told, or are about to be, no epoch starts over and no
counter overflows. -/
theorem Reachable.moderate (hs : s.Reachable L)
    (hfew : s.heard.length + ∑ w, (s.traffic.writers w).searching < 2 ^ 63) : s.Moderate := by
  refine ⟨fun n => ?_, by omega⟩
  rw [← hs.length_tickets] at hfew
  exact List.countP_le_length.trans_lt hfew

/-- A reader whose snapshot is not empty yet can make its next access when no writer is inside. -/
theorem Reachable.reader_moves {b : Bounds} (hbounds : Layout.ofBounds b = .ok L)
    (hs : s.Reachable L) (hb : s.Moderate) (houtside : ∀ w, s.traffic.writers w = .outside) :
    (∃ s', ReaderStep L s s') ∨ s.stage = .emptying ∧ s.traffic.readers () = .holding [] := by
  cases (hs.refilled hbounds hb).stands with
  | empty hreader =>
    rcases hreader with ⟨hresting, haway⟩ | ⟨-, hlocked⟩
    · have hfree : s.traffic.lock = none := by
        rcases hlock : s.traffic.lock with _ | ⟨⟩
        · rfl
        · exact absurd (congrArg Sampler.reader haway) ((hs.traffic.crowd.lock_iff ()).mpr hlock)
      exact .inl ⟨_, .acquire hresting haway hfree⟩
    · exact .inl ⟨_, .swap hlocked⟩
  | full _ hfetching hreader =>
    rcases hreader with ⟨f, hflipping⟩ | hholding
    · by_cases hmoves : (f.step s.traffic.recorder.phaser).2 = f
      · cases f with
        | choosing | clearing | beginning => cases hmoves
        | finished => exact .inl ⟨_, .handOut hflipping⟩
        | draining last stopped =>
          -- Nobody is inside, so that all exits of the phase before have been counted.
          have hreader : s.traffic.crowd.readers () = .flipping (.draining last stopped) := by
            rw [Traffic.crowd_readers, hflipping]
            rfl
          obtain ⟨n, -, rfl, rfl, -, htally⟩ :=
            (hs.traffic.crowd.epochs hb.unwrapped).of_readers_eq hreader
          have hnobody : s.traffic.crowd.present n = 0 := by
            refine Crowd.present_eq_zero_iff.mpr fun w t hw => ?_
            simp [Traffic.crowd, houtside, Writer.ticket?] at hw
          have hdrained : s.traffic.recorder.phaser.endEpoch (Phase.nth n) =
              (Phase.nth n).firstEpoch + s.traffic.crowd.entries n := by
            rw [hnobody, Nat.cast_zero, add_zero] at htally
            exact htally
          rw [Flip.step_draining, if_pos hdrained] at hmoves
          cases hmoves
      · exact .inl ⟨_, .advance hflipping hmoves⟩
    · exact .inl ⟨_, .merge hfetching hholding⟩
  | @emptying pending hemptying hholding =>
    cases pending with
    | nil => exact .inr ⟨hemptying, hholding⟩
    | cons x rest => exact .inl ⟨_, .clear hholding⟩

end Collector

end DynamicRange
