import DynamicRange.Proofs.Recorder.Traffic
import DynamicRange.Proofs.Phaser.Epochs

/-!
# The crowd in the traffic of a recorder

What the threads around a recorder do to its phaser and to the reader lock is what a crowd does:
`Traffic.crowd` forgets all else, and `Step.crowd` shows that a step of the traffic is a step of the
crowd, or none. So all that holds of crowds holds here. A reader that holds a snapshot is, to the
phaser, one that holds the lock.
-/

namespace DynamicRange

namespace Recorder

variable {α : Type} (r : Recorder) (side : Side) (f : Histogram → Histogram × α)

/-- A change to the histogram on a side leaves the other one as it is. -/
theorem histogram_modify (side' : Side) :
    (r.modify side f).1.histogram side' =
      if side' = side then (f (r.histogram side)).1 else r.histogram side' := by
  cases side <;> cases side' <;> rfl

@[simp]
theorem phaser_modify : (r.modify side f).1.phaser = r.phaser := by cases side <;> rfl

@[simp]
theorem active_modify : (r.modify side f).1.active = r.active := by cases side <;> rfl

@[simp]
theorem inactive_modify : (r.modify side f).1.inactive = r.inactive := by cases side <;> rfl

/-- A change to the histogram on a side is a change to the snapshot, or leaves it as it is. -/
theorem snapshot_modify :
    (r.modify side f).1.snapshot =
      if r.inactive = side then (f (r.histogram side)).1 else r.snapshot := by
  unfold snapshot
  rw [inactive_modify, histogram_modify]

/-- The histograms do not change when a writer enters or leaves. -/
theorem histogram_withPhaser (p : Phaser) :
    { r with phaser := p }.histogram side = r.histogram side := by
  cases side <;> rfl

end Recorder

/-- The ticket of a writer that has entered and not left. -/
def Writer.ticket? : Writer → Option Ticket
  | outside => none
  | entered t _ | inside t _ _ => some t

/-- What a reader is doing to the phaser. -/
def Sampler.reader : Sampler → Reader
  | away => .away
  | locked | holding _ => .locked
  | flipping f => .flipping f

namespace Traffic

variable {ω ρ : Type} {s s' : Traffic ω ρ} {h : Histogram} {L : Layout}

/-- The crowd around the phaser of the recorder. -/
def crowd (s : Traffic ω ρ) : Crowd ω ρ where
  phaser := s.recorder.phaser
  writers := Writer.ticket? ∘ s.writers
  readers := Sampler.reader ∘ s.readers
  lock := s.lock
  begun := s.begun
  tickets := s.tickets

/-- Every phase was entered fewer than `2 ^ 63` times, so that no epoch starts over. -/
def Unwrapped (s : Traffic ω ρ) : Prop := s.crowd.Unwrapped

/-- A writer inside has its ticket in the crowd. -/
theorem crowd_writers {w : ω} {t : Ticket} {c : Call} {rest : List CellUpdate}
    (hinside : s.writers w = .inside t c rest) : s.crowd.writers w = some t := by
  simp [crowd, hinside, Writer.ticket?]

/-- What a reader is doing to the phaser can be read off the traffic. -/
theorem crowd_readers (s : Traffic ω ρ) (r : ρ) : s.crowd.readers r = (s.readers r).reader := rfl

/-- To the crowd, a writer does nothing while it keeps its ticket. -/
theorem update_ticket [DecidableEq ω] {w : ω} {x : Writer}
    (hx : x.ticket? = (s.writers w).ticket?) :
    Writer.ticket? ∘ Function.update s.writers w x = Writer.ticket? ∘ s.writers := by
  rw [Function.comp_update, hx]
  exact Function.update_eq_self w _

variable [DecidableEq ρ] {r : ρ}

/-- To the crowd, a reader that goes on to something else does what that is to the phaser. -/
theorem crowd_turn (s : Traffic ω ρ) (r : ρ) (x : Sampler) :
    (s.turn r x).crowd = s.crowd.turn r x.reader := by
  unfold Traffic.turn Crowd.turn crowd
  rw [Function.comp_update]

/-- A reader that goes on to what is the same to the phaser does nothing to the crowd. -/
theorem crowd_turn_self {x : Sampler} (hx : x.reader = (s.readers r).reader) :
    (s.turn r x).crowd = s.crowd := by
  rw [crowd_turn, hx]
  unfold Crowd.turn
  rw [← crowd_readers, Function.update_eq_self]

variable [DecidableEq ω]

/-- A step of the traffic is a step of the crowd, or none. -/
theorem Step.crowd (hstep : Step L s s') : Crowd.Step s.crowd s'.crowd ∨ s'.crowd = s.crowd := by
  cases hstep with
  | @enter w work houtside _ =>
    have heq : (s.enter w work).crowd = s.crowd.enter w := by
      unfold Traffic.enter Crowd.enter Traffic.crowd
      rw [Function.comp_update]
      rfl
    rw [heq]
    exact .inl (.enter (by simp [Traffic.crowd, houtside, Writer.ticket?]))
  | @lookUp w t work hentered =>
    right
    unfold Traffic.lookUp Traffic.crowd
    rw [update_ticket (by rw [hentered]; rfl)]
  | @change w t c u rest hinside =>
    right
    unfold Traffic.change Traffic.crowd
    rw [update_ticket (by rw [hinside]; rfl), Recorder.phaser_modify]
  | @leave w t c hinside =>
    have heq : (s.leave w t).crowd = s.crowd.leave w t := by
      unfold Traffic.leave Crowd.leave Traffic.crowd
      rw [Function.comp_update]
      rfl
    rw [heq]
    exact .inl (.leave (crowd_writers hinside))
  | @acquire r haway hfree =>
    have heq : (s.acquire r).crowd = s.crowd.acquire r := by
      unfold Traffic.acquire Traffic.turn Traffic.crowd
      rw [Function.comp_update]
      rfl
    rw [heq]
    exact .inl (.acquire (by rw [crowd_readers, haway]; rfl) hfree)
  | @swap r hlocked =>
    have heq : (s.swap r).crowd = s.crowd.turn r (.flipping .choosing) := crowd_turn s r _
    rw [heq]
    exact .inl (.start (by rw [crowd_readers, hlocked]; rfl))
  | @advance r f hflipping hunfinished =>
    have heq : (s.advance r f).crowd = s.crowd.advance r f := by
      unfold Traffic.advance Traffic.turn Traffic.crowd
      rw [Function.comp_update]
      rfl
    rw [heq]
    exact .inl (.advance (by rw [crowd_readers, hflipping]; rfl) hunfinished)
  | @handOut r hfinished =>
    have heq : (s.handOut r).crowd = s.crowd.turn r .locked := crowd_turn s r _
    rw [heq]
    exact .inl (.finish (by rw [crowd_readers, hfinished]; rfl))
  | @reset r hholding => exact .inr (crowd_turn_self (by rw [hholding]; rfl))
  | @clear r x rest hholding =>
    right
    have heq : (s.clear r x rest).crowd = (s.turn r (.holding rest)).crowd := by
      unfold Traffic.clear Traffic.crowd
      rw [Recorder.phaser_modify]
      rfl
    rw [heq, crowd_turn_self (by rw [hholding]; rfl)]
  | @drop r hholding =>
    have heq : (s.drop r).crowd = s.crowd.release r := by
      unfold Traffic.drop Traffic.turn Traffic.crowd
      rw [Function.comp_update]
      rfl
    rw [heq]
    exact .inl (.release (by rw [crowd_readers, hholding]; rfl))

/-- The crowd around the phaser of a recorder is one that crowds come to. -/
theorem Reachable.crowd (hs : s.Reachable h) : s.crowd.Reachable := by
  induction hs with
  | refl => exact .refl
  | tail _ hstep ih =>
    rcases hstep.crowd with hmove | hsame
    · exact ih.tail hmove
    · rw [hsame]
      exact ih

/-- Steps forget no entry. -/
theorem Step.unwrapped (hstep : Step L s s') (hb : s'.Unwrapped) : s.Unwrapped := by
  rcases hstep.crowd with hmove | hsame
  · exact hmove.unwrapped hb
  · unfold Unwrapped at hb
    rwa [hsame] at hb

/-- At most one reader is not away. -/
theorem Reachable.reader_unique (hs : s.Reachable h) {q : ρ} (hr : s.readers r ≠ .away)
    (hq : s.readers q ≠ .away) : r = q := by
  have hbusy : ∀ {x : Sampler}, x ≠ .away → x.reader ≠ .away := by
    intro x hx
    cases x with
    | away => exact absurd rfl hx
    | _ => simp [Sampler.reader]
  exact hs.crowd.reader_unique (hbusy hr) (hbusy hq)

/-- While a reader holds a snapshot, all writers inside have entered the current phase. -/
theorem Reachable.quiet [Fintype ω] (hs : s.Reachable h) (hb : s.Unwrapped)
    (hr : (s.readers r).reader = .locked ∨ (s.readers r).reader = .flipping .finished) :
    s.crowd.Quiet := by
  have hepochs := hs.crowd.epochs hb
  rcases hr with hlocked | hfinished
  · exact hepochs.of_readers_eq hlocked
  · have hflip : s.crowd.FlipInv .finished := hepochs.of_readers_eq hfinished
    exact hflip.1

end Traffic

end DynamicRange
