import DynamicRange.Proofs.Histogram.Cells
import DynamicRange.Proofs.Phaser.Crowd
import DynamicRange.Recorder

/-!
# Writers and readers around a recorder

The traffic of a recorder is the recorder with threads around it. A writer that updates the
recorder enters its phaser, looks up the active histogram, changes the cells of that histogram, and
leaves. All that it will change is settled when it enters, and may be anything that the cells
admit; `Histogram.record_eq` and `Histogram.recordCorrected_eq` tell it for the recordings, and
`update_run` that nothing else comes of an update by itself. A reader that takes a sample takes the
reader lock, swaps the histograms and flips the phaser; then it holds the snapshot, may reset it
cell by cell, as often as it likes, and gives the lock back when it drops the snapshot. A step is
one access to one epoch, pointer, cell or lock by one thread, so that the runs are all
interleavings.

Beside this, the history of the run is kept, which no step depends on: how many phases were begun
and how often the histograms were swapped, the tickets of all entries, the lookups (calls),
everything that was done to the cells (touches), the snapshots that were handed out (samples), and
what resets took away from the tallies.
-/

namespace DynamicRange

namespace Side

/-- The side opposite. -/
def other : Side → Side
  | left => right
  | right => left

/-- The side that is recorded into after the histograms were swapped some times. -/
def nth (n : ℕ) : Side := if n % 2 = 0 then left else right

end Side

/-- An update that has looked up the active histogram. -/
structure Call where
  /-- The number of lookups before. -/
  number : ℕ
  /-- The number of times that the histograms had been swapped before. -/
  interval : ℕ
  /-- The histogram that it found to be active. -/
  side : Side
  /-- All changes that it will make. -/
  work : List CellUpdate
  deriving DecidableEq

/-- What a writer is doing. -/
inductive Writer where
  | outside
  /-- It has entered, and is to look up the active histogram for its changes. -/
  | entered (ticket : Ticket) (work : List CellUpdate)
  /-- It has the rest of its changes before it. -/
  | inside (ticket : Ticket) (call : Call) (rest : List CellUpdate)

/-- What a reader is doing. -/
inductive Sampler where
  | away
  | locked
  /-- The histograms are swapped, and the flip has come so far. -/
  | flipping (flip : Flip)
  /-- It holds a snapshot, of which it is to clear some cells. -/
  | holding (pending : List Cell)

/-- Something that was done to a cell. -/
inductive Touch where
  | changed (call : Call) (update : CellUpdate)
  /-- The owner of a snapshot, which is named by its interval, cleared a cell of it. -/
  | cleared (interval : ℕ) (side : Side) (cell : Cell)

namespace Touch

/-- The side on which the cell is. -/
def side : Touch → Side
  | changed c _ => c.side
  | cleared _ side _ => side

/-- The change, if it belongs to a call. -/
def update? (c : Call) : Touch → Option CellUpdate
  | changed d u => if d = c then some u else none
  | cleared .. => none

/-- The cell, if it was cleared in the snapshot of an interval. -/
def cell? (n : ℕ) : Touch → Option Cell
  | changed .. => none
  | cleared m _ x => if m = n then some x else none

/-- What it added to a tally. -/
def adds (t : Tally) : Touch → ℕ
  | changed _ u => u.adds t
  | cleared .. => 0

end Touch

/-- A histogram after it was touched. -/
def Histogram.touch (h : Histogram) : Touch → Histogram
  | .changed _ u => h.apply u
  | .cleared _ _ x => h.clear x

/-- A histogram after a log of touches, the latest of which is the first. -/
def Histogram.replay (h : Histogram) (log : List Touch) : Histogram :=
  log.foldr (fun x g => g.touch x) h

/-- The changes of a call in a log, in the order in which they were made. -/
def changesOf (c : Call) (log : List Touch) : List CellUpdate :=
  (log.filterMap (·.update? c)).reverse

/-- The cells that were cleared in the snapshot of an interval, the latest first. -/
def clearedIn (n : ℕ) (log : List Touch) : List Cell := log.filterMap (·.cell? n)

/-- A snapshot as it was handed out. -/
structure Sample where
  /-- The number of times that the histograms had been swapped before they were for this sample. -/
  interval : ℕ
  side : Side
  contents : Histogram
  /-- What had been done to the histogram until then, the latest first. -/
  log : List Touch

/-- A recorder, the writers `ω` and the readers `ρ` around it, and the history of the run. -/
structure Traffic (ω ρ : Type) where
  recorder : Recorder
  writers : ω → Writer
  readers : ρ → Sampler
  lock : Option ρ
  begun : ℕ
  swaps : ℕ
  tickets : List Ticket
  calls : List Call
  log : List Touch
  /-- The snapshots, the latest first. -/
  samples : List Sample
  /-- What resets took away from each tally. -/
  removed : Tally → ℕ

namespace Traffic

variable {ω ρ : Type}

/-- A recorder that begins with the samples of a histogram, with nobody around. -/
def start (h : Histogram) : Traffic ω ρ where
  recorder := .ofHistogram h
  writers _ := .outside
  readers _ := .away
  lock := none
  begun := 0
  swaps := 0
  tickets := []
  calls := []
  log := []
  samples := []
  removed _ := 0

/-- The ticket of a writer that enters now. -/
def ticket (s : Traffic ω ρ) : Ticket := ⟨s.recorder.enter.1, s.begun⟩

/-- The call of a writer that looks up the active histogram now. -/
def call (s : Traffic ω ρ) (work : List CellUpdate) : Call :=
  ⟨s.calls.length, s.swaps, s.recorder.active, work⟩

/-- The snapshot of a reader that is handed the inactive histogram now. -/
def sample (s : Traffic ω ρ) : Sample where
  interval := s.swaps - 1
  side := s.recorder.inactive
  contents := s.recorder.snapshot
  log := s.log.filter (·.side = s.recorder.inactive)

variable [DecidableEq ω] [DecidableEq ρ]

/-- A writer enters. -/
def enter (s : Traffic ω ρ) (w : ω) (work : List CellUpdate) : Traffic ω ρ :=
  { s with
    recorder := s.recorder.enter.2
    writers := Function.update s.writers w (.entered s.ticket work)
    tickets := s.ticket :: s.tickets }

/-- A writer looks up the active histogram. -/
def lookUp (s : Traffic ω ρ) (w : ω) (t : Ticket) (work : List CellUpdate) : Traffic ω ρ :=
  { s with
    writers := Function.update s.writers w (.inside t (s.call work) work)
    calls := s.call work :: s.calls }

/-- A writer changes a cell of the histogram that it looked up. -/
def change (s : Traffic ω ρ) (w : ω) (t : Ticket) (c : Call) (u : CellUpdate)
    (rest : List CellUpdate) : Traffic ω ρ :=
  { s with
    recorder := (s.recorder.modify c.side fun h => (h.apply u, ())).1
    writers := Function.update s.writers w (.inside t c rest)
    log := .changed c u :: s.log }

/-- A writer leaves. -/
def leave (s : Traffic ω ρ) (w : ω) (t : Ticket) : Traffic ω ρ :=
  { s with
    recorder := s.recorder.leave t.token
    writers := Function.update s.writers w .outside }

/-- A reader goes on to something else. -/
def turn (s : Traffic ω ρ) (r : ρ) (x : Sampler) : Traffic ω ρ :=
  { s with readers := Function.update s.readers r x }

/-- A reader takes the lock. -/
def acquire (s : Traffic ω ρ) (r : ρ) : Traffic ω ρ := { s.turn r .locked with lock := some r }

/-- A reader swaps the histograms. -/
def swap (s : Traffic ω ρ) (r : ρ) : Traffic ω ρ :=
  { s.turn r (.flipping .choosing) with
    recorder := s.recorder.swap
    swaps := s.swaps + 1 }

/-- The flip of a reader takes a step. -/
def advance (s : Traffic ω ρ) (r : ρ) (f : Flip) : Traffic ω ρ :=
  { s.turn r (.flipping (f.step s.recorder.phaser).2) with
    recorder := { s.recorder with phaser := (f.step s.recorder.phaser).1 }
    begun := match f with
      | .beginning _ => s.begun + 1
      | _ => s.begun }

/-- A reader is handed the snapshot. -/
def handOut (s : Traffic ω ρ) (r : ρ) : Traffic ω ρ :=
  { s.turn r (.holding []) with samples := s.sample :: s.samples }

/-- A reader clears a cell of its snapshot. -/
def clear (s : Traffic ω ρ) (r : ρ) (x : Cell) (rest : List Cell) : Traffic ω ρ :=
  { s.turn r (.holding rest) with
    recorder := (s.recorder.modify s.recorder.inactive fun h => (h.clear x, ())).1
    log := .cleared (s.swaps - 1) s.recorder.inactive x :: s.log
    removed := fun t => s.removed t + if x = .tally t then s.recorder.snapshot.held t else 0 }

/-- A reader drops its snapshot and gives the lock back. -/
def drop (s : Traffic ω ρ) (r : ρ) : Traffic ω ρ := { s.turn r .away with lock := none }

/-- One access of one thread to a recorder whose histograms have a layout. -/
inductive Step (L : Layout) : Traffic ω ρ → Traffic ω ρ → Prop where
  | enter {s : Traffic ω ρ} {w : ω} {work : List CellUpdate} (houtside : s.writers w = .outside)
    (hwork : ∀ u ∈ work, L.Admits u) : Step L s (s.enter w work)
  | lookUp {s : Traffic ω ρ} {w : ω} {t : Ticket} {work : List CellUpdate}
    (hentered : s.writers w = .entered t work) : Step L s (s.lookUp w t work)
  | change {s : Traffic ω ρ} {w : ω} {t : Ticket} {c : Call} {u : CellUpdate}
    {rest : List CellUpdate} (hinside : s.writers w = .inside t c (u :: rest)) :
    Step L s (s.change w t c u rest)
  | leave {s : Traffic ω ρ} {w : ω} {t : Ticket} {c : Call}
    (hinside : s.writers w = .inside t c []) : Step L s (s.leave w t)
  | acquire {s : Traffic ω ρ} {r : ρ} (haway : s.readers r = .away) (hfree : s.lock = none) :
    Step L s (s.acquire r)
  | swap {s : Traffic ω ρ} {r : ρ} (hlocked : s.readers r = .locked) : Step L s (s.swap r)
  | advance {s : Traffic ω ρ} {r : ρ} {f : Flip} (hflipping : s.readers r = .flipping f)
    (hunfinished : f ≠ .finished) : Step L s (s.advance r f)
  | handOut {s : Traffic ω ρ} {r : ρ} (hfinished : s.readers r = .flipping .finished) :
    Step L s (s.handOut r)
  | reset {s : Traffic ω ρ} {r : ρ} (hholding : s.readers r = .holding []) :
    Step L s (s.turn r (.holding L.cells))
  | clear {s : Traffic ω ρ} {r : ρ} {x : Cell} {rest : List Cell}
    (hholding : s.readers r = .holding (x :: rest)) : Step L s (s.clear r x rest)
  | drop {s : Traffic ω ρ} {r : ρ} (hholding : s.readers r = .holding []) : Step L s (s.drop r)

/-- A state that some interleaving leads to, from a recorder that begins with a histogram. -/
def Reachable (h : Histogram) (s : Traffic ω ρ) : Prop :=
  Relation.ReflTransGen (Step h.layout) (start h) s

end Traffic

end DynamicRange
