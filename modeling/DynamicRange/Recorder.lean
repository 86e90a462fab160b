import DynamicRange.Histogram.Merge
import DynamicRange.Phaser.Flip

/-!
# Interval recorders

A recorder lets writers record at any time and hands out, interval after interval, what they have
recorded. It has two histograms. Writers enter its phaser and record into the active one; a reader
swaps the two and flips the phaser, so that no writer is left in the histogram that was active, and
then owns it as a snapshot until the next sample makes it active again. What a snapshot holds at
that point is carried into the next interval.
-/

namespace DynamicRange

/-- One of the two histograms of a recorder. -/
inductive Side where
  | left
  | right
  deriving DecidableEq, Repr

/-- A pair of histograms, one of which is recorded into. -/
structure Recorder where
  /-- What writers enter before they record. -/
  phaser : Phaser
  /-- The histogram that is recorded into. -/
  active : Side
  /-- The other histogram. -/
  inactive : Side
  /-- The histogram on the left. -/
  left : Histogram
  /-- The histogram on the right. -/
  right : Histogram

namespace Recorder

/-- A recorder that begins with the samples of a histogram. -/
def ofHistogram (h : Histogram) : Recorder :=
  ⟨.initial, .left, .right, h, h.emptyLike h.width⟩

/-- A recorder without samples for some bounds, or the reason why there is none. -/
def ofBounds (b : Bounds) (width : CounterWidth) : Except CreationError Recorder :=
  (Histogram.ofBounds b width).map ofHistogram

/-- The histogram on a side. -/
def histogram (r : Recorder) : Side → Histogram
  | .left => r.left
  | .right => r.right

/-- Changes the histogram on a side. -/
def modify {α : Type} (r : Recorder) (side : Side) (f : Histogram → Histogram × α) :
    Recorder × α :=
  match r, side with
  | ⟨phaser, active, inactive, left, right⟩, .left =>
    let (left, a) := f left
    (⟨phaser, active, inactive, left, right⟩, a)
  | ⟨phaser, active, inactive, left, right⟩, .right =>
    let (right, a) := f right
    (⟨phaser, active, inactive, left, right⟩, a)

/-- A writer enters; gives the writer's token. -/
def enter (r : Recorder) : Int × Recorder :=
  let (token, phaser) := r.phaser.enter
  (token, { r with phaser })

/-- The writer with a token leaves. -/
def leave (r : Recorder) (token : Int) : Recorder := { r with phaser := r.phaser.leave token }

/-- Changes the active histogram, between entering and leaving. -/
def update {α : Type} (r : Recorder) (f : Histogram → Histogram × α) : Recorder × α :=
  let (token, r) := r.enter
  let (r, a) := r.modify r.active f
  (r.leave token, a)

/-- Records `n` samples of `v`. -/
def record (r : Recorder) (v : Int) (n : Nat) : Recorder × Except RecordError Unit :=
  r.update (·.record v n)

/-- Records a sample of `v` that was expected every `interval`, and those held up behind it. -/
def recordCorrected (r : Recorder) (v interval : Int) : Recorder × Except RecordError Unit :=
  r.update (·.recordCorrected v interval)

/-- The histograms change places. -/
def swap (r : Recorder) : Recorder := { r with active := r.inactive, inactive := r.active }

/-- Takes a sample while no writer is inside: the histogram that was active becomes the
snapshot. -/
def sample (r : Recorder) : Recorder :=
  let r := r.swap
  { r with phaser := r.phaser.flip.1 }

/-- The histogram that the last sample took. -/
def snapshot (r : Recorder) : Histogram := r.histogram r.inactive

/-- A snapshot on one line. -/
def describeSnapshot (r : Recorder) : String := "Snapshot(" ++ r.snapshot.describe ++ ")"

/-- Takes a sample, adds it to a total and forgets it; gives the total and the number of samples
dropped. -/
def collect (r : Recorder) (total : Histogram) : Recorder × Histogram × Nat :=
  let r := r.sample
  let merged := total.merge r.snapshot
  let (r, ()) := r.modify r.inactive fun h => (h.reset, ())
  (r, merged)

end Recorder

end DynamicRange
