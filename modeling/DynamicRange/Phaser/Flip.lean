import DynamicRange.Phaser.Basic

/-!
# Flipping a phaser

A flip reads and writes the epochs one at a time, and writers may enter and leave between any two of
its steps. So it is a small machine: it finds the kind of phase that comes next, clears the exits of
that kind, begins the phase, and then waits until as many writers have left the phase before as had
entered it.
-/

namespace DynamicRange

/-- How far a flip has come. -/
inductive Flip where
  /-- The current phase is to be looked up. -/
  | choosing
  /-- The exits of the next phase are to be cleared. -/
  | clearing (next : Phase)
  /-- The next phase is to begin. -/
  | beginning (next : Phase)
  /-- Writers of a phase that stopped at an epoch are waited for. -/
  | draining (last : Phase) (stopped : Int)
  /-- No writer of the phase before is left. -/
  | finished
  deriving DecidableEq, Repr

namespace Flip

/-- One step of a flip: one access to one epoch. A step that finds writers left in the phase before
leads back to where it was. -/
def step (p : Phaser) : Flip → Phaser × Flip
  | choosing => (p, clearing (Phase.ofEpoch p.startEpoch).other)
  | clearing next => (p.clearExits next, beginning next)
  | beginning next =>
    let (stopped, p) := p.begin next
    (p, draining next.other stopped)
  | draining last stopped =>
    if p.endEpoch last = stopped then (p, finished) else (p, draining last stopped)
  | finished => (p, finished)

/-- Several steps of a flip, without a writer between them. -/
def steps (p : Phaser) (f : Flip) : Nat → Phaser × Flip
  | 0 => (p, f)
  | n + 1 =>
    let (p, f) := f.step p
    steps p f n

/-- Whether a flip cannot go on, because writers of the phase before have not left. -/
def isBlocked (p : Phaser) (f : Flip) : Bool :=
  match f.step p with
  | (_, draining ..) => true
  | _ => false

end Flip

/-- A flip up to where the new phase has begun and the writers of the one before are waited for. -/
def Phaser.startFlip (p : Phaser) : Phaser × Flip := Flip.steps p .choosing 3

/-- A whole flip, which is finished only if no writer of the phase before is left. -/
def Phaser.flip (p : Phaser) : Phaser × Flip := Flip.steps p .choosing 4

end DynamicRange
