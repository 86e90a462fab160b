/-!
# Phasers

A phaser parts the time into phases. Writers enter and leave it without ever waiting. A reader who
flips the phaser begins a new phase and waits until all writers of the phase before have left, but
for none that entered the new one.

Phases are even and odd in turn. Entries are counted by the start epoch, which begins each phase
anew at zero or at the lowest epoch, so that its sign tells the phase. A writer takes the epoch that
its entry led to as a token. Exits are counted, for either kind of phase, by an end epoch that
begins where the start epoch does, so that all writers of a phase have left when its end epoch has
come to where its start epoch stopped.
-/

namespace DynamicRange

/-- The kind of a phase. -/
inductive Phase where
  | even
  | odd
  deriving DecidableEq, Repr

/-- An epoch is a number of 64 bits with a sign, and starts over at the lowest behind the
highest. -/
def wrapEpoch (n : Int) : Int :=
  (n + 0x8000000000000000) % 0x10000000000000000 - 0x8000000000000000

namespace Phase

/-- The kind of phase that comes next. -/
def other : Phase → Phase
  | even => odd
  | odd => even

/-- The epoch at which a phase begins. -/
def firstEpoch : Phase → Int
  | even => 0
  | odd => -0x8000000000000000

/-- The kind of phase to which an epoch belongs. -/
def ofEpoch (epoch : Int) : Phase := if epoch < 0 then odd else even

end Phase

/-- The epochs of a phaser. -/
structure Phaser where
  /-- Counts the entries of the current phase. -/
  startEpoch : Int
  /-- Counts the exits of the latest even phase. -/
  evenEnd : Int
  /-- Counts the exits of the latest odd phase. -/
  oddEnd : Int
  deriving DecidableEq, Repr

namespace Phaser

/-- A phaser in an even phase that nobody has entered. -/
def initial : Phaser := ⟨Phase.even.firstEpoch, Phase.even.firstEpoch, Phase.odd.firstEpoch⟩

/-- The end epoch of a kind of phase. -/
def endEpoch (p : Phaser) : Phase → Int
  | .even => p.evenEnd
  | .odd => p.oddEnd

/-- The phaser with another end epoch for a kind of phase. -/
def setEndEpoch (p : Phaser) (epoch : Int) : Phase → Phaser
  | .even => { p with evenEnd := epoch }
  | .odd => { p with oddEnd := epoch }

/-- A writer enters; gives the writer's token. -/
def enter (p : Phaser) : Int × Phaser :=
  let token := wrapEpoch (p.startEpoch + 1)
  (token, { p with startEpoch := token })

/-- The writer with a token leaves. Of the token only its phase matters. -/
def leave (p : Phaser) (token : Int) : Phaser :=
  let phase := Phase.ofEpoch token
  p.setEndEpoch (wrapEpoch (p.endEpoch phase + 1)) phase

/-- Clears the exits of a kind of phase, for a new phase of that kind. -/
def clearExits (p : Phaser) (phase : Phase) : Phaser := p.setEndEpoch phase.firstEpoch phase

/-- Begins a phase; gives the epoch at which the phase before stopped. -/
def begin (p : Phaser) (phase : Phase) : Int × Phaser :=
  (p.startEpoch, { p with startEpoch := phase.firstEpoch })

end Phaser

end DynamicRange
