import DynamicRange.Phaser.Flip
import Mathlib.Algebra.BigOperators.Group.Finset.Basic
import Mathlib.Data.Fintype.Basic
import Mathlib.Logic.Relation

/-!
# Writers and readers around a phaser

A crowd is a phaser with threads around it: writers that enter and leave, and readers that take the
reader lock, flip the phaser as often as they like, and give the lock back. A step of a crowd is one
access to one epoch, or to the lock, by one thread, so that its runs are all interleavings of the
threads. A writer may be inside at any time and for any length of time, and what makes it leave does
not matter.

Beside what the threads and the phaser hold, a crowd remembers the number of phases that were begun
and the ticket of every entry, that is its token and the phase of which it is. No step depends on
these. A writer entered before some phase was begun exactly if the number on its ticket is smaller.
-/

namespace DynamicRange

/-- The kind of the phase before which `n` others were begun. -/
def Phase.nth (n : ℕ) : Phase := if n % 2 = 0 then .even else .odd

/-- An entry of a writer: its token, and the number of phases that had been begun before. -/
structure Ticket where
  token : ℤ
  phase : ℕ
  deriving DecidableEq

/-- What a reader is doing. -/
inductive Reader where
  | away
  /-- It holds the reader lock. -/
  | locked
  /-- It holds the reader lock, and its flip has come so far. -/
  | flipping (flip : Flip)
  deriving DecidableEq

/-- A phaser, the writers `ω` and the readers `ρ` around it, and the history of its phases. -/
structure Crowd (ω ρ : Type) where
  phaser : Phaser
  /-- The ticket of each writer that is inside. -/
  writers : ω → Option Ticket
  readers : ρ → Reader
  /-- The reader that holds the lock. -/
  lock : Option ρ
  /-- The number of phases that were begun. -/
  begun : ℕ
  /-- The tickets of all entries, the latest first. -/
  tickets : List Ticket

namespace Crowd

variable {ω ρ : Type}

/-- A new phaser with nobody around. -/
def initial : Crowd ω ρ := ⟨.initial, fun _ => none, fun _ => .away, none, 0, []⟩

/-- The ticket of a writer that enters now. -/
def ticket (s : Crowd ω ρ) : Ticket := ⟨s.phaser.enter.1, s.begun⟩

variable [DecidableEq ω] [DecidableEq ρ]

/-- A writer enters. -/
def enter (s : Crowd ω ρ) (w : ω) : Crowd ω ρ :=
  { s with
    phaser := s.phaser.enter.2
    writers := Function.update s.writers w (some s.ticket)
    tickets := s.ticket :: s.tickets }

/-- A writer hands its token back. -/
def leave (s : Crowd ω ρ) (w : ω) (t : Ticket) : Crowd ω ρ :=
  { s with
    phaser := s.phaser.leave t.token
    writers := Function.update s.writers w none }

/-- A reader goes on to something else that touches neither the phaser nor the lock. -/
def turn (s : Crowd ω ρ) (r : ρ) (x : Reader) : Crowd ω ρ :=
  { s with readers := Function.update s.readers r x }

/-- A reader takes the lock. -/
def acquire (s : Crowd ω ρ) (r : ρ) : Crowd ω ρ := { s.turn r .locked with lock := some r }

/-- A reader gives the lock back. -/
def release (s : Crowd ω ρ) (r : ρ) : Crowd ω ρ := { s.turn r .away with lock := none }

/-- The flip of a reader takes a step. -/
def advance (s : Crowd ω ρ) (r : ρ) (f : Flip) : Crowd ω ρ :=
  { s.turn r (.flipping (f.step s.phaser).2) with
    phaser := (f.step s.phaser).1
    begun := match f with
      | .beginning _ => s.begun + 1
      | _ => s.begun }

/-- One access of one thread. -/
inductive Step : Crowd ω ρ → Crowd ω ρ → Prop where
  | enter {s : Crowd ω ρ} {w : ω} (houtside : s.writers w = none) : Step s (s.enter w)
  | leave {s : Crowd ω ρ} {w : ω} {t : Ticket} (hinside : s.writers w = some t) :
    Step s (s.leave w t)
  | acquire {s : Crowd ω ρ} {r : ρ} (haway : s.readers r = .away) (hfree : s.lock = none) :
    Step s (s.acquire r)
  | start {s : Crowd ω ρ} {r : ρ} (hlocked : s.readers r = .locked) :
    Step s (s.turn r (.flipping .choosing))
  | advance {s : Crowd ω ρ} {r : ρ} {f : Flip} (hflipping : s.readers r = .flipping f)
    (hunfinished : f ≠ .finished) : Step s (s.advance r f)
  | finish {s : Crowd ω ρ} {r : ρ} (hfinished : s.readers r = .flipping .finished) :
    Step s (s.turn r .locked)
  | release {s : Crowd ω ρ} {r : ρ} (hlocked : s.readers r = .locked) : Step s (s.release r)

/-- A crowd that some interleaving leads to. -/
def Reachable (s : Crowd ω ρ) : Prop := Relation.ReflTransGen Step initial s

/-! ## Counting writers -/

/-- The number of writers that entered a phase. -/
def entries (s : Crowd ω ρ) (n : ℕ) : ℕ := s.tickets.countP (·.phase = n)

/-- Every phase was entered fewer than `2 ^ 63` times, so that no epoch starts over. -/
def Unwrapped (s : Crowd ω ρ) : Prop := ∀ n, s.entries n < 2 ^ 63

/-- Whether a writer with this ticket, if it has one, entered a phase. -/
def ofPhase (n : ℕ) (t : Option Ticket) : ℕ := if t.any (·.phase = n) then 1 else 0

/-- The number of writers of a phase that are still inside. -/
def present [Fintype ω] (s : Crowd ω ρ) (n : ℕ) : ℕ := ∑ w, ofPhase n (s.writers w)

end Crowd

end DynamicRange
