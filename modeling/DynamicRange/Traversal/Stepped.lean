import DynamicRange.Traversal.Argument
import DynamicRange.Traversal.Cursor

/-!
# Steps of values

A stepped traversal divides the values into steps, each from the end of the one before to an end of
its own, and reports the samples of every step. The ends are supplied one at a time by a stepper:
linear steps are equally wide, logarithmic steps grow by a factor.

The samples of a slot belong to the step in which the lowest value of the slot lies. The traversal
ends when all samples are passed and the step lies wholly behind the slot that was visited last, so
a slot wider than a step is reported once for each step that ends in it.
-/

namespace DynamicRange

/-- A stepped traversal, whose stepper has states in `σ`. -/
structure Stepped (σ : Type) where
  /-- Where the traversal stands. -/
  cursor : Cursor
  /-- The highest value of the current step. -/
  stepEnd : Nat
  /-- Whether a step that ends at `topValue` was reported. -/
  toppedOut : Bool
  /-- The state of the stepper. -/
  stepper : σ

namespace Stepped

variable {σ : Type}

/-- A traversal of a histogram whose first step ends at `stepEnd`. -/
def start (h : Histogram) (stepEnd : Nat) (stepper : σ) : Stepped σ :=
  ⟨.start h, stepEnd, false, stepper⟩

/-- Whether a cursor stands where a step is reported whose last slot begins at `lastLowest`: at that
slot or behind it, or at the last slot of all. -/
def settledAt (L : Layout) (lastLowest : Nat) (c : Cursor) : Bool :=
  c.slot?.isSome && (lastLowest ≤ c.lowest L || c.atLastSlot L)

/-- Moves on to where a step is reported, if the slots do not end before. -/
def settle? (h : Histogram) (lastLowest : Nat) (c : Cursor) : Option Cursor :=
  if settledAt h.layout lastLowest c then
    some c
  else
    match _moved : c.move? h with
    | none => none
    | some c' => settle? h lastLowest c'
termination_by c.remaining h.layout
decreasing_by exact Cursor.move?_remaining_lt _moved

/-- Whether no step is left to report. -/
def isOver (h : Histogram) (t : Stepped σ) : Bool :=
  t.toppedOut || (!t.cursor.hasNext && t.cursor.nextLowest h.layout ≤ t.stepEnd)

/-- The next item, and the traversal behind it, when `advance` supplies the end of each further
step. -/
def next? (advance : σ → Nat × σ) (h : Histogram) (t : Stepped σ) : Option (Item × Stepped σ) :=
  if t.isOver h then
    none
  else
    match settle? h (h.layout.lowestEquivalent t.stepEnd) t.cursor with
    | none => none
    | some cursor =>
      let (item, cursor) := cursor.report h.layout t.stepEnd cursor.percentile
      let toppedOut := t.stepEnd == topValue
      let (stepEnd, stepper) := advance t.stepper
      some (item, { cursor, stepEnd, toppedOut, stepper })

end Stepped

/-- Steps of one width. -/
structure LinearSteps where
  /-- The width of every step. -/
  width : Nat
  /-- The highest value of the current step. -/
  stepEnd : Nat

namespace LinearSteps

/-- The end of the following step, held at `topValue`. -/
def advance (s : LinearSteps) : Nat × LinearSteps :=
  let stepEnd := saturatingAdd s.stepEnd s.width
  (stepEnd, { s with stepEnd })

/-- A traversal in steps of `width`, of which the first begins at zero. -/
def start (h : Histogram) (width : Int) : Except ArgumentError (Stepped LinearSteps) :=
  if width ≤ 0 then
    .error .widthNotPositive
  else
    let stepEnd := width.toNat - 1
    .ok (.start h stepEnd ⟨width.toNat, stepEnd⟩)

/-- The next item of a traversal in linear steps. -/
def next? : (h : Histogram) → Stepped LinearSteps → Option (Item × Stepped LinearSteps) :=
  Stepped.next? advance

end LinearSteps

/-- Steps whose ends grow by a factor. -/
structure LogarithmicSteps where
  /-- The factor by which the levels grow. -/
  base : Float
  /-- The level just above the current step. -/
  level : Float

namespace LogarithmicSteps

/-- The end of the step below a level: the last whole number before the level, or `topValue` if the
level lies past it. -/
def endBelow (level : Float) : Nat :=
  if countToFloat topValue ≤ level then topValue else level.toUInt64.toNat - 1

/-- The end of the following step. -/
def advance (s : LogarithmicSteps) : Nat × LogarithmicSteps :=
  let level := s.level * s.base
  (endBelow level, { s with level })

/-- A traversal in steps that end below `first`, below `first * base`, and so on. -/
def start (h : Histogram) (first : Int) (base : Float) :
    Except ArgumentError (Stepped LogarithmicSteps) :=
  if first ≤ 0 then
    .error .firstWidthNotPositive
  else if !(1.0 < base) then
    .error .baseNotAboveOne
  else
    .ok (.start h (first.toNat - 1) ⟨base, countToFloat first.toNat⟩)

/-- The next item of a traversal in logarithmic steps. -/
def next? : (h : Histogram) → Stepped LogarithmicSteps →
    Option (Item × Stepped LogarithmicSteps) :=
  Stepped.next? advance

end LogarithmicSteps

end DynamicRange
