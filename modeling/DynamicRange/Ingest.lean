import DynamicRange.Recorder
import DynamicRange.Text.Blank
import DynamicRange.Text.Integer
import DynamicRange.Text.Lines

/-!
# Ingesting lines of values

Values come one on a line. They are recorded into an interval recorder, and after every so many
lines the interval is collected into a total. The total counts each value at the lowest value of its
slot, however the lines are divided into intervals.
-/

namespace DynamicRange

/-- Why lines are not ingested. -/
inductive IngestError where
  /-- There is no histogram to count in. -/
  | creation (reason : CreationError)
  /-- A line is not text. -/
  | notText
  /-- The line of a number, counted from one, is no value. -/
  | notValue (line : Nat)
  /-- A value cannot be recorded. -/
  | unrecordable (reason : RecordError)
  deriving DecidableEq, Repr

/-- What is counted so far. -/
structure Ingest where
  /-- The current interval. -/
  recorder : Recorder
  /-- All intervals before. -/
  total : Histogram
  /-- The lines read. -/
  lines : Nat

namespace Ingest

/-- The value on the line of a number. -/
def valueOn (number : Nat) (line : List UInt8) : Except IngestError Int :=
  match Text.decode? line with
  | none => .error .notText
  | some text =>
    match Text.value? (Text.trim text) with
    | none => .error (.notValue number)
    | some v => .ok v

/-- The interval ends and is added to the total. -/
def collect (s : Ingest) : Ingest :=
  let (recorder, total, _) := s.recorder.collect s.total
  { s with recorder, total }

/-- Takes in one line. An interval has `interval` lines, but one at least. -/
def readLine (interval : Nat) (s : Ingest) (line : List UInt8) : Except IngestError Ingest := do
  let ⟨recorder, total, lines⟩ := s
  let v ← valueOn (lines + 1) line
  match recorder.record v 1 with
  | (_, .error e) => throw (.unrecordable e)
  | (recorder, .ok ()) =>
    let s : Ingest := ⟨recorder, total, lines + 1⟩
    pure (if s.lines % Nat.max interval 1 = 0 then s.collect else s)

/-- Counts the values on all lines of a text. -/
def run (b : Bounds) (interval : Nat) (bytes : List UInt8) : Except IngestError Histogram := do
  let recorder ← (Recorder.ofBounds b .bits64).mapError .creation
  let total ← (Histogram.ofBounds b .bits64).mapError .creation
  let s ← (Text.lines bytes).foldlM (readLine interval) ⟨recorder, total, 0⟩
  pure s.collect.total

end Ingest

end DynamicRange
