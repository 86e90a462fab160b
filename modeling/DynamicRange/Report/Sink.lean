import DynamicRange.Traversal.Argument

/-!
# Sinks

A sink takes in text piece by piece. It may take a bounded number of bytes only: then it refuses the
first piece that would go past the bound, and keeps what it took before.
-/

namespace DynamicRange

/-- Why a report is not printed to the end. -/
inductive PrintError where
  /-- The sink refused a piece of text. -/
  | refused
  /-- The sink took all pieces and then failed to pass them on. -/
  | unflushed
  /-- The rows of the report cannot be made. -/
  | argument (reason : ArgumentError)
  /-- There is no end to the rows. -/
  | unfinished
  deriving DecidableEq, Inhabited, Repr

/-- A place where text goes. -/
structure Sink where
  /-- The number of bytes that are taken in all; no bound if none. -/
  capacity : Option Nat
  /-- Whether passing on what was taken fails. -/
  flushFails : Bool
  /-- The text taken so far. -/
  taken : String
  deriving Inhabited

/-- Printing to a sink: it changes the sink, and may fail. -/
abbrev Printing := EStateM PrintError Sink

namespace Sink

/-- A sink that has taken nothing yet. -/
def empty (capacity : Option Nat) (flushFails : Bool) : Sink := ⟨capacity, flushFails, ""⟩

/-- Whether a sink takes a piece of text. -/
def accepts (s : Sink) (piece : String) : Bool :=
  s.capacity.all (s.taken.utf8ByteSize + piece.utf8ByteSize ≤ ·)

/-- Hands a piece of text to the sink. -/
def write (piece : String) : Printing Unit := fun s =>
  if s.accepts piece then
    let ⟨capacity, flushFails, taken⟩ := s
    .ok () ⟨capacity, flushFails, taken ++ piece⟩
  else
    .error .refused s

/-- Hands pieces of text to the sink, one after the other. -/
def writeAll : List String → Printing Unit
  | [] => pure ()
  | piece :: pieces => do
    write piece
    writeAll pieces

/-- Makes the sink pass on what it took. -/
def flush : Printing Unit := fun s => if s.flushFails then .error .unflushed s else .ok () s

end Sink

end DynamicRange
