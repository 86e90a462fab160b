import DynamicRange.Traversal.Cursor

/-!
# The recorded slots

One item for every slot that holds samples, in the order of values. The traversal ends as soon as
all samples are passed, so that empty slots behind the last recorded one are not visited.
-/

namespace DynamicRange

/-- The result of taking in, one after the other, the items that lie ahead of a cursor. -/
def Cursor.foldRecorded {α : Type} (h : Histogram) (f : α → Item → α) (a : α) (c : Cursor) : α :=
  match _found : c.nextRecorded? h with
  | none => a
  | some (x, c') => c'.foldRecorded h f (f a x)
termination_by c.remaining h.layout
decreasing_by exact Cursor.nextRecorded?_remaining_lt _found

/-- The result of taking in all recorded slots, one after the other. -/
def Histogram.foldRecorded {α : Type} (h : Histogram) (f : α → Item → α) (a : α) : α :=
  (Cursor.start h).foldRecorded h f a

/-- The recorded slots. -/
def Histogram.recorded (h : Histogram) : List Item := (h.foldRecorded Array.push #[]).toList

end DynamicRange
