import DynamicRange.Histogram.Record
import DynamicRange.Traversal.Recorded

/-!
# Merging

A histogram takes in another one by recording every recorded slot of it, with its count, at its
lowest value. So the two may differ in layout and in the size of their counters. The samples of a
slot are dropped, and counted as dropped, if their number does not fit the counters or if the lowest
value does not fit the layout.

`Histogram.mergeSelf` merges a histogram into itself: the slots are read while they grow.
-/

namespace DynamicRange

namespace Histogram

/-- Takes in the samples of one item of another histogram; gives the number of samples dropped
with those of this item. -/
def absorb (h : Histogram) (dropped : Nat) (x : Item) : Histogram × Nat :=
  if h.width.fits x.count then
    match h.record x.lowest x.count with
    | (h, .ok ()) => (h, dropped)
    | (h, .error _) => (h, wrapTotal (dropped + x.count))
  else
    (h, wrapTotal (dropped + x.count))

/-- Takes in the samples of another histogram; gives the number of samples dropped. -/
def merge (h source : Histogram) : Histogram × Nat :=
  source.foldRecorded (fun (h, dropped) x => h.absorb dropped x) (h, 0)

/-- Taking in an item leaves the layout as it is. -/
theorem absorb_layout (h : Histogram) (dropped : Nat) (x : Item) :
    (h.absorb dropped x).1.layout = h.layout := by
  unfold absorb
  split
  · have kept := h.record_layout x.lowest x.count
    split
    · next recorded => rwa [recorded] at kept
    · next refused => rwa [refused] at kept
  · rfl

/-- Takes in its own slots from a cursor on. -/
def mergeSelfFrom (h : Histogram) (c : Cursor) (dropped : Nat) : Histogram × Nat :=
  match _found : c.nextRecorded? h with
  | none => (h, dropped)
  | some (x, c') =>
    let grown := h.absorb dropped x
    mergeSelfFrom grown.1 c' grown.2
termination_by c.remaining h.layout
decreasing_by
  rw [absorb_layout]
  exact Cursor.nextRecorded?_remaining_lt _found

/-- Takes in the samples that it holds itself; gives the number of samples dropped. -/
def mergeSelf (h : Histogram) : Histogram × Nat := h.mergeSelfFrom (Cursor.start h) 0

end Histogram

end DynamicRange
