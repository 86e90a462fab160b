import DynamicRange.Document
import DynamicRange.Layout.Basic

/-!
# Layouts in documents

A layout is written as the three bounds it was derived from, and derived anew when it is read. So
a document cannot bring a layout whose slots do not match its bounds.

How bounds are written to a document and read from it may differ from one kind of document to the
next, so it is left open (`Layout.toDocumentWith`, `Layout.ofDocumentWith`). `Bounds.toDocument` and
`Bounds.ofDocument?` do it for those that are written as text.
-/

namespace DynamicRange

/-- Why a document gives no layout. -/
inductive DocumentError where
  /-- The document does not give three bounds. -/
  | unreadable
  /-- The bounds that it gives serve no layout. -/
  | rejected (reason : CreationError)
  deriving DecidableEq, Repr

namespace Bounds

/-- Bounds as a record of three integers. -/
def toDocument (b : Bounds) : Document :=
  .record [
    ("lowest_trackable_value", .integer b.lowest),
    ("highest_trackable_value", .integer b.highest),
    ("significant_figures", .integer b.digits)]

/-- The bounds given by three values: two integers of 64 bits with a sign and one of 8 bits
without. -/
def ofParts? (lowest highest digits : Document) : Option Bounds := do
  let lowest ← lowest.integerWithin? (-0x8000000000000000) topValue
  let highest ← highest.integerWithin? (-0x8000000000000000) topValue
  let digits ← digits.integerWithin? 0 255
  some ⟨lowest, highest, digits.toNat⟩

/-- The bounds in a document: a record with just one member of each of their names, whatever else it
has, or a list of just the three values. -/
def ofDocument? : Document → Option Bounds
  | .record members => do
    ofParts? (← Document.member? members "lowest_trackable_value")
      (← Document.member? members "highest_trackable_value")
      (← Document.member? members "significant_figures")
  | .list [lowest, highest, digits] => ofParts? lowest highest digits
  | _ => none

end Bounds

namespace Layout

/-- A layout in a document, as its bounds are written. -/
def toDocumentWith (write : Bounds → Document) (L : Layout) : Document := write L.toBounds

/-- The layout in a document, derived from the bounds that are read. -/
def ofDocumentWith (read? : Document → Option Bounds) (d : Document) :
    Except DocumentError Layout :=
  match read? d with
  | none => .error .unreadable
  | some b => (ofBounds b).mapError .rejected

/-- A layout as the record of its bounds. -/
def toDocument (L : Layout) : Document := L.toDocumentWith Bounds.toDocument

/-- The layout in a document that gives its bounds in a record or a list. -/
def ofDocument (d : Document) : Except DocumentError Layout := ofDocumentWith Bounds.ofDocument? d

end Layout

end DynamicRange
