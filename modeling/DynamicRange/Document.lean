/-!
# Documents

The values of a structured document: what a layout is written to and read from. A number written
with a fraction or an exponent is a `real` even where its value is whole.
-/

namespace DynamicRange

/-- A value in a document. -/
inductive Document where
  | null
  | bool (b : Bool)
  | integer (n : Int)
  | real (x : Float)
  | text (s : String)
  | list (items : List Document)
  /-- Named members, in the order in which they were written. -/
  | record (members : List (String × Document))

namespace Document

/-- The member of a record that has a name, if there is just one. -/
def member? (members : List (String × Document)) (name : String) : Option Document :=
  match members.filter (·.1 = name) with
  | [(_, value)] => some value
  | _ => none

/-- The integer that a value is, if it lies between `low` and `high`. -/
def integerWithin? (low high : Int) : Document → Option Int
  | integer n => if low ≤ n ∧ n ≤ high then some n else none
  | _ => none

end Document

end DynamicRange
