/-!
# Arguments of traversals

The conditions that the arguments of traversals must meet.
-/

namespace DynamicRange

/-- Which condition the argument of a traversal fails. -/
inductive ArgumentError where
  /-- There is no tick in half the distance to the end. -/
  | ticksNotPositive
  /-- The width of a linear step is not positive. -/
  | widthNotPositive
  /-- The width of the first logarithmic step is not positive. -/
  | firstWidthNotPositive
  /-- Logarithmic steps do not grow. -/
  | baseNotAboveOne
  deriving DecidableEq, Repr

/-- The sentence that reports an argument error. -/
def ArgumentError.message : ArgumentError → String
  | .ticksNotPositive => "Ticks per half distance must be > 0"
  | .widthNotPositive => "value_units_per_bucket must be > 0"
  | .firstWidthNotPositive => "value_units_in_first_bucket must be > 0"
  | .baseNotAboveOne => "log_base must be > 1.0"

end DynamicRange
