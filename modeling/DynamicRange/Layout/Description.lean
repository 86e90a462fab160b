import DynamicRange.Layout.Basic

/-!
# Layouts described on one line

Bounds and layouts are described by their fields, in the order in which these are derived.
-/

namespace DynamicRange

/-- A name, and behind it fields with their values in braces. -/
def describeFields (name : String) (fields : List (String × String)) : String :=
  let written := fields.map fun (field, value) => field ++ ": " ++ value
  name ++ " \x7b " ++ ", ".intercalate written ++ " \x7d"

/-- The names and values of the three bounds. -/
def Bounds.describedFields (b : Bounds) : List (String × String) :=
  [("lowest_trackable_value", toString b.lowest),
    ("highest_trackable_value", toString b.highest),
    ("significant_figures", toString b.digits)]

/-- Bounds on one line. -/
def Bounds.describe (b : Bounds) : String := describeFields "BucketBounds" b.describedFields

/-- A layout on one line. -/
def Layout.describe (L : Layout) : String :=
  describeFields "BucketConfig" <| L.describedFields ++
    [("unit_magnitude", toString L.unitMagnitude),
      ("sub_bucket_half_count_magnitude", toString L.halfMagnitude),
      ("sub_bucket_count", toString L.subCount),
      ("sub_bucket_half_count", toString L.halfCount),
      ("sub_bucket_mask", toString L.mask),
      ("bucket_count", toString L.bucketCount),
      ("counts_len", toString L.slotCount)]

end DynamicRange
