import DynamicRange.Word

/-!
# Integers in text

An integer is written as decimal digits, behind a plus or a minus sign or behind none.
-/

namespace DynamicRange.Text

/-- The number that decimal digits write, if there are digits and nothing else. -/
def digits? (text : List Char) : Option Nat :=
  if !text.isEmpty && text.all Char.isDigit then
    some (text.foldl (fun n c => 10 * n + (c.toNat - '0'.toNat)) 0)
  else
    none

/-- The integer that a text writes, signs allowed. -/
def integer? : List Char → Option Int
  | '+' :: rest => (digits? rest).map Int.ofNat
  | '-' :: rest => (digits? rest).map fun n => -(n : Int)
  | text => (digits? text).map Int.ofNat

/-- The value that a text writes, if it is an integer of 64 bits with a sign. -/
def value? (text : List Char) : Option Int :=
  (integer? text).filter fun n => -0x8000000000000000 ≤ n && n ≤ topValue

end DynamicRange.Text
