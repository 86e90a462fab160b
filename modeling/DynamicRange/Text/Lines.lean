/-!
# Lines of bytes

Lines end with a line feed, which may stand behind a carriage return. The last line need not have an
end.
-/

namespace DynamicRange.Text

/-- A line whose bytes were collected in reverse, without a carriage return at its end. -/
def endedLine : List UInt8 → List UInt8
  | 0x0D :: bytes => bytes.reverse
  | bytes => bytes.reverse

/-- The lines in a text, when the bytes of the first line that were already read are `line`, in
reverse. -/
def linesFrom (line : List UInt8) : List UInt8 → List (List UInt8)
  | [] => if line.isEmpty then [] else [line.reverse]
  | 0x0A :: bytes => endedLine line :: linesFrom [] bytes
  | byte :: bytes => linesFrom (byte :: line) bytes

/-- The lines in a text, without their ends. -/
def lines (bytes : List UInt8) : List (List UInt8) := linesFrom [] bytes

/-- The characters that bytes encode in UTF-8, if they do. -/
def decode? (bytes : List UInt8) : Option (List Char) :=
  (String.fromUTF8? ⟨bytes.toArray⟩).map String.toList

end DynamicRange.Text
