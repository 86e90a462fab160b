import DynamicRange.Decimal.Fixed
import DynamicRange.Histogram.Basic
import DynamicRange.Traversal.Cursor

/-!
# The table of a percentile report

A row has four cells: the value, its percentile as a fraction, the samples up to it, and the inverse
of the distance from the percentile to the end. In the aligned form cells are filled up with blanks
on the left to twelve characters and parted by a blank; in the separated form they are parted by
commas.
-/

namespace DynamicRange.Report

/-- How the cells of a row are set. -/
inductive Format where
  /-- In columns, with a summary below them. -/
  | aligned
  /-- With commas between them. -/
  | separated
  deriving DecidableEq, Repr

/-- Cells are set in columns unless it is said otherwise. -/
instance : Inhabited Format := ⟨.aligned⟩

/-- The cells above the columns. -/
def headings : List String := ["Value", "Percentile", "TotalCount", "1/(1-Percentile)"]

/-- The width that cells are filled up to. -/
def cellWidth : Nat := 12

/-- A text filled up with blanks on the left; one that is too wide stays as it is. -/
def fillLeft (text : String) : String := "".pushn ' ' (cellWidth - text.length) ++ text

/-- The cells of the row for an item. Values are divided by `scale` and have as many places as the
layout has digits. -/
def cells (digits : Nat) (scale : Float) (x : Item) : List String :=
  let fraction := x.percentile / 100.0
  [Decimal.fixed digits (countToFloat x.reached / scale),
    Decimal.fixed 6 fraction,
    toString x.cumulative,
    Decimal.fixed 2 (1.0 / (1.0 - fraction))]

/-- The pieces of text that make up a row. -/
def Format.row : Format → List String → List String
  | aligned, cells => (cells.map fillLeft).intersperse " " ++ ["\n"]
  | separated, cells => cells.intersperse "," ++ ["\n"]

/-- The pieces of text above the rows. -/
def Format.head : Format → List String
  | aligned => aligned.row headings ++ ["\n"]
  | separated => separated.row headings

/-- The pieces of a line with two named entries. -/
def summaryLine (firstName first secondName second : String) : List String :=
  ["#[" ++ firstName ++ "= ", fillLeft first, ", " ++ secondName ++ "= ", fillLeft second, "]\n"]

end DynamicRange.Report
