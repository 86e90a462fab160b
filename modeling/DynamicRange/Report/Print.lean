import DynamicRange.Histogram.Statistics
import DynamicRange.Report.Sink
import DynamicRange.Report.Table
import DynamicRange.Traversal.Percentile

/-!
# Printing a percentile report

A report is printed piece by piece, so that it stops at the first piece that the sink refuses, also
if its rows would never end. The heading is printed before the first row is sought.

Whether the rows end is left open by the loop that prints them (`printRows?`). Where they do not end
and the sink takes all of them, there is no result.
-/

namespace DynamicRange.Report

/-- Prints the row of the next item that a traversal gives. It leaves the state to go on from, or
the way in which the printing of the rows ends. -/
def printRow {σ : Type} (next? : σ → Option (Item × σ)) (row : Item → List String) :
    σ × Sink → (σ × Sink) ⊕ EStateM.Result PrintError Sink Unit
  | (t, s) =>
    match next? t with
    | some (x, t) =>
      match Sink.writeAll (row x) s with
      | .ok () s => .inl (t, s)
      | .error e s => .inr (.error e s)
    | none => .inr (.ok () s)

/-- Prints a row for each item that a traversal gives from a state on. -/
def printRows? {σ : Type} (next? : σ → Option (Item × σ)) (row : Item → List String) (t : σ)
    (s : Sink) : Option (EStateM.Result PrintError Sink Unit) :=
  repeatM (fun state => some (printRow next? row state)) (t, s)

/-- Prints the rows of the items that a traversal by percentile levels gives. -/
def printRows (h : Histogram) (scale : Float) (format : Format) (t : PercentileLevels) :
    Printing Unit := fun s =>
  let row := fun x => format.row (cells h.layout.digits scale x)
  (printRows? (PercentileLevels.next? h) row t s).getD (.error .unfinished s)

/-- The pieces of text below the rows. -/
def summary (h : Histogram) (scale : Float) : Format → List String
  | .aligned =>
    summaryLine "Mean    " (Decimal.fixed 3 (h.mean / scale))
        "StdDeviation   " (Decimal.fixed 3 (h.deviation / scale)) ++
      summaryLine "Max     " (Decimal.fixed 3 (countToFloat h.max / scale))
        "Total count    " (toString h.total) ++
      summaryLine "Buckets " (toString h.layout.bucketCount)
        "SubBuckets     " (toString h.layout.subCount)
  | .separated => []

/-- Prints the percentile report of a histogram, with `ticks` rows to every half distance. -/
def print (h : Histogram) (ticks : Nat) (scale : Float) (format : Format) : Printing Unit := do
  Sink.writeAll format.head
  match PercentileLevels.start h ticks with
  | .error e => throw (.argument e)
  | .ok t => printRows h scale format t
  Sink.writeAll (summary h scale format)
  Sink.flush

/-- The text of a percentile report that no sink bounds. -/
def render (h : Histogram) (ticks : Nat) (scale : Float) (format : Format) :
    Except PrintError String :=
  match print h ticks scale format (.empty none false) with
  | .ok () s => .ok s.taken
  | .error e _ => .error e

end DynamicRange.Report
