import DynamicRange.Histogram.Basic

/-!
# Recording

A recording changes four cells of a histogram: the counter of the slot, the number of samples, and
the least and greatest value. Each change reads and writes one cell, so that a recording is a list
of changes (`Layout.recording`) and its effect is theirs, one after the other
(`Histogram.applyAll`).
-/

namespace DynamicRange

/-- Why a value is not recorded. -/
inductive RecordError where
  /-- The value is negative. -/
  | negative
  /-- The value lies past the last slot. -/
  | outOfRange
  deriving DecidableEq, Repr

/-- The sentence that reports a record error. -/
def RecordError.message : RecordError → String
  | .negative => "value must not be negative"
  | .outOfRange => "value is outside the histogram's trackable range"

/-- The short name of a record error. -/
def RecordError.name : RecordError → String
  | .negative => "NegativeValue"
  | .outOfRange => "ValueOutOfRange"

/-- What is said of a value that its owner held to be recordable and that was not. -/
def RecordError.complaint (e : RecordError) : String :=
  "value should be within the histogram's range: " ++ e.name

/-- A change to one cell of a histogram. -/
inductive CellUpdate where
  /-- The counter of a slot grows by a count. -/
  | addToSlot (index count : Nat)
  /-- The number of samples grows by a count. -/
  | addToTotal (count : Nat)
  /-- The least value is lowered to a value, unless it is lower already. -/
  | lowerLeast (value : Nat)
  /-- The greatest value is raised to a value, unless it is higher already. -/
  | raiseGreatest (value : Nat)
  deriving DecidableEq, Repr

/-- The changes by which `n` samples of `v` are recorded, in order. Zero does not lower the least
value. -/
def Layout.recording (L : Layout) (v : Int) (n : Nat) : Except RecordError (List CellUpdate) :=
  if v < 0 then
    .error .negative
  else
    match L.slotOf? v.toNat with
    | none => .error .outOfRange
    | some index =>
      let least := if v = 0 then [] else [.lowerLeast v.toNat]
      .ok ([.addToSlot index n, .addToTotal n] ++ least ++ [.raiseGreatest v.toNat])

namespace Histogram

/-- A histogram after a change to one of its cells. -/
def apply (h : Histogram) : CellUpdate → Histogram
  | .addToSlot index n => { h with slots := h.slots.modify index (h.width.add · n) }
  | .addToTotal n => { h with total := wrapTotal (h.total + n) }
  | .lowerLeast v => { h with least := Nat.min h.least v }
  | .raiseGreatest v => { h with greatest := Nat.max h.greatest v }

/-- A histogram after a list of changes. -/
def applyAll (h : Histogram) (updates : List CellUpdate) : Histogram := updates.foldl apply h

/-- Records `n` samples of `v`. -/
def record (h : Histogram) (v : Int) (n : Nat) : Histogram × Except RecordError Unit :=
  match h.layout.recording v n with
  | .error e => (h, .error e)
  | .ok updates => (h.applyAll updates, .ok ())

/-- Records one sample of `v`, of `v - interval`, and so on down to `interval`. It stops at the
first value that cannot be recorded. -/
def recordDown (h : Histogram) (v interval : Int) : Histogram × Except RecordError Unit :=
  if 0 < interval ∧ interval ≤ v then
    match h.record v 1 with
    | (h, .error e) => (h, .error e)
    | (h, .ok ()) => h.recordDown (v - interval) interval
  else
    (h, .ok ())
termination_by v.toNat
decreasing_by omega

/-- Records a sample of `v` that was expected every `interval`. If it took longer, the samples that
were held up behind it are recorded too: `v` less one interval, less two, and so on, as long as
they come to an interval or more. -/
def recordCorrected (h : Histogram) (v interval : Int) : Histogram × Except RecordError Unit :=
  match h.record v 1 with
  | (h, .error e) => (h, .error e)
  | (h, .ok ()) =>
    if interval ≤ 0 ∨ v ≤ interval then (h, .ok ()) else h.recordDown (v - interval) interval

/-- Records a sample of a value that the caller holds to be recordable, and complains if it is
not. -/
def insist (h : Histogram) (v : Int) : Histogram × Except String Unit :=
  let (h, outcome) := h.record v 1
  (h, outcome.mapError RecordError.complaint)

/-- Forgets all samples. -/
def reset (h : Histogram) : Histogram :=
  { h with total := 0, least := topValue, greatest := 0, slots := h.slots.map fun _ => 0 }

/-- A change to a cell leaves the layout as it is. -/
theorem apply_layout (h : Histogram) (u : CellUpdate) : (h.apply u).layout = h.layout := by
  cases u <;> rfl

/-- Changes to cells leave the layout as it is. -/
theorem applyAll_layout (h : Histogram) (us : List CellUpdate) :
    (h.applyAll us).layout = h.layout := by
  induction us generalizing h with
  | nil => rfl
  | cons u us ih => exact (ih (h.apply u)).trans (h.apply_layout u)

/-- A recording leaves the layout as it is. -/
theorem record_layout (h : Histogram) (v : Int) (n : Nat) :
    (h.record v n).1.layout = h.layout := by
  unfold record
  split
  · rfl
  · exact h.applyAll_layout _

end Histogram

end DynamicRange
