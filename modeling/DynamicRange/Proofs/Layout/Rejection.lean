import DynamicRange.Proofs.Layout.Derivation
import DynamicRange.Recorder

/-!
# Why bounds are refused

Bounds may have several faults at once, and are refused for the first of them in a fixed order
(`Bounds.fault?`). `ofBounds_judged` says that layouts, histograms and recorders are all made or
refused by this rule, in exact arithmetic, with one exception.

The exception comes from the doubling of the lowest value, which is held at `topValue`. If the
highest value is `topValue` and less than twice the lowest, that fault is overlooked. Such bounds
are refused nevertheless, because a lowest value of that size leaves no room for a bucket
(`Bounds.has_digitsBeyondLowest`), and this is the fault that is told then.
-/

namespace DynamicRange

namespace Bounds

/-- Whether bounds have the fault that a creation error tells, in exact arithmetic. -/
def Has (b : Bounds) : CreationError → Prop
  | .lowestNotPositive => b.lowest < 1
  | .digitsOutOfRange => b.digits < 1 ∨ 5 < b.digits
  | .highestBelowTwiceLowest => b.highest < 2 * b.lowest
  | .digitsBeyondLowest => 63 < Nat.log 2 b.lowest.toNat + Nat.clog 2 (2 * 10 ^ b.digits)
  | .allocationFailed => False

instance (b : Bounds) : DecidablePred b.Has
  | .lowestNotPositive => inferInstanceAs (Decidable (_ < _))
  | .digitsOutOfRange => inferInstanceAs (Decidable (_ ∨ _))
  | .highestBelowTwiceLowest => inferInstanceAs (Decidable (_ < _))
  | .digitsBeyondLowest => inferInstanceAs (Decidable (_ < _))
  | .allocationFailed => inferInstanceAs (Decidable False)

/-- The faults of bounds, in the order in which they are looked for. -/
def faults : List CreationError :=
  [.lowestNotPositive, .digitsOutOfRange, .highestBelowTwiceLowest, .digitsBeyondLowest]

/-- The first fault of bounds, if they have one. -/
def fault? (b : Bounds) : Option CreationError := faults.find? (b.Has ·)

/-- The fault that bounds are refused for, if they are refused. A highest value at the end of the
values is not seen to be below twice the lowest one. -/
def told? (b : Bounds) : Option CreationError :=
  if topValue ≤ b.highest ∧ b.fault? = some .highestBelowTwiceLowest then
    some .digitsBeyondLowest
  else
    b.fault?

/-- Whether something is made of bounds or refused for a fault, as a layout, as a histogram and as
a recorder. -/
structure Judged (b : Bounds) (fault? : Option CreationError) : Prop where
  /-- The layout is the one that the bounds lead to. -/
  layout : Layout.ofBounds b = fault?.elim (.ok b.layout) .error
  /-- A histogram is made of that layout, with counters of any size, and has no samples. -/
  histogram : ∀ w, Histogram.ofBounds b w = fault?.elim (.ok (.ofLayout b.layout w)) .error
  /-- A recorder is made of that histogram. -/
  recorder : ∀ w, Recorder.ofBounds b w =
    fault?.elim (.ok (.ofHistogram (.ofLayout b.layout w))) .error

/-- What becomes of a layout becomes of a histogram and of a recorder. -/
theorem Judged.of_layout {b : Bounds} {fault? : Option CreationError}
    (hlayout : Layout.ofBounds b = fault?.elim (.ok b.layout) .error) : b.Judged fault? := by
  have hhistogram : ∀ w,
      Histogram.ofBounds b w = fault?.elim (.ok (.ofLayout b.layout w)) .error := by
    intro w
    rw [Histogram.ofBounds, hlayout]
    cases fault? <;> rfl
  refine ⟨hlayout, hhistogram, fun w => ?_⟩
  rw [Recorder.ofBounds, hhistogram]
  cases fault? <;> rfl

/-- The first fault, looked for one after the other. -/
theorem fault?_eq (b : Bounds) : b.fault? =
    if b.Has .lowestNotPositive then some .lowestNotPositive
    else if b.Has .digitsOutOfRange then some .digitsOutOfRange
    else if b.Has .highestBelowTwiceLowest then some .highestBelowTwiceLowest
    else if b.Has .digitsBeyondLowest then some .digitsBeyondLowest
    else none := by
  simp only [fault?, faults, List.find?_cons, List.find?_nil]
  split_ifs <;> simp_all

/-- The digits ask for too much exactly if the first bucket ends past the values. -/
theorem has_digitsBeyondLowest_iff (b : Bounds) :
    b.Has .digitsBeyondLowest ↔ 63 < b.unitMagnitude + b.halfMagnitude + 1 := by
  rw [b.unitMagnitude_eq, add_assoc, b.halfMagnitude_add_one]
  rfl

/-- A lowest value of more than half of all values leaves no room for a bucket. -/
theorem has_digitsBeyondLowest {b : Bounds} (hdigits : 1 ≤ b.digits)
    (hlowest : topValue < 2 * b.lowest) : b.Has .digitsBeyondLowest := by
  rw [has_digitsBeyondLowest_iff]
  by_contra hfits
  have := two_mul_lowest_le hdigits (not_lt.mp hfits)
  omega

/-- The exception arises where the highest value is the first fault, at the end of the values. Then
the lowest value leaves no room for a bucket. -/
theorem overlooked_iff (b : Bounds) :
    topValue ≤ b.highest ∧ b.fault? = some .highestBelowTwiceLowest ↔
      topValue ≤ b.highest ∧ ¬b.Has .lowestNotPositive ∧ ¬b.Has .digitsOutOfRange ∧
        b.Has .highestBelowTwiceLowest ∧ b.Has .digitsBeyondLowest := by
  have hroom : topValue ≤ b.highest → b.Has .highestBelowTwiceLowest → ¬b.Has .digitsOutOfRange →
      b.Has .digitsBeyondLowest := by
    intro htop hbelow hdigits
    simp only [Has] at hbelow hdigits
    exact has_digitsBeyondLowest (by omega) (by omega)
  rw [fault?_eq]
  split_ifs <;> simp_all

/-- A layout is refused for its first fault, but that the highest value is below twice the lowest is
only seen if it is not at the end of the values. -/
theorem ofBounds_eq_of_has (b : Bounds) : Layout.ofBounds b =
    if b.Has .lowestNotPositive then .error .lowestNotPositive
    else if b.Has .digitsOutOfRange then .error .digitsOutOfRange
    else if b.Has .highestBelowTwiceLowest ∧ b.highest < topValue then
      .error .highestBelowTwiceLowest
    else if b.Has .digitsBeyondLowest then .error .digitsBeyondLowest
    else .ok b.layout := by
  rw [Layout.ofBounds]
  simp only [lt_min_iff, ← has_digitsBeyondLowest_iff]
  rfl

/-- A layout is refused for the fault that is told. -/
theorem ofBounds_eq (b : Bounds) :
    Layout.ofBounds b = b.told?.elim (.ok b.layout) .error := by
  rw [ofBounds_eq_of_has, told?]
  by_cases hexception : topValue ≤ b.highest ∧ b.fault? = some .highestBelowTwiceLowest
  · obtain ⟨htop, hlowest, hdigits, -, hbeyond⟩ := b.overlooked_iff.mp hexception
    rw [if_pos hexception, if_neg hlowest, if_neg hdigits, if_neg fun h => (not_lt.mpr htop) h.2,
      if_pos hbeyond]
    rfl
  · -- Now the fault of the highest value is seen where it is the first one.
    have hseen : ¬b.Has .lowestNotPositive → ¬b.Has .digitsOutOfRange →
        b.Has .highestBelowTwiceLowest → b.highest < topValue := by
      intro hlowest hdigits hbelow
      by_contra htop
      exact hexception ⟨not_lt.mp htop, by
        rw [fault?_eq, if_neg hlowest, if_neg hdigits, if_pos hbelow]⟩
    rw [if_neg hexception, fault?_eq]
    split_ifs <;> first | rfl | (exfalso; tauto)

end Bounds

namespace Layout

/-- Layouts, histograms and recorders are refused for the first fault of their bounds and made if
there is none, except that bounds whose highest value is at the end of the values and less than
twice the lowest are refused for their digits. No refusal tells a fault that is not there. -/
theorem ofBounds_judged (b : Bounds) :
    b.Judged b.told? ∧ (b.told? = none ↔ b.fault? = none) ∧ ∀ e, b.told? = some e → b.Has e := by
  refine ⟨.of_layout b.ofBounds_eq, ?_, fun e he => ?_⟩
  · rw [Bounds.told?]
    split_ifs with hexception
    · simp [hexception.2]
    · rfl
  · rw [Bounds.told?] at he
    split_ifs at he with hexception
    · rw [← Option.some.inj he]
      exact ((b.overlooked_iff).mp hexception).2.2.2.2
    · simpa using List.find?_some he

/-- Bounds with three faults are refused for the first of them. -/
theorem faulty_judged :
    let b : Bounds := ⟨2 ^ 60, 2 ^ 60, 6⟩
    b.Has .digitsOutOfRange ∧ b.Has .highestBelowTwiceLowest ∧ b.Has .digitsBeyondLowest ∧
      b.Judged (some .digitsOutOfRange) := by
  intro b
  have htold : b.told? = some .digitsOutOfRange := by decide +kernel
  obtain ⟨hjudged, -, htrue⟩ := ofBounds_judged b
  rw [htold] at hjudged
  exact ⟨htrue _ htold, by decide, by decide +kernel, hjudged⟩

/-- Between a lowest value of `2 ^ 62` and a highest value of `2 ^ 63 - 1` there is not the double,
but it is for their digits that these bounds are refused. -/
theorem ofBounds_overlooked :
    let b : Bounds := ⟨2 ^ 62, 2 ^ 63 - 1, 1⟩
    b.highest ≤ topValue ∧ b.highest < 2 * b.lowest ∧
      b.fault? = some .highestBelowTwiceLowest ∧
      ofBounds b = .error .digitsBeyondLowest ∧
      Histogram.ofBounds b .bits64 = .error .digitsBeyondLowest ∧
      Recorder.ofBounds b .bits64 = .error .digitsBeyondLowest ∧ ¬b.Judged b.fault? := by
  have hfault : Bounds.fault? ⟨2 ^ 62, 2 ^ 63 - 1, 1⟩ = some .highestBelowTwiceLowest := by
    decide +kernel
  have hlayout : ofBounds ⟨2 ^ 62, 2 ^ 63 - 1, 1⟩ = .error .digitsBeyondLowest := by
    decide +kernel
  refine ⟨by decide, by decide, hfault, hlayout, ?_, ?_, fun hjudged => ?_⟩
  · rw [Histogram.ofBounds, hlayout]
    rfl
  · rw [Recorder.ofBounds, Histogram.ofBounds, hlayout]
    rfl
  · have hseen := hjudged.layout
    rw [hfault, hlayout] at hseen
    simp at hseen

end Layout

end DynamicRange
