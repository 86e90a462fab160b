import DynamicRange.Histogram.Record
import Mathlib.Data.Nat.ModEq

/-!
# Recording and resetting, cell by cell

Every recording of a histogram is a list of changes to single cells, and the list depends on the
layout alone, not on what the cells hold (`record_eq`, `recordCorrected_eq`). Resetting a histogram
clears its cells one after the other (`clear_cells`). So an interleaving of recordings and resets
is an interleaving of such steps.

Two kinds of cells are tallies: the counters of the slots and the number of samples. A change adds
to a tally modulo what the tally can hold (`held_apply`), and a clearing takes away all that it
held (`held_clear`).
-/

namespace DynamicRange

/-- A cell that counts: the counter of a slot, or the number of samples. -/
inductive Tally where
  | slot (index : ℕ)
  | total
  deriving DecidableEq

/-- A cell of a histogram. -/
inductive Cell where
  | tally (t : Tally)
  | least
  | greatest
  deriving DecidableEq

/-- The number of different counts a tally can hold. -/
def Tally.limit (w : CounterWidth) : Tally → ℕ
  | slot _ => w.limit
  | total => 2 ^ 64

/-- The count that a change adds to a tally. -/
def CellUpdate.adds (t : Tally) : CellUpdate → ℕ
  | addToSlot index n => if t = .slot index then n else 0
  | addToTotal n => if t = .total then n else 0
  | lowerLeast _ => 0
  | raiseGreatest _ => 0

namespace Layout

/-- Whether a change is to a cell that the histograms of a layout have. -/
def Admits (L : Layout) : CellUpdate → Prop
  | .addToSlot index _ => index < L.slotCount
  | _ => True

/-- The cells of the histograms of a layout, in the order in which a reset clears them. -/
def cells (L : Layout) : List Cell :=
  (List.range L.slotCount).map (fun i => .tally (.slot i)) ++ [.tally .total, .least, .greatest]

/-- The changes that record `n` samples of `v`; none if `v` cannot be recorded. -/
def work (L : Layout) (v : ℤ) (n : ℕ) : List CellUpdate :=
  match L.recording v n with
  | .error _ => []
  | .ok updates => updates

/-- The changes that record samples of `v`, of `v - interval`, and so on down to `interval`. -/
def workDown (L : Layout) (v interval : ℤ) : List CellUpdate :=
  if 0 < interval ∧ interval ≤ v then
    match L.recording v 1 with
    | .error _ => []
    | .ok updates => updates ++ L.workDown (v - interval) interval
  else
    []
termination_by v.toNat
decreasing_by omega

/-- The changes that record a sample of `v` and those that were held up behind it. -/
def workCorrected (L : Layout) (v interval : ℤ) : List CellUpdate :=
  match L.recording v 1 with
  | .error _ => []
  | .ok updates =>
    updates ++ if interval ≤ 0 ∨ v ≤ interval then [] else L.workDown (v - interval) interval

/-- A recording changes only cells that there are. -/
theorem admits_of_recording {L : Layout} {v : ℤ} {n : ℕ} {us : List CellUpdate}
    (h : L.recording v n = .ok us) : ∀ u ∈ us, L.Admits u := by
  unfold recording at h
  split at h
  · cases h
  · split at h
    · cases h
    · next index hslot =>
      have hindex : index < L.slotCount := by
        simp only [slotOf?] at hslot
        split at hslot
        · next hlt =>
          rw [← Option.some.inj hslot]
          exact hlt
        · cases hslot
      cases h
      intro u hu
      simp only [List.append_assoc, List.mem_append, List.mem_cons, List.not_mem_nil,
        or_false] at hu
      -- Only the slot has to be there; all histograms have the other cells.
      rcases hu with (rfl | rfl) | hleast | rfl
      · exact hindex
      · trivial
      · split at hleast
        · cases hleast
        · rw [List.mem_singleton.mp hleast]
          trivial
      · trivial

/-- What records samples of one value changes only cells that there are. -/
theorem admits_of_mem_work {L : Layout} {v : ℤ} {n : ℕ} {u : CellUpdate} (h : u ∈ L.work v n) :
    L.Admits u := by
  unfold work at h
  split at h
  · cases h
  · next hus => exact admits_of_recording hus u h

/-- What records samples of falling values changes only cells that there are. -/
theorem admits_of_mem_workDown {L : Layout} {v interval : ℤ} {u : CellUpdate}
    (h : u ∈ L.workDown v interval) : L.Admits u := by
  fun_induction workDown with
  | case1 v hv e he => cases h
  | case2 v hv us hus ih =>
    rcases List.mem_append.mp h with hfirst | hrest
    · exact admits_of_recording hus u hfirst
    · exact ih hrest
  | case3 => cases h

/-- What records a sample and those held up behind it changes only cells that there are. -/
theorem admits_of_mem_workCorrected {L : Layout} {v interval : ℤ} {u : CellUpdate}
    (h : u ∈ L.workCorrected v interval) : L.Admits u := by
  unfold workCorrected at h
  split at h
  · cases h
  · next hus =>
    rcases List.mem_append.mp h with hfirst | hrest
    · exact admits_of_recording hus u hfirst
    · split at hrest
      · cases hrest
      · exact admits_of_mem_workDown hrest

end Layout

namespace Histogram

/-- What a tally holds. -/
def held (h : Histogram) : Tally → ℕ
  | .slot index => h.count index
  | .total => h.total

/-- A histogram after one of its cells was set to what it holds without samples. -/
def clear (h : Histogram) : Cell → Histogram
  | .tally (.slot index) => { h with slots := h.slots.setIfInBounds index 0 }
  | .tally .total => { h with total := 0 }
  | .least => { h with least := topValue }
  | .greatest => { h with greatest := 0 }

/-- A histogram has the cells that its layout asks for, and counters of a width. -/
structure Framed (L : Layout) (w : CounterWidth) (h : Histogram) : Prop where
  layout : h.layout = L
  width : h.width = w
  size : h.slots.size = L.slotCount

variable {h : Histogram} {L : Layout} {w : CounterWidth}

/-- A histogram without samples has the cells that its layout asks for. -/
theorem ofLayout_framed (L : Layout) (w : CounterWidth) : Framed L w (ofLayout L w) :=
  ⟨rfl, rfl, Array.size_replicate⟩

/-- Changes keep the cells. -/
theorem Framed.apply (hframed : Framed L w h) (u : CellUpdate) : Framed L w (h.apply u) := by
  obtain ⟨hlayout, hwidth, hsize⟩ := hframed
  cases u with
  | addToSlot => exact ⟨hlayout, hwidth, Array.size_modify.trans hsize⟩
  | _ => exact ⟨hlayout, hwidth, hsize⟩

/-- Clearing a cell keeps the cells. -/
theorem Framed.clear (hframed : Framed L w h) (x : Cell) : Framed L w (h.clear x) := by
  obtain ⟨hlayout, hwidth, hsize⟩ := hframed
  match x with
  | .tally (.slot _) => exact ⟨hlayout, hwidth, Array.size_setIfInBounds.trans hsize⟩
  | .tally .total | .least | .greatest => exact ⟨hlayout, hwidth, hsize⟩

/-- A histogram without samples holds nothing. -/
theorem held_ofLayout (L : Layout) (w : CounterWidth) (t : Tally) : (ofLayout L w).held t = 0 := by
  cases t with
  | slot index =>
    simp only [held, count, ofLayout, Array.getD_eq_getD_getElem?, Array.getElem?_replicate]
    split <;> rfl
  | total => rfl

/-- A change adds to a tally, modulo what the tally can hold. -/
theorem held_apply (hframed : Framed L w h) {u : CellUpdate} (hu : L.Admits u) (t : Tally) :
    (h.apply u).held t ≡ h.held t + u.adds t [MOD t.limit w] := by
  obtain ⟨-, rfl, hsize⟩ := hframed
  cases u with
  | addToSlot index n =>
    cases t with
    | slot i =>
      have hindex : index < h.slots.size := hsize.symm ▸ hu
      by_cases hi : i = index
      · -- The counter starts over when it overflows, as the tally does.
        subst hi
        have hnew : (h.apply (.addToSlot i n)).count i = h.width.add (h.count i) n := by
          simp [count, apply, hindex, Array.getElem_modify_self]
        simp only [held, hnew, CellUpdate.adds, if_true]
        exact Nat.mod_modEq _ _
      · have hne : ¬index = i := fun h => hi h.symm
        simpa [held, count, apply, CellUpdate.adds, Array.getElem?_modify, hi, hne] using
          Nat.ModEq.rfl
    | total => exact Nat.ModEq.rfl
  | addToTotal n =>
    cases t with
    | slot i => exact Nat.ModEq.rfl
    | total => exact Nat.mod_modEq _ _
  | lowerLeast | raiseGreatest => cases t <;> exact Nat.ModEq.rfl

/-- Clearing a cell takes away what it held, and leaves the other cells as they are. -/
theorem held_clear (h : Histogram) (x : Cell) (t : Tally) :
    (h.clear x).held t = if x = .tally t then 0 else h.held t := by
  match x, t with
  | .tally (.slot index), .slot i =>
    by_cases hi : index = i
    · subst hi
      simp [held, count, clear]
    · simp [held, count, clear, hi]
  | .tally (.slot _), .total | .tally .total, .slot _ => rfl
  | .tally .total, .total => rfl
  | .least, .slot _ | .least, .total | .greatest, .slot _ | .greatest, .total => rfl

/-- Clearing the slots below an index clears nothing else. -/
theorem foldl_clear_slots (h : Histogram) (n : ℕ) :
    ((List.range n).map fun i => Cell.tally (.slot i)).foldl clear h =
      { h with slots := h.slots.mapIdx fun i count => if i < n then 0 else count } := by
  induction n with
  | zero =>
    have hslots : (h.slots.mapIdx fun _ count => count) = h.slots := by
      ext i hi hi' <;> simp
    simp [hslots]
  | succ n ih =>
    rw [List.range_succ, List.map_append, List.foldl_append, ih]
    simp only [List.map_cons, List.map_nil, List.foldl_cons, List.foldl_nil, clear]
    congr 1
    ext i hi hi'
    · simp
    · have hsize : i < (h.slots.mapIdx fun j count => if j < n then 0 else count).size := by
        simpa using hi
      rw [Array.getElem_setIfInBounds hsize, Array.getElem_mapIdx, Array.getElem_mapIdx]
      -- The slot was cleared before, is cleared now, or is not to be cleared.
      rcases Nat.lt_trichotomy i n with hlt | rfl | hgt
      · rw [if_neg hlt.ne', if_pos hlt, if_pos (hlt.trans (Nat.lt_succ_self n))]
      · rw [if_pos rfl, if_pos (Nat.lt_succ_self i)]
      · rw [if_neg hgt.ne, if_neg hgt.not_gt, if_neg (by omega)]

/-- A reset clears all cells, one after the other. -/
theorem clear_cells (hframed : Framed L w h) : L.cells.foldl clear h = h.reset := by
  rw [Layout.cells, List.foldl_append, foldl_clear_slots]
  simp only [List.foldl_cons, List.foldl_nil, clear, reset]
  congr 1
  ext i hi hi'
  · simp
  · have hlt : i < L.slotCount := by simpa [hframed.size] using hi
    simp [hlt]

/-- A recording of one value makes the changes that its layout names, or it makes none. -/
theorem record_cases (h : Histogram) (v : ℤ) (n : ℕ) :
    (∃ us, h.layout.recording v n = .ok us ∧ h.record v n = (h.applyAll us, .ok ())) ∨
      ∃ e, h.layout.recording v n = .error e ∧ h.record v n = (h, .error e) := by
  unfold record
  rcases hrecording : h.layout.recording v n with e | us
  · exact .inr ⟨e, rfl, rfl⟩
  · exact .inl ⟨us, rfl, rfl⟩

/-- Recording samples of one value makes the changes of its work. -/
theorem record_eq (h : Histogram) (v : ℤ) (n : ℕ) :
    (h.record v n).1 = h.applyAll (h.layout.work v n) := by
  rcases h.record_cases v n with ⟨us, hus, hrecord⟩ | ⟨e, he, hrecord⟩
  · rw [hrecord, Layout.work, hus]
  · rw [hrecord, Layout.work, he]
    rfl

/-- Changes are made one list after the other. -/
theorem applyAll_append (h : Histogram) (us vs : List CellUpdate) :
    h.applyAll (us ++ vs) = (h.applyAll us).applyAll vs :=
  List.foldl_append

/-- Recording samples of falling values makes the changes of their work. -/
theorem recordDown_eq (h : Histogram) (v interval : ℤ) :
    (h.recordDown v interval).1 = h.applyAll (h.layout.workDown v interval) := by
  fun_induction recordDown with
  | case1 h v hv g e hrecord =>
    rw [Layout.workDown, if_pos hv]
    rcases h.record_cases v 1 with ⟨us, hus, hok⟩ | ⟨e', he, herror⟩
    · simp [hok] at hrecord
    · rw [herror] at hrecord
      rw [he, ← (Prod.mk.inj hrecord).1]
      rfl
  | case2 h v hv g hrecord ih =>
    rw [Layout.workDown, if_pos hv]
    rcases h.record_cases v 1 with ⟨us, hus, hok⟩ | ⟨e', he, herror⟩
    · rw [hok] at hrecord
      -- The layout stays the same, so that the work goes on where this recording stopped.
      rw [ih, hus, applyAll_append, ← (Prod.mk.inj hrecord).1, h.applyAll_layout]
    · simp [herror] at hrecord
  | case3 h v hv =>
    rw [Layout.workDown, if_neg hv]
    rfl

/-- Recording a sample with those held up behind it makes the changes of its work. -/
theorem recordCorrected_eq (h : Histogram) (v interval : ℤ) :
    (h.recordCorrected v interval).1 = h.applyAll (h.layout.workCorrected v interval) := by
  unfold recordCorrected Layout.workCorrected
  rcases h.record_cases v 1 with ⟨us, hus, hok⟩ | ⟨e, he, herror⟩
  · rw [hok, hus]
    simp only
    split
    · rw [List.append_nil]
    · rw [recordDown_eq, applyAll_append, h.applyAll_layout]
  · rw [herror, he]
    rfl

end Histogram

end DynamicRange
