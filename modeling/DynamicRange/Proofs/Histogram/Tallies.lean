import DynamicRange.Histogram.Query
import DynamicRange.Proofs.Histogram.Recordings
import Mathlib.Algebra.BigOperators.Intervals
import Mathlib.Algebra.BigOperators.ModEq
import Mathlib.Data.Multiset.Count

/-!
# What tallies hold

A tally holds what changes added to it, modulo what it can hold (`held_applyAll`), and never more
than it can hold (`Bounded`). What the changes of a recording add is said by its samples alone: each
of them is one more in its slot, and one more in all (`Recording.sum_adds_work`).

Counts of values are sums over runs of slots (`countIn_eq`). Over samples such a sum counts those
whose index lies in the run (`sum_countP_eq`), so that the sums over slots and the counts of samples
by their index are the same.
-/

namespace DynamicRange

/-- The samples that a tally is to count. -/
def Layout.tally (L : Layout) (s : Multiset ℕ) : Tally → ℕ
  | .slot i => s.countP fun x => L.slotOf? x = some i
  | .total => s.card

/-- A counter holds some count. -/
theorem CounterWidth.limit_pos (w : CounterWidth) : 0 < w.limit := by cases w <;> decide

/-- Totals are kept to at least as many bits as counters. -/
theorem CounterWidth.limit_dvd (w : CounterWidth) : w.limit ∣ 2 ^ 64 := by cases w <;> decide

/-- A counter of some bits holds a count for each pattern of them. -/
theorem CounterWidth.two_pow_bits (w : CounterWidth) : 2 ^ w.bits = w.limit := by cases w <;> rfl

/-- A tally holds some count. -/
theorem Tally.limit_pos (w : CounterWidth) (t : Tally) : 0 < t.limit w := by
  cases t with
  | slot i => exact w.limit_pos
  | total => exact Nat.two_pow_pos 64

/-! ## Sums over runs -/

/-- The sum of some entries of a list, an entry past the end counting as zero. -/
theorem sum_take_drop (xs : List ℕ) (start n : ℕ) :
    ((xs.drop start).take n).sum = ∑ i ∈ Finset.range n, xs.getD (start + i) 0 := by
  induction n with
  | zero => rfl
  | succ n ih =>
    rw [List.take_add_one, List.sum_append, ih, Finset.sum_range_succ, List.getElem?_drop,
      List.getD_eq_getElem?_getD]
    rcases xs[start + n]? with _ | x <;> simp

/-- The elements that a function takes into a run, counted index by index. -/
theorem sum_countP_eq (s : Multiset ℕ) (f : ℕ → ℕ) (start stop : ℕ) :
    ∑ i ∈ Finset.Ico start stop, s.countP (f · = i) =
      s.countP fun x => start ≤ f x ∧ f x < stop := by
  -- One more element is counted at one index at most, which is in the run or not.
  induction s using Multiset.induction_on with
  | empty => simp
  | cons x s ih => simp [Multiset.countP_cons, Finset.sum_add_distrib, ih]

namespace Histogram

variable {h : Histogram} {L : Layout} {w : CounterWidth}

/-- The samples in a run of slots are the sum of the counts. -/
theorem countIn_eq (h : Histogram) (start stop : ℕ) :
    h.countIn start stop = wrapTotal (∑ i ∈ Finset.Ico start stop, h.count i) := by
  rw [countIn, ← Array.foldl_toList, ← List.sum_eq_foldl, Array.toList_extract,
    List.extract_eq_take_drop, sum_take_drop, Finset.sum_Ico_eq_sum_range]
  simp only [count, Array.getD_eq_getD_getElem?, List.getD_eq_getElem?_getD,
    Array.getElem?_toList]

/-! ## Tallies after changes -/

/-- Changes keep the cells. -/
theorem Framed.applyAll (hframed : Framed L w h) (us : List CellUpdate) :
    Framed L w (h.applyAll us) := by
  induction us generalizing h with
  | nil => exact hframed
  | cons u us ih => exact ih (hframed.apply u)

/-- Changes add to a tally, modulo what the tally can hold. -/
theorem held_applyAll (hframed : Framed L w h) {us : List CellUpdate} (hus : ∀ u ∈ us, L.Admits u)
    (t : Tally) :
    (h.applyAll us).held t ≡ h.held t + (us.map (·.adds t)).sum [MOD t.limit w] := by
  induction us generalizing h with
  | nil => exact Nat.ModEq.rfl
  | cons u us ih =>
    obtain ⟨hu, hrest⟩ := List.forall_mem_cons.mp hus
    calc (h.applyAll (u :: us)).held t
        ≡ (h.apply u).held t + (us.map (·.adds t)).sum [MOD t.limit w] :=
          ih (hframed.apply u) hrest
      _ ≡ h.held t + u.adds t + (us.map (·.adds t)).sum [MOD t.limit w] :=
          (held_apply hframed hu t).add_right _
      _ = h.held t + ((u :: us).map (·.adds t)).sum := by
          rw [List.map_cons, List.sum_cons, Nat.add_assoc]

/-- Every tally holds a count that it can hold. -/
def Bounded (h : Histogram) : Prop := ∀ t, h.held t < t.limit h.width

/-- A histogram without samples holds nothing. -/
theorem ofLayout_bounded (L : Layout) (w : CounterWidth) : (ofLayout L w).Bounded := fun t => by
  rw [held_ofLayout]
  exact t.limit_pos w

/-- A change leaves a count that the tally can hold. -/
theorem Bounded.apply (hbounded : h.Bounded) (u : CellUpdate) : (h.apply u).Bounded := by
  intro t
  have ht := hbounded t
  cases u with
  | addToSlot index n =>
    cases t with
    | slot i =>
      by_cases hi : index = i
      · by_cases hsize : index < h.slots.size
        · subst hi
          have hnew : (h.apply (.addToSlot index n)).count index =
              h.width.add (h.count index) n := by
            simp [count, Histogram.apply, hsize, Array.getElem_modify_self]
          rw [held, hnew]
          exact Nat.mod_lt _ h.width.limit_pos
        · -- There is no such slot.
          have hnone : (h.apply (.addToSlot index n)).count i = 0 := by
            simp [count, Histogram.apply, hi ▸ hsize]
          rw [held, hnone]
          exact h.width.limit_pos
      · simpa [held, count, Histogram.apply, Array.getElem?_modify, hi] using ht
    | total => exact ht
  | addToTotal n =>
    cases t with
    | slot i => exact ht
    | total => exact Nat.mod_lt _ (Nat.two_pow_pos 64)
  | lowerLeast | raiseGreatest => cases t <;> exact ht

/-- Changes leave a count that the tally can hold. -/
theorem Bounded.applyAll (hbounded : h.Bounded) (us : List CellUpdate) :
    (h.applyAll us).Bounded := by
  induction us generalizing h with
  | nil => exact hbounded
  | cons u us ih => exact ih (hbounded.apply u)

end Histogram

/-! ## Tallies of samples -/

namespace Layout

variable {L : Layout}

theorem tally_zero (L : Layout) (t : Tally) : L.tally 0 t = 0 := by cases t <;> rfl

theorem tally_add (L : Layout) (s s' : Multiset ℕ) (t : Tally) :
    L.tally (s + s') t = L.tally s t + L.tally s' t := by
  cases t with
  | slot i => exact Multiset.countP_add ..
  | total => exact Multiset.card_add ..

/-- The samples in a slot that there is are those of its index. -/
theorem tally_slot {i : ℕ} (hi : i < L.slotCount) (s : Multiset ℕ) :
    L.tally s (.slot i) = s.countP (L.indexFor · = i) :=
  Multiset.countP_congr rfl fun x _ => by simp [slotOf?_eq_some_iff, hi]

/-- The samples of all slots together are all samples, if each of them has a slot. -/
theorem sum_tally {s : Multiset ℕ} (hs : ∀ x ∈ s, L.indexFor x < L.slotCount) :
    ∑ i ∈ Finset.range L.slotCount, L.tally s (.slot i) = L.tally s .total := by
  calc ∑ i ∈ Finset.range L.slotCount, L.tally s (.slot i)
      = ∑ i ∈ Finset.Ico 0 L.slotCount, s.countP (L.indexFor · = i) := by
        rw [← Finset.range_eq_Ico]
        exact Finset.sum_congr rfl fun i hi => tally_slot (Finset.mem_range.mp hi) s
    _ = s.countP fun x => 0 ≤ L.indexFor x ∧ L.indexFor x < L.slotCount := sum_countP_eq ..
    _ = s.card := Multiset.countP_eq_card.mpr fun x hx => ⟨Nat.zero_le _, hs x hx⟩

/-- What tallies are to count of equal samples. -/
theorem tally_replicate (L : Layout) (n x : ℕ) (t : Tally) :
    L.tally (Multiset.replicate n x) t =
      match t with
      | .slot i => if L.slotOf? x = some i then n else 0
      | .total => n := by
  cases t with
  | slot i =>
    rw [tally, ← Multiset.coe_replicate, Multiset.coe_countP, List.countP_replicate]
    simp
  | total => exact Multiset.card_replicate n x

/-- Recording samples of a covered value adds them to their slot and to the total. -/
theorem sum_adds_work (hL : L.Shaped) {v : ℤ} (hv : L.Covers v) (n : ℕ) (t : Tally) :
    ((L.work v n).map (·.adds t)).sum = L.tally (Multiset.replicate n v.toNat) t := by
  obtain ⟨hindex, hrecording⟩ := recording_of_covers hL hv n
  have hsum : ((L.work v n).map (·.adds t)).sum =
      CellUpdate.adds t (.addToSlot (L.indexFor v.toNat) n) +
        CellUpdate.adds t (.addToTotal n) := by
    rw [work, hrecording]
    split_ifs <;> simp [CellUpdate.adds]
  rw [hsum, tally_replicate]
  cases t with
  | slot i => simp [CellUpdate.adds, slotOf?_eq_some_iff.mpr ⟨rfl, hindex⟩, eq_comm]
  | total => simp [CellUpdate.adds]

/-- Recording one sample of each of some covered values adds them to their slots and to the
total. -/
theorem sum_adds_flatMap_work (hL : L.Shaped) {vs : List ℤ} (hvs : ∀ v ∈ vs, L.Covers v)
    (t : Tally) :
    ((vs.flatMap (L.work · 1)).map (·.adds t)).sum = L.tally (vs.map Int.toNat : List ℕ) t := by
  induction vs with
  | nil => exact (L.tally_zero t).symm
  | cons v vs ih =>
    obtain ⟨hv, hrest⟩ := List.forall_mem_cons.mp hvs
    rw [List.flatMap_cons, List.map_append, List.sum_append, ih hrest, sum_adds_work hL hv,
      ← tally_add]
    rfl

end Layout

namespace Recording

variable {L : Layout} {r : Recording}

/-- The samples of a recording of a covered value have slots, and none is above that value. -/
theorem indexFor_of_mem_samples (hL : L.Shaped) (hv : L.Covers r.value) {x : ℕ}
    (hx : x ∈ r.samples) : L.indexFor x < L.slotCount ∧ x ≤ r.value := by
  obtain ⟨w, hw, hle, rfl⟩ : ∃ w : ℤ, L.Covers w ∧ w ≤ r.value ∧ w.toNat = x := by
    cases r with
    | plain v n => exact ⟨v, hv, le_rfl, (Multiset.eq_of_mem_replicate hx).symm⟩
    | corrected v interval =>
      obtain ⟨w, hw, rfl⟩ := List.mem_map.mp (Multiset.mem_coe.mp hx)
      obtain ⟨hcovers, hle⟩ := Layout.Covers.of_mem_cons_heldUp hv hw
      exact ⟨w, hcovers, hle, rfl⟩
  exact ⟨(Layout.indexFor_lt_slotCount_iff hL _).mpr hw.2, by have := hw.1; omega⟩

/-- A recording of a covered value adds its samples to their slots and to the total. -/
theorem sum_adds_work (hL : L.Shaped) (hv : L.Covers r.value) (t : Tally) :
    ((r.work L).map (·.adds t)).sum = L.tally r.samples t := by
  cases r with
  | plain v n => exact Layout.sum_adds_work hL hv n t
  | corrected v interval =>
    have hv : L.Covers v := hv
    rw [work_corrected hL hv]
    exact Layout.sum_adds_flatMap_work hL (fun w hw => (hv.of_mem_cons_heldUp hw).1) t

end Recording

/-! ## Tallies after recordings -/

namespace Histogram

variable {h : Histogram} {L : Layout} {w : CounterWidth}

/-- A recording keeps the cells. -/
theorem Framed.run (hframed : Framed L w h) (r : Recording) : Framed L w (r.run h).1 := by
  rw [r.run_eq]
  exact hframed.applyAll _

/-- A recording leaves a count that the tally can hold. -/
theorem Bounded.run (hbounded : h.Bounded) (r : Recording) : (r.run h).1.Bounded := by
  rw [r.run_eq]
  exact hbounded.applyAll _

/-- A recording adds to a tally what its changes add, modulo what the tally can hold. -/
theorem held_run_modEq (hframed : Framed L w h) (r : Recording) (t : Tally) :
    (r.run h).1.held t ≡ h.held t + ((r.work L).map (·.adds t)).sum [MOD t.limit w] := by
  rw [r.run_eq, hframed.layout]
  exact held_applyAll hframed (fun u hu => Recording.admits_of_mem_work hu) t

/-- A recording of a covered value adds its samples to a tally, modulo what the tally can hold. -/
theorem held_run (hL : L.Shaped) (hframed : Framed L w h) {r : Recording} (hv : L.Covers r.value)
    (t : Tally) : (r.run h).1.held t ≡ h.held t + L.tally r.samples t [MOD t.limit w] := by
  rw [← Recording.sum_adds_work hL hv]
  exact held_run_modEq hframed r t

end Histogram

end DynamicRange
