import DynamicRange.Proofs.Layout.Agreement
import DynamicRange.Proofs.Traversal.Walk

/-!
# Searches along the slots

A search moves a cursor until a goal is met, and gives up when no samples lie ahead. Along indices
this is a bounded search for the first index that meets the goal: `sought_after` says where it ends,
that nothing before that met the goal, and that a search gives up only where all samples are passed.
How many slots it visits, which is the number of its moves (`Cursor.move?_seekVisits`), is the
difference of two indices.

What a search finds is a slot that holds samples, if the goal asks for samples that have not been
passed before. Such a slot is one of values, and the highest values of later ones are not lower
(`Histogram.Consistent.highestOfIndex_mono`).
-/

namespace DynamicRange

/-! ## The slots that hold samples -/

/-- The highest value of the slot with an index. -/
def Layout.highestOfIndex (L : Layout) (i : ℕ) : ℕ := L.highestEquivalent (L.lowestOfIndex i)

namespace Histogram

variable {h : Histogram} {i j : ℕ}

/-- A value lies in a slot that holds samples or above it exactly if its index does. -/
theorem Consistent.lowestOfIndex_le_iff (hh : h.Consistent) (hi : i < h.layout.slotCount)
    (hrecorded : h.count i ≠ 0) (x : ℕ) :
    h.layout.lowestOfIndex i ≤ x ↔ i ≤ h.layout.indexFor x := by
  have hvalue := h.layout.lowestOfIndex_le i
  have hindex := hh.indexFor_lowestOfIndex hi hrecorded
  have hlowest := Layout.lowestOfIndex_indexFor hh.shaped (Int.ofNat_le.mp hvalue)
  rw [hindex] at hlowest
  rw [hlowest, Layout.lowestEquivalent_le_iff hh.shaped hvalue, Int.toNat_natCast, hindex]

/-- A slot that holds samples starts at zero exactly if it is the first one. -/
theorem Consistent.lowestOfIndex_eq_zero_iff (hh : h.Consistent) (hi : i < h.layout.slotCount)
    (hrecorded : h.count i ≠ 0) : h.layout.lowestOfIndex i = 0 ↔ i = 0 := by
  rw [← Nat.le_zero, hh.lowestOfIndex_le_iff hi hrecorded, Layout.indexFor_zero hh.shaped,
    Nat.le_zero]

/-- A value lies in a slot that holds samples or below it exactly if its index does. -/
theorem Consistent.le_highestOfIndex_iff (hh : h.Consistent) (hi : i < h.layout.slotCount)
    (hrecorded : h.count i ≠ 0) (x : ℕ) :
    x ≤ h.layout.highestOfIndex i ↔ h.layout.indexFor x ≤ i := by
  rw [Layout.highestOfIndex,
    Layout.le_highestEquivalent_iff hh.precise (h.layout.lowestOfIndex_le i), Int.toNat_natCast,
    hh.indexFor_lowestOfIndex hi hrecorded]

/-- The highest value of a slot that holds samples has the index of the slot. -/
theorem Consistent.indexFor_highestOfIndex (hh : h.Consistent) (hi : i < h.layout.slotCount)
    (hrecorded : h.count i ≠ 0) : h.layout.indexFor (h.layout.highestOfIndex i) = i := by
  rw [Layout.highestOfIndex,
    Layout.indexFor_highestEquivalent hh.precise (h.layout.lowestOfIndex_le i), Int.toNat_natCast,
    hh.indexFor_lowestOfIndex hi hrecorded]

/-- Of slots that hold samples, the highest value of a later one is not lower. -/
theorem Consistent.highestOfIndex_mono (hh : h.Consistent) (hij : i ≤ j)
    (hj : j < h.layout.slotCount) (hi : h.count i ≠ 0) (hrecorded : h.count j ≠ 0) :
    h.layout.highestOfIndex i ≤ h.layout.highestOfIndex j := by
  rwa [hh.le_highestOfIndex_iff hj hrecorded, hh.indexFor_highestOfIndex (hij.trans_lt hj) hi]

/-- Behind the last samples all slots are empty. -/
theorem Exact.count_eq_zero (hexact : h.Exact)
    (hall : ∑ k ∈ Finset.range i, h.count k = h.total) (hij : i ≤ j)
    (hj : j < h.layout.slotCount) : h.count j = 0 := by
  have hle := hexact.covered.sum_le (n := j + 1) hj
  have hpassed : ∑ k ∈ Finset.range i, h.count k ≤ ∑ k ∈ Finset.range j, h.count k :=
    Finset.sum_le_sum_of_subset (Finset.range_subset_range.mpr hij)
  rw [Finset.sum_range_succ] at hle
  omega

end Histogram

/-! ## Where searches end -/

namespace Cursor

/-- The number of slots that a search visits. -/
def seekVisits (h : Histogram) (goal : Cursor → Bool) (c : Cursor) : ℕ :=
  if c.hasNext then
    match _moved : c.move? h with
    | none => 0
    | some c' => if goal c' then 1 else c'.seekVisits h goal + 1
  else
    0
termination_by c.remaining h.layout
decreasing_by exact move?_remaining_lt _moved

/-- A move that leads to some cursor is the first of a search, if samples lie ahead. -/
theorem seek_of_move {h : Histogram} {goal : Cursor → Bool} {c c' : Cursor}
    (hahead : c.hasNext = true) (hmoved : c.move? h = some c') :
    (c.seek h goal = if goal c' then (c', true) else c'.seek h goal) ∧
      c.seekVisits h goal = if goal c' then 1 else c'.seekVisits h goal + 1 := by
  rw [seek, seekVisits, if_pos hahead, if_pos hahead]
  constructor <;> split <;> simp_all

/-- A search leads as many moves on as it visits slots. -/
theorem move?_seekVisits (h : Histogram) (goal : Cursor → Bool) (c : Cursor) :
    (fun c? : Option Cursor => c?.bind (·.move? h))^[c.seekVisits h goal] (some c) =
      some (c.seek h goal).1 := by
  fun_induction seekVisits h goal c with
  | case1 c hahead hmoved =>
    rw [seek, if_pos hahead, Function.iterate_zero_apply]
    split <;> simp_all
  | case2 c hahead c' hmoved hgoal =>
    rw [(seek_of_move hahead hmoved).1, if_pos hgoal]
    exact hmoved
  | case3 c hahead c' hmoved hgoal ih =>
    rw [(seek_of_move hahead hmoved).1, if_neg hgoal, Function.iterate_succ_apply,
      Option.bind_some, hmoved, ih]
  | case4 c hdone => rw [seek, if_neg hdone, Function.iterate_zero_apply]

/-- What a search from behind the first `n` slots comes to, and the number of slots that it
visits. -/
inductive Sought (h : Histogram) (reported : ℕ) (goal : Cursor → Bool) (n : ℕ) :
    Cursor × Bool → ℕ → Prop where
  /-- The goal is met at a slot before which samples lay ahead, and at none before it. -/
  | met {m : ℕ} (hmoved : n < m) (hm : m ≤ h.layout.slotCount)
    (hmissed : ∀ k, n < k → k < m → goal (after h reported k) = false)
    (hgoal : goal (after h reported m) = true)
    (hahead : ∑ i ∈ Finset.range (m - 1), h.count i < h.total) :
    Sought h reported goal n (after h reported m, true) (m - n)
  /-- All samples are passed, the last of them at the slot visited last, and the goal is met at no
  slot visited. -/
  | missed {m : ℕ} (hmoved : n ≤ m) (hm : m ≤ h.layout.slotCount)
    (hmissed : ∀ k, n < k → k ≤ m → goal (after h reported k) = false)
    (hahead : n < m → ∑ i ∈ Finset.range (m - 1), h.count i < h.total)
    (hall : ∑ i ∈ Finset.range m, h.count i = h.total) :
    Sought h reported goal n (after h reported m, false) (m - n)

variable {h : Histogram} {reported n : ℕ} {goal : Cursor → Bool} {result : Cursor × Bool}
  {visits : ℕ}

/-- A search that goes on behind a slot that does not meet the goal visits that slot as well. -/
theorem Sought.behind (hsought : Sought h reported goal (n + 1) result visits)
    (hmiss : goal (after h reported (n + 1)) = false)
    (hhere : ∑ i ∈ Finset.range n, h.count i < h.total) :
    Sought h reported goal n result (visits + 1) := by
  have hextend : ∀ P : ℕ → Prop, P (n + 1) → (∀ k, n + 1 < k → P k) → ∀ k, n < k → P k := by
    intro P hfirst hrest k hk
    rcases (Nat.succ_le_of_lt hk).eq_or_lt with rfl | hlt
    · exact hfirst
    · exact hrest k hlt
  cases hsought with
  | @met m hmoved hm hmissed hgoal hahead =>
    rw [show m - (n + 1) + 1 = m - n by omega]
    exact .met (by omega) hm (hextend _ (fun _ => hmiss) hmissed) hgoal hahead
  | @missed m hmoved hm hmissed hahead hall =>
    rw [show m - (n + 1) + 1 = m - n by omega]
    refine .missed (by omega) hm (hextend _ (fun _ => hmiss) hmissed) (fun _ => ?_) hall
    rcases hmoved.eq_or_lt with rfl | hlt
    · exact hhere
    · exact hahead hlt

section

variable (hh : h.Consistent) (hexact : h.Exact) (reported : ℕ) (goal : Cursor → Bool)
  (hn : n ≤ h.layout.slotCount)
include hh hexact hn

/-- Where no samples lie ahead a search gives up at once. -/
theorem sought_after_of_le (hall : h.total ≤ ∑ i ∈ Finset.range n, h.count i) :
    Sought h reported goal n ((after h reported n).seek h goal)
      ((after h reported n).seekVisits h goal) := by
  have hdone : ¬(after h reported n).hasNext = true := by
    rwa [hexact.covered.hasNext_after_iff hn hh, not_lt]
  rw [seek, seekVisits, if_neg hdone, if_neg hdone]
  have hmissed : Sought h reported goal n (after h reported n, false) (n - n) :=
    .missed le_rfl hn (fun k hlt hle => absurd hle (not_le.mpr hlt))
      (fun hlt => absurd hlt (lt_irrefl n)) (hall.antisymm' (hexact.covered.sum_le hn))
  rwa [Nat.sub_self] at hmissed

/-- In a histogram whose slots come to its total, a search meets the goal or passes all samples. -/
theorem sought_after : Sought h reported goal n ((after h reported n).seek h goal)
    ((after h reported n).seekVisits h goal) := by
  induction hn using Nat.decreasingInduction with
  | self => exact sought_after_of_le hh hexact reported goal le_rfl hexact.le
  | of_succ n hn ih =>
    rcases Nat.lt_or_ge (∑ i ∈ Finset.range n, h.count i) h.total with hlt | hall
    · have hahead := (hexact.covered.hasNext_after_iff hn.le hh reported).mpr hlt
      obtain ⟨hseek, hvisits⟩ := seek_of_move hahead (move?_after reported hh.shaped hn)
      rw [hseek, hvisits]
      cases hgoal : goal (after h reported (n + 1)) with
      | true =>
        have hmet : Sought h reported goal n (after h reported (n + 1), true) (n + 1 - n) :=
          .met (Nat.lt_succ_self n) hn (fun k _ _ => by omega) hgoal hlt
        rwa [Nat.add_sub_cancel_left] at hmet
      | false => exact ih.behind hgoal hlt
    · exact sought_after_of_le hh hexact reported goal hn.le hall

end

end Cursor

end DynamicRange
