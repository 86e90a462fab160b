import DynamicRange.Proofs.Traversal.Recorded

/-!
# What the traversal of the recorded slots lists

A call to the traversal of the recorded slots gives an item or none, and leaves a cursor behind in
either case (`Cursor.call`). If the slots of a histogram come to no more than its total, the calls
one after the other give one item for every slot that is not empty, in the order of indices, and
then none (`answer_eq`).

The traversal ends because the samples passed have come to the total, or because the slots have
ended. In the first case, which is the one where the slots come to the total exactly, the last call
leaves the cursor as it was, so that every later call gives none as well.
-/

namespace DynamicRange

/-- What a call to the traversal of the recorded slots gives, and the cursor behind the call. -/
def Cursor.call (h : Histogram) (c : Cursor) : Option Item × Cursor :=
  match c.seek h (·.count ≠ 0) with
  | (c, true) =>
    let (x, c) := c.report h.layout (c.highest h.layout) c.percentile
    (some x, c)
  | (c, false) => (none, c)

namespace Histogram

/-- The cursor behind the first `n` calls. -/
def behindCalls (h : Histogram) (n : ℕ) : Cursor := (fun c => (c.call h).2)^[n] (.start h)

/-- What the call behind the first `n` calls gives. -/
def answer (h : Histogram) (n : ℕ) : Option Item := ((h.behindCalls n).call h).1

/-- The indices from `n` on whose slots are not empty, in their order. -/
def recordedFrom (h : Histogram) (n : ℕ) : List ℕ :=
  (List.range' n (h.layout.slotCount - n)).filter (h.count · ≠ 0)

/-- What is listed of the slots that are not empty. -/
structure Listed (h : Histogram) : Prop where
  /-- The indices listed rise, and are those of the slots that are not empty. -/
  indices : (h.recordedFrom 0).Pairwise (· < ·) ∧
    ∀ i, i ∈ h.recordedFrom 0 ↔ i < h.layout.slotCount ∧ h.count i ≠ 0
  /-- The traversal makes the calls, one after the other. -/
  calls : ∀ c : Cursor, c.nextRecorded? h = (c.call h).1.map (·, (c.call h).2)
  /-- There is an item for every slot that is not empty, in the order of indices, and none behind
  the last of them. -/
  answer : ∀ n ≤ (h.recordedFrom 0).length, h.answer n = (h.recordedFrom 0)[n]?.map h.itemAt
  /-- If the slots come to the total, there is none on any later call. -/
  settled : h.Exact → ∀ n, h.answer n = (h.recordedFrom 0)[n]?.map h.itemAt
  /-- These items are the recorded slots. -/
  recorded : h.recorded = (h.recordedFrom 0).map h.itemAt
  /-- An item tells the samples up to its slot, and their number does not start over. -/
  cumulative : ∀ i ∈ h.recordedFrom 0,
    (h.itemAt i).cumulative = ∑ k ∈ Finset.range (i + 1), h.count k
  /-- Where an item is reported, no more samples were reported before than are passed. -/
  reported_le : ∀ n ≤ (h.recordedFrom 0).length, ∀ c,
    (h.behindCalls n).seek h (·.count ≠ 0) = (c, true) → c.reported ≤ c.passed

end Histogram

namespace Cursor

variable {h : Histogram} {c : Cursor}

/-- The traversal makes the calls. -/
theorem nextRecorded?_eq_call (h : Histogram) (c : Cursor) :
    c.nextRecorded? h = (c.call h).1.map (·, (c.call h).2) := by
  unfold nextRecorded? call
  rcases c.seek h (·.count ≠ 0) with ⟨c', _ | _⟩ <;> rfl

/-- If no samples lie ahead, a call gives nothing and leaves the cursor as it was. -/
theorem call_of_not_hasNext (hdone : ¬c.hasNext = true) : c.call h = (none, c) := by
  have hsought : c.seek h (·.count ≠ 0) = (c, false) := by rw [seek, if_neg hdone]
  rw [call, hsought]

/-- A call that gives an item leaves the cursor behind it. -/
theorem call_of_nextRecorded? {x : Item} {c' : Cursor} (hnext : c.nextRecorded? h = some (x, c')) :
    c.call h = (some x, c') := by
  rw [nextRecorded?_eq_call] at hnext
  obtain ⟨y, hy, heq⟩ := Option.map_eq_some_iff.mp hnext
  obtain ⟨rfl, rfl⟩ := Prod.mk.inj heq
  exact Prod.ext hy rfl

/-- A call that gives no item. -/
theorem call_fst_of_nextRecorded? (hnext : c.nextRecorded? h = none) : (c.call h).1 = none := by
  rw [nextRecorded?_eq_call] at hnext
  exact Option.map_eq_none_iff.mp hnext

end Cursor

namespace Histogram

variable {h : Histogram} {n : ℕ}

/-- An index whose slot is not empty is the first of those from it on, and one whose slot is empty
is none of them. -/
theorem recordedFrom_of_lt (hn : n < h.layout.slotCount) :
    h.recordedFrom n =
      if h.count n = 0 then h.recordedFrom (n + 1) else n :: h.recordedFrom (n + 1) := by
  have hlength : h.layout.slotCount - n = h.layout.slotCount - (n + 1) + 1 := by omega
  rw [recordedFrom, hlength, List.range'_succ, List.filter_cons]
  by_cases hempty : h.count n = 0
  · rw [if_pos hempty, if_neg (by simpa using hempty), recordedFrom]
  · rw [if_neg hempty, if_pos (by simpa using hempty), recordedFrom]

/-- There are no indices from the number of slots on. -/
theorem recordedFrom_slotCount (h : Histogram) : h.recordedFrom h.layout.slotCount = [] := by
  rw [recordedFrom, Nat.sub_self]
  rfl

/-- The indices listed are those of slots that are not empty. -/
theorem mem_recordedFrom_zero {i : ℕ} :
    i ∈ h.recordedFrom 0 ↔ i < h.layout.slotCount ∧ h.count i ≠ 0 := by
  simp [recordedFrom, List.mem_range'_1]

/-- When the slots from `n` on are empty, the samples in the first `n` slots are all there are. -/
theorem Exact.sum_of_recordedFrom_eq_nil (hexact : h.Exact) (hn : n ≤ h.layout.slotCount)
    (hnone : h.recordedFrom n = []) : ∑ i ∈ Finset.range n, h.count i = h.total := by
  rw [hexact]
  refine Finset.sum_subset (Finset.range_subset_range.mpr hn) fun i hi hnot => ?_
  rw [Finset.mem_range] at hi hnot
  have hmem : i ∈ List.range' n (h.layout.slotCount - n) := by
    rw [List.mem_range'_1]
    omega
  simpa using (List.filter_eq_nil_iff.mp hnone) i hmem

section

variable (hh : h.Consistent) (hcovered : h.Covered)
include hh hcovered

/-- A call behind the first `n` slots gives the first of the slots from there on that is not empty,
and leaves the cursor behind it. -/
theorem call_after (hn : n ≤ h.layout.slotCount) :
    ((Cursor.after h (h.countIn 0 n) n).call h).1 = (h.recordedFrom n).head?.map h.itemAt ∧
      ∀ i is, h.recordedFrom n = i :: is → i < h.layout.slotCount ∧ h.recordedFrom (i + 1) = is ∧
        ((Cursor.after h (h.countIn 0 n) n).call h).2 =
          .after h (h.countIn 0 (i + 1)) (i + 1) := by
  induction hn using Nat.decreasingInduction with
  | self =>
    rw [recordedFrom_slotCount]
    exact ⟨Cursor.call_fst_of_nextRecorded? (Cursor.nextRecorded?_after_last hh _), by simp⟩
  | of_succ n hn ih =>
    have hnext := Cursor.nextRecorded?_after hh hcovered hn
    rw [recordedFrom_of_lt hn]
    by_cases hempty : h.count n = 0
    · rw [if_pos hempty] at hnext ⊢
      -- What is found next is found from either of the two cursors.
      rcases hfound : (Cursor.after h (h.countIn 0 (n + 1)) (n + 1)).nextRecorded? h
        with _ | ⟨x, c⟩
      · have hnone := Cursor.call_fst_of_nextRecorded? hfound
        have hlist := ih.1
        rw [hnone, eq_comm, Option.map_eq_none_iff, List.head?_eq_none_iff] at hlist
        rw [hlist]
        exact ⟨Cursor.call_fst_of_nextRecorded? (hnext.trans hfound), by simp⟩
      · rw [Cursor.call_of_nextRecorded? (hnext.trans hfound)]
        rwa [Cursor.call_of_nextRecorded? hfound] at ih
    · rw [if_neg hempty] at hnext ⊢
      rw [Cursor.call_of_nextRecorded? hnext]
      refine ⟨rfl, fun i is heq => ?_⟩
      obtain ⟨rfl, rfl⟩ := List.cons.inj heq
      exact ⟨hn, rfl, rfl⟩

/-- Behind the calls that give items, the cursor has visited the slots up to that of the last
item. -/
theorem behindCalls_eq (hn : n ≤ (h.recordedFrom 0).length) :
    ∃ m ≤ h.layout.slotCount, h.behindCalls n = .after h (h.countIn 0 m) m ∧
      h.recordedFrom m = (h.recordedFrom 0).drop n := by
  induction n with
  | zero =>
    refine ⟨0, Nat.zero_le _, ?_, rfl⟩
    rw [h.countIn_zero]
    rfl
  | succ n ih =>
    obtain ⟨m, hm, hbehind, hrest⟩ := ih (Nat.le_of_succ_le hn)
    rw [List.drop_eq_getElem_cons hn] at hrest
    obtain ⟨hi, hnext, hcall⟩ := (call_after hh hcovered hm).2 _ _ hrest
    refine ⟨_, hi, ?_, hnext⟩
    rw [behindCalls, Function.iterate_succ_apply', ← behindCalls, hbehind, hcall]

/-- The calls give one item for every slot that is not empty, and then none. -/
theorem answer_eq (hn : n ≤ (h.recordedFrom 0).length) :
    h.answer n = (h.recordedFrom 0)[n]?.map h.itemAt := by
  obtain ⟨m, hm, hbehind, hrest⟩ := behindCalls_eq hh hcovered hn
  rw [answer, hbehind, (call_after hh hcovered hm).1, hrest, List.head?_drop]

/-- Where an item is reported, no more samples were reported before than are passed. -/
theorem reported_le_passed (hn : n ≤ (h.recordedFrom 0).length) {c : Cursor}
    (hsought : (h.behindCalls n).seek h (·.count ≠ 0) = (c, true)) : c.reported ≤ c.passed := by
  obtain ⟨m, hm, hbehind, -⟩ := behindCalls_eq hh hcovered hn
  rw [hbehind] at hsought
  obtain ⟨k, found, hseek, hmk, hk, -⟩ := Cursor.seek_after_cases (h.countIn 0 m) hh.shaped
    (·.count ≠ 0) hm
  obtain ⟨rfl, -⟩ := Prod.mk.inj (hseek.symm.trans hsought)
  have hsum := hcovered.sum_add_totalSince hh hmk hk
  rw [Cursor.after_reported, Cursor.after_passed, hcovered.countIn_eq_sum hm hh,
    hcovered.countIn_eq_sum hk hh]
  omega

omit hcovered in
/-- If the slots come to the total, calls behind the last item change nothing. -/
theorem Exact.answer_eq_none (hexact : h.Exact) (hn : (h.recordedFrom 0).length ≤ n) :
    h.answer n = none := by
  obtain ⟨m, hm, hbehind, hrest⟩ := behindCalls_eq hh hexact.covered le_rfl
  rw [List.drop_length] at hrest
  have hdone : ¬(h.behindCalls (h.recordedFrom 0).length).hasNext = true := by
    rw [hbehind, hexact.covered.hasNext_after_iff hm hh, hexact.sum_of_recordedFrom_eq_nil hm hrest]
    exact lt_irrefl _
  have hcall := Cursor.call_of_not_hasNext (h := h) hdone
  obtain ⟨k, rfl⟩ := Nat.exists_eq_add_of_le' hn
  have hstay : h.behindCalls (k + (h.recordedFrom 0).length) =
      h.behindCalls (h.recordedFrom 0).length := by
    rw [behindCalls, Function.iterate_add_apply, ← behindCalls]
    exact Function.iterate_fixed (congrArg Prod.snd hcall) k
  rw [answer, hstay, hcall]

/-- The recorded slots are those that are not empty. -/
theorem recorded_eq : h.recorded = (h.recordedFrom 0).map h.itemAt := by
  have hfold := foldRecorded_induction hh hcovered (f := Array.push)
    (P := fun n told => told.toList =
      ((List.range n).filter (h.count · ≠ 0)).map h.itemAt)
    (fun i told _ hempty htold => by simp [List.range_succ, List.filter_append, hempty, htold])
    (fun i told _ hrecorded htold => by
      simp [List.range_succ, List.filter_append, hrecorded, htold])
    (a := #[]) rfl
  rw [recorded, hfold, recordedFrom, Nat.sub_zero, List.range_eq_range']

end

/-- If the slots come to no more than the total, the traversal of the recorded slots lists those
that are not empty. -/
theorem recorded_listed (hh : h.Reachable) (hcovered : h.Covered) : h.Listed where
  indices := ⟨List.Pairwise.filter _ List.pairwise_lt_range', fun _ => mem_recordedFrom_zero⟩
  calls := Cursor.nextRecorded?_eq_call h
  answer _ hn := answer_eq hh.consistent hcovered hn
  settled hexact n := by
    rcases le_total n (h.recordedFrom 0).length with hn | hn
    · exact answer_eq hh.consistent hcovered hn
    · rw [hexact.answer_eq_none hh.consistent hn, List.getElem?_eq_none hn]
      rfl
  recorded := recorded_eq hh.consistent hcovered
  cumulative i hi := hcovered.countIn_eq_sum (mem_recordedFrom_zero.mp hi).1 hh.consistent
  reported_le _ hn _ := reported_le_passed hh.consistent hcovered hn

/-- A counter that started over holds fewer samples than the total, and is listed with those that it
holds. -/
theorem overflown_listed : overflown.Covered ∧ overflown.Listed ∧ overflown.recordedFrom 0 = [2] ∧
    (overflown.answer 0).map (fun x => (x.lowest, x.count, x.cumulative)) = some (2, 32, 32) ∧
    (overflown.answer 1).isNone := by
  have hcovered : overflown.Covered := by
    unfold Covered
    decide +kernel
  exact ⟨hcovered, recorded_listed overflown_reachable hcovered, by decide +kernel,
    by decide +kernel, by decide +kernel⟩

end Histogram

end DynamicRange
