import DynamicRange.Proofs.Histogram.Interleaving
import DynamicRange.Proofs.Histogram.Merging

/-!
# Merges in any order, and of a histogram with itself

What a merge takes in and what it drops is settled by the source, and by the layout and the counters
of the histogram that takes it in, but not by what that histogram holds (`merge_eq_applyAll`).
Changes commute, so that merges do.

A histogram that takes in itself is read while it grows. It is read slot by slot, and the samples of
a slot go back into the same slot, which is passed by then. So the slots ahead are as they were in
the beginning, and this is all that a cursor reads of a histogram (`nextRecorded?_after_agree`),
since it knows the total from when it was made. Counters that started over do not matter.
-/

namespace DynamicRange

/-! ## A merge as a list of changes -/

namespace Item

/-- The changes by which histograms of a layout, with counters of a width, take in an item. -/
def taken (L : Layout) (w : CounterWidth) (x : Item) : List CellUpdate :=
  if w.fits x.count then L.work x.lowest x.count else []

/-- The number of samples dropped with those of an item, if it is not taken in. -/
def dropped (L : Layout) (w : CounterWidth) (d : ℕ) (x : Item) : ℕ :=
  match w.fits x.count, L.recording x.lowest x.count with
  | true, .ok _ => d
  | _, _ => wrapTotal (d + x.count)

end Item

namespace Histogram

/-- Changes to cells leave the counters as wide as they are. -/
theorem applyAll_width (h : Histogram) (us : List CellUpdate) :
    (h.applyAll us).width = h.width := by
  induction us generalizing h with
  | nil => rfl
  | cons u us ih => exact (ih (h.apply u)).trans (by cases u <;> rfl)

/-- An item is taken in or dropped as the layout and the counters settle. -/
theorem absorb_eq (h : Histogram) (d : ℕ) (x : Item) :
    h.absorb d x = (h.applyAll (x.taken h.layout h.width), x.dropped h.layout h.width d) := by
  unfold absorb Item.taken Item.dropped
  split
  · next hfits =>
    rcases h.record_cases x.lowest x.count with ⟨us, hus, hrecord⟩ | ⟨e, he, hrecord⟩
    · rw [hrecord, Layout.work, hus, hfits]
    · rw [hrecord, Layout.work, he, hfits]
      rfl
  · next hfits =>
    rw [Bool.eq_false_of_not_eq_true hfits]
    rfl

end Histogram

/-- To take in the items ahead of a cursor is to take in a list of items. -/
theorem Cursor.exists_foldRecorded_eq (h : Histogram) (c : Cursor) :
    ∃ xs : List Item, ∀ {α : Type} (f : α → Item → α) (a : α),
      c.foldRecorded h f a = xs.foldl f a := by
  fun_induction foldRecorded h (fun (told : Unit) _ => told) () c with
  | case1 _ c hnone => exact ⟨[], fun f a => foldRecorded_of_none hnone⟩
  | case2 _ c x c' hfound ih =>
    obtain ⟨xs, hxs⟩ := ih
    exact ⟨x :: xs, fun f a => (foldRecorded_of_some hfound).trans (hxs f (f a x))⟩

namespace Histogram

/-- To take in the recorded slots is to take in the list of them. -/
theorem foldRecorded_eq_foldl {α : Type} (h : Histogram) (f : α → Item → α) (a : α) :
    h.foldRecorded f a = h.recorded.foldl f a := by
  obtain ⟨xs, hxs⟩ := (Cursor.start h).exists_foldRecorded_eq h
  have hrecorded : h.recorded = xs := by simp [recorded, foldRecorded, hxs]
  rw [hrecorded]
  exact hxs f a

/-- A merge makes the changes of all items, one after the other, and drops what the layout and the
counters settle. -/
theorem merge_eq_applyAll (t s : Histogram) :
    t.merge s = (t.applyAll (s.recorded.flatMap (·.taken t.layout t.width)),
      s.recorded.foldl (Item.dropped t.layout t.width) 0) := by
  have hfrom : ∀ (xs : List Item) (t : Histogram) (d : ℕ),
      xs.foldl (fun p x => p.1.absorb p.2 x) (t, d) =
        (t.applyAll (xs.flatMap (·.taken t.layout t.width)),
          xs.foldl (Item.dropped t.layout t.width) d) := by
    intro xs
    induction xs with
    | nil => exact fun _ _ => rfl
    | cons x xs ih =>
      intro t d
      have hfirst := t.absorb_eq d x
      simp only [List.foldl_cons, hfirst, ih, applyAll_layout, applyAll_width, ← applyAll_append,
        List.flatMap_cons]
  rw [merge, foldRecorded_eq_foldl]
  exact hfrom s.recorded t 0

/-- Two merges lead to the same state in either order, and each drops what it would drop alone. -/
theorem merge_merge (t a b : Histogram) :
    ((t.merge a).1.merge b).1 = ((t.merge b).1.merge a).1 ∧
      ((t.merge a).1.merge b).2 = (t.merge b).2 := by
  simp only [merge_eq_applyAll, applyAll_layout, applyAll_width, ← applyAll_append, and_true]
  exact applyAll_perm List.perm_append_comm t

end Histogram

/-! ## Histograms that agree on the slots ahead -/

namespace Histogram

/-- Two histograms of the same layout that hold the same in the slots from an index on. -/
structure AgreeFrom (n : ℕ) (g h : Histogram) : Prop where
  layout : g.layout = h.layout
  count : ∀ i, n ≤ i → i < h.layout.slotCount → g.count i = h.count i

/-- Histograms that agree from an index on agree from a greater one on. -/
theorem AgreeFrom.mono {g h : Histogram} {m n : ℕ} (hagree : AgreeFrom m g h) (hmn : m ≤ n) :
    AgreeFrom n g h :=
  ⟨hagree.layout, fun i hi => hagree.count i (hmn.trans hi)⟩

end Histogram

namespace Cursor

variable {g h : Histogram} {n : ℕ}

/-- A cursor moves alike along histograms that agree on the slots ahead. -/
theorem move?_after_agree (hL : h.layout.Shaped) (reported : ℕ) (hn : n ≤ h.layout.slotCount)
    (hagree : g.AgreeFrom n h) : (after h reported n).move? g = (after h reported n).move? h := by
  rcases hn.lt_or_eq with hlt | rfl
  · have hcount := hagree.count n le_rfl hlt
    obtain ⟨-, hindex, -⟩ := Layout.locationOf_spec hL hlt
    simp only [move?, hagree.layout, next_after reported hL hn, hindex, hcount]
  · have hnone := move?_after_last reported hL
    rw [hnone]
    simp only [move?, hagree.layout] at hnone ⊢
    split at hnone
    · cases hnone
    · next hbucket => exact if_neg hbucket

/-- A cursor finds the same in histograms that agree on the slots ahead. -/
theorem seek_after_agree (hL : h.layout.Shaped) (reported : ℕ) (goal : Cursor → Bool)
    (hn : n ≤ h.layout.slotCount) (hagree : g.AgreeFrom n h) :
    (after h reported n).seek g goal = (after h reported n).seek h goal := by
  induction hn using Nat.decreasingInduction with
  | self =>
    have hend := (move?_after_agree hL reported le_rfl hagree).trans
      (move?_after_last reported hL)
    rw [seek_after_last reported hL, seek]
    split
    · split
      · rfl
      · next hmoved => simp [hend] at hmoved
    · rfl
  | of_succ n hn ih =>
    have hnext := (move?_after_agree hL reported hn.le hagree).trans (move?_after reported hL hn)
    by_cases hahead : (after h reported n).hasNext = true
    · rw [seek_after reported hL goal hn hahead, ← ih (hagree.mono n.le_succ), seek, if_pos hahead]
      split
      · next hmoved => simp [hnext] at hmoved
      · next c hmoved => rw [Option.some.inj (hmoved.symm.trans hnext)]
    · rw [seek, seek, if_neg hahead, if_neg hahead]

/-- What a cursor finds next is a slot ahead that holds samples, or nothing, and it is the same in
histograms that agree on the slots ahead. -/
theorem nextRecorded?_after_agree (hL : h.layout.Shaped) (reported : ℕ)
    (hn : n ≤ h.layout.slotCount) (hagree : g.AgreeFrom n h) :
    (after h reported n).nextRecorded? g = (after h reported n).nextRecorded? h ∧
      ∀ x c, (after h reported n).nextRecorded? h = some (x, c) →
        ∃ i < h.layout.slotCount, n ≤ i ∧ h.count i ≠ 0 ∧ x.lowest = h.layout.lowestOfIndex i ∧
          x.count = h.count i ∧ c = after h (h.countIn 0 (i + 1)) (i + 1) := by
  have hseek := seek_after_agree hL reported (·.count ≠ 0) hn hagree
  obtain ⟨m, found, hm, hnm, hle, hfound⟩ :=
    seek_after_cases reported hL (·.count ≠ 0) hn
  refine ⟨?_, fun x c hnext => ?_⟩
  · simp only [nextRecorded?, hseek, hagree.layout]
  · cases found with
    | false =>
      rw [nextRecorded?, hm] at hnext
      cases hnext
    | true =>
      obtain ⟨hlt, hrecorded⟩ := hfound rfl
      obtain ⟨i, rfl⟩ := Nat.exists_eq_succ_of_ne_zero (Nat.ne_zero_of_lt hlt)
      rw [nextRecorded?, hm] at hnext
      obtain ⟨rfl, rfl⟩ := Prod.mk.inj (Option.some.inj hnext)
      exact ⟨i, hle, Nat.le_of_lt_succ hlt, of_decide_eq_true hrecorded, rfl, rfl, rfl⟩

end Cursor

/-! ## A histogram that takes in itself -/

namespace Histogram

variable {g h : Histogram}

/-- A change to a slot leaves the others as they are, and a change to another cell all slots. -/
theorem count_applyAll_of_ne (g : Histogram) {us : List CellUpdate} {i : ℕ}
    (hother : ∀ j n, .addToSlot j n ∈ us → j ≠ i) : (g.applyAll us).count i = g.count i := by
  induction us generalizing g with
  | nil => rfl
  | cons u us ih =>
    have hrest := ih (g.apply u) fun j n hmem => hother j n (List.mem_cons_of_mem _ hmem)
    refine hrest.trans ?_
    cases u with
    | addToSlot j n =>
      have hne := hother j n List.mem_cons_self
      simp [count, apply, Array.getElem?_modify, hne]
    | addToTotal | lowerLeast | raiseGreatest => rfl

/-- The samples of a slot that holds some go back into that slot, if they are taken in at all. -/
theorem Consistent.eq_of_addToSlot_mem_taken (hh : h.Consistent) {w : CounterWidth} {i : ℕ}
    (hi : i < h.layout.slotCount) (hrecorded : h.count i ≠ 0) {x : Item}
    (hlowest : x.lowest = h.layout.lowestOfIndex i) {j n : ℕ}
    (hmem : .addToSlot j n ∈ x.taken h.layout w) : j = i := by
  have hslot := hh.slotOf?_lowestOfIndex hi hrecorded
  unfold Item.taken at hmem
  split at hmem
  · have hsign : ¬((x.lowest : ℤ) < 0) := Int.not_lt.mpr (Int.natCast_nonneg _)
    rw [Layout.work, Layout.recording, if_neg hsign, Int.toNat_natCast, hlowest, hslot] at hmem
    dsimp only at hmem
    simp only [List.append_assoc, List.mem_append, List.mem_cons, List.not_mem_nil, or_false,
      reduceCtorEq, CellUpdate.addToSlot.injEq] at hmem
    rcases hmem with ⟨hindex, -⟩ | hleast
    · exact hindex
    · split at hleast <;> simp at hleast
  · cases hmem

/-- To take in the slots ahead of a histogram while it grows is to take them in from one that stays
as it was. -/
theorem Consistent.mergeSelfFrom_eq (hh : h.Consistent) (g : Histogram) (c : Cursor) (d : ℕ) :
    ∀ {reported n : ℕ}, c = .after h reported n → n ≤ h.layout.slotCount → g.AgreeFrom n h →
      g.mergeSelfFrom c d = c.foldRecorded h (fun (g, d) x => g.absorb d x) (g, d) := by
  have hread : ∀ {g : Histogram} {reported n : ℕ}, n ≤ h.layout.slotCount → g.AgreeFrom n h → _ :=
    fun {_ reported _} => Cursor.nextRecorded?_after_agree hh.shaped reported
  fun_induction mergeSelfFrom g c d
  case case1 g c d hnone =>
    rintro reported n rfl hn hagree
    rw [(hread hn hagree).1] at hnone
    exact (Cursor.foldRecorded_of_none hnone).symm
  case case2 g c d x c' hfound grown ih =>
    rintro reported n rfl hn hagree
    rw [(hread hn hagree).1] at hfound
    obtain ⟨i, hi, hni, hrecorded, hlowest, -, hc'⟩ := (hread hn hagree).2 x c' hfound
    -- The slot that grows is passed, so that the slots ahead stay as they were.
    have hgrown : grown.1.AgreeFrom (i + 1) h := by
      refine ⟨(g.absorb_layout d x).trans hagree.layout, fun j hij hj => ?_⟩
      rw [show grown = g.absorb d x from rfl, absorb_eq, hagree.layout,
        ← hagree.count j (by omega) hj]
      refine count_applyAll_of_ne g fun k n hmem => ?_
      have hk := hh.eq_of_addToSlot_mem_taken hi hrecorded hlowest hmem
      omega
    rw [Cursor.foldRecorded_of_some hfound]
    exact ih hc' hi hgrown

/-- A histogram that takes in itself takes in what a copy of it would hand over. -/
theorem Reachable.mergeSelf_eq (hh : h.Reachable) : h.mergeSelf = h.merge h :=
  hh.consistent.mergeSelfFrom_eq h (.start h) 0 (Cursor.start_eq_after h) (Nat.zero_le _)
    ⟨rfl, fun _ _ _ => rfl⟩

/-- A histogram takes in itself as it would a copy of itself, and two others in either order, with
the same result and the same samples dropped. -/
theorem merges_unordered (hh : h.Reachable) :
    h.mergeSelf = h.merge h ∧ ∀ t a b : Histogram,
      ((t.merge a).1.merge b).1 = ((t.merge b).1.merge a).1 ∧
        (t.merge a).2 = ((t.merge b).1.merge a).2 ∧ ((t.merge a).1.merge b).2 = (t.merge b).2 :=
  ⟨hh.mergeSelf_eq, fun t a b =>
    ⟨(merge_merge t a b).1, (merge_merge t b a).2.symm, (merge_merge t a b).2⟩⟩

/-- A counter that started over holds 32 samples of 544. They are taken in once more, and so they
are if they come from two copies. -/
theorem overflown_unordered :
    overflown.mergeSelf = overflown.merge overflown ∧ overflown.mergeSelf.2 = 0 ∧
      overflown.mergeSelf.1.count 2 = 64 ∧ overflown.mergeSelf.1.total = 576 ∧
      ((taking.merge giving).1.merge overflown).1 = ((taking.merge overflown).1.merge giving).1 ∧
      (taking.merge giving).2 = 303 := by
  have hunordered := merges_unordered overflown_reachable
  exact ⟨hunordered.1, by decide +kernel, by decide +kernel, by decide +kernel,
    (hunordered.2 taking giving overflown).1, by decide +kernel⟩

end Histogram

end DynamicRange
