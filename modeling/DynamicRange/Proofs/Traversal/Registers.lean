import DynamicRange.Proofs.Traversal.Walk

/-!
# Walks that overwrite registers

A cursor may also be kept in registers that every move overwrites: whether a move was made, the
location that it led to, and what was found there (`Registers.move`). Such a cursor goes on to the
location that follows and only then looks whether that belongs to a bucket. If it does not, the
location is past the last slot, and everything else stays as it was found at the last slot.

`follows_indices` says that the moves lead through the slots in the order of their indices: the
two-level locations, which begin with a bucket of double length and go on with the upper half of
each further one, come to the same as counting. The registers hold what the cursor of the traversals
knows (`behind_eq`), so the walk along indices of `Cursor.after` settles what they hold.
-/

namespace DynamicRange

/-- The index of a slot names a proper location, and so does the index behind the last one. -/
theorem Layout.proper_locationOf {L : Layout} (hL : L.Shaped) {n : ℕ} (hn : n ≤ L.slotCount) :
    L.Proper (L.locationOf n) := by
  cases n with
  | zero => exact (locationOf_spec hL hL.slotCount_pos).1
  | succ n =>
    rw [locationOf_succ hL hn]
    exact (following_spec hL (locationOf_spec hL hn).1).1

/-- A cursor in registers. -/
structure Registers where
  /-- Whether a move was made. -/
  started : Bool
  /-- The location that the last move led to. -/
  place : Location
  /-- The samples in the slot visited last. -/
  count : ℕ
  /-- The samples in all slots visited, modulo `2 ^ 64`. -/
  passed : ℕ
  /-- The lowest value of the slot visited last. -/
  lowest : ℕ
  /-- The highest value of the slot visited last. -/
  highest : ℕ
  deriving DecidableEq, Repr

namespace Registers

/-- The registers before the first move. -/
def start : Registers := ⟨false, ⟨0, 0⟩, 0, 0, 0, 0⟩

/-- The location that the next move leads to. -/
def following (L : Layout) (r : Registers) : Location :=
  if r.started then L.following r.place else ⟨0, 0⟩

/-- Whether the last move led to the last slot there is. -/
def atLastSlot (L : Layout) (r : Registers) : Bool :=
  r.place.bucket + 1 == L.bucketCount && r.place.sub + 1 == L.subCount

/-- The lowest value at the location that the next move leads to. -/
def nextLowest (L : Layout) (r : Registers) : ℕ := L.lowestAt (r.following L)

/-- Makes a move, and tells whether it led to a slot. -/
def move (h : Histogram) (r : Registers) : Bool × Registers :=
  let place := r.following h.layout
  let moved := { r with started := true, place }
  if place.bucket < h.layout.bucketCount then
    let count := h.count (h.layout.indexOf place)
    let lowest := h.layout.lowestAt place
    let highest := h.layout.highestEquivalent lowest
    (true, { moved with count, passed := wrapTotal (r.passed + count), lowest, highest })
  else
    (false, moved)

/-- The registers behind the first `n` moves. -/
def behind (h : Histogram) : ℕ → Registers
  | 0 => start
  | n + 1 => ((behind h n).move h).2

end Registers

/-- What a cursor knows, in registers. -/
def Cursor.registers (L : Layout) (c : Cursor) : Registers where
  started := c.slot?.isSome
  place := c.slot?.getD ⟨0, 0⟩
  count := c.count
  passed := c.passed
  lowest := c.lowest L
  highest := c.slot?.elim 0 fun _ => c.highest L

namespace Registers

/-! ## Registers and cursors -/

/-- A cursor and its registers go on to the same location. -/
theorem following_registers (L : Layout) (c : Cursor) :
    (c.registers L).following L = c.next L := by
  rcases c with ⟨_ | l, count, passed, reported, total⟩ <;> rfl

/-- A move of a cursor is a move of its registers. -/
theorem move_registers_of_some {h : Histogram} {c c' : Cursor} (hmoved : c.move? h = some c') :
    (c.registers h.layout).move h = (true, c'.registers h.layout) := by
  rw [Cursor.move?] at hmoved
  split at hmoved
  · next hbucket =>
    obtain rfl := Option.some.inj hmoved
    rw [move, following_registers, if_pos hbucket]
    rfl
  · cases hmoved

/-- Where a cursor has no move, its registers lose the location alone. -/
theorem move_registers_of_none {h : Histogram} {c : Cursor} (hlast : c.move? h = none) :
    (c.registers h.layout).move h =
      (false, { c.registers h.layout with started := true, place := c.next h.layout }) := by
  rw [Cursor.move?] at hlast
  split at hlast
  · cases hlast
  · next hbucket => rw [move, following_registers, if_neg hbucket]

section

variable {h : Histogram} (hL : h.layout.Shaped) {n : ℕ}
include hL

/-- As many moves as there are slots lead the cursor along the indices. -/
theorem iterate_move?_start (hn : n ≤ h.layout.slotCount) :
    (fun c? : Option Cursor => c?.bind (·.move? h))^[n] (some (Cursor.start h)) =
      some (Cursor.after h 0 n) := by
  induction n with
  | zero => rfl
  | succ n ih =>
    rw [Function.iterate_succ_apply', ih (n.le_succ.trans hn), Option.bind_some,
      Cursor.move?_after 0 hL hn]

/-- So a walk comes only to the cursors behind the first slots. -/
theorem eq_after_of_iterate {c : Cursor}
    (hc : (fun c? : Option Cursor => c?.bind (·.move? h))^[n] (some (Cursor.start h)) = some c) :
    n ≤ h.layout.slotCount ∧ c = Cursor.after h 0 n := by
  induction n generalizing c with
  | zero => exact ⟨Nat.zero_le _, (Option.some.inj hc).symm⟩
  | succ n ih =>
    rw [Function.iterate_succ_apply'] at hc
    obtain ⟨c', hc', hmoved⟩ := Option.bind_eq_some_iff.mp hc
    obtain ⟨hn, rfl⟩ := ih hc'
    rcases hn.eq_or_lt with rfl | hlt
    · rw [Cursor.move?_after_last 0 hL] at hmoved
      cases hmoved
    · rw [Cursor.move?_after 0 hL hlt] at hmoved
      exact ⟨hlt, (Option.some.inj hmoved).symm⟩

/-- Behind as many moves the registers hold what the cursor knows. -/
theorem behind_eq (hn : n ≤ h.layout.slotCount) :
    behind h n = (Cursor.after h 0 n).registers h.layout := by
  induction n with
  | zero => rfl
  | succ n ih =>
    rw [behind, ih (n.le_succ.trans hn), move_registers_of_some (Cursor.move?_after 0 hL hn)]

/-- A move that does not lead to a slot changes the location alone. -/
theorem move_behind_last : (behind h h.layout.slotCount).move h =
    (false, { behind h h.layout.slotCount with
      started := true, place := h.layout.locationOf h.layout.slotCount }) := by
  rw [behind_eq hL le_rfl, move_registers_of_none (Cursor.move?_after_last 0 hL),
    Cursor.next_after 0 hL le_rfl]

/-- Each move leads to the location of the next index, also the one behind the last slot. -/
theorem place_behind_succ (hn : n ≤ h.layout.slotCount) :
    (behind h (n + 1)).place = h.layout.locationOf n := by
  rcases hn.eq_or_lt with rfl | hlt
  · rw [behind, move_behind_last hL]
  · rw [behind_eq hL hlt]
    rfl

/-- Behind as many moves as there are slots, and not before, the registers are at the last slot. -/
theorem atLastSlot_behind (hn : n ≤ h.layout.slotCount) :
    (behind h n).atLastSlot h.layout = decide (n = h.layout.slotCount) := by
  rw [behind_eq hL hn, ← Cursor.atLastSlot_after 0 hL hn]
  cases n with
  | zero =>
    -- The first location is not the last one, since there are two at least.
    have hplaces : h.layout.subCount ≠ 1 := by
      rw [hL.subCount_eq, pow_succ]
      have := Nat.two_pow_pos h.layout.halfMagnitude
      omega
    exact Bool.and_eq_false_imp.mpr fun _ => beq_false_of_ne hplaces.symm
  | succ n => rfl

/-- The lowest value ahead is that of the next index. -/
theorem nextLowest_behind (hn : n ≤ h.layout.slotCount) :
    (behind h n).nextLowest h.layout = h.layout.lowestOfIndex n := by
  rw [← Cursor.nextLowest_after 0 hL hn, behind_eq hL hn, nextLowest, following_registers]
  rfl

/-- The lowest value ahead is not below the one at hand. -/
theorem lowest_behind_le (hn : n ≤ h.layout.slotCount) :
    (behind h n).lowest ≤ (behind h n).nextLowest h.layout := by
  rw [nextLowest_behind hL hn, behind_eq hL hn]
  cases n with
  | zero => exact Nat.zero_le _
  | succ n =>
    have hproper := (Layout.locationOf_spec hL hn).1
    change h.layout.lowestAt (h.layout.locationOf n) ≤ _
    rw [Layout.lowestOfIndex, Layout.lowestAt_eq hL hproper,
      Layout.lowestAt_eq hL (Layout.proper_locationOf hL hn), Layout.locationOf_succ hL hn,
      Layout.lowestExactly_following hL hproper]
    exact min_le_min_right _ (Nat.le_add_right _ _)

end

/-! ## The walk and the indices -/

/-- How the moves of a cursor in registers and the indices of slots hang together. -/
structure FollowsIndices (h : Histogram) : Prop where
  /-- As many moves as there are slots lead to slots, and the next one does not. -/
  moves : ∀ n ≤ h.layout.slotCount,
    ((behind h n).move h).1 = decide (n < h.layout.slotCount)
  /-- They lead to the slots in the order of their indices, each with its lowest value. -/
  place : ∀ n < h.layout.slotCount, h.layout.indexOf (behind h (n + 1)).place = n ∧
    h.layout.lowestAt (behind h (n + 1)).place = h.layout.lowestOfIndex n
  /-- What is found there is what the slot of that index holds, and the samples in all slots up to
  it. -/
  found : ∀ n < h.layout.slotCount, (behind h (n + 1)).count = h.count n ∧
    (behind h (n + 1)).lowest = h.layout.lowestOfIndex n ∧
    (behind h (n + 1)).passed = (∑ i ∈ Finset.range (n + 1), h.count i) % 2 ^ 64
  /-- The last slot is recognised, and no other one. -/
  atLastSlot : ∀ n ≤ h.layout.slotCount,
    (behind h n).atLastSlot h.layout = decide (n = h.layout.slotCount)
  /-- The move that does not lead to a slot leaves what was found. -/
  kept : (behind h (h.layout.slotCount + 1)).count = (behind h h.layout.slotCount).count ∧
    (behind h (h.layout.slotCount + 1)).passed = (behind h h.layout.slotCount).passed ∧
    (behind h (h.layout.slotCount + 1)).lowest = (behind h h.layout.slotCount).lowest ∧
    (behind h (h.layout.slotCount + 1)).highest = (behind h h.layout.slotCount).highest
  /-- Before every move the lowest value ahead is that of the location which the move leads to, held
  at `topValue`, and it is not below the lowest value at hand. -/
  ahead : ∀ n ≤ h.layout.slotCount, (behind h n).nextLowest h.layout =
      min (h.layout.lowestExactly (behind h (n + 1)).place) topValue ∧
    (behind h n).lowest ≤ (behind h n).nextLowest h.layout
  /-- The cursor of the traversals makes the same moves, and knows what the registers hold. -/
  cursor : ∀ n ≤ h.layout.slotCount, ∃ c : Cursor,
    (fun c? : Option Cursor => c?.bind (·.move? h))^[n] (some (Cursor.start h)) = some c ∧
      c.registers h.layout = behind h n ∧
      c.atLastSlot h.layout = (behind h n).atLastSlot h.layout ∧
      c.nextLowest h.layout = (behind h n).nextLowest h.layout ∧
      (c.move? h).isSome = ((behind h n).move h).1

/-- In every histogram of an accepted layout the moves of a cursor lead through the slots in the
order of their indices. -/
theorem follows_indices {b : Bounds} {h : Histogram} (hbounds : Layout.ofBounds b = .ok h.layout) :
    FollowsIndices h := by
  have hL := Layout.ofBounds_shaped hbounds
  have hmoves : ∀ n ≤ h.layout.slotCount,
      ((behind h n).move h).1 = decide (n < h.layout.slotCount) := by
    intro n hn
    rcases hn.eq_or_lt with rfl | hlt
    · rw [move_behind_last hL, decide_eq_false (lt_irrefl _)]
    · rw [behind_eq hL hn, move_registers_of_some (Cursor.move?_after 0 hL hlt),
        decide_eq_true hlt]
  refine ⟨hmoves, fun n hn => ?_, fun n hn => ?_, fun n => atLastSlot_behind hL, ?_,
    fun n hn => ⟨?_, lowest_behind_le hL hn⟩, fun n hn => ?_⟩
  · rw [place_behind_succ hL hn.le]
    exact ⟨(Layout.locationOf_spec hL hn).2.1, rfl⟩
  · rw [behind_eq hL hn, Finset.range_eq_Ico]
    exact ⟨rfl, rfl, h.countIn_eq 0 (n + 1)⟩
  · rw [behind, move_behind_last hL]
    exact ⟨rfl, rfl, rfl, rfl⟩
  · rw [nextLowest_behind hL hn, place_behind_succ hL hn, Layout.lowestOfIndex,
      Layout.lowestAt_eq hL (Layout.proper_locationOf hL hn)]
  · refine ⟨_, iterate_move?_start hL hn, (behind_eq hL hn).symm, ?_, ?_, ?_⟩
    · rw [Cursor.atLastSlot_after 0 hL hn, atLastSlot_behind hL hn]
    · rw [Cursor.nextLowest_after 0 hL hn, nextLowest_behind hL hn]
    · rw [hmoves n hn]
      rcases hn.eq_or_lt with rfl | hlt
      · rw [Cursor.move?_after_last 0 hL, decide_eq_false (lt_irrefl _)]
        rfl
      · rw [Cursor.move?_after 0 hL hlt, decide_eq_true hlt]
        rfl

/-- Three samples of `topValue` in slots of `2 ^ 57` values and more, of which those of the third
bucket would start at `2 ^ 63`. -/
def topped : Histogram :=
  let empty := Histogram.ofLayout
    ⟨⟨2 ^ 57, 2 ^ 63 - 1, 1⟩, 57, 4, 32, 16, 31 * 2 ^ 57, 3, 64⟩ .bits8
  ((Recording.plain topValue 3).run empty).1

/-- The samples are found by the last move among the values, and further moves lead to slots whose
lowest value is held at `topValue`. -/
theorem topped_follows_indices :
    Layout.ofBounds ⟨2 ^ 57, 2 ^ 63 - 1, 1⟩ = .ok topped.layout ∧ FollowsIndices topped ∧
      ((behind topped 48).count, (behind topped 48).highest) = (3, topValue) ∧
      ((behind topped 49).count, (behind topped 49).lowest) = (0, topValue) ∧
      (behind topped 64).atLastSlot topped.layout = true ∧
      ((behind topped 64).move topped).1 = false ∧ (behind topped 65).place = ⟨3, 16⟩ := by
  have hbounds : Layout.ofBounds ⟨2 ^ 57, 2 ^ 63 - 1, 1⟩ = .ok topped.layout := by decide +kernel
  exact ⟨hbounds, follows_indices hbounds, by decide +kernel, by decide +kernel, by decide +kernel,
    by decide +kernel, by decide +kernel⟩

end Registers

end DynamicRange
