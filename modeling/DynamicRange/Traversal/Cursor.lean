import DynamicRange.Histogram.Query

/-!
# Cursors

A cursor visits the slots of a histogram in the order of their values and adds up their counts. All
traversals move one cursor and differ only in where they report. A cursor knows the number of
samples from when it was made, and holds none ahead once it has passed as many.

`Cursor.move?_remaining_lt` says that moves run out, which every search along the slots rests on.
-/

namespace DynamicRange

/-- What a traversal reports at one point. -/
structure Item where
  /-- The value that the traversal has reached. -/
  reached : Nat
  /-- The lowest value of the slot at which it stands. -/
  lowest : Nat
  /-- The percentage of the samples that are at or below the value reached. -/
  percentile : Float
  /-- The samples in the slot. -/
  count : Nat
  /-- The samples up to and with the slot. -/
  cumulative : Nat
  /-- The samples since the item before. -/
  sinceLast : Nat

/-- A place in a walk along the slots of a histogram. -/
structure Cursor where
  /-- The slot visited last; none before the first. -/
  slot? : Option Location
  /-- The samples in that slot. -/
  count : Nat
  /-- The samples in all slots visited, modulo `2 ^ 64`. -/
  passed : Nat
  /-- The samples passed at the last report. -/
  reported : Nat
  /-- The samples of the histogram when the walk began. -/
  total : Nat

namespace Cursor

/-- A cursor before the first slot. -/
def start (h : Histogram) : Cursor := ⟨none, 0, 0, 0, h.total⟩

/-- Whether samples lie ahead. -/
def hasNext (c : Cursor) : Bool := c.passed < c.total

/-- The location that the next move leads to. -/
def next (L : Layout) (c : Cursor) : Location := c.slot?.elim ⟨0, 0⟩ L.following

/-- The lowest value of the slot visited last; zero before the first. -/
def lowest (L : Layout) (c : Cursor) : Nat := c.slot?.elim 0 L.lowestAt

/-- The highest value of the slot visited last. -/
def highest (L : Layout) (c : Cursor) : Nat := L.highestEquivalent (c.lowest L)

/-- The lowest value of the slot that comes next. -/
def nextLowest (L : Layout) (c : Cursor) : Nat := L.lowestAt (c.next L)

/-- Whether the slot visited last is the last one there is. -/
def atLastSlot (L : Layout) (c : Cursor) : Bool :=
  c.slot?.any fun l => l.bucket + 1 == L.bucketCount && l.sub + 1 == L.subCount

/-- The cursor at the next slot; none after the last. -/
def move? (h : Histogram) (c : Cursor) : Option Cursor :=
  let l := c.next h.layout
  if l.bucket < h.layout.bucketCount then
    let count := h.count (h.layout.indexOf l)
    some { c with slot? := some l, count, passed := wrapTotal (c.passed + count) }
  else
    none

/-- The percentage of the samples that are in the slots visited. -/
def percentile (c : Cursor) : Float := Histogram.percentage c.passed c.total

/-- The item for the current slot, and the cursor that has reported it. -/
def report (L : Layout) (c : Cursor) (reached : Nat) (percentile : Float) : Item × Cursor :=
  ({ reached
     lowest := c.lowest L
     percentile
     count := c.count
     cumulative := c.passed
     sinceLast := totalSince c.passed c.reported },
    { c with reported := c.passed })

/-- A bound on the number of moves that a cursor has ahead. -/
def remaining (L : Layout) (c : Cursor) : Nat :=
  c.slot?.elim (L.bucketCount * (L.subCount + 1) + L.subCount + 1) fun l =>
    (L.bucketCount - l.bucket) * (L.subCount + 1) + (L.subCount - l.sub)

/-- A move leads to the location that comes next, which belongs to one of the buckets. -/
theorem move?_slot {h : Histogram} {c c' : Cursor} (moved : c.move? h = some c') :
    c'.slot? = some (c.next h.layout) ∧ (c.next h.layout).bucket < h.layout.bucketCount := by
  simp only [move?] at moved
  split at moved
  · next within =>
    cases moved
    exact ⟨rfl, within⟩
  · cases moved

/-- Every move leaves fewer moves ahead. -/
theorem move?_remaining_lt {h : Histogram} {c c' : Cursor} (moved : c.move? h = some c') :
    c'.remaining h.layout < c.remaining h.layout := by
  obtain ⟨at_next, within⟩ := move?_slot moved
  simp only [remaining, at_next, Option.elim_some]
  rcases c with ⟨_ | l, count, passed, reported, total⟩
  · simp [next]
  · simp only [next, Option.elim_some, Layout.following] at within ⊢
    split at within
    · next inside =>
      simp only [if_pos inside]
      omega
    · next outside =>
      simp only [if_neg outside] at within ⊢
      have later : h.layout.bucketCount - l.bucket
          = h.layout.bucketCount - (l.bucket + 1) + 1 := by omega
      rw [later, Nat.add_mul]
      omega

/-- Moves on, one slot at least, until samples no longer lie ahead or the slots end or `goal` is
met. It gives the last cursor on the way and whether that one met `goal`. -/
def seek (h : Histogram) (goal : Cursor → Bool) (c : Cursor) : Cursor × Bool :=
  if c.hasNext then
    match _moved : c.move? h with
    | none => (c, false)
    | some c' => if goal c' then (c', true) else c'.seek h goal
  else
    (c, false)
termination_by c.remaining h.layout
decreasing_by exact move?_remaining_lt _moved

/-- A search does not lead back, and where it ends successfully it has moved. -/
theorem seek_remaining (h : Histogram) (goal : Cursor → Bool) (c : Cursor) :
    (c.seek h goal).1.remaining h.layout ≤ c.remaining h.layout ∧
      ((c.seek h goal).2 = true →
        (c.seek h goal).1.remaining h.layout < c.remaining h.layout) := by
  fun_induction seek h goal c with
  | case1 | case4 => simp
  | case2 c _ c' moved =>
    have := move?_remaining_lt moved
    exact ⟨Nat.le_of_lt this, fun _ => this⟩
  | case3 c _ c' moved _ ih =>
    have := move?_remaining_lt moved
    omega

/-- The next slot that holds samples, reported, while samples lie ahead. -/
def nextRecorded? (h : Histogram) (c : Cursor) : Option (Item × Cursor) :=
  match c.seek h (·.count ≠ 0) with
  | (c, true) => some (c.report h.layout (c.highest h.layout) c.percentile)
  | (_, false) => none

/-- A report of a recorded slot leaves fewer moves ahead. -/
theorem nextRecorded?_remaining_lt {h : Histogram} {c c' : Cursor} {x : Item}
    (found : c.nextRecorded? h = some (x, c')) :
    c'.remaining h.layout < c.remaining h.layout := by
  unfold nextRecorded? at found
  have sought := (seek_remaining h (·.count ≠ 0) c).2
  split at found
  · next c₁ seen =>
    rw [seen] at sought
    simp only [report, Option.some.injEq, Prod.mk.injEq] at found
    rw [← found.2]
    exact sought rfl
  · cases found

end Cursor

end DynamicRange
