import DynamicRange.Traversal.Argument
import DynamicRange.Traversal.Cursor

/-!
# Percentile levels

The levels of this traversal start at 0 and draw nearer to each other towards 100: every half of the
distance that is left is crossed in the same number of ticks. Each level is reported at the first
recorded slot that reaches it, so that one slot may be reported for several levels. When the slots
run out, the last one visited is reported once more, at 100.
-/

namespace DynamicRange

/-- The level that follows `level`, with `ticks` levels to every half distance. -/
def followingLevel (ticks : Nat) (level : Float) : Float :=
  let halvings := (100.0 / (100.0 - level)).log2.floor
  let halfDistance := Float.pow 2.0 (halvings + 1.0)
  level + 100.0 / (countToFloat ticks * halfDistance)

/-- A traversal by percentile levels. -/
structure PercentileLevels where
  /-- Where the traversal stands. -/
  cursor : Cursor
  /-- The number of levels to every half distance. -/
  ticks : Nat
  /-- The level to be reported next. -/
  level : Float
  /-- Whether the last slot was reported at 100. -/
  finished : Bool

namespace PercentileLevels

/-- A traversal of a histogram that is about to report the level 0. -/
def start (h : Histogram) (ticks : Nat) : Except ArgumentError PercentileLevels :=
  if ticks = 0 then .error .ticksNotPositive else .ok ⟨.start h, ticks, 0.0, false⟩

/-- Whether a cursor stands at a recorded slot that reaches the level to be reported. -/
def reachedBy (t : PercentileLevels) (c : Cursor) : Bool :=
  c.count ≠ 0 && t.level ≤ c.percentile

/-- Reports the last slot visited at 100, unless that was done. -/
def finish? (h : Histogram) (t : PercentileLevels) : Option (Item × PercentileLevels) :=
  if t.finished then
    none
  else
    let (item, cursor) := t.cursor.report h.layout (t.cursor.highest h.layout) 100.0
    some (item, { t with cursor, finished := true })

/-- The next item, and the traversal behind it. A level that the current slot reaches is reported
there, without a move. -/
def next? (h : Histogram) (t : PercentileLevels) : Option (Item × PercentileLevels) :=
  if t.cursor.total = 0 then
    none
  else if !t.cursor.hasNext then
    t.finish? h
  else
    let (cursor, reached) :=
      if t.reachedBy t.cursor then (t.cursor, true) else t.cursor.seek h t.reachedBy
    if reached then
      let (item, cursor) := cursor.report h.layout (cursor.highest h.layout) t.level
      some (item, { t with cursor, level := followingLevel t.ticks t.level })
    else
      { t with cursor }.finish? h

end PercentileLevels

end DynamicRange
