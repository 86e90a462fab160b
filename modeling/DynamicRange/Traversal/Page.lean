import DynamicRange.Traversal.Cursor

/-!
# Pages of a traversal

A traversal may have very many items or never end. A page tells some of them: a number of items are
dropped, then a number of items are told, and it is said whether there is one more.
-/

namespace DynamicRange

variable {σ : Type}

/-- The state behind the next `n` items, if there are so many. -/
def skipItems? (next? : σ → Option (Item × σ)) : Nat → σ → Option σ
  | 0, s => some s
  | n + 1, s =>
    match next? s with
    | none => none
    | some (_, s) => skipItems? next? n s

/-- The next `n` items, or all if there are fewer, after those `told`, and whether one more
follows. -/
def takeItems (next? : σ → Option (Item × σ)) : Nat → σ → Array Item → Array Item × Bool
  | 0, s, told => (told, (next? s).isSome)
  | n + 1, s, told =>
    match next? s with
    | none => (told, false)
    | some (x, s) => takeItems next? n s (told.push x)

/-- At most `limit` items behind the first `skip`, and whether one more follows. -/
def page (next? : σ → Option (Item × σ)) (skip limit : Nat) (s : σ) : Array Item × Bool :=
  match skipItems? next? skip s with
  | none => (#[], false)
  | some s => takeItems next? limit s #[]

end DynamicRange
