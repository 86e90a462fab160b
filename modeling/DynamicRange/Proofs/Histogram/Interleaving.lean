import DynamicRange.Proofs.Histogram.Recordings
import Mathlib.Data.List.Flatten
import Mathlib.Logic.Function.Basic

/-!
# Recordings at the same time

A race is a histogram with recordings under way that share it. Each of them runs by itself: it takes
up a value, makes the changes that record it, one cell at a time, and goes on to what was held up
behind it, until it returns. A schedule names the recordings in the order in which they move, so
that the schedules are all interleavings. A recording may begin at any time. Those of one thread,
each of which begins when the one before has returned, are among them.

`run_serializable` says that no schedule matters. Changes to cells commute, whatever the cells hold
(`Histogram.apply_comm`), so that the changes made, followed by the changes that are still to be
made, have the same effect as all changes in any order (`Race.Settled`). When all recordings have
returned, nothing is left to be made, and they have done what they would do one after the other.
-/

namespace DynamicRange

/-! ## Changes commute -/

/-- Counts are added to a counter in any order. -/
theorem CounterWidth.add_right_comm (w : CounterWidth) (count m n : ℕ) :
    w.add (w.add count m) n = w.add (w.add count n) m := by
  rw [add, add, add, add, Nat.mod_add_mod, Nat.mod_add_mod, Nat.add_right_comm]

namespace Histogram

/-- Two changes to cells have the same effect in either order. -/
theorem apply_comm (h : Histogram) (u v : CellUpdate) :
    (h.apply u).apply v = (h.apply v).apply u := by
  cases u with
  | addToSlot i m =>
    cases v with
    | addToSlot j n =>
      have hslots : (h.slots.modify i (h.width.add · m)).modify j (h.width.add · n) =
          (h.slots.modify j (h.width.add · n)).modify i (h.width.add · m) := by
        ext k hk hk'
        · simp
        · simp only [Array.getElem_modify]
          split_ifs
          · exact h.width.add_right_comm _ m n
          all_goals rfl
      simp only [apply, hslots]
    | addToTotal | lowerLeast | raiseGreatest => rfl
  | addToTotal m =>
    cases v with
    | addToTotal n =>
      have htotal : wrapTotal (wrapTotal (h.total + m) + n) =
          wrapTotal (wrapTotal (h.total + n) + m) := by
        simp only [wrapTotal]
        omega
      simp only [apply, htotal]
    | addToSlot | lowerLeast | raiseGreatest => rfl
  | lowerLeast m =>
    cases v with
    | lowerLeast n =>
      exact congrArg (fun least => { h with least }) (Nat.min_right_comm ..)
    | addToSlot | addToTotal | raiseGreatest => rfl
  | raiseGreatest m =>
    cases v with
    | raiseGreatest n =>
      exact congrArg (fun greatest => { h with greatest }) (Nat.max_right_comm ..)
    | addToSlot | addToTotal | lowerLeast => rfl

instance : RightCommutative Histogram.apply := ⟨apply_comm⟩

/-- Changes have the same effect in any order. -/
theorem applyAll_perm {us vs : List CellUpdate} (hperm : us.Perm vs) (h : Histogram) :
    h.applyAll us = h.applyAll vs :=
  hperm.foldl_eq h

end Histogram

/-! ## Recordings under way -/

/-- If the list of one index loses its first element, so does the concatenation over all indices, up
to the order. -/
theorem flatMap_perm_cons {κ α : Type} {order : List κ} (hnodup : order.Nodup) {k : κ}
    (hk : k ∈ order) {f g : κ → List α} {x : α} (hcons : f k = x :: g k)
    (hother : ∀ j, j ≠ k → f j = g j) :
    (order.flatMap f).Perm (x :: order.flatMap g) := by
  obtain ⟨before, after, rfl⟩ := List.append_of_mem hk
  rw [List.nodup_middle, List.nodup_cons, List.mem_append, not_or] at hnodup
  obtain ⟨⟨hbefore, hafter⟩, -⟩ := hnodup
  have hsame : ∀ l : List κ, k ∉ l → l.flatMap f = l.flatMap g := fun l hl =>
    List.flatMap_congr fun j hj => hother j fun heq => hl (heq ▸ hj)
  rw [List.flatMap_append, List.flatMap_append, List.flatMap_cons, List.flatMap_cons,
    hsame before hbefore, hsame after hafter, hcons]
  exact List.perm_middle

/-- How far a recording has come that shares its histogram. -/
inductive Progress where
  /-- It has not begun. -/
  | waiting
  /-- It has some changes before it that record the value at hand, and then goes on to the values
  held up from one on, at intervals, if there may be any. -/
  | changing (rest : List CellUpdate) (behind : Option (ℤ × ℤ))
  /-- It has returned. -/
  | returned (outcome : Except RecordError Unit)

namespace Progress

/-- A recording takes up a value, with others behind it. -/
def takeUp (L : Layout) (v : ℤ) (n : ℕ) (behind : Option (ℤ × ℤ)) : Progress :=
  match L.recording v n with
  | .error e => .returned (.error e)
  | .ok updates => .changing updates behind

/-- A recording begins. -/
def begin (L : Layout) : Recording → Progress
  | .plain v n => takeUp L v n none
  | .corrected v interval =>
    takeUp L v 1 (if interval ≤ 0 ∨ v ≤ interval then none else some (v - interval, interval))

/-- A recording has recorded the value at hand and goes on to those behind it. -/
def goOn (L : Layout) : Option (ℤ × ℤ) → Progress
  | none => .returned (.ok ())
  | some (v, interval) =>
    if 0 < interval ∧ interval ≤ v then
      takeUp L v 1 (some (v - interval, interval))
    else
      .returned (.ok ())

/-- The changes that a recording is still to make. -/
def owed (L : Layout) (r : Recording) : Progress → List CellUpdate
  | waiting => r.work L
  | changing rest behind => rest ++ behind.elim [] fun (v, interval) => L.workDown v interval
  | returned _ => []

/-- What is to become of a recording. -/
def promised (L : Layout) (r : Recording) : Progress → Except RecordError Unit
  | waiting => r.outcome L
  | changing _ behind => behind.elim (.ok ()) fun (v, interval) => L.outcomeDown v interval
  | returned outcome => outcome

/-- A value that is taken up is refused or has its changes before it. -/
theorem takeUp_cases (L : Layout) (v : ℤ) (n : ℕ) (behind : Option (ℤ × ℤ)) :
    (∃ e, takeUp L v n behind = .returned (.error e)) ∨
      ∃ us, takeUp L v n behind = .changing us behind := by
  rw [takeUp]
  rcases L.recording v n with e | us
  · exact .inl ⟨e, rfl⟩
  · exact .inr ⟨us, rfl⟩

variable (L : Layout) (r : Recording)

/-- A recording that begins has all of its changes before it. -/
theorem begin_spec : (begin L r).owed L r = r.work L ∧ (begin L r).promised L r = r.outcome L := by
  cases r with
  | plain v n =>
    rw [begin, takeUp, Recording.work, Layout.work, Recording.outcome, Layout.outcome]
    rcases L.recording v n with e | us
    · exact ⟨rfl, rfl⟩
    · exact ⟨List.append_nil us, rfl⟩
  | corrected v interval =>
    rw [begin, takeUp, Recording.work, Layout.workCorrected, Recording.outcome,
      Layout.outcomeCorrected]
    rcases L.recording v 1 with e | us
    · exact ⟨rfl, rfl⟩
    · dsimp only
      split <;> exact ⟨rfl, rfl⟩

/-- A recording that goes on has the same changes before it as before. -/
theorem goOn_spec (behind : Option (ℤ × ℤ)) :
    (goOn L behind).owed L r = (changing [] behind).owed L r ∧
      (goOn L behind).promised L r = (changing [] behind).promised L r := by
  rcases behind with _ | ⟨v, interval⟩
  · exact ⟨rfl, rfl⟩
  · show (goOn L (some (v, interval))).owed L r = [] ++ L.workDown v interval ∧
      (goOn L (some (v, interval))).promised L r = L.outcomeDown v interval
    rw [goOn, takeUp, Layout.workDown, Layout.outcomeDown, List.nil_append]
    by_cases hv : 0 < interval ∧ interval ≤ v
    · simp only [if_pos hv]
      rcases L.recording v 1 with e | us <;> exact ⟨rfl, rfl⟩
    · simp only [if_neg hv]
      exact ⟨rfl, rfl⟩

end Progress

/-- A histogram, and how far each of some recordings `κ` has come that share it. -/
structure Race (κ : Type) where
  histogram : Histogram
  progress : κ → Progress

namespace Race

variable {κ : Type} [DecidableEq κ]

/-- No recording has begun. -/
def start (h : Histogram) : Race κ := ⟨h, fun _ => .waiting⟩

/-- A recording is now as far as this. -/
def turn (s : Race κ) (k : κ) (p : Progress) : Race κ :=
  { s with progress := Function.update s.progress k p }

/-- One recording moves: it begins, changes a cell, or goes on to another value. One that has
returned does nothing. -/
def move (calls : κ → Recording) (s : Race κ) (k : κ) : Race κ :=
  match s.progress k with
  | .waiting => s.turn k (.begin s.histogram.layout (calls k))
  | .changing (u :: rest) behind =>
    { s.turn k (.changing rest behind) with histogram := s.histogram.apply u }
  | .changing [] behind => s.turn k (.goOn s.histogram.layout behind)
  | .returned _ => s

/-- The recordings move as a schedule says. -/
def run (calls : κ → Recording) (h : Histogram) (schedule : List κ) : Race κ :=
  schedule.foldl (move calls) (start h)

/-- What a race has settled when it began. -/
structure Settled (calls : κ → Recording) (h : Histogram) (s : Race κ) : Prop where
  /-- The layout stays as it is. -/
  layout : s.histogram.layout = h.layout
  /-- What becomes of a recording is settled. -/
  promised : ∀ k, (s.progress k).promised h.layout (calls k) = (calls k).outcome h.layout
  /-- The changes made and those that are still to be made have the effect of all changes. -/
  owed : ∀ order : List κ, order.Nodup → (∀ k, k ∈ order) →
    s.histogram.applyAll (order.flatMap fun k => (s.progress k).owed h.layout (calls k)) =
      h.applyAll (order.flatMap fun k => (calls k).work h.layout)

variable {calls : κ → Recording} {h : Histogram} {s : Race κ} {k : κ}

/-- A turn of one recording changes how far that one is. -/
theorem forall_turn {P : κ → Progress → Prop} {p : Progress} (hk : P k p)
    (hother : ∀ j, j ≠ k → P j (s.progress j)) : ∀ j, P j ((s.turn k p).progress j) := by
  intro j
  rcases eq_or_ne j k with rfl | hne
  · simpa [turn] using hk
  · simpa [turn, hne] using hother j hne

/-- A turn that leaves a recording what it had before it settles nothing new. -/
theorem Settled.turn (hs : s.Settled calls h) {p : Progress}
    (howed : p.owed h.layout (calls k) = (s.progress k).owed h.layout (calls k))
    (hpromised : p.promised h.layout (calls k) = (s.progress k).promised h.layout (calls k)) :
    (s.turn k p).Settled calls h := by
  refine ⟨hs.layout, ?_, fun order hnodup hall => ?_⟩
  · exact forall_turn (P := fun j q => q.promised h.layout (calls j) = (calls j).outcome h.layout)
      (hpromised.trans (hs.promised k)) fun j _ => hs.promised j
  · have hsame : ∀ j, ((s.turn k p).progress j).owed h.layout (calls j) =
        (s.progress j).owed h.layout (calls j) :=
      forall_turn (P := fun j q =>
        q.owed h.layout (calls j) = (s.progress j).owed h.layout (calls j)) howed fun _ _ => rfl
    simp only [hsame]
    exact hs.owed order hnodup hall

/-- A change that a recording makes is one less that it has before it. -/
theorem Settled.change (hs : s.Settled calls h) {u : CellUpdate} {rest : List CellUpdate}
    {behind : Option (ℤ × ℤ)} (hp : s.progress k = .changing (u :: rest) behind) :
    Settled calls h
      { s.turn k (.changing rest behind) with histogram := s.histogram.apply u } := by
  have hpromised := hs.promised k
  rw [hp] at hpromised
  refine ⟨(s.histogram.apply_layout u).trans hs.layout, ?_, fun order hnodup hall => ?_⟩
  · exact forall_turn (P := fun j q => q.promised h.layout (calls j) = (calls j).outcome h.layout)
      hpromised fun j _ => hs.promised j
  -- The change stands first among those of its recording, and moves before those of the others.
  have hperm : (order.flatMap fun j => (s.progress j).owed h.layout (calls j)).Perm
      (u :: order.flatMap fun j =>
        ((s.turn k (.changing rest behind)).progress j).owed h.layout (calls j)) := by
    refine flatMap_perm_cons hnodup (hall k) ?_ fun j hne => ?_
    · rw [hp, show (s.turn k (.changing rest behind)).progress k = .changing rest behind by
        simp [Race.turn]]
      rfl
    · simp [Race.turn, hne]
  rw [← hs.owed order hnodup hall, Histogram.applyAll_perm hperm]
  rfl

/-- Every move leaves settled what was settled. -/
theorem Settled.move (hs : s.Settled calls h) (k : κ) : (s.move calls k).Settled calls h := by
  rw [Race.move]
  split
  · next hp =>
    rw [hs.layout]
    obtain ⟨howed, hpromised⟩ := Progress.begin_spec h.layout (calls k)
    exact hs.turn (by rw [hp, howed]; rfl) (by rw [hp, hpromised]; rfl)
  · next u rest behind hp => exact hs.change hp
  · next behind hp =>
    rw [hs.layout]
    obtain ⟨howed, hpromised⟩ := Progress.goOn_spec h.layout (calls k) behind
    exact hs.turn (by rw [hp, howed]) (by rw [hp, hpromised])
  · exact hs

/-- Every schedule leaves settled what was settled when the race began. -/
theorem run_settled (calls : κ → Recording) (h : Histogram) (schedule : List κ) :
    (run calls h schedule).Settled calls h := by
  have hstart : (start h : Race κ).Settled calls h := ⟨rfl, fun _ => rfl, fun _ _ _ => rfl⟩
  -- The induction is on the schedule, from any race that has settled what `h` has.
  rw [run]
  generalize start h = s at hstart
  induction schedule generalizing s with
  | nil => exact hstart
  | cons k schedule ih => exact ih _ (hstart.move k)

/-! ## Recordings return -/

/-- Whether a recording returns if it moves on by itself. -/
def Finishes (calls : κ → Recording) (s : Race κ) (k : κ) : Prop :=
  ∃ n outcome, ((List.replicate n k).foldl (move calls) s).progress k = .returned outcome

/-- A recording finishes if it finishes after it has moved. -/
theorem Finishes.of_move (hnext : Finishes calls (s.move calls k) k) : Finishes calls s k := by
  obtain ⟨n, outcome, hn⟩ := hnext
  exact ⟨n + 1, outcome, hn⟩

/-- A recording that takes up a value finishes, if it does so with the changes of that value before
it. -/
theorem Finishes.of_takeUp {L : Layout} {v : ℤ} {n : ℕ} {behind : Option (ℤ × ℤ)}
    (hp : s.progress k = .takeUp L v n behind)
    (hchanging : ∀ us, s.progress k = .changing us behind → Finishes calls s k) :
    Finishes calls s k := by
  rcases Progress.takeUp_cases L v n behind with ⟨e, he⟩ | ⟨us, hus⟩
  · exact ⟨0, .error e, hp.trans he⟩
  · exact hchanging us (hp.trans hus)

/-- A recording that has taken up a value finishes: it makes finitely many changes, and every value
behind comes to less than the one before. -/
theorem finishes_of_changing {s : Race κ} {rest : List CellUpdate} {behind : Option (ℤ × ℤ)}
    (hp : s.progress k = .changing rest behind) : Finishes calls s k := by
  refine .of_move ?_
  match rest, behind with
  | u :: rest, behind =>
    have hnext : (s.move calls k).progress k = .changing rest behind := by simp [move, hp, turn]
    exact finishes_of_changing hnext
  | [], none => exact ⟨0, .ok (), by simp [move, hp, turn, Progress.goOn]⟩
  | [], some (v, interval) =>
    -- The value behind the one that is taken up now comes to less, so the recursion ends.
    have hnext : (s.move calls k).progress k =
        .goOn s.histogram.layout (some (v, interval)) := by simp [move, hp, turn]
    rw [Progress.goOn] at hnext
    split at hnext
    · next hv => exact .of_takeUp hnext fun us hus => finishes_of_changing hus
    · exact ⟨0, .ok (), hnext⟩
termination_by (behind.elim 0 (·.1.toNat + 1), rest.length)
decreasing_by
  · exact .right _ (Nat.lt_succ_self _)
  · exact .left _ _ (by simp only [Option.elim_some]; omega)

/-- However far a recording has come, it finishes. -/
theorem finishes (calls : κ → Recording) (s : Race κ) (k : κ) : Finishes calls s k := by
  rcases hp : s.progress k with _ | ⟨rest, behind⟩ | outcome
  · have hnext : (s.move calls k).progress k = .begin s.histogram.layout (calls k) := by
      simp [move, hp, turn]
    refine .of_move ?_
    rcases hcall : calls k with ⟨v, n⟩ | ⟨v, interval⟩
    all_goals
      rw [hcall, Progress.begin] at hnext
      exact .of_takeUp hnext fun us hus => finishes_of_changing hus
  · exact finishes_of_changing hp
  · exact ⟨0, outcome, hp⟩

/-- A move of one recording leaves the others as far as they are. -/
theorem move_progress_of_ne (calls : κ → Recording) (s : Race κ) {j : κ} (hne : j ≠ k) :
    (s.move calls k).progress j = s.progress j := by
  rw [move]
  split <;> simp [turn, hne]

/-- A recording that has returned stays where it is. -/
theorem foldl_move_progress {outcome : Except RecordError Unit}
    (hp : s.progress k = .returned outcome) (schedule : List κ) :
    (schedule.foldl (move calls) s).progress k = .returned outcome := by
  induction schedule generalizing s with
  | nil => exact hp
  | cons j schedule ih =>
    refine ih ?_
    rcases eq_or_ne k j with rfl | hne
    · simp [move, hp]
    · rw [move_progress_of_ne calls s hne, hp]

/-- Some recordings can all return, one after the other, however far they have come. -/
theorem exists_schedule (calls : κ → Recording) (s : Race κ) (ks : List κ) :
    ∃ more : List κ, ∀ k ∈ ks, ∃ outcome,
      (more.foldl (move calls) s).progress k = .returned outcome := by
  induction ks generalizing s with
  | nil => exact ⟨[], by simp⟩
  | cons k ks ih =>
    obtain ⟨n, outcome, hfirst⟩ := finishes calls s k
    obtain ⟨more, hmore⟩ := ih ((List.replicate n k).foldl (move calls) s)
    refine ⟨List.replicate n k ++ more, fun j hj => ?_⟩
    rw [List.foldl_append]
    rcases List.mem_cons.mp hj with rfl | hrest
    · exact ⟨outcome, foldl_move_progress hfirst more⟩
    · exact hmore j hrest

/-! ## No schedule matters -/

/-- What recordings that share a histogram do, against what they do one after the other in some
order. -/
structure Serializable (calls : κ → Recording) (h : Histogram) (order : List κ) : Prop where
  /-- However they have moved so far, all recordings can return. -/
  finishes : ∀ schedule, ∃ more, ∀ k, ∃ outcome,
    (run calls h (schedule ++ more)).progress k = .returned outcome
  /-- When all have returned, they have left the histogram, and have the outcomes, that they have
  one after the other. -/
  serial : ∀ (schedule : List κ) (outcome : κ → Except RecordError Unit),
    (∀ k, (run calls h schedule).progress k = .returned (outcome k)) →
    h.recordAll (order.map calls) = ((run calls h schedule).histogram, order.map outcome)

/-- However recordings that share a histogram are interleaved, they do what they do one after the
other in any order. -/
theorem run_serializable (calls : κ → Recording) (h : Histogram) {order : List κ}
    (hnodup : order.Nodup) (hall : ∀ k, k ∈ order) : Serializable calls h order := by
  refine ⟨fun schedule => ?_, fun schedule outcome hreturned => ?_⟩
  · obtain ⟨more, hmore⟩ := exists_schedule calls (run calls h schedule) order
    refine ⟨more, fun k => ?_⟩
    rw [run, List.foldl_append]
    exact hmore k (hall k)
  · -- Nothing is owed any more, so the changes made have the effect of all changes.
    have hsettled := run_settled calls h schedule
    have howed := hsettled.owed order hnodup hall
    have hpromised := hsettled.promised
    simp only [hreturned, Progress.owed, Progress.promised] at howed hpromised
    have hnothing : (order.flatMap fun _ => ([] : List CellUpdate)) = [] := by simp
    rw [hnothing] at howed
    rw [Histogram.recordAll_eq, List.flatMap_map, ← howed, List.map_map]
    exact congrArg _ (List.map_congr_left fun k _ => (hpromised k).symm)

/-- Two recordings, one of them with a sample held up. -/
def overlapping : Bool → Recording
  | false => .corrected 2 1
  | true => .plain 2 200

/-- A histogram that has two hundred samples already, in counters of 8 bits. -/
def filled : Histogram :=
  ((Histogram.ofLayout ⟨⟨1, 2, 1⟩, 0, 4, 32, 16, 31, 1, 32⟩ .bits8).record 2 200).1

/-- The two recordings move in turn. -/
def inTurn : List Bool := (List.replicate 11 [true, false]).flatten

/-- The two recordings do what they do one after the other, and the counter starts over. -/
theorem overlapping_serializable :
    Serializable overlapping filled [false, true] ∧
      (∀ k, (run overlapping filled inTurn).progress k = .returned (.ok ())) ∧
      (run overlapping filled inTurn).histogram.count 2 = 145 := by
  refine ⟨run_serializable overlapping filled (by decide) (by decide), fun k => ?_, ?_⟩
  · cases k <;> rfl
  · decide +kernel

end Race

end DynamicRange
