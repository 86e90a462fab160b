import DynamicRange.Proofs.Traversal.Search
import DynamicRange.Proofs.Traversal.Steps
import DynamicRange.Traversal.Percentile

/-!
# Percentile levels, whatever the levels are

Which levels are reported is a matter of floating point numbers. What is reported of each slot, and
that the traversal goes once through the slots and ends with a report at 100, is not: it holds for
any succession of levels and any way to tell whether a slot reaches a level. So calls are taken
apart from both (`PercentileLevels.call`), and those of the traversal are the ones with the levels
that it has (`next?_eq_call`).

A call makes as many moves as it is said to visit slots (`call_visits`), and does one of two things
(`CallFrom`). It leaves the traversal as it is and gives nothing, or it goes on to a slot that holds
samples and reports it. Everything else follows along the calls, as the slots visited so far settle
where each call begins (`successive`).
-/

namespace DynamicRange

namespace PercentileLevels

/-! ## Calls -/

/-- What a call for the next item comes to. -/
structure Call where
  /-- The item, if there is one. -/
  item? : Option Item
  /-- The traversal behind the call. -/
  behind : PercentileLevels
  /-- The number of slots that the call has visited. -/
  visits : ℕ

/-- What is told of a call: the item and the traversal behind it, if there is an item. -/
def Call.told (c : Call) : Option (Item × PercentileLevels) := c.item?.map (·, c.behind)

/-- A call that has led to a cursor and reports its slot at 100, unless that was done. -/
def close (h : Histogram) (t : PercentileLevels) (c : Cursor) (visits : ℕ) : Call :=
  if t.finished then
    ⟨none, { t with cursor := c }, visits⟩
  else
    let (item, cursor) := c.report h.layout (c.highest h.layout) 100.0
    ⟨some item, { t with cursor, finished := true }, visits⟩

/-- Where a call goes on to, whether a goal is met there, and the number of slots visited. It stays
where it is if the goal is met there. -/
def goOn (h : Histogram) (goal : Cursor → Bool) (c : Cursor) : (Cursor × Bool) × ℕ :=
  if goal c then ((c, true), 0) else (c.seek h goal, c.seekVisits h goal)

/-- A call that has gone on to a cursor reports its slot at the level, or at 100 if its slot does
not reach the level. -/
def conclude (follows : ℕ → Float → Float) (h : Histogram) (t : PercentileLevels) :
    (Cursor × Bool) × ℕ → Call
  | ((c, true), visits) =>
    let (item, cursor) := c.report h.layout (c.highest h.layout) t.level
    ⟨some item, { t with cursor, level := follows t.ticks t.level }, visits⟩
  | ((c, false), visits) => t.close h c visits

/-- A call for the next item, where `follows` gives the level behind a level and `reaches` tells
whether the slot of a cursor reaches a level. -/
def call (follows : ℕ → Float → Float) (reaches : Float → Cursor → Bool) (h : Histogram)
    (t : PercentileLevels) : Call :=
  if t.cursor.total = 0 then
    ⟨none, t, 0⟩
  else if !t.cursor.hasNext then
    t.close h t.cursor 0
  else
    t.conclude follows h (goOn h (fun c => c.count ≠ 0 && reaches t.level c) t.cursor)

/-- The traversal by percentile levels makes the calls with its own levels. -/
theorem next?_eq_call (h : Histogram) (t : PercentileLevels) :
    t.next? h = (t.call followingLevel (fun level c => level ≤ c.percentile) h).told := by
  have hclose : ∀ c visits, finish? h { t with cursor := c } = (t.close h c visits).told := by
    intro c visits
    unfold finish? close
    split <;> rfl
  have hfound : (if t.reachedBy t.cursor then (t.cursor, true) else t.cursor.seek h t.reachedBy) =
      (goOn h t.reachedBy t.cursor).1 := by
    unfold goOn
    split <;> rfl
  unfold next? call
  rw [hfound]
  split
  · rfl
  · split
    · exact hclose t.cursor 0
    · change _ = (conclude _ h t (goOn h t.reachedBy t.cursor)).told
      rcases goOn h t.reachedBy t.cursor with ⟨⟨c, _ | _⟩, visits⟩
      · exact hclose c visits
      · rfl

/-! ## What one call does -/

/-- A call that reports at 100 stays where it has been led to. -/
theorem close_visits (h : Histogram) (t : PercentileLevels) (c : Cursor) (visits : ℕ) :
    (t.close h c visits).visits = visits ∧
      ∃ reported, (t.close h c visits).behind.cursor = { c with reported } := by
  unfold close
  split
  · exact ⟨rfl, c.reported, rfl⟩
  · exact ⟨rfl, c.passed, rfl⟩

/-- As many moves as slots are visited lead to where a call goes on to. -/
theorem move?_goOn (h : Histogram) (goal : Cursor → Bool) (c : Cursor) :
    (fun c? : Option Cursor => c?.bind (·.move? h))^[(goOn h goal c).2] (some c) =
      some (goOn h goal c).1.1 := by
  unfold goOn
  split
  · rfl
  · exact Cursor.move?_seekVisits h goal c

/-- A call makes as many moves as it visits slots, and reports where they lead to. -/
theorem call_visits (follows : ℕ → Float → Float) (reaches : Float → Cursor → Bool) (h : Histogram)
    (t : PercentileLevels) :
    ∃ c reported,
      (fun c? : Option Cursor => c?.bind (·.move? h))^[(t.call follows reaches h).visits]
        (some t.cursor) = some c ∧
      (t.call follows reaches h).behind.cursor = { c with reported } := by
  unfold call
  split
  · exact ⟨t.cursor, t.cursor.reported, rfl, rfl⟩
  split
  · obtain ⟨hvisits, reported, hcursor⟩ := close_visits h t t.cursor 0
    rw [hvisits]
    exact ⟨t.cursor, reported, rfl, hcursor⟩
  · have hmoves := move?_goOn h (fun c => c.count ≠ 0 && reaches t.level c) t.cursor
    generalize goOn h (fun c => c.count ≠ 0 && reaches t.level c) t.cursor = found at hmoves ⊢
    obtain ⟨⟨c, _ | _⟩, visits⟩ := found
    · obtain ⟨hvisits, reported, hcursor⟩ := close_visits h t c visits
      rw [conclude, hvisits]
      exact ⟨c, reported, hmoves, hcursor⟩
    · exact ⟨c, c.passed, hmoves, rfl⟩

/-- What a call reports of the slot `i`, when the first `n` slots were reported before. -/
def levelItem (h : Histogram) (n i : ℕ) (percentile : Float) : Item where
  reached := h.layout.highestOfIndex i
  lowest := h.layout.lowestOfIndex i
  percentile
  count := h.count i
  cumulative := h.countIn 0 (i + 1)
  sinceLast := totalSince (h.countIn 0 (i + 1)) (h.countIn 0 n)

/-- A traversal that has visited the first `n` slots. -/
structure Visited (h : Histogram) (t : PercentileLevels) (n : ℕ) : Prop where
  /-- The cursor is behind these slots and has reported their samples. -/
  cursor : t.cursor = .after h (h.countIn 0 n) n
  le : n ≤ h.layout.slotCount
  /-- The last of them holds samples. -/
  recorded : ∀ i, n = i + 1 → h.count i ≠ 0
  /-- If the last report was made at 100, they have all samples. -/
  all : t.finished = true → ∑ i ∈ Finset.range n, h.count i = h.total

/-- What a call comes to, when the first `n` slots were visited before. -/
inductive CallFrom (h : Histogram) (t : PercentileLevels) (n : ℕ) : Call → Prop where
  /-- There is nothing to report. -/
  | idle (hidle : h.total = 0 ∨ t.finished = true) : CallFrom h t n ⟨none, t, 0⟩
  /-- A slot that holds samples is reported, for the last time at 100 when all samples are
  passed. -/
  | reported {i : ℕ} {percentile : Float} {t' : PercentileLevels} (hn : n ≤ i + 1)
    (hi : i < h.layout.slotCount) (hrecorded : h.count i ≠ 0) (hopen : t.finished = false)
    (hcursor : t'.cursor = .after h (h.countIn 0 (i + 1)) (i + 1))
    (hlast : t'.finished = true →
      percentile = 100.0 ∧ ∑ k ∈ Finset.range (i + 1), h.count k = h.total) :
    CallFrom h t n ⟨some (levelItem h n i percentile), t', i + 1 - n⟩

variable {h : Histogram} {t : PercentileLevels} {n : ℕ} {c : Call}

/-- When all samples are passed, the slot visited last is reported at 100, unless that was done. -/
theorem close_from {i : ℕ} (hn : n ≤ i + 1) (hi : i < h.layout.slotCount)
    (hrecorded : h.count i ≠ 0) (hopen : t.finished = false)
    (hall : ∑ k ∈ Finset.range (i + 1), h.count k = h.total) :
    CallFrom h t n (t.close h (.after h (h.countIn 0 n) (i + 1)) (i + 1 - n)) := by
  rw [close, hopen, if_neg Bool.false_ne_true]
  exact .reported hn hi hrecorded hopen rfl fun _ => ⟨rfl, hall⟩

section

variable (hh : h.Consistent) (hexact : h.Exact)
include hh hexact

/-- While samples lie ahead, a call goes on to a slot that holds samples, if the goal asks for some,
and that is the last such slot if the goal is not met there. -/
theorem goOn_after (hvisited : Visited h t n) (hnext : ∑ k ∈ Finset.range n, h.count k < h.total)
    (goal : Cursor → Bool) (hgoal : ∀ c, goal c = true → c.count ≠ 0) :
    ∃ i reached, goOn h goal (.after h (h.countIn 0 n) n) =
        ((.after h (h.countIn 0 n) (i + 1), reached), i + 1 - n) ∧
      n ≤ i + 1 ∧ i < h.layout.slotCount ∧ h.count i ≠ 0 ∧
        (reached = false → ∑ k ∈ Finset.range (i + 1), h.count k = h.total) := by
  rw [goOn]
  split
  · next hmet =>
    -- Before the first slot there is no count.
    obtain ⟨i, rfl⟩ : ∃ i, n = i + 1 := Nat.exists_eq_succ_of_ne_zero fun hstart => by
      rw [hstart] at hmet
      exact hgoal _ hmet rfl
    exact ⟨i, true, by rw [Nat.sub_self], le_rfl, hvisited.le, hvisited.recorded i rfl, by simp⟩
  · have hsought := Cursor.sought_after hh hexact (h.countIn 0 n) goal hvisited.le
    generalize (Cursor.after h (h.countIn 0 n) n).seek h goal = result at hsought ⊢
    generalize (Cursor.after h (h.countIn 0 n) n).seekVisits h goal = visits at hsought ⊢
    cases hsought with
    | @met m hmoved hm hmissed hmet hahead =>
      obtain ⟨i, rfl⟩ := Nat.exists_eq_succ_of_ne_zero (Nat.ne_zero_of_lt hmoved)
      exact ⟨i, true, rfl, hmoved.le, hm, hgoal _ hmet, by simp⟩
    | @missed m hmoved hm hmissed hahead hall =>
      have hlt : n < m := lt_of_le_of_ne hmoved fun hstay => by
        rw [← hstay] at hall
        exact hnext.ne hall
      obtain ⟨i, rfl⟩ := Nat.exists_eq_succ_of_ne_zero (Nat.ne_zero_of_lt hlt)
      refine ⟨i, false, rfl, hmoved, hm, fun hempty => ?_, fun _ => hall⟩
      have hbefore := hahead hlt
      rw [Finset.sum_range_succ, hempty, Nat.add_zero] at hall
      exact hbefore.ne hall

/-- A call does nothing, or it goes on to a slot that holds samples and reports it. -/
theorem call_from (hvisited : Visited h t n) (follows : ℕ → Float → Float)
    (reaches : Float → Cursor → Bool) : CallFrom h t n (t.call follows reaches h) := by
  have hahead := hexact.covered.hasNext_after_iff hvisited.le hh (h.countIn 0 n)
  rw [call, hvisited.cursor, Cursor.after_total]
  split
  · next hempty => exact .idle (.inl hempty)
  next hsamples =>
  split
  · next hdone =>
    rw [Bool.not_eq_true', ← Bool.not_eq_true, hahead, not_lt] at hdone
    have hall := (hexact.covered.sum_le hvisited.le).antisymm hdone
    rcases hfinished : t.finished with _ | _
    · -- The slots visited have samples, so there are some, and the last of them is to be reported.
      obtain ⟨i, rfl⟩ : ∃ i, n = i + 1 := Nat.exists_eq_succ_of_ne_zero fun hstart => by
        rw [hstart, Finset.sum_range_zero] at hall
        exact hsamples hall.symm
      have hclose := close_from le_rfl hvisited.le (hvisited.recorded i rfl) hfinished hall
      rwa [Nat.sub_self] at hclose
    · rw [close, if_pos hfinished, ← hvisited.cursor]
      exact .idle (.inr hfinished)
  · next hnext =>
    rw [Bool.not_eq_true', Bool.not_eq_false, hahead] at hnext
    have hopen : t.finished = false :=
      Bool.eq_false_iff.mpr fun hfinished => hnext.ne (hvisited.all hfinished)
    obtain ⟨i, reached, hgoOn, hn, hi, hrecorded, hall⟩ := goOn_after hh hexact hvisited hnext
      (fun c => c.count ≠ 0 && reaches t.level c)
      (fun c hmet => of_decide_eq_true (Bool.and_elim_left hmet))
    rw [hgoOn]
    cases reached with
    | true =>
      exact .reported hn hi hrecorded hopen rfl fun hfinished =>
        absurd (hopen.symm.trans hfinished) Bool.false_ne_true
    | false => exact close_from hn hi hrecorded hopen (hall rfl)

end

/-- Behind a call the traversal has visited the slots that the call visited as well. -/
theorem CallFrom.visited (hcall : CallFrom h t n c) (hvisited : Visited h t n) :
    Visited h c.behind (n + c.visits) := by
  cases hcall with
  | idle => exact hvisited
  | @reported i percentile t' hn hi hrecorded hopen hcursor hlast =>
    dsimp only
    rw [Nat.add_sub_cancel' hn]
    refine ⟨hcursor, hi, fun j hj => ?_, fun hfinished => (hlast hfinished).2⟩
    rwa [← Nat.succ_injective hj]

/-! ## Calls one after the other -/

/-- The traversal behind the first `n` calls. -/
def state (follows : ℕ → Float → Float) (reaches : Float → Cursor → Bool) (h : Histogram)
    (t₀ : PercentileLevels) : ℕ → PercentileLevels
  | 0 => t₀
  | n + 1 => ((state follows reaches h t₀ n).call follows reaches h).behind

/-- The call behind the first `n` calls. -/
def nthCall (follows : ℕ → Float → Float) (reaches : Float → Cursor → Bool) (h : Histogram)
    (t₀ : PercentileLevels) (n : ℕ) : Call :=
  (state follows reaches h t₀ n).call follows reaches h

/-- The items of the first `n` of some calls. -/
def itemsOf (call : ℕ → Call) (n : ℕ) : List Item :=
  (List.range n).filterMap fun k => (call k).item?

/-- What is reported by calls one after the other, whatever the levels are. -/
structure Structured (h : Histogram) (call : ℕ → Call) : Prop where
  /-- A call visits no more slots than there are. -/
  visits : ∀ n, (call n).visits ≤ h.layout.slotCount
  /-- An item reports a slot that holds samples, and the samples up to that slot. -/
  reports : ∀ n x, (call n).item? = some x → ∃ i < h.layout.slotCount, h.count i ≠ 0 ∧
    x.reached = h.layout.highestEquivalent (h.layout.lowestOfIndex i) ∧
    x.lowest = h.layout.lowestOfIndex i ∧ x.count = h.count i ∧
    x.cumulative = ∑ k ∈ Finset.range (i + 1), h.count k
  /-- From one item to a later one neither the value reached nor the samples up to it fall. -/
  mono : ∀ m n x y, m ≤ n → (call m).item? = some x → (call n).item? = some y →
    x.reached ≤ y.reached ∧ x.cumulative ≤ y.cumulative
  /-- The samples since the item before, summed up, are the samples up to the item. -/
  sum_sinceLast : ∀ n x, (call n).item? = some x →
    ((itemsOf call (n + 1)).map (·.sinceLast)).sum = x.cumulative
  /-- If there are samples and a call gives no item, the last item was given before at exactly 100,
  and reported the last slot that holds samples with all samples up to it. -/
  last : h.total ≠ 0 → ∀ n, (call n).item? = none → ∃ m < n, ∃ x, (call m).item? = some x ∧
    (∀ k, m < k → (call k).item? = none) ∧ x.percentile = 100.0 ∧ x.cumulative = h.total ∧
    ∃ i < h.layout.slotCount, h.count i ≠ 0 ∧
      (∀ j, i < j → j < h.layout.slotCount → h.count j = 0) ∧
      x.reached = h.layout.highestEquivalent (h.layout.lowestOfIndex i)
  /-- Without samples there are no items. -/
  empty : h.total = 0 → ∀ n, (call n).item? = none

/-- The number of slots that the first `n` of some calls have visited. -/
def visitsOf (call : ℕ → Call) (n : ℕ) : ℕ := ∑ k ∈ Finset.range n, (call k).visits

theorem visitsOf_succ (call : ℕ → Call) (n : ℕ) :
    visitsOf call (n + 1) = visitsOf call n + (call n).visits := Finset.sum_range_succ ..

theorem itemsOf_succ (call : ℕ → Call) (n : ℕ) :
    itemsOf call (n + 1) = itemsOf call n ++ (call n).item?.toList := by
  rw [itemsOf, itemsOf, List.range_succ, List.filterMap_append]
  cases hitem : (call n).item? <;> simp [hitem]

/-- Calls that are made one after the other, each behind the one before it. -/
structure Successive (h : Histogram) (before : ℕ → PercentileLevels) (call : ℕ → Call) : Prop where
  visited : ∀ n, Visited h (before n) (visitsOf call n)
  call_from : ∀ n, CallFrom h (before n) (visitsOf call n) (call n)
  before_succ : ∀ n, before (n + 1) = (call n).behind
  before_zero : (before 0).finished = false

/-- The calls of a traversal are made one after the other. -/
theorem successive (hh : h.Consistent) (hexact : h.Exact) {ticks : ℕ} {t₀ : PercentileLevels}
    (hstart : start h ticks = .ok t₀) (follows : ℕ → Float → Float)
    (reaches : Float → Cursor → Bool) :
    Successive h (state follows reaches h t₀) (nthCall follows reaches h t₀) := by
  have ht₀ : t₀ = ⟨Cursor.start h, ticks, 0.0, false⟩ := by
    rw [start] at hstart
    split at hstart
    · cases hstart
    · exact (Except.ok.inj hstart).symm
  have hvisited : ∀ n, Visited h (state follows reaches h t₀ n)
      (visitsOf (nthCall follows reaches h t₀) n) := by
    intro n
    induction n with
    | zero =>
      rw [ht₀]
      refine ⟨?_, Nat.zero_le _, fun i hi => absurd hi (Nat.succ_ne_zero i).symm, by simp [state]⟩
      rw [visitsOf, Finset.sum_range_zero, h.countIn_zero]
      rfl
    | succ n ih =>
      rw [visitsOf_succ]
      exact (call_from hh hexact ih follows reaches).visited ih
  exact ⟨hvisited, fun n => call_from hh hexact (hvisited n) follows reaches, fun n => rfl,
    by rw [ht₀]; rfl⟩

namespace Successive

variable {before : ℕ → PercentileLevels} {call : ℕ → Call} (hcalls : Successive h before call)
include hcalls

/-- A call that gives an item reports the slot visited last. -/
theorem eq_levelItem {x : Item} (hx : (call n).item? = some x) :
    ∃ i percentile, x = levelItem h (visitsOf call n) i percentile ∧
      visitsOf call (n + 1) = i + 1 ∧ i < h.layout.slotCount ∧ h.count i ≠ 0 := by
  have hfrom := hcalls.call_from n
  rw [visitsOf_succ]
  generalize call n = c at *
  cases hfrom with
  | idle => cases hx
  | @reported i percentile t' hn hi hrecorded =>
    exact ⟨i, percentile, (Option.some.inj hx).symm, Nat.add_sub_cancel' hn, hi, hrecorded⟩

/-- Items have the samples of the slots that were visited for them. -/
theorem sum_sinceLast (hh : h.Consistent) (hexact : h.Exact) (n : ℕ) :
    ((itemsOf call n).map (·.sinceLast)).sum =
      ∑ k ∈ Finset.range (visitsOf call n), h.count k := by
  induction n with
  | zero => rfl
  | succ n ih =>
    have hfrom := hcalls.call_from n
    rw [visitsOf_succ, itemsOf_succ, List.map_append, List.sum_append, ih]
    generalize call n = c at *
    cases hfrom with
    | idle => rfl
    | @reported i percentile t' hn hi =>
      rw [Nat.add_sub_cancel' hn, ← hexact.covered.sum_add_totalSince hh hn hi]
      rfl

/-- A call of a traversal that has finished leaves it as it is. -/
theorem idle_of_finished (hfinished : (before n).finished = true) :
    (call n).item? = none ∧ before (n + 1) = before n := by
  have hfrom := hcalls.call_from n
  rw [hcalls.before_succ]
  generalize call n = c at *
  cases hfrom with
  | idle => exact ⟨rfl, rfl⟩
  | reported hn hi hrecorded hopen => exact absurd (hopen.symm.trans hfinished) Bool.false_ne_true

/-- A traversal that has finished gives no further items. -/
theorem item?_of_finished (hfinished : (before n).finished = true) {k : ℕ} (hk : n ≤ k) :
    (call k).item? = none := by
  have hsame : before k = before n := by
    induction k, hk using Nat.le_induction with
    | base => rfl
    | succ k hk ih => rw [(hcalls.idle_of_finished (ih ▸ hfinished)).2, ih]
  exact (hcalls.idle_of_finished (hsame ▸ hfinished)).1

/-- A traversal has finished with an item at 100 that has all samples. -/
theorem exists_of_finished (hfinished : (before n).finished = true) :
    ∃ m < n, (before (m + 1)).finished = true ∧ ∃ i < h.layout.slotCount, h.count i ≠ 0 ∧
      (call m).item? = some (levelItem h (visitsOf call m) i 100.0) ∧
        ∑ k ∈ Finset.range (i + 1), h.count k = h.total := by
  induction n with
  | zero => exact absurd (hcalls.before_zero.symm.trans hfinished) Bool.false_ne_true
  | succ n ih =>
    have hfrom := hcalls.call_from n
    have hbehind := hcalls.before_succ n
    generalize hcall : call n = c at *
    cases hfrom with
    | idle =>
      rw [hbehind] at hfinished
      obtain ⟨m, hm, hlast⟩ := ih hfinished
      exact ⟨m, hm.trans (Nat.lt_succ_self n), hlast⟩
    | @reported i percentile t' hn hi hrecorded hopen hcursor hlast =>
      have hclosed := hfinished
      rw [hbehind] at hclosed
      obtain ⟨rfl, hall⟩ := hlast hclosed
      exact ⟨n, Nat.lt_succ_self n, hfinished, i, hi, hrecorded, by rw [hcall], hall⟩

/-- Calls one after the other report slots that hold samples, from first to last. -/
theorem structured (hh : h.Consistent) (hexact : h.Exact) : Structured h call := by
  have hcumulative : ∀ {n i percentile}, i < h.layout.slotCount →
      (levelItem h n i percentile).cumulative = ∑ k ∈ Finset.range (i + 1), h.count k :=
    fun hi => hexact.covered.countIn_eq_sum hi hh
  refine ⟨fun n => ?_, fun n x hx => ?_, fun m n x y hmn hx hy => ?_, fun n x hx => ?_,
    fun hsamples n hnone => ?_, fun hempty n => ?_⟩
  · have hvisited := (hcalls.visited (n + 1)).le
    rw [visitsOf_succ] at hvisited
    exact le_of_add_le_right hvisited
  · obtain ⟨i, percentile, rfl, -, hi, hrecorded⟩ := hcalls.eq_levelItem hx
    exact ⟨i, hi, hrecorded, rfl, rfl, rfl, hcumulative hi⟩
  · obtain ⟨i, percentile, rfl, hvisits, hi, hrecorded⟩ := hcalls.eq_levelItem hx
    obtain ⟨j, percentile', rfl, hvisits', hj, hrecorded'⟩ := hcalls.eq_levelItem hy
    have hle : visitsOf call (m + 1) ≤ visitsOf call (n + 1) :=
      Finset.sum_le_sum_of_subset (Finset.range_subset_range.mpr (Nat.succ_le_succ hmn))
    rw [hvisits, hvisits'] at hle
    rw [hcumulative hi, hcumulative hj]
    exact ⟨hh.highestOfIndex_mono (Nat.le_of_succ_le_succ hle) hj hrecorded hrecorded',
      Finset.sum_le_sum_of_subset (Finset.range_subset_range.mpr hle)⟩
  · obtain ⟨i, percentile, rfl, hvisits, hi, -⟩ := hcalls.eq_levelItem hx
    rw [hcalls.sum_sinceLast hh hexact, hvisits, hcumulative hi]
  · have hfinished : (before n).finished = true := by
      have hfrom := hcalls.call_from n
      generalize call n = c at *
      cases hfrom with
      | idle hidle => exact hidle.resolve_left hsamples
      | reported => cases hnone
    obtain ⟨m, hm, hclosed, i, hi, hrecorded, hitem, hall⟩ := hcalls.exists_of_finished hfinished
    refine ⟨m, hm, _, hitem, fun k hk => hcalls.item?_of_finished hclosed hk, rfl, ?_, i, hi,
      hrecorded, fun j hij hj => hexact.count_eq_zero hall hij hj, rfl⟩
    rw [hcumulative hi, hall]
  · rcases hitem : (call n).item? with _ | x
    · rfl
    · -- A slot that holds samples would make the total positive.
      obtain ⟨i, -, -, -, hi, hrecorded⟩ := hcalls.eq_levelItem hitem
      have hle := hexact.covered.sum_le (n := i + 1) hi
      rw [Finset.sum_range_succ, hempty] at hle
      omega

end Successive

/-- In a histogram whose slots come to its total, a traversal by percentile levels starts with any
positive number of ticks. Its calls are those that have its levels. With any levels a call makes as
many moves as it visits slots, and the calls one after the other report slots that hold samples,
from first to last. -/
theorem levels_structured (hh : h.Reachable) (hexact : h.Exact) {ticks : ℕ} (hticks : 0 < ticks) :
    ∃ t₀, start h ticks = .ok t₀ ∧
      (∀ t, next? h t = (call followingLevel (fun level c => level ≤ c.percentile) h t).told) ∧
      ∀ (follows : ℕ → Float → Float) (reaches : Float → Cursor → Bool),
        (∀ t, ∃ c reported,
          (fun c? : Option Cursor => c?.bind (·.move? h))^[(call follows reaches h t).visits]
            (some t.cursor) = some c ∧
          (call follows reaches h t).behind.cursor = { c with reported }) ∧
        Structured h (nthCall follows reaches h t₀) := by
  have hstart : start h ticks = .ok ⟨Cursor.start h, ticks, 0.0, false⟩ := if_neg hticks.ne'
  exact ⟨_, hstart, next?_eq_call h, fun follows reaches => ⟨call_visits follows reaches h,
    (successive hh.consistent hexact hstart follows reaches).structured hh.consistent hexact⟩⟩

/-- Among one sample each of 5, 50 and 100, levels that are 60 apart are reported at 5 and at 50,
and the last report is made at 100. -/
theorem levels_spread :
    spread.Exact ∧ ∃ t₀, start spread 1 = .ok t₀ ∧
      (∀ (follows : ℕ → Float → Float) (reaches : Float → Cursor → Bool),
        Structured spread (nthCall follows reaches spread t₀)) ∧
      let calls := nthCall (fun _ level => level + 60.0) (fun level c => level ≤ c.percentile)
        spread t₀
      (itemsOf calls 5).map (fun x => (x.reached, x.percentile.toBits, x.sinceLast)) =
        [(5, (0.0 : Float).toBits, 1), (51, (60.0 : Float).toBits, 1),
          (103, (100.0 : Float).toBits, 1)] := by
  have hexact : spread.Exact := by decide +kernel
  obtain ⟨t₀, hstart, -, hstructured⟩ :=
    levels_structured spread_reachable hexact Nat.one_pos
  obtain rfl : ⟨Cursor.start spread, 1, 0.0, false⟩ = t₀ := Except.ok.inj hstart
  exact ⟨hexact, _, hstart, fun follows reaches => (hstructured follows reaches).2,
    by decide +kernel⟩

end PercentileLevels

end DynamicRange
