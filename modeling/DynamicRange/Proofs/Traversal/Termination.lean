import DynamicRange.Proofs.Traversal.Steps
import Mathlib.Algebra.Order.Floor.Div

/-!
# Traversals in linear steps end

A stepped traversal stops on its own account when all samples are passed. If counters have started
over, the slots may never come to the total, and then samples seem to lie ahead for ever, even
behind the last slot. What ends a traversal in linear steps in every case is that its ends grow
until they are held at `topValue`, behind which there is no step. So the bound on the number of
items comes from the ends alone (`Stepped.ends_lt_topValue`), and not from the slots.

`linear_ends` states the bound, with what holds of every call on the way: it visits no more slots
than there are, and one that gives no item finds the traversal over and leaves it as it was.
-/

namespace DynamicRange

/-- A traversal that has no more than some number of items comes to an end. -/
theorem Yields.exists_end {σ : Type} {next? : σ → Option (Item × σ)} {s₀ : σ} {n : ℕ}
    (hbound : ∀ xs s, Yields next? s₀ xs s → xs.length ≤ n) :
    ∃ xs s, Yields next? s₀ xs s ∧ next? s = none := by
  by_contra hgoes
  push Not at hgoes
  -- If it always went on, it would have any number of items.
  have hmore : ∀ k, ∃ xs s, Yields next? s₀ xs s ∧ xs.length = k := by
    intro k
    induction k with
    | zero => exact ⟨[], s₀, .nil, rfl⟩
    | succ k ih =>
      obtain ⟨xs, s, hyields, hlength⟩ := ih
      obtain ⟨⟨x, s'⟩, hnext⟩ := Option.ne_none_iff_exists'.mp (hgoes xs s hyields)
      exact ⟨xs ++ [x], s', hyields.snoc hnext, by simp [hlength]⟩
  obtain ⟨xs, s, hyields, hlength⟩ := hmore (n + 1)
  have := hbound xs s hyields
  omega

namespace Stepped

variable {σ : Type}

/-! ## Slots visited by a call -/

/-- The number of slots that are visited on the way to where a step is reported. -/
def settleVisits (h : Histogram) (lastLowest : ℕ) (c : Cursor) : ℕ :=
  if settledAt h.layout lastLowest c then
    0
  else
    match _moved : c.move? h with
    | none => 0
    | some c' => settleVisits h lastLowest c' + 1
termination_by c.remaining h.layout
decreasing_by exact Cursor.move?_remaining_lt _moved

/-- The number of slots that the next call visits. -/
def visits (h : Histogram) (t : Stepped σ) : ℕ :=
  if t.isOver h then 0 else settleVisits h (h.layout.lowestEquivalent t.stepEnd) t.cursor

/-- As many moves as slots are visited lead to where the step is reported. -/
theorem move?_settleVisits {h : Histogram} {lastLowest : ℕ} {c c' : Cursor}
    (hsettled : settle? h lastLowest c = some c') :
    (fun c? : Option Cursor => c?.bind (·.move? h))^[settleVisits h lastLowest c] (some c) =
      some c' := by
  fun_induction settleVisits h lastLowest c with
  | case1 c hhere =>
    rw [settle?, if_pos hhere] at hsettled
    exact hsettled
  | case2 c hahead hnone =>
    rw [settle?, if_neg hahead] at hsettled
    split at hsettled <;> simp_all
  | case3 c hahead c₁ hmoved ih =>
    rw [settle?, if_neg hahead] at hsettled
    rw [Function.iterate_succ_apply, Option.bind_some, hmoved]
    split at hsettled
    · simp_all
    · next c₂ hmoved' =>
      rw [hmoved, Option.some.injEq] at hmoved'
      exact ih (hmoved' ▸ hsettled)

/-- A call that gives an item has moved on by as many slots as it visits, and reports where it then
stands. -/
theorem report_visits {advance : σ → ℕ × σ} {h : Histogram} {t t' : Stepped σ} {x : Item}
    (hnext : next? advance h t = some (x, t')) :
    ∃ c, (fun c? : Option Cursor => c?.bind (·.move? h))^[t.visits h] (some t.cursor) = some c ∧
      c.report h.layout t.stepEnd c.percentile = (x, t'.cursor) := by
  rw [next?] at hnext
  split at hnext
  · cases hnext
  · next hgoes =>
    split at hnext
    · cases hnext
    · next c hsettled =>
      obtain ⟨rfl, rfl⟩ := Prod.mk.inj (Option.some.inj hnext)
      rw [visits, if_neg hgoes]
      exact ⟨c, move?_settleVisits hsettled, rfl⟩

/-- The search for where a step is reported visits the slots up to its end that were not visited
before. -/
theorem settleVisits_after {h : Histogram} (hL : h.layout.Shaped) (reported : ℕ) {v n : ℕ}
    (hv : v ≤ topValue) (hn : n ≤ h.layout.slotsUpTo v) :
    settleVisits h (h.layout.lowestEquivalent v) (.after h reported n) =
      h.layout.slotsUpTo v - n := by
  induction hn using Nat.decreasingInduction with
  | self =>
    rw [settleVisits, settledAt_after hL reported hv le_rfl, if_pos (decide_eq_true rfl),
      Nat.sub_self]
  | of_succ n hn ih =>
    have hmoved := Cursor.move?_after reported hL (hn.trans_le (h.layout.slotsUpTo_le v))
    rw [settleVisits, settledAt_after hL reported hv hn.le, if_neg (by simp [hn.ne])]
    split
    · next hnone => simp [hmoved] at hnone
    · next c hsome =>
      rw [hmoved, Option.some.injEq] at hsome
      rw [← hsome, ih]
      omega

/-! ## What ends a traversal -/

section

variable {advance : σ → ℕ × σ} {first : ℕ} {s : σ} {h : Histogram} (hL : h.layout.Shaped)
  (hends : Monotone (ends advance first s)) (htop : ∀ i, ends advance first s i ≤ topValue)
  {xs : List Item} {t : Stepped σ} (hyields : Yields (next? advance h) (start h first s) xs t)
include hL hends htop hyields

/-- No call visits more slots than there are. -/
theorem visits_le : t.visits h ≤ h.layout.slotCount := by
  obtain ⟨-, rfl⟩ := yields_stepItem hL hends htop hyields
  have hvisits : settleVisits h (h.layout.lowestEquivalent (ends advance first s xs.length))
      (behind h advance first s xs.length).cursor =
        h.layout.slotsUpTo (ends advance first s xs.length) -
          h.layout.slotsBefore (ends advance first s) xs.length :=
    settleVisits_after hL _ (htop _) (Layout.slotsBefore_le hL hends _)
  rw [visits]
  split
  · exact Nat.zero_le _
  · exact (hvisits.trans_le (Nat.sub_le _ _)).trans (h.layout.slotsUpTo_le _)

/-- A call gives no item only if the traversal is over, and then it visits no slot. -/
theorem visits_of_end (hend : next? advance h t = none) : t.isOver h = true ∧ t.visits h = 0 := by
  obtain ⟨-, rfl⟩ := yields_stepItem hL hends htop hyields
  rw [next?_behind hL hends htop] at hend
  split at hend
  · next hover => exact ⟨hover, if_pos hover⟩
  · cases hend

/-- Every item but the last is of a step that ends below `topValue`. -/
theorem ends_lt_topValue {i : ℕ} (hi : i + 1 < xs.length) : ends advance first s i < topValue := by
  induction hyields with
  | nil => exact absurd hi (Nat.not_lt_zero _)
  | @snoc xs x t t' hxs hnext ih =>
    rw [List.length_append, List.length_singleton, Nat.succ_lt_succ_iff, ← Nat.succ_le_iff] at hi
    rcases hi.lt_or_eq with hearlier | hlast
    · exact ih hearlier
    · -- The step before the last item did not top out, or the traversal would have been over.
      obtain ⟨-, rfl⟩ := yields_stepItem hL hends htop hxs
      rw [next?_behind hL hends htop, ← hlast] at hnext
      refine lt_of_le_of_ne (htop i) fun hequal => ?_
      have hover : (behind h advance first s i.succ).isOver h = true := by
        rw [isOver, behind, endedAtTop, beq_iff_eq.mpr hequal, Bool.true_or]
      rw [if_pos hover] at hnext
      cases hnext

end

/-- No item follows one that reaches `topValue`. -/
theorem next?_of_topValue {advance : σ → ℕ × σ} {first : ℕ} {s : σ} {h : Histogram}
    (hL : h.layout.Shaped) (hends : Monotone (ends advance first s))
    (htop : ∀ i, ends advance first s i ≤ topValue) {xs : List Item} {x : Item} {t : Stepped σ}
    (hyields : Yields (next? advance h) (start h first s) (xs ++ [x]) t)
    (hx : x.reached = topValue) : next? advance h t = none := by
  by_contra hgoes
  obtain ⟨⟨y, t'⟩, hnext⟩ := Option.ne_none_iff_exists'.mp hgoes
  have hbelow := ends_lt_topValue hL hends htop (hyields.snoc hnext) (i := xs.length) (by simp)
  have hitems := (yields_stepItem hL hends htop hyields).1
  rw [List.length_append, List.length_singleton, List.range_succ, List.map_append] at hitems
  obtain ⟨-, hlast⟩ := List.append_inj' hitems rfl
  rw [List.map_singleton, List.singleton_inj] at hlast
  rw [hlast] at hx
  exact hbelow.ne hx

end Stepped

/-! ## Linear steps -/

/-- What holds of a traversal in linear steps of some width, whatever the slots and the total. -/
structure LinearSteps.Ends (h : Histogram) (width : ℕ) (t₀ : Stepped LinearSteps) : Prop where
  /-- It has no more items than steps fit between zero and the greatest value. -/
  length_le : ∀ xs t, Yields (next? h) t₀ xs t → xs.length ≤ 2 ^ 63 ⌈/⌉ width
  /-- Each item reaches further than the one before. -/
  increasing : ∀ xs t, Yields (next? h) t₀ xs t → (xs.map (·.reached)).Pairwise (· < ·)
  /-- No call visits more slots than there are. -/
  visits_le : ∀ xs t, Yields (next? h) t₀ xs t → t.visits h ≤ h.layout.slotCount
  /-- What is counted there are the moves of the cursor up to the item that the call reports. -/
  visited : ∀ xs t, Yields (next? h) t₀ xs t → ∀ x t', next? h t = some (x, t') →
    ∃ c, (fun c? : Option Cursor => c?.bind (·.move? h))^[t.visits h] (some t.cursor) = some c ∧
      c.report h.layout t.stepEnd c.percentile = (x, t'.cursor)
  /-- A call that reports nothing visits none, since it finds the traversal over. -/
  unvisited : ∀ xs t, Yields (next? h) t₀ xs t → next? h t = none →
    t.isOver h = true ∧ t.visits h = 0
  /-- No item follows one that reaches `topValue`. -/
  topmost_last : ∀ xs x t, Yields (next? h) t₀ (xs ++ [x]) t → x.reached = topValue →
    next? h t = none
  /-- It comes to an end. -/
  ends : ∃ xs t, Yields (next? h) t₀ xs t ∧ next? h t = none

namespace LinearSteps

section

variable {u : ℕ} (hu : 0 < u) (htop : u ≤ topValue)
include hu htop

/-- A step that ends below `topValue` has its full width, and every later one ends above it. -/
theorem ends_lt_of_lt {i j : ℕ} (hij : i < j)
    (hbelow : Stepped.ends advance (u - 1) ⟨u, u - 1⟩ i < topValue) :
    (i + 1) * u < 2 ^ 63 ∧ Stepped.ends advance (u - 1) ⟨u, u - 1⟩ i <
      Stepped.ends advance (u - 1) ⟨u, u - 1⟩ j := by
  have hpos : 0 < (i + 1) * u := Nat.mul_pos i.succ_pos hu
  have hnext : (i + 1) * u + u ≤ (j + 1) * u := by
    rw [← Nat.succ_mul]
    exact Nat.mul_le_mul_right u (Nat.succ_le_succ hij)
  rw [ends_eq hu htop] at hbelow ⊢
  rw [ends_eq hu htop]
  simp only [topValue] at *
  omega

variable {h : Histogram} (hL : h.layout.Shaped) {xs : List Item} {t : Stepped LinearSteps}
  (hyields : Yields (next? h) (.start h (u - 1) ⟨u, u - 1⟩) xs t)
include hL hyields

/-- There are no more items than steps up to the greatest value. -/
theorem length_le_ceilDiv : xs.length ≤ 2 ^ 63 ⌈/⌉ u := by
  obtain ⟨hends, hvalues⟩ := ends_spec hu htop
  by_contra hmany
  -- One item less than there are would already go past the values.
  obtain ⟨n, hn⟩ : ∃ n, xs.length = n + 1 := Nat.exists_eq_succ_of_ne_zero (by omega)
  have hpast : 2 ^ 63 ≤ u * n := (ceilDiv_le_iff_le_mul hu).mp (by omega)
  obtain ⟨i, rfl⟩ : ∃ i, n = i + 1 := Nat.exists_eq_succ_of_ne_zero (by
    rintro rfl
    simp at hpast)
  have hbelow := Stepped.ends_lt_topValue hL hends hvalues hyields (i := i) (by omega)
  have hfits := (ends_lt_of_lt hu htop i.lt_succ_self hbelow).1
  rw [Nat.mul_comm] at hpast
  omega

/-- Each item reaches further than all before it. -/
theorem pairwise_reached : (xs.map (·.reached)).Pairwise (· < ·) := by
  obtain ⟨hends, hvalues⟩ := ends_spec hu htop
  have hreached : xs.map (·.reached) =
      (List.range xs.length).map (Stepped.ends advance (u - 1) ⟨u, u - 1⟩) := by
    conv_lhs => rw [(Stepped.yields_stepItem hL hends hvalues hyields).1, List.map_map]
    rfl
  rw [hreached, List.pairwise_map]
  refine List.pairwise_lt_range.imp_of_mem fun {i j} _ hj hij => ?_
  have hlast : i + 1 < xs.length := (Nat.succ_le_of_lt hij).trans_lt (List.mem_range.mp hj)
  exact (ends_lt_of_lt hu htop hij
    (Stepped.ends_lt_topValue hL hends hvalues hyields hlast)).2

end

/-- A traversal in linear steps of any positive width ends, in any reachable histogram, after no
more items than there are such steps up to the greatest value. -/
theorem linear_ends {h : Histogram} (hh : h.Reachable) {width : ℤ} (hpos : 0 < width)
    (hwidth : width ≤ topValue) : ∃ t₀, start h width = .ok t₀ ∧ Ends h width.toNat t₀ := by
  have hL := hh.consistent.shaped
  obtain ⟨u, rfl⟩ := Int.eq_ofNat_of_zero_le hpos.le
  have hu : 0 < u := Int.natCast_pos.mp hpos
  have htop : u ≤ topValue := Int.ofNat_le.mp hwidth
  obtain ⟨hends, hvalues⟩ := ends_spec hu htop
  refine ⟨_, start_eq h hu, ?_⟩
  exact {
    length_le := fun _ _ => length_le_ceilDiv hu htop hL
    increasing := fun _ _ => pairwise_reached hu htop hL
    visits_le := fun _ _ => Stepped.visits_le hL hends hvalues
    visited := fun _ _ _ _ _ => Stepped.report_visits
    unvisited := fun _ _ => Stepped.visits_of_end hL hends hvalues
    topmost_last := fun _ _ _ => Stepped.next?_of_topValue hL hends hvalues
    ends := Yields.exists_end fun _ _ => length_le_ceilDiv hu htop hL }

end LinearSteps

/-- The slots of `overflown` never come to its total, and steps of half the values end all the
same: the second is the last. -/
theorem Histogram.overflown_ends : overflown.count 2 = 32 ∧ overflown.total = 544 ∧
    ∃ t₀, LinearSteps.start overflown (2 ^ 62) = .ok t₀ ∧
      LinearSteps.Ends overflown (2 ^ 62) t₀ ∧
      ∃ xs t, Yields (LinearSteps.next? overflown) t₀ xs t ∧
        LinearSteps.next? overflown t = none ∧
        xs.map (·.reached) = [2 ^ 62 - 1, topValue] ∧ xs.map (·.cumulative) = [32, 32] := by
  obtain ⟨t₀, hstart, hends⟩ :=
    LinearSteps.linear_ends overflown_reachable (show (0 : ℤ) < 2 ^ 62 by decide) (by decide)
  obtain rfl : Stepped.start overflown (2 ^ 62 - 1) ⟨2 ^ 62, 2 ^ 62 - 1⟩ = t₀ :=
    Except.ok.inj hstart
  refine ⟨by decide +kernel, by decide +kernel, _, hstart, hends, ?_⟩
  obtain ⟨t, hyields, hend⟩ := takeItems_yields (LinearSteps.next? overflown)
    (.start overflown (2 ^ 62 - 1) ⟨2 ^ 62, 2 ^ 62 - 1⟩) 10
  exact ⟨_, t, hyields, hend.mp (by decide +kernel), by decide +kernel, by decide +kernel⟩

end DynamicRange
