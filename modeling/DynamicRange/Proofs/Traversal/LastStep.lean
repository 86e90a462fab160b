import DynamicRange.Proofs.Traversal.Steps

/-!
# The last step

A traversal ends when all samples are passed and the following step does not end before the next
slot. So the following step ends outside the slot of the last one, as long as there is a next slot
to compare with. The lowest value of what follows is held at `topValue`, however, and so it is the
highest value of the topmost slot that is compared with there: if the last step ends in that slot
and before `topValue`, then the following one ends at `topValue`, in the same slot, and is left out
(`linear_last_step`).
-/

namespace DynamicRange

/-- The slot behind that of a value starts above the highest equivalent value, held at
`topValue`. -/
theorem Layout.lowestOfIndex_succ {L : Layout} (hL : L.Precise) {v : ℕ} (hv : v ≤ topValue)
    (hslot : L.indexFor v < L.slotCount) :
    L.lowestOfIndex (L.indexFor v + 1) = min (L.highestEquivalent v + 1) topValue := by
  have hnext := (following_spec hL.toShaped (locate_proper hL.toShaped v)).1
  have hrange := lowestEquivalent_add_rangeSize hL.toShaped (Int.ofNat_le.mpr hv)
  rw [Int.toNat_natCast] at hrange
  rw [lowestOfIndex, locationOf_succ hL.toShaped hslot, locationOf_indexFor hL.toShaped hv,
    lowestAt_eq hL.toShaped hnext, highestEquivalent_add_one hL (Int.ofNat_le.mpr hv), hrange]

/-- If a stepped traversal ends behind a step that ends in a slot and not at `topValue`, the
following step does not end before the next slot. -/
theorem Stepped.le_following_end {σ : Type} {advance : σ → ℕ × σ} {first : ℕ} {s : σ}
    {h : Histogram} (hh : h.Consistent) (hL : h.layout.Precise) (hexact : h.Exact)
    (hends : Monotone (ends advance first s)) (htop : ∀ i, ends advance first s i ≤ topValue)
    {xs : List Item} {x : Item} {t : Stepped σ}
    (hyields : Yields (next? advance h) (start h first s) (xs ++ [x]) t)
    (hend : next? advance h t = none) (hbelow : x.reached < topValue)
    (hslot : (h.layout.slotOf? x.reached).isSome) :
    x.reached = ends advance first s xs.length ∧
      min (h.layout.highestEquivalent x.reached + 1) topValue ≤
        ends advance first s (xs.length + 1) := by
  have hreached : x.reached = ends advance first s xs.length :=
    (attributed hh hexact hends htop hyields).reached xs.length x (by simp)
  refine ⟨hreached, ?_⟩
  obtain ⟨i, hi⟩ := Option.isSome_iff_exists.mp hslot
  have hindex : h.layout.indexFor x.reached < h.layout.slotCount := by
    obtain ⟨rfl, hlt⟩ := Layout.slotOf?_eq_some_iff.mp hi
    exact hlt
  have hvisited : h.layout.slotsBefore (ends advance first s) (xs.length + 1) =
      h.layout.indexFor x.reached + 1 := by
    rw [Layout.slotsBefore, ← hreached, Layout.slotsUpTo]
    omega
  have hover := over_of_end hh hexact hends htop hyields hend
  rw [List.length_append, List.length_singleton] at hover
  rcases hover with hall | ⟨-, hle⟩
  · exact absurd (hreached.trans (beq_iff_eq.mp hall)) hbelow.ne
  · rwa [hvisited, Layout.lowestOfIndex_succ hL hbelow.le hindex] at hle

/-- If a traversal in linear steps ends behind a step that ends in a slot and not at `topValue`,
the following step ends behind that slot unless it is the topmost one. If it is the topmost one, the
following step ends at `topValue`, in the same slot. -/
theorem linear_last_step {h : Histogram} (hh : h.Reachable) (hexact : h.Exact) {width : ℤ}
    (hpos : 0 < width) (hwidth : width ≤ topValue) {t₀ t : Stepped LinearSteps}
    (hstart : LinearSteps.start h width = .ok t₀) {xs : List Item} {x : Item}
    (hyields : Yields (LinearSteps.next? h) t₀ (xs ++ [x]) t)
    (hend : LinearSteps.next? h t = none) (hbelow : x.reached < topValue)
    (hslot : (h.layout.slotOf? x.reached).isSome) :
    (h.layout.highestEquivalent x.reached < min (x.reached + width.toNat) topValue ↔
      h.layout.highestEquivalent x.reached ≠ topValue) ∧
    (h.layout.highestEquivalent x.reached = topValue → topValue ≤ x.reached + width.toNat) := by
  obtain ⟨b, hbounds⟩ := hh.consistent.accepted
  have hL := Layout.ofBounds_precise hbounds
  obtain ⟨u, rfl⟩ := Int.eq_ofNat_of_zero_le hpos.le
  have hu : 0 < u := Int.natCast_pos.mp hpos
  have htop : u ≤ topValue := Int.ofNat_le.mp hwidth
  obtain rfl : Stepped.start h (u - 1) ⟨u, u - 1⟩ = t₀ :=
    Except.ok.inj ((LinearSteps.start_eq h hu).symm.trans hstart)
  obtain ⟨hends, hvalues⟩ := LinearSteps.ends_spec hu htop
  obtain ⟨hreached, hle⟩ := Stepped.le_following_end hh.consistent hL hexact hends hvalues hyields
    hend hbelow hslot
  have hhighest : h.layout.highestEquivalent x.reached ≤ topValue := by
    have hend := Layout.lowestEquivalent_add_rangeSize_le hL.toShaped (Int.ofNat_le.mpr hbelow.le)
    rw [← Layout.highestEquivalent_add_one hL (Int.ofNat_le.mpr hbelow.le)] at hend
    omega
  -- Short of `topValue` the ends are one width apart.
  have hfollowing : Stepped.ends LinearSteps.advance (u - 1) ⟨u, u - 1⟩ (xs.length + 1) =
      min (x.reached + u) topValue := by
    have hone : 1 * u ≤ (xs.length + 1) * u := Nat.mul_le_mul_right u (by omega)
    rw [LinearSteps.ends_eq hu htop] at hreached ⊢
    rw [Nat.succ_mul (xs.length + 1)]
    omega
  rw [hfollowing] at hle
  rw [Int.toNat_natCast]
  omega

/-- The last of the steps of 20 ends at 119, where a slot ends too. -/
theorem twenties_last_step : ∃ t₀ xs x t, LinearSteps.start spread 20 = .ok t₀ ∧
    Yields (LinearSteps.next? spread) t₀ (xs ++ [x]) t ∧ LinearSteps.next? spread t = none ∧
    x.reached = 119 ∧ spread.layout.highestEquivalent 119 = 119 ∧
    (spread.layout.highestEquivalent x.reached < min (x.reached + 20) topValue ↔
      spread.layout.highestEquivalent x.reached ≠ topValue) ∧
    (spread.layout.highestEquivalent x.reached = topValue → topValue ≤ x.reached + 20) := by
  have hstart : LinearSteps.start spread 20 = .ok (.start spread 19 ⟨20, 19⟩) := rfl
  have htold : (takeItems (LinearSteps.next? spread) 10 (.start spread 19 ⟨20, 19⟩)
      #[]).1.toList.map (·.reached) = [19, 39, 59, 79, 99] ++ [119] := by decide +kernel
  obtain ⟨xs, x, t, hyields, hend, hx⟩ := takeItems_last _ htold (by decide +kernel)
  have hlast := linear_last_step spread_reachable (by decide +kernel) (by decide) (by decide) hstart
    hyields hend (by rw [hx]; decide) (by rw [hx]; decide +kernel)
  exact ⟨_, xs, x, t, hstart, hyields, hend, hx, by decide +kernel, hlast⟩

/-- One sample of `topValue`, in the widest units that there are. -/
def topmost : Histogram :=
  let empty := Histogram.ofLayout
    ⟨⟨2 ^ 58, 2 ^ 59, 1⟩, 58, 4, 32, 16, 31 * 2 ^ 58, 1, 32⟩ .bits64
  (empty.recordAll [.plain topValue 1]).1

/-- Recordings lead to this sample. -/
theorem topmost_reachable : topmost.Reachable :=
  (Histogram.Reachable.ofLayout (b := ⟨2 ^ 58, 2 ^ 59, 1⟩)
    (L := ⟨⟨2 ^ 58, 2 ^ 59, 1⟩, 58, 4, 32, 16, 31 * 2 ^ 58, 1, 32⟩)
    (by decide +kernel) .bits64).recordAll (by decide)

/-- In two steps of which the first ends just before `topValue`, the second is left out, although it
ends in the slot in which the first ends. -/
theorem topmost_last_step : topmost.Reachable ∧ topmost.Exact ∧ ∃ t₀ xs x t,
    LinearSteps.start topmost (topValue - 1 : ℕ) = .ok t₀ ∧
      Yields (LinearSteps.next? topmost) t₀ (xs ++ [x]) t ∧
      LinearSteps.next? topmost t = none ∧
      x.reached = topValue - 2 ∧ topmost.layout.slotOf? x.reached = some 31 ∧
      min (x.reached + (topValue - 1)) topValue = topValue ∧
      topmost.layout.slotOf? topValue = some 31 ∧
      topmost.layout.highestEquivalent x.reached = topValue := by
  have hstart : LinearSteps.start topmost (topValue - 1 : ℕ) =
      .ok (.start topmost (topValue - 2) ⟨topValue - 1, topValue - 2⟩) := rfl
  have htold : (takeItems (LinearSteps.next? topmost) 10
      (.start topmost (topValue - 2) ⟨topValue - 1, topValue - 2⟩) #[]).1.toList.map (·.reached) =
      [] ++ [topValue - 2] := by decide +kernel
  obtain ⟨xs, x, t, hyields, hend, hx⟩ := takeItems_last _ htold (by decide +kernel)
  refine ⟨topmost_reachable, by decide +kernel, _, xs, x, t, hstart, hyields, hend, hx, ?_⟩
  rw [hx]
  decide +kernel

end DynamicRange
