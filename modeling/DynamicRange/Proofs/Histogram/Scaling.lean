import DynamicRange.Proofs.Histogram.Backfill
import DynamicRange.Proofs.Histogram.Reproduction
import DynamicRange.Proofs.Layout.Scaling

/-!
# Recordings of scaled values

If the bounds of a layout are multiplied by a power of two and all values that are recorded too,
nothing changes in the slots. `ofBounds_scaling` says so, with all that a layout and the scaled one
have in common.

A scaled value may have any last digits, below the power of two. They get lost in the slot, since
the unit of the scaled layout is scaled, and so the samples that are recorded are those of the
unscaled values once these digits are dropped (`Recording.Scaled.samples`). Samples held up behind a
value are no exception, as long as the interval is scaled exactly: the values behind keep the last
digits of the first.
-/

namespace DynamicRange

/-- A recording, and one whose value and interval are `2 ^ m` times as great, up to the last digits
of the value. -/
inductive Recording.Scaled (m : ℕ) : Recording → Recording → Prop where
  | plain (v : ℤ) {r : ℕ} (hr : r < 2 ^ m) (n : ℕ) :
    Scaled m (.plain v n) (.plain (v * 2 ^ m + r) n)
  | corrected (v : ℤ) {r : ℕ} (hr : r < 2 ^ m) (interval : ℤ) :
    Scaled m (.corrected v interval) (.corrected (v * 2 ^ m + r) (interval * 2 ^ m))

/-! ## Dropping the last digits -/

/-- A scaled value without its last digits is the value. -/
theorem mul_add_ediv_two_pow (v : ℤ) {m r : ℕ} (hr : r < 2 ^ m) :
    (v * 2 ^ m + r) / 2 ^ m = v := by
  have hlast : (r : ℤ) / 2 ^ m = 0 :=
    Int.ediv_eq_zero_of_lt (Int.natCast_nonneg r) (by exact_mod_cast hr)
  rw [add_comm, Int.add_mul_ediv_right _ _ (by positivity), hlast, zero_add]

/-- A value without its last digits, as a natural number. -/
theorem toNat_ediv_two_pow (v : ℤ) (m : ℕ) : (v / 2 ^ m).toNat = v.toNat / 2 ^ m := by
  rcases le_or_gt 0 v with hv | hv
  · obtain ⟨n, rfl⟩ := Int.eq_ofNat_of_zero_le hv
    exact_mod_cast Int.toNat_natCast (n / 2 ^ m)
  · have hneg : v / 2 ^ m < 0 := Int.ediv_neg_of_neg_of_pos hv (by positivity)
    rw [Int.toNat_of_nonpos hneg.le, Int.toNat_of_nonpos hv.le, Nat.zero_div]

/-- The values held up every scaled interval are, without their last digits, those held up every
interval. -/
theorem heldUp_scale (v interval : ℤ) (m : ℕ) :
    (heldUp v (interval * 2 ^ m)).map (· / 2 ^ m) = heldUp (v / 2 ^ m) interval := by
  have hscale : (0 : ℤ) < 2 ^ m := by positivity
  rw [heldUp, heldUp]
  by_cases hpos : 0 < interval
  · have hcount : v / (interval * 2 ^ m) = v / 2 ^ m / interval := by
      rw [Int.mul_comm, Int.ediv_ediv_of_nonneg hscale.le]
    rw [if_pos (Int.mul_pos hpos hscale), if_pos hpos, hcount, List.map_map]
    refine List.map_congr_left fun j _ => ?_
    rw [Function.comp_apply, ← mul_assoc, Int.sub_mul_ediv_right _ _ hscale.ne']
  · have hneg : ¬0 < interval * 2 ^ m := fun hscaled =>
      hpos (Int.pos_of_mul_pos_left hscaled hscale)
    rw [if_neg hpos, if_neg hneg, List.map_nil]

namespace Layout

variable {L : Layout} {m : ℕ} (hL : L.Shaped) (hL' : (L.scale m).Shaped)

/-- What becomes of a recording depends on the sign of the value and on whether it has a slot. -/
theorem outcome_eq (L : Layout) (v : ℤ) (n : ℕ) : L.outcome v n =
    if v < 0 then .error .negative
    else if (L.slotOf? v.toNat).isSome then .ok () else .error .outOfRange := by
  rw [outcome, recording]
  split
  · rfl
  · cases L.slotOf? v.toNat <;> rfl

include hL hL'

/-- What becomes of a scaled value is what becomes of the value. -/
theorem outcome_scale (v : ℤ) (n : ℕ) : (L.scale m).outcome v n = L.outcome (v / 2 ^ m) n := by
  have hscale : (0 : ℤ) < 2 ^ m := by positivity
  have hneg : v < 0 ↔ v / 2 ^ m < 0 := by
    rw [← not_le, ← not_le, Int.ediv_nonneg_iff_of_pos hscale]
  rw [outcome_eq, outcome_eq, slotOf?_scale hL hL', toNat_ediv_two_pow]
  simp only [hneg]

/-- What tallies are to count of scaled samples is what they are to count of the samples. -/
theorem tally_scale (s : Multiset ℕ) (t : Tally) :
    (L.scale m).tally s t = L.tally (s.map (· / 2 ^ m)) t := by
  cases t with
  | slot i =>
    rw [tally, tally, Multiset.countP_map, ← Multiset.countP_eq_card_filter]
    exact Multiset.countP_congr rfl fun x _ => by rw [slotOf?_scale hL hL']
  | total => exact (Multiset.card_map _ s).symm

end Layout

namespace Recording.Scaled

variable {m : ℕ} {r r' : Recording} (hr : r.Scaled m r')
include hr

/-- The scaled samples without their last digits are the samples. -/
theorem samples : r'.samples.map (· / 2 ^ m) = r.samples := by
  have htoNat : Int.toNat ∘ (fun v : ℤ => v / 2 ^ m) = (· / 2 ^ m) ∘ Int.toNat :=
    funext fun v => toNat_ediv_two_pow v m
  cases hr with
  | @plain v k hr n =>
    rw [Recording.samples, Multiset.map_replicate, ← toNat_ediv_two_pow, mul_add_ediv_two_pow v hr]
    rfl
  | @corrected v k hr interval =>
    have hbehind : (v * 2 ^ m + k - interval * 2 ^ m) / 2 ^ m = v - interval := by
      rw [Int.sub_mul_ediv_right _ _ (by positivity), mul_add_ediv_two_pow v hr]
    have hvalues : ((v * 2 ^ m + k) :: heldUp (v * 2 ^ m + k - interval * 2 ^ m)
        (interval * 2 ^ m)).map (· / 2 ^ m) = v :: heldUp (v - interval) interval := by
      rw [List.map_cons, heldUp_scale, hbehind, mul_add_ediv_two_pow v hr]
    rw [Recording.samples, Recording.samples, Multiset.map_coe, List.map_map, ← hvalues,
      List.map_map, htoNat]

variable {L : Layout} (hL : L.Shaped) (hL' : (L.scale m).Shaped)
include hL hL'

/-- What becomes of a recording does not change when it is scaled. -/
theorem outcome : r'.outcome (L.scale m) = r.outcome L := by
  cases hr with
  | plain v hr n =>
    exact (Layout.outcome_scale hL hL' _ n).trans (by rw [mul_add_ediv_two_pow v hr]; rfl)
  | corrected v hr interval =>
    show (L.scale m).outcomeCorrected _ _ = L.outcomeCorrected v interval
    rw [Histogram.outcomeCorrected_eq hL', Histogram.outcomeCorrected_eq hL,
      Layout.outcome_scale hL hL', mul_add_ediv_two_pow v hr]

/-- What a recording adds to a tally does not change when it is scaled. -/
theorem sum_adds_work (t : Tally) :
    ((r'.work (L.scale m)).map (·.adds t)).sum = ((r.work L).map (·.adds t)).sum := by
  have hcovers : (L.scale m).Covers r'.value ↔ L.Covers r.value := by
    rw [← Recording.outcome_eq_ok_iff hL, ← Recording.outcome_eq_ok_iff hL', hr.outcome hL hL']
  by_cases hv : L.Covers r.value
  · rw [Recording.sum_adds_work hL hv, Recording.sum_adds_work hL' (hcovers.mpr hv),
      Layout.tally_scale hL hL', hr.samples]
  · rw [Recording.work_of_not_covers hL hv,
      Recording.work_of_not_covers hL' (mt hcovers.mp hv)]

end Recording.Scaled

/-! ## Histograms that hold the same -/

namespace Histogram

/-- A histogram of a layout and one of the scaled layout that hold the same counts. -/
structure Matched (L : Layout) (m : ℕ) (w : CounterWidth) (g h : Histogram) : Prop where
  framed : Framed L w g
  framed_scale : Framed (L.scale m) w h
  bounded : g.Bounded
  bounded_scale : h.Bounded
  held : ∀ t, h.held t = g.held t

variable {L : Layout} {m : ℕ} {w : CounterWidth} {g h : Histogram}

/-- Histograms without samples hold the same. -/
theorem ofLayout_matched (L : Layout) (m : ℕ) (w : CounterWidth) :
    Matched L m w (ofLayout L w) (ofLayout (L.scale m) w) :=
  ⟨ofLayout_framed L w, ofLayout_framed _ w, ofLayout_bounded L w, ofLayout_bounded _ w,
    fun t => (held_ofLayout _ w t).trans (held_ofLayout L w t).symm⟩

/-- Matching histograms agree on the slots and on the total. -/
theorem Matched.slots_eq (hmatched : Matched L m w g h) :
    h.slots = g.slots ∧ h.total = g.total := by
  have hsize : h.slots.size = g.slots.size :=
    hmatched.framed_scale.size.trans hmatched.framed.size.symm
  exact ⟨slots_eq_of_count hsize fun i _ => hmatched.held (.slot i), hmatched.held .total⟩

variable (hL : L.Shaped) (hL' : (L.scale m).Shaped)
include hL hL'

/-- A recording and the scaled one have the same outcome and leave matching histograms. -/
theorem Matched.run (hmatched : Matched L m w g h) {r r' : Recording} (hr : r.Scaled m r') :
    Matched L m w (r.run g).1 (r'.run h).1 ∧ (r'.run h).2 = (r.run g).2 := by
  obtain ⟨hframed, hframed', hbounded, hbounded', hheld⟩ := hmatched
  refine ⟨⟨hframed.run r, hframed'.run r', hbounded.run r, hbounded'.run r', fun t => ?_⟩, ?_⟩
  · -- Both hold the same modulo what the tally can hold, and less than that.
    have hg := held_run_modEq hframed r t
    have hh := held_run_modEq hframed' r' t
    have hlimit := hbounded.run r t
    have hlimit' := hbounded'.run r' t
    rw [hr.sum_adds_work hL hL', hheld t] at hh
    rw [(hframed.run r).width] at hlimit
    rw [(hframed'.run r').width] at hlimit'
    exact (hh.trans hg.symm).eq_of_lt_of_lt hlimit' hlimit
  · rw [r.run_eq, r'.run_eq, hframed.layout, hframed'.layout, hr.outcome hL hL']

/-- So do recordings one after the other. -/
theorem Matched.recordAll (hmatched : Matched L m w g h) {rs rs' : List Recording}
    (hrs : List.Forall₂ (Recording.Scaled m) rs rs') :
    Matched L m w (g.recordAll rs).1 (h.recordAll rs').1 ∧
      (h.recordAll rs').2 = (g.recordAll rs).2 := by
  induction hrs generalizing g h with
  | nil => exact ⟨hmatched, rfl⟩
  | cons hr _ ih =>
    obtain ⟨hrun, houtcome⟩ := hmatched.run hL hL' hr
    obtain ⟨hall, houtcomes⟩ := ih hrun
    exact ⟨hall, congrArg₂ _ houtcome houtcomes⟩

end Histogram

/-! ## What scaling keeps -/

/-- What a layout and the one of bounds `2 ^ m` times as great have in common. -/
structure Layout.Scaling (m : ℕ) (L L' : Layout) : Prop where
  /-- They have as many buckets. -/
  bucketCount : L'.bucketCount = L.bucketCount
  /-- Their buckets have as many places. -/
  subCount : L'.subCount = L.subCount
  /-- They have as many slots. -/
  slotCount : L'.slotCount = L.slotCount
  /-- A scaled value has the slot of the value, whatever its last digits. -/
  slotOf? : ∀ v r : ℕ, r < 2 ^ m → L'.slotOf? (v * 2 ^ m + r) = L.slotOf? v
  /-- The lowest equivalent value is scaled. -/
  lowestEquivalent : ∀ v r : ℕ, r < 2 ^ m → v * 2 ^ m + r ≤ topValue →
    L'.lowestEquivalent (v * 2 ^ m + r : ℕ) = L.lowestEquivalent v * 2 ^ m
  /-- The number of equivalent values is scaled. -/
  rangeSize : ∀ v r : ℕ, r < 2 ^ m →
    L'.rangeSize (v * 2 ^ m + r : ℕ) = L.rangeSize v * 2 ^ m
  /-- The lowest value of a slot is scaled, as long as the product is a value. Else it is held at
  `topValue`. -/
  lowestOfIndex : ∀ i < L.slotCount,
    L'.lowestOfIndex i = min (L.lowestOfIndex i * 2 ^ m) topValue
  /-- Scaled recordings into an empty histogram leave the same counts in the slots and the same
  total, and have the same outcomes. -/
  recordAll : ∀ (w : CounterWidth) (rs rs' : List Recording),
    List.Forall₂ (Recording.Scaled m) rs rs' →
      let (g, outcomes) := (Histogram.ofLayout L w).recordAll rs
      let (h, outcomes') := (Histogram.ofLayout L' w).recordAll rs'
      h.slots = g.slots ∧ h.total = g.total ∧ outcomes' = outcomes

namespace Layout

/-- If bounds are accepted, and accepted when they are multiplied by a power of two and still
values, then the two layouts match in all slots, and scaled recordings into the one leave what the
recordings leave in the other. -/
theorem ofBounds_scaling {b : Bounds} {L L' : Layout} {m : ℕ} (h : ofBounds b = .ok L)
    (h' : ofBounds (b.scale m) = .ok L') (hhighest : (b.scale m).highest ≤ topValue) :
    Scaling m L L' := by
  have hL := ofBounds_shaped h
  have hL' := ofBounds_shaped h'
  obtain rfl := ofBounds_scale h h' hhighest
  have hvalue : ∀ v {r : ℕ}, r < 2 ^ m → (v * 2 ^ m + r) / 2 ^ m = v := fun v r hr => by
    exact_mod_cast mul_add_ediv_two_pow v hr
  refine ⟨rfl, rfl, rfl, fun v r hr => ?_, fun v r hr htop => ?_, fun v r hr => ?_,
    fun i hi => lowestOfIndex_scale hL hL' hi, fun w rs rs' hrs => ?_⟩
  · rw [slotOf?_scale hL hL', hvalue v hr]
  · rw [lowestEquivalent_scale hL hL' htop, hvalue v hr]
  · rw [rangeSize_scale hL hL', hvalue v hr]
  · obtain ⟨hmatched, houtcomes⟩ :=
      (Histogram.ofLayout_matched L m w).recordAll hL hL' hrs
    exact ⟨hmatched.slots_eq.1, hmatched.slots_eq.2, houtcomes⟩

/-- Values below `2 ^ 53` in units of one, and all values in units of 1024. The slot of `2 ^ 53 - 1`
is that of `topValue`, which is the same value with the greatest last digits. The next slot starts
at `2 ^ 53` in the one layout. In the other it would start past the values. -/
theorem scaling_toTop :
    ofBounds ⟨1, 2 ^ 53 - 1, 3⟩ =
        .ok ⟨⟨1, 2 ^ 53 - 1, 3⟩, 0, 10, 2048, 1024, 2047, 44, 46080⟩ ∧
      ofBounds (Bounds.scale ⟨1, 2 ^ 53 - 1, 3⟩ 10) =
        .ok ⟨⟨1024, 2 ^ 63 - 1024, 3⟩, 10, 10, 2048, 1024, 2096128, 44, 46080⟩ ∧
      (Bounds.scale ⟨1, 2 ^ 53 - 1, 3⟩ 10).highest ≤ topValue ∧
      let L : Layout := ⟨⟨1, 2 ^ 53 - 1, 3⟩, 0, 10, 2048, 1024, 2047, 44, 46080⟩
      let L' : Layout := ⟨⟨1024, 2 ^ 63 - 1024, 3⟩, 10, 10, 2048, 1024, 2096128, 44, 46080⟩
      Scaling 10 L L' ∧ L.slotOf? (2 ^ 53 - 1) = some 45055 ∧ L'.slotOf? topValue = some 45055 ∧
        L.lowestOfIndex 45056 = 2 ^ 53 ∧ L'.lowestOfIndex 45056 = topValue := by
  have hbounds : ofBounds ⟨1, 2 ^ 53 - 1, 3⟩ =
      .ok ⟨⟨1, 2 ^ 53 - 1, 3⟩, 0, 10, 2048, 1024, 2047, 44, 46080⟩ := by decide +kernel
  have hscaled : ofBounds (Bounds.scale ⟨1, 2 ^ 53 - 1, 3⟩ 10) =
      .ok ⟨⟨1024, 2 ^ 63 - 1024, 3⟩, 10, 10, 2048, 1024, 2096128, 44, 46080⟩ := by decide +kernel
  have hhighest : (Bounds.scale ⟨1, 2 ^ 53 - 1, 3⟩ 10).highest ≤ topValue := by decide +kernel
  exact ⟨hbounds, hscaled, hhighest, ofBounds_scaling hbounds hscaled hhighest, by decide +kernel⟩

end Layout

end DynamicRange
