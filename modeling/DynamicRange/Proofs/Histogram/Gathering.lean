import DynamicRange.Proofs.Histogram.Recounting

/-!
# Histograms that gather samples

A histogram that takes in others, laid out alike, gathers their samples: it counts them in their
slots, and its ends are those of the lowest values of these slots (`Gathers`). In how many parts the
samples were handed over, and in which order, does not matter, since there is only one histogram
that gathers given samples (`Gathers.unique`).

The parts are histograms in which one sample of each of some values was recorded. Values that cannot
be recorded leave no sample (`Layout.samplesOf`).
-/

namespace DynamicRange

/-! ## One sample of each of some values -/

namespace Layout

variable {L : Layout} {vs us : Multiset ℤ}

/-- The samples that are recorded of some values, one of each that can be recorded. -/
def samplesOf (L : Layout) (vs : Multiset ℤ) : Multiset ℕ := (vs.filter L.Covers).map Int.toNat

theorem samplesOf_add (L : Layout) (vs us : Multiset ℤ) :
    L.samplesOf (vs + us) = L.samplesOf vs + L.samplesOf us := by
  rw [samplesOf, Multiset.filter_add, Multiset.map_add]
  rfl

/-- No value leaves more than one sample. -/
theorem card_samplesOf_le (L : Layout) (vs : Multiset ℤ) : (L.samplesOf vs).card ≤ vs.card := by
  rw [samplesOf, Multiset.card_map]
  exact Multiset.card_le_card (Multiset.filter_le ..)

/-- If all values can be recorded, each leaves a sample. -/
theorem samplesOf_of_covers (hvs : ∀ v ∈ vs, L.Covers v) : L.samplesOf vs = vs.map Int.toNat := by
  rw [samplesOf, Multiset.filter_eq_self.mpr hvs]

/-- What was recorded of values, one after the other, are their samples. -/
theorem acceptedSamples_plain (hL : L.Shaped) (vs : List ℤ) :
    acceptedSamples (vs.map (Recording.plain · 1))
        ((vs.map (Recording.plain · 1)).map (Recording.outcome L)) =
      L.samplesOf vs := by
  induction vs with
  | nil => rfl
  | cons v vs ih =>
    have hfirst : Recording.accepted (.plain v 1) ((Recording.plain v 1).outcome L) =
        L.samplesOf {v} := by
      by_cases hv : L.Covers v
      · rw [(Recording.outcome_eq_ok_iff (r := .plain v 1) hL).mpr hv, samplesOf,
          Multiset.filter_singleton, if_pos hv]
        rfl
      · rcases houtcome : (Recording.plain v 1).outcome L with e | ⟨⟩
        · rw [samplesOf, Multiset.filter_singleton, if_neg hv]
          rfl
        · exact absurd ((Recording.outcome_eq_ok_iff hL).mp houtcome) hv
    have hcons : ((v :: vs : List ℤ) : Multiset ℤ) = {v} + vs := rfl
    rw [hcons, samplesOf_add, ← ih, ← hfirst]
    rfl

end Layout

namespace Histogram

variable {b : Bounds} {L : Layout} {w : CounterWidth} {g h : Histogram} {r s : Multiset ℕ}

/-- Recording one sample of each of some values, not too many, leaves their samples. -/
theorem ofLayout_counts (hbounds : Layout.ofBounds b = .ok L) {vs : List ℤ}
    (hvalues : ∀ v ∈ vs, v ≤ topValue) (hfew : vs.length < w.limit) :
    ((ofLayout L w).applyAll (vs.flatMap (L.work · 1))).Counts (L.samplesOf vs) := by
  have hL := (Layout.ofBounds_precise hbounds).toShaped
  have hrun : (ofLayout L w).recordAll (vs.map (Recording.plain · 1)) =
      ((ofLayout L w).applyAll (vs.flatMap (L.work · 1)),
        (vs.map (Recording.plain · 1)).map (Recording.outcome L)) := by
    rw [recordAll_eq, List.flatMap_map]
    rfl
  have hcard : (L.samplesOf vs).card < w.limit := (L.card_samplesOf_le vs).trans_lt hfew
  have hrecorded : ∀ r ∈ vs.map (Recording.plain · 1), r.value ≤ topValue ∧ r.Positive := by
    simpa [Recording.value, Recording.Positive] using hvalues
  have hcounts := recordAll_counts hbounds w (fun r hr => (hrecorded r hr).1)
    fun r hr => (hrecorded r hr).2
  rw [hrun, Layout.acceptedSamples_plain hL] at hcounts
  refine hcounts (fun i => ?_) (hcard.trans_le (Nat.le_of_dvd (by norm_num) w.limit_dvd))
  rw [w.two_pow_bits]
  exact (Multiset.countP_le_card _ _).trans_lt hcard

/-- A histogram in which values were recorded is empty when it is reset. -/
theorem reset_recorded (hbounds : Layout.ofBounds b = .ok L) {vs : List ℤ}
    (hvalues : ∀ v ∈ vs, v ≤ topValue) (hfew : vs.length < w.limit) :
    ((ofLayout L w).applyAll (vs.flatMap (L.work · 1))).reset = ofLayout L w := by
  have hcounts := ofLayout_counts hbounds hvalues hfew
  have hframed := (ofLayout_framed L w).applyAll (vs.flatMap (L.work · 1))
  rw [hcounts.reachable.consistent.reset_eq, hframed.layout, hframed.width]

/-! ## Gathered samples -/

/-- A histogram that operations lead to counts some samples, and has the ends of the lowest values
of their slots. -/
structure Gathers (L : Layout) (w : CounterWidth) (s : Multiset ℕ) (h : Histogram) : Prop where
  reachable : h.Reachable
  layout : h.layout = L
  width : h.width = w
  total : h.total = s.card
  count : ∀ i < L.slotCount, h.count i = s.countP fun x => L.slotOf? x = some i
  spans : h.Spans (s.map fun x : ℕ => L.lowestEquivalent x)

/-- A histogram without samples gathers none. -/
theorem ofLayout_gathers (hbounds : Layout.ofBounds b = .ok L) (w : CounterWidth) :
    Gathers L w 0 (ofLayout L w) :=
  ⟨.ofLayout hbounds w, rfl, rfl, rfl, fun i _ => held_ofLayout L w (.slot i),
    ofLayout_spans_zero L w⟩

/-- A histogram that counts samples hands over their lowest values. -/
theorem Counts.mem_lowestSamples_iff (hh : h.Counts s) (v : ℕ) :
    v ∈ h.lowestSamples ↔ v ∈ s.map fun x : ℕ => h.layout.lowestEquivalent x :=
  Histogram.mem_lowestSamples_iff hh.reachable.consistent.shaped hh.held hh.mem v

/-- A histogram that takes in another one, laid out alike and with counters of the same size,
gathers the samples of both, if they are not too many. -/
theorem Gathers.merge (hg : Gathers L w s g) (hh : h.Counts r) (hlayout : h.layout = L)
    (hwidth : h.width = w) (hfew : (s + r).card < w.limit) :
    Gathers L w (s + r) (g.merge h).1 := by
  obtain ⟨hreachable, rfl, rfl, htotal, hcount, hspans⟩ := hg
  have hmerged := hreachable.merge hh.reachable
  have hframed : Framed g.layout g.width (g.merge h).1 := hreachable.consistent.framed.merge h
  obtain ⟨hdropped, halike⟩ :=
    merge_alike hreachable hh.reachable hh.exact.covered hlayout.symm (by rw [hwidth])
  refine ⟨hmerged, hframed.layout, hframed.width, ?_, fun i hi => ?_, ?_⟩
  · -- The total is kept to more samples than there are.
    have hsum := merge_total hreachable.consistent hh.reachable.consistent hh.exact
    have hheld : h.total = r.card := hh.held .total
    rw [hdropped, Nat.add_zero, htotal, hheld, ← Multiset.card_add] at hsum
    exact hsum.eq_of_lt_of_lt (hmerged.consistent.bounded .total)
      (hfew.trans_le (Nat.le_of_dvd (by norm_num) g.width.limit_dvd))
  · have hheld : h.count i = h.layout.tally r (.slot i) := hh.held (.slot i)
    rw [halike i hi, hcount i hi, hheld, hlayout, Layout.tally, ← Multiset.countP_add,
      g.width.two_pow_bits]
    exact Nat.mod_eq_of_lt ((Multiset.countP_le_card _ _).trans_lt hfew)
  · have hlowest : Framed h.layout h.width g := by
      rw [hlayout, hwidth]
      exact hreachable.consistent.framed
    refine (hh.reachable.consistent.merge_spans hh.exact.covered hlowest hspans).congr fun v => ?_
    rw [Multiset.mem_add, hh.mem_lowestSamples_iff, hlayout, Multiset.map_add, Multiset.mem_add]

/-- A histogram that takes in one in which values were recorded gathers their samples, too. -/
theorem Gathers.merge_recorded (hbounds : Layout.ofBounds b = .ok L) {us : Multiset ℤ}
    (hg : Gathers L w (L.samplesOf us) g) {vs : List ℤ} (hvalues : ∀ v ∈ vs, v ≤ topValue)
    (hfew : us.card + vs.length < w.limit) :
    Gathers L w (L.samplesOf (us + vs))
      (g.merge ((ofLayout L w).applyAll (vs.flatMap (L.work · 1)))).1 := by
  have hframed := (ofLayout_framed L w).applyAll (vs.flatMap (L.work · 1))
  have hcounts := ofLayout_counts hbounds hvalues (Nat.lt_of_le_of_lt (Nat.le_add_left ..) hfew)
  have hcard : (L.samplesOf (us + vs)).card < w.limit :=
    (L.card_samplesOf_le _).trans_lt (by rwa [Multiset.card_add, Multiset.coe_card])
  rw [Layout.samplesOf_add] at hcard ⊢
  exact hg.merge hcounts hframed.layout hframed.width hcard

/-- Only one histogram gathers given samples. -/
theorem Gathers.unique (hg : Gathers L w s g) (hh : Gathers L w s h) : g = h := by
  have hsize : g.slots.size = h.slots.size := by
    rw [hg.reachable.consistent.size, hh.reachable.consistent.size, hg.layout, hh.layout]
  have hslots : g.slots = h.slots := by
    refine slots_eq_of_count hsize fun i hi => ?_
    rw [hh.reachable.consistent.size, hh.layout] at hi
    rw [hg.count i hi, hh.count i hi]
  have hleast : g.least = h.least :=
    eq_of_forall_le_iff fun v => by rw [hg.spans.le_least_iff, hh.spans.le_least_iff]
  have hgreatest : g.greatest = h.greatest :=
    eq_of_forall_ge_iff fun v => by rw [hg.spans.greatest_le_iff, hh.spans.greatest_le_iff]
  have hlayout := hg.layout.trans hh.layout.symm
  have hwidth := hg.width.trans hh.width.symm
  have htotal := hg.total.trans hh.total.symm
  cases g
  cases h
  simp_all only

end Histogram

end DynamicRange
