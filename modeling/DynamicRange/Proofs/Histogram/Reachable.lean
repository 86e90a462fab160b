import DynamicRange.Histogram.Merge
import DynamicRange.Histogram.Recount
import DynamicRange.Proofs.Histogram.Tallies

/-!
# Reachable histograms

`Histogram.Reachable` holds of the histograms that the operations lead to from empty ones of
accepted layouts. Counters and totals start over as they may, so the slots need not come to the
total; they do so modulo what a counter can hold, and this is what every operation keeps
(`Consistent`).

A merge is a series of recordings, at the lowest values of slots, so whatever recordings keep a
merge keeps, also one of a histogram with itself (`KeptByRecordings`). Every sample of a recording
counts once in a slot and once in the total, and no slot that starts past `topValue` has samples.
`reachable_sound` collects what follows of a reachable histogram.
-/

namespace DynamicRange

/-! ## Merges are recordings -/

/-- No location has a lowest value past the values. -/
theorem Layout.lowestAt_le (L : Layout) (l : Location) : L.lowestAt l ≤ topValue := by
  have htop : topValue + 1 = 2 ^ 63 := rfl
  rw [lowestAt]
  split
  · exact le_rfl
  · next hshort =>
    rw [Nat.shiftLeft_eq, ← Nat.lt_succ_iff, Nat.succ_eq_add_one, htop, ← bitLength_le_iff]
    rcases Nat.eq_zero_or_pos l.sub with h0 | hpos
    · simp [h0, bitLength]
    · rw [bitLength_mul_two_pow hpos.ne']
      omega

/-- The values of a slot are not below its exact lowest value. -/
theorem Layout.exactLowest_le {L : Layout} (hL : L.Shaped) {v i : ℕ}
    (hslot : L.slotOf? v = some i) : L.exactLowest i ≤ v := by
  obtain ⟨hindex, hi⟩ := slotOf?_eq_some_iff.mp hslot
  obtain ⟨hl, hli, -⟩ := locationOf_spec hL hi
  rw [exactLowest, ← indexOf_le_indexFor_iff hL hl, hli, hindex]

/-- The lowest value that is reported for a slot is a value. -/
theorem Cursor.nextRecorded?_lowest_le {h : Histogram} {c c' : Cursor} {x : Item}
    (found : c.nextRecorded? h = some (x, c')) : x.lowest ≤ topValue := by
  have hlowest : ∀ d : Cursor, d.lowest h.layout ≤ topValue := by
    intro d
    rw [lowest]
    cases d.slot? with
    | none => exact Nat.zero_le _
    | some l => exact h.layout.lowestAt_le l
  unfold nextRecorded? at found
  split at found
  · next d _ =>
    obtain ⟨rfl, -⟩ := Prod.mk.inj (Option.some.inj found)
    exact hlowest d
  · cases found

/-- What holds at first, and is kept by taking in an item, holds in the end. -/
theorem Cursor.foldRecorded_induction {α : Type} {P : α → Prop} {h : Histogram} {f : α → Item → α}
    (hstep : ∀ a x, x.lowest ≤ topValue → P a → P (f a x)) (c : Cursor) {a : α} (ha : P a) :
    P (c.foldRecorded h f a) := by
  fun_induction foldRecorded h f a c with
  | case1 => exact ha
  | case2 a c x c' found ih => exact ih (hstep a x (nextRecorded?_lowest_le found) ha)

namespace Histogram

/-- Whether recordings of values keep a property. -/
def KeptByRecordings (P : Histogram → Prop) : Prop :=
  ∀ h (r : Recording), r.value ≤ topValue → P h → P (r.run h).1

namespace KeptByRecordings

variable {P : Histogram → Prop} (hkept : KeptByRecordings P) {h : Histogram}
include hkept

/-- Taking in an item keeps what recordings keep. -/
theorem absorb (dropped : ℕ) {x : Item} (hx : x.lowest ≤ topValue) (hh : P h) :
    P (h.absorb dropped x).1 := by
  have hrecord : P (h.record x.lowest x.count).1 :=
    hkept h (.plain x.lowest x.count) (Int.ofNat_le.mpr hx) hh
  unfold Histogram.absorb
  split
  · split
    · next hrun => rwa [hrun] at hrecord
    · next hrun => rwa [hrun] at hrecord
  · exact hh

/-- A merge keeps what recordings keep, whatever is merged. -/
theorem merge (source : Histogram) (hh : P h) : P (h.merge source).1 :=
  Cursor.foldRecorded_induction (P := fun a : Histogram × ℕ => P a.1)
    (fun _ _ hx ha => hkept.absorb _ hx ha) _ hh

/-- A merge of a histogram with itself keeps what recordings keep. -/
theorem mergeSelf (hh : P h) : P h.mergeSelf.1 := by
  have hfrom : ∀ (h : Histogram) (c : Cursor) (dropped : ℕ), P h →
      P (h.mergeSelfFrom c dropped).1 := by
    intro h c dropped hh
    -- The cursor reads the histogram that grows, but what it reports are still values.
    fun_induction mergeSelfFrom h c dropped with
    | case1 => exact hh
    | case2 h c dropped x c' found grown ih =>
      exact ih (hkept.absorb dropped (Cursor.nextRecorded?_lowest_le found) hh)
  exact hfrom h _ 0 hh

end KeptByRecordings

/-! ## What every operation keeps -/

/-- A histogram that operations lead to. A clone needs no operation, since it is the same
histogram. -/
inductive Reachable : Histogram → Prop where
  | ofLayout {b : Bounds} {L : Layout} (hbounds : Layout.ofBounds b = .ok L) (w : CounterWidth) :
    Reachable (ofLayout L w)
  | emptyLike {h : Histogram} (hh : Reachable h) (w : CounterWidth) : Reachable (h.emptyLike w)
  | run {h : Histogram} (hh : Reachable h) (r : Recording) (hr : r.value ≤ topValue) :
    Reachable (r.run h).1
  | insist {h : Histogram} (hh : Reachable h) {v : ℤ} (hv : v ≤ topValue) :
    Reachable (h.insist v).1
  | merge {h source : Histogram} (hh : Reachable h) (hsource : Reachable source) :
    Reachable (h.merge source).1
  | mergeSelf {h : Histogram} (hh : Reachable h) : Reachable h.mergeSelf.1
  | reset {h : Histogram} (hh : Reachable h) : Reachable h.reset
  | recount {h : Histogram} (hh : Reachable h) : Reachable h.recount

/-- What operations keep of a histogram. -/
structure Consistent (h : Histogram) : Prop where
  /-- The layout was accepted. -/
  accepted : ∃ b, Layout.ofBounds b = .ok h.layout
  /-- There is a slot for every index. -/
  size : h.slots.size = h.layout.slotCount
  /-- Every tally holds a count that it can hold. -/
  bounded : h.Bounded
  /-- The slots come to the total, modulo what a counter can hold. -/
  sum : ∑ i ∈ Finset.range h.layout.slotCount, h.count i ≡ h.total [MOD h.width.limit]
  /-- The slots that start past the values are empty. -/
  past_top : ∀ i < h.layout.slotCount, topValue < h.layout.exactLowest i → h.count i = 0

variable {h : Histogram}

/-- A histogram without samples is consistent. -/
theorem ofLayout_consistent {b : Bounds} {L : Layout} (hbounds : Layout.ofBounds b = .ok L)
    (w : CounterWidth) : (ofLayout L w).Consistent := by
  have hcount : ∀ i, (ofLayout L w).count i = 0 := fun i => held_ofLayout L w (.slot i)
  refine ⟨⟨b, hbounds⟩, (ofLayout_framed L w).size, ofLayout_bounded L w, ?_, fun i _ _ => hcount i⟩
  simp only [hcount, Finset.sum_const_zero]
  rfl

namespace Consistent

/-- The cells of a consistent histogram are those that its layout asks for. -/
theorem framed (hh : h.Consistent) : Framed h.layout h.width h := ⟨rfl, rfl, hh.size⟩

/-- The layout of a consistent histogram is well formed. -/
theorem shaped (hh : h.Consistent) : h.layout.Shaped := by
  obtain ⟨b, hbounds⟩ := hh.accepted
  exact Layout.ofBounds_shaped hbounds

/-- A recording adds as much to the slots as to the total. -/
theorem sum_run (hh : h.Consistent) {r : Recording} (hv : h.layout.Covers r.value) :
    ∑ i ∈ Finset.range h.layout.slotCount, (r.run h).1.count i ≡ (r.run h).1.total
      [MOD h.width.limit] := by
  -- All samples have slots, so that the slots together gain as many as the total.
  have hheld := held_run hh.shaped hh.framed hv
  have hslots := Layout.sum_tally fun x hx =>
    (Recording.indexFor_of_mem_samples hh.shaped hv hx).1
  calc ∑ i ∈ Finset.range h.layout.slotCount, (r.run h).1.count i
      ≡ ∑ i ∈ Finset.range h.layout.slotCount,
          (h.count i + h.layout.tally r.samples (.slot i)) [MOD h.width.limit] :=
        Nat.ModEq.sum fun i _ => hheld (.slot i)
    _ = ∑ i ∈ Finset.range h.layout.slotCount, h.count i + h.layout.tally r.samples .total := by
        rw [Finset.sum_add_distrib, hslots]
    _ ≡ h.total + h.layout.tally r.samples .total [MOD h.width.limit] := hh.sum.add_right _
    _ ≡ (r.run h).1.total [MOD h.width.limit] :=
        ((hheld .total).of_dvd h.width.limit_dvd).symm

/-- A recording of a value adds nothing to a slot that starts past the values. -/
theorem past_top_run (hh : h.Consistent) {r : Recording} (hr : r.value ≤ topValue)
    (hv : h.layout.Covers r.value) (i : ℕ) (hi : i < h.layout.slotCount)
    (hpast : topValue < h.layout.exactLowest i) : (r.run h).1.count i = 0 := by
  -- A sample in such a slot would be a value past the values.
  have hnone : h.layout.tally r.samples (.slot i) = 0 := by
    refine Multiset.countP_eq_zero.mpr fun x hx hslot => ?_
    have hlow := Layout.exactLowest_le hh.shaped hslot
    have hhigh := (Recording.indexFor_of_mem_samples hh.shaped hv hx).2
    omega
  have hmod := held_run hh.shaped hh.framed hv (.slot i)
  rw [hnone, held, held, hh.past_top i hi hpast] at hmod
  refine hmod.eq_of_lt_of_lt ?_ h.width.limit_pos
  have hbounded := hh.bounded.run r (.slot i)
  rwa [(hh.framed.run r).width] at hbounded

end Consistent

/-- Recordings of values keep a histogram consistent. -/
theorem keptByRecordings_consistent : KeptByRecordings Consistent := by
  intro h r hr hh
  by_cases hv : h.layout.Covers r.value
  · have hsum := hh.sum_run hv
    have hpast := hh.past_top_run hr hv
    have hbounded := hh.bounded.run r
    obtain ⟨hlayout, hwidth, hsize⟩ := hh.framed.run r
    generalize (r.run h).1 = g at *
    rw [← hwidth] at hsum
    rw [← hlayout] at hsum hpast hsize
    exact ⟨hlayout ▸ hh.accepted, hsize, hbounded, hsum, hpast⟩
  · -- Such a recording is refused.
    rw [r.run_eq, Recording.work_of_not_covers hh.shaped hv]
    exact hh

/-- A reset leaves a histogram as it was made. -/
theorem Consistent.reset_eq (hh : h.Consistent) : h.reset = ofLayout h.layout h.width := by
  have hslots : (h.slots.map fun _ => 0) = Array.replicate h.layout.slotCount 0 := by
    ext i hi hi'
    · simp [hh.size]
    · simp
  rw [reset, hslots]
  rfl

/-- A recount keeps a histogram consistent. -/
theorem Consistent.recount (hh : h.Consistent) : h.recount.Consistent := by
  have htotal : h.recount.total = wrapTotal (∑ i ∈ Finset.range h.layout.slotCount, h.count i) := by
    rw [← hh.size, Finset.range_eq_Ico]
    exact h.countIn_eq 0 h.size
  refine ⟨hh.accepted, hh.size, fun t => ?_, ?_, hh.past_top⟩
  · cases t with
    | slot i => exact hh.bounded (.slot i)
    | total =>
      rw [held, htotal]
      exact Nat.mod_lt _ (Nat.two_pow_pos 64)
  · rw [htotal]
    exact ((Nat.mod_modEq _ (2 ^ 64)).of_dvd h.width.limit_dvd).symm

/-- All reachable histograms are consistent. -/
theorem Reachable.consistent (hh : h.Reachable) : h.Consistent := by
  induction hh with
  | ofLayout hbounds w => exact ofLayout_consistent hbounds w
  | emptyLike _ w ih =>
    obtain ⟨b, hbounds⟩ := ih.accepted
    exact ofLayout_consistent hbounds w
  | run _ r hr ih => exact keptByRecordings_consistent _ r hr ih
  | @insist h _ v hv ih => exact keptByRecordings_consistent h (.plain v 1) hv ih
  | @merge h source _ _ ih _ => exact keptByRecordings_consistent.merge source ih
  | mergeSelf _ ih => exact keptByRecordings_consistent.mergeSelf ih
  | reset _ ih =>
    obtain ⟨b, hbounds⟩ := ih.accepted
    rw [ih.reset_eq]
    exact ofLayout_consistent hbounds _
  | recount _ ih => exact ih.recount

/-- Recordings of values lead to reachable histograms. -/
theorem Reachable.recordAll (hh : h.Reachable) {rs : List Recording}
    (hvalues : ∀ r ∈ rs, r.value ≤ topValue) : (h.recordAll rs).1.Reachable := by
  induction rs generalizing h with
  | nil => exact hh
  | cons r rs ih =>
    obtain ⟨hr, hrest⟩ := List.forall_mem_cons.mp hvalues
    exact ih (hh.run r hr) hrest

/-- A complaint leaves the histogram as it was. -/
theorem insist_of_error (hL : h.layout.Shaped) {v : ℤ} {complaint : String}
    (herror : (h.insist v).2 = .error complaint) : (h.insist v).1 = h := by
  have hrun : h.insist v = ((Recording.plain v 1).run h).map id (·.mapError (·.complaint)) := rfl
  rcases houtcome : ((Recording.plain v 1).run h).2 with e | ⟨⟩
  · rw [hrun]
    exact Recording.run_of_error hL houtcome
  · rw [hrun, Prod.map_snd, houtcome] at herror
    cases herror

/-! ## Reachable histograms are sound -/

/-- What can be relied on in a histogram. -/
structure Sound (h : Histogram) : Prop where
  /-- There is a slot for every index. -/
  size : h.slots.size = h.layout.slotCount
  /-- The slots come to the total, modulo what a counter can hold. -/
  sum : ∑ i ∈ Finset.range h.layout.slotCount, h.count i ≡ h.total [MOD 2 ^ h.width.bits]
  /-- The slots that start past the values are empty. -/
  past_top : ∀ i < h.layout.slotCount, topValue < h.layout.exactLowest i → h.count? i = some 0
  /-- A recording that is refused leaves the histogram as it was. -/
  refused : ∀ (r : Recording) (e : RecordError), (r.run h).2 = .error e → (r.run h).1 = h
  /-- A recording that is complained of leaves the histogram as it was. -/
  complained : ∀ (v : ℤ) (complaint : String),
    (h.insist v).2 = .error complaint → (h.insist v).1 = h
  /-- A reset leaves the histogram as one that is newly made of the same bounds. -/
  reset : ofBounds h.layout.toBounds h.width = .ok h.reset

/-- Whatever operations led to a histogram, and however often counters started over, it is
sound. -/
theorem reachable_sound (hh : h.Reachable) : h.Sound := by
  have hconsistent := hh.consistent
  refine ⟨hconsistent.size, ?_, fun i hi hpast => ?_,
    fun r e => Recording.run_of_error hconsistent.shaped,
    fun v complaint => insist_of_error hconsistent.shaped, ?_⟩
  · rw [h.width.two_pow_bits]
    exact hconsistent.sum
  · have hcount := hconsistent.past_top i hi hpast
    rw [count, Array.getD_eq_getD_getElem?] at hcount
    rw [count?]
    rw [Array.getElem?_eq_getElem (hconsistent.size ▸ hi)] at hcount ⊢
    exact congrArg some hcount
  · obtain ⟨b, hbounds⟩ := hconsistent.accepted
    have hsame : b = h.layout.toBounds := by rw [(Layout.eq_layout_of_ofBounds hbounds).1]; rfl
    rw [hconsistent.reset_eq, ofBounds, ← hsame, hbounds]
    rfl

/-- Twice two hundred samples of 2, and what is left of them once more, in counters of 8 bits. -/
def overflown : Histogram :=
  let empty := ofLayout ⟨⟨1, 2, 1⟩, 0, 4, 32, 16, 31, 1, 32⟩ .bits8
  let twice := ((Recording.plain 2 200).run ((Recording.plain 2 200).run empty).1).1
  twice.mergeSelf.1

/-- Operations lead to these samples. -/
theorem overflown_reachable : overflown.Reachable := by
  have hempty := Reachable.ofLayout (b := ⟨1, 2, 1⟩) (L := ⟨⟨1, 2, 1⟩, 0, 4, 32, 16, 31, 1, 32⟩)
    (by decide +kernel) .bits8
  have honce := hempty.run (.plain 2 200) (by decide)
  exact (honce.run (.plain 2 200) (by decide)).mergeSelf

/-- The counter started over twice and holds 32, while the total went on to 544. -/
theorem overflown_sound :
    overflown.Sound ∧ overflown.count 2 = 32 ∧ overflown.total = 544 :=
  ⟨reachable_sound overflown_reachable, by decide +kernel, by decide +kernel⟩

end Histogram

end DynamicRange
