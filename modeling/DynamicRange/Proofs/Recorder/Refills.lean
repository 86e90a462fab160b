import DynamicRange.Proofs.Recorder.Collector

/-!
# What a collector gathers

The active histogram of a collector holds what was changed since the last swap and nothing else, and
the total gathers the samples of all intervals that were merged (`Reachable.refilled`). Every step
keeps this as long as no epoch starts over and no counter overflows. What the other histogram holds
depends on where the reader stands (`Stands`): it is empty, or full with the changes of the interval
before, or it is being emptied.
-/

namespace DynamicRange.Collector

open Histogram (ofLayout Framed Gathers)

variable {ω : Type} {s s' : Collector ω} {L : Layout}

/-- What the histogram that is not active holds, and what the total gathers, by where the reader
stands. -/
inductive Stands (L : Layout) (s : Collector ω) : Prop where
  /-- It is empty. -/
  | empty (hreader : s.stage = .resting ∧ s.traffic.readers () = .away ∨
      s.stage = .fetching ∧ s.traffic.readers () = .locked)
    (hempty : s.traffic.recorder.snapshot = ofLayout L .bits64)
    (htotal : Gathers L .bits64 (L.samplesOf (s.valuesBefore s.traffic.swaps)) s.total)
  /-- It holds what was changed in the interval before, which is not yet in the total. -/
  | full {n : ℕ} (hswaps : s.traffic.swaps = n + 1) (hstage : s.stage = .fetching)
    (hreader : (∃ f, s.traffic.readers () = .flipping f) ∨ s.traffic.readers () = .holding [])
    (hfull : s.traffic.recorder.snapshot =
      (ofLayout L .bits64).applyAll (changesIn n s.traffic.log))
    (htotal : Gathers L .bits64 (L.samplesOf (s.valuesBefore n)) s.total)
  /-- It is empty when the cells are cleared that the reader is yet to clear. -/
  | emptying {pending : List Cell} (hstage : s.stage = .emptying)
    (hreader : s.traffic.readers () = .holding pending)
    (hcleared : pending.foldl Histogram.clear s.traffic.recorder.snapshot = ofLayout L .bits64)
    (htotal : Gathers L .bits64 (L.samplesOf (s.valuesBefore s.traffic.swaps)) s.total)

/-- What the histograms hold, and what the total gathers. -/
structure Refilled (L : Layout) (s : Collector ω) : Prop where
  active : s.traffic.recorder.histogram s.traffic.recorder.active =
    (ofLayout L .bits64).applyAll (changesIn s.traffic.swaps s.traffic.log)
  stands : s.Stands L

/-- No phase is entered so often that an epoch starts over, and no counter overflows. -/
structure Moderate (s : Collector ω) : Prop where
  unwrapped : s.traffic.Unwrapped
  few : s.heard.length < 2 ^ 64

/-- Steps forget nothing that was heard. -/
theorem Step.moderate [DecidableEq ω] (hstep : Step L s s') (hb : s'.Moderate) : s.Moderate := by
  refine ⟨hstep.traffic.unwrapped hb.unwrapped, lt_of_le_of_lt ?_ hb.few⟩
  cases hstep with
  | write _ hstep => cases hstep <;> simp
  | leave | drop => exact le_rfl
  | read hstep => cases hstep <;> exact le_rfl

/-! ## Steps that touch no histogram that is not active -/

/-- What the reader is owed only depends on where it stands, on its histogram, and on what was
changed and heard in earlier intervals. -/
theorem Stands.frame (hstands : s.Stands L)
    (hreader : s'.traffic.readers () = s.traffic.readers ()) (hstage : s'.stage = s.stage)
    (htotal : s'.total = s.total)
    (hsnapshot : s'.traffic.recorder.snapshot = s.traffic.recorder.snapshot)
    (hswaps : s'.traffic.swaps = s.traffic.swaps)
    (hchanges : ∀ n, n < s.traffic.swaps →
      changesIn n s'.traffic.log = changesIn n s.traffic.log)
    (hheard : ∀ n, n ≤ s.traffic.swaps → s'.valuesBefore n = s.valuesBefore n) : s'.Stands L := by
  cases hstands with
  | empty hstands hempty hgathers =>
    refine .empty ?_ ?_ ?_
    · rwa [hstage, hreader]
    · rwa [hsnapshot]
    · rwa [hswaps, hheard _ le_rfl, htotal]
  | @full n hnext hfetching hstands hfull hgathers =>
    refine .full (n := n) (hswaps.trans hnext) (hstage.trans hfetching) ?_ ?_ ?_
    · rwa [hreader]
    · rwa [hsnapshot, hchanges n (by omega)]
    · rwa [hheard n (by omega), htotal]
  | emptying hemptying hholding hcleared hgathers =>
    refine .emptying (hstage.trans hemptying) (hreader.trans hholding) ?_ ?_
    · rwa [hsnapshot]
    · rwa [hswaps, hheard _ le_rfl, htotal]

/-- A step that leaves the histograms, their log and the reader as they are keeps what they hold. -/
theorem Refilled.frame (hrefilled : s.Refilled L)
    (hactive : s'.traffic.recorder.active = s.traffic.recorder.active)
    (hhistogram : s'.traffic.recorder.histogram s.traffic.recorder.active =
      s.traffic.recorder.histogram s.traffic.recorder.active)
    (hsnapshot : s'.traffic.recorder.snapshot = s.traffic.recorder.snapshot)
    (hswaps : s'.traffic.swaps = s.traffic.swaps) (hlog : s'.traffic.log = s.traffic.log)
    (hreader : s'.traffic.readers () = s.traffic.readers ()) (hstage : s'.stage = s.stage)
    (htotal : s'.total = s.total)
    (hheard : ∀ n, n ≤ s.traffic.swaps → s'.valuesBefore n = s.valuesBefore n) :
    s'.Refilled L := by
  refine ⟨?_, hrefilled.stands.frame hreader hstage htotal hsnapshot hswaps
    (fun n _ => by rw [hlog]) hheard⟩
  rw [hactive, hhistogram, hswaps, hlog]
  exact hrefilled.active

/-! ## Steps -/

variable [DecidableEq ω]

/-- What holds the changes of an interval holds one more of them when it is made. -/
theorem apply_changesIn {h : Histogram} {log : List Touch} {n : ℕ} {c : Call} (hn : c.interval = n)
    (u : CellUpdate) (hh : h = (ofLayout L .bits64).applyAll (changesIn n log)) :
    h.apply u = (ofLayout L .bits64).applyAll (changesIn n (.changed c u :: log)) := by
  rw [changesIn_changed hn, Histogram.applyAll_append, hh]
  rfl

/-- A change is made to the active histogram, or to the one that was active before and is waited
for. -/
theorem Refilled.change [Fintype ω] (hs : s.Reachable L) (hb : s.Moderate)
    (hrefilled : s.Refilled L) {w : ω} {t : Ticket} {c : Call} {u : CellUpdate}
    {rest : List CellUpdate} (hw : s.traffic.writers w = .inside t c (u :: rest)) :
    ({ s with traffic := s.traffic.change w t c u rest } : Collector ω).Refilled L := by
  have hside := (hs.traffic.booked.call c (hs.traffic.booked.inside w t c _ hw).1).2.2
  have hpaced := hs.traffic.paced
  -- The histogram on the side of the call is changed, and the other one is not.
  have hactive : (s.traffic.change w t c u rest).recorder.histogram
      (s.traffic.change w t c u rest).recorder.active =
        if s.traffic.recorder.active = c.side then
          (s.traffic.recorder.histogram c.side).apply u
        else
          s.traffic.recorder.histogram s.traffic.recorder.active := by
    show (s.traffic.recorder.modify _ _).1.histogram (s.traffic.recorder.modify _ _).1.active = _
    rw [Recorder.active_modify, Recorder.histogram_modify]
  have hsnapshot : (s.traffic.change w t c u rest).recorder.snapshot =
      if s.traffic.recorder.inactive = c.side then
        (s.traffic.recorder.histogram c.side).apply u
      else
        s.traffic.recorder.snapshot :=
    Recorder.snapshot_modify ..
  rcases hs.traffic.interval_of_inside hb.unwrapped hw with hnow | ⟨hbefore, _, f, hflipping⟩
  · have hcall : s.traffic.recorder.active = c.side := by rw [hpaced.active, hside, hnow]
    have hother : s.traffic.recorder.inactive ≠ c.side := by
      rw [hpaced.inactive, hside, hnow]
      exact Side.other_ne _
    rw [if_pos hcall] at hactive
    rw [if_neg hother] at hsnapshot
    refine ⟨hactive.trans (apply_changesIn hnow u (hcall ▸ hrefilled.active)),
      hrefilled.stands.frame rfl rfl rfl hsnapshot rfl (fun n hn => ?_) fun n _ => rfl⟩
    exact changesIn_changed_of_ne (by omega) u s.traffic.log
  · have hcall : s.traffic.recorder.inactive = c.side := by
      rw [hpaced.inactive, hside, ← hbefore, Side.nth_succ, Side.other_other]
    have hother : s.traffic.recorder.active ≠ c.side := by
      rw [hpaced.active, hside, ← hbefore, Side.nth_succ]
      exact Side.other_ne _
    rw [if_neg hother] at hactive
    rw [if_pos hcall] at hsnapshot
    have hearlier : changesIn s.traffic.swaps (.changed c u :: s.traffic.log) =
        changesIn s.traffic.swaps s.traffic.log :=
      changesIn_changed_of_ne (by omega) u s.traffic.log
    refine ⟨hactive.trans (hrefilled.active.trans (congrArg _ hearlier.symm)), ?_⟩
    cases hrefilled.stands with
    | empty hreader => simp [hflipping] at hreader
    | emptying _ hreader => simp [hflipping] at hreader
    | full hswaps hstage hreader hfull htotal =>
      exact .full hswaps hstage hreader
        (hsnapshot.trans (apply_changesIn (by omega) u (hcall ▸ hfull))) htotal

/-- The histogram that is swapped out holds what was changed since the last swap, and the one that
is swapped in is empty. -/
theorem Refilled.swap (hs : s.Reachable L) (hrefilled : s.Refilled L)
    (hlocked : s.traffic.readers () = .locked) :
    ({ s with traffic := s.traffic.swap () } : Collector ω).Refilled L := by
  have hnone : changesIn (s.traffic.swaps + 1) s.traffic.log = [] := by
    refine changesIn_eq_nil fun c u hmem => ?_
    have hle := (hs.traffic.booked.call c (hs.traffic.booked.logged c u hmem)).2.1
    omega
  cases hrefilled.stands with
  | full _ _ hreader => simp [hlocked] at hreader
  | emptying _ hreader => simp [hlocked] at hreader
  | empty hreader hempty htotal =>
    have hfetching : s.stage = .fetching := by simpa [hlocked] using hreader
    refine ⟨?_, .full (n := s.traffic.swaps) rfl hfetching (.inl ⟨.choosing, ?_⟩) ?_ htotal⟩
    · show s.traffic.recorder.swap.histogram s.traffic.recorder.inactive =
        (ofLayout L .bits64).applyAll (changesIn (s.traffic.swaps + 1) s.traffic.log)
      rw [hnone]
      exact hempty
    · simp [Traffic.swap, Traffic.turn]
    · exact hrefilled.active

/-- When all calls of an interval have made their changes, the snapshot is what comes of recording
its values one after the other. -/
theorem Reachable.snapshot_eq [Fintype ω] (hs : s.Reachable L) (hb : s.Moderate) {n : ℕ}
    (hswaps : s.traffic.swaps = n + 1) (hholding : s.traffic.readers () = .holding [])
    (hfull : s.traffic.recorder.snapshot =
      (ofLayout L .bits64).applyAll (changesIn n s.traffic.log)) :
    s.traffic.recorder.snapshot =
      (ofLayout L .bits64).applyAll ((s.valuesIn n).flatMap (L.work · 1)) := by
  have hbooked := hs.traffic.booked
  have hquiet := hs.traffic.quiet hb.unwrapped (r := ()) (.inl (by rw [hholding]; rfl))
  have hpace := hs.traffic.paced.of_readers_eq hholding
  have hwhole : ∀ c ∈ s.traffic.calls.filter (·.interval = n),
      changesOf c s.traffic.log = c.work := by
    intro c hc
    obtain ⟨hmem, hinterval⟩ := List.mem_filter.mp hc
    rcases hbooked.settled c hmem with ⟨w, t, rest, hw⟩ | hwork
    · -- A writer inside would have looked up the other histogram.
      have hnow := (hs.traffic.side_of_quiet hquiet hpace.1 hw).1
      have hn := of_decide_eq_true hinterval
      omega
    · exact hwork
  have hperm : (changesIn n s.traffic.log).Perm ((s.valuesIn n).flatMap (L.work · 1)) := by
    rw [← hs.flatMap_work n, ← List.flatMap_congr hwhole]
    exact changesIn_perm hs.traffic.calls_nodup hbooked.logged n
  rw [hfull, Histogram.applyAll_perm hperm]

/-- A merge adds the samples of an interval to the total. -/
theorem Refilled.merge [Fintype ω] {b : Bounds} (hbounds : Layout.ofBounds b = .ok L)
    (hs : s.Reachable L) (hb : s.Moderate) (hrefilled : s.Refilled L)
    (hfetching : s.stage = .fetching) (hholding : s.traffic.readers () = .holding []) :
    ({ s with
      traffic := s.traffic.turn () (.holding L.cells)
      stage := .emptying
      total := (s.total.merge s.traffic.recorder.snapshot).1 } : Collector ω).Refilled L := by
  refine ⟨hrefilled.active, ?_⟩
  cases hrefilled.stands with
  | empty hreader => simp [hholding] at hreader
  | emptying hstage => simp [hfetching] at hstage
  | @full n hswaps _ hreader hfull htotal =>
    have hsnapshot := hs.snapshot_eq hb hswaps hholding hfull
    have hframed : Framed L .bits64 s.traffic.recorder.snapshot :=
      hs.traffic.framed Array.size_replicate _
    have hcleared : (s.traffic.turn () (.holding L.cells)).readers () = .holding L.cells := by
      simp [Traffic.turn]
    have hvalues : ∀ v ∈ s.valuesIn n, v ≤ topValue := by
      intro v hv
      obtain ⟨x, hx, rfl⟩ := List.mem_map.mp hv
      exact hs.le_topValue x (List.mem_filter.mp hx).1
    have hfew : (s.valuesBefore n).card + (s.valuesIn n).length < CounterWidth.bits64.limit := by
      have hcard : (s.valuesBefore (n + 1)).card ≤ s.heard.length := by
        rw [valuesBefore, Multiset.card_map]
        exact Multiset.card_le_card (Multiset.filter_le ..)
      rw [valuesBefore_succ, Multiset.card_add, Multiset.coe_card] at hcard
      exact hcard.trans_lt hb.few
    refine .emptying rfl hcleared ?_ ?_
    · show L.cells.foldl Histogram.clear s.traffic.recorder.snapshot = _
      rw [Histogram.clear_cells hframed, hsnapshot]
      exact Histogram.reset_recorded hbounds hvalues (by omega)
    · show Gathers L .bits64 (L.samplesOf (s.valuesBefore s.traffic.swaps)) _
      rw [hswaps, valuesBefore_succ, hsnapshot]
      exact htotal.merge_recorded hbounds hvalues hfew

/-- A cell that is cleared is not to be cleared any more. -/
theorem Refilled.clear (hs : s.Reachable L) (hrefilled : s.Refilled L) {x : Cell} {rest : List Cell}
    (hholding : s.traffic.readers () = .holding (x :: rest)) :
    ({ s with traffic := s.traffic.clear () x rest } : Collector ω).Refilled L := by
  have hother : s.traffic.recorder.active ≠ s.traffic.recorder.inactive := by
    rw [hs.traffic.paced.opposite]
    exact Side.other_ne _
  have hchanges : ∀ n, changesIn n (s.traffic.clear () x rest).log =
      changesIn n s.traffic.log := by
    intro n
    show changesIn n (.cleared _ _ _ :: s.traffic.log) = _
    rw [changesIn_cons]
    exact List.append_nil _
  refine ⟨?_, ?_⟩
  · show (s.traffic.recorder.modify _ _).1.histogram (s.traffic.recorder.modify _ _).1.active =
      (ofLayout L .bits64).applyAll (changesIn s.traffic.swaps (s.traffic.clear () x rest).log)
    rw [hchanges, Recorder.active_modify, Recorder.histogram_modify, if_neg hother]
    exact hrefilled.active
  · cases hrefilled.stands with
    | empty hreader => simp [hholding] at hreader
    | full _ _ hreader => simp [hholding] at hreader
    | emptying hstage hreader hcleared htotal =>
      obtain rfl : _ = x :: rest := Sampler.holding.inj (hreader.symm.trans hholding)
      have hrest : (s.traffic.clear () x rest).readers () = .holding rest := by
        simp [Traffic.clear, Traffic.turn]
      refine .emptying hstage hrest ?_ htotal
      show rest.foldl Histogram.clear (s.traffic.recorder.modify _ _).1.snapshot = _
      rw [Recorder.snapshot_modify, if_pos rfl]
      exact hcleared

/-- Every access of a writer keeps what the histograms hold. -/
theorem Refilled.write [Fintype ω] (hs : s.Reachable L) (hb : s.Moderate)
    (hrefilled : s.Refilled L) {w : ω} {v : ℤ} (hstep : WriterStep L w v s s') :
    s'.Refilled L := by
  cases hstep with
  | enter =>
    exact hrefilled.frame rfl (Recorder.histogram_withPhaser ..)
      (Recorder.histogram_withPhaser ..) rfl rfl rfl rfl rfl fun n _ => rfl
  | lookUp =>
    exact hrefilled.frame rfl rfl rfl rfl rfl rfl rfl rfl fun n hn => valuesBefore_cons s _ v hn
  | change hinside => exact hrefilled.change hs hb hinside

/-- Every access of the reader keeps what the histograms hold. -/
theorem Refilled.read [Fintype ω] {b : Bounds} (hbounds : Layout.ofBounds b = .ok L)
    (hs : s.Reachable L) (hb : s.Moderate) (hrefilled : s.Refilled L)
    (hstep : ReaderStep L s s') : s'.Refilled L := by
  cases hstep with
  | acquire hresting haway hfree =>
    refine ⟨hrefilled.active, ?_⟩
    cases hrefilled.stands with
    | empty _ hempty htotal =>
      exact .empty (.inr ⟨rfl, by simp [Traffic.acquire, Traffic.turn]⟩) hempty htotal
    | full _ hstage => simp [hresting] at hstage
    | emptying hstage => simp [hresting] at hstage
  | swap hlocked => exact hrefilled.swap hs hlocked
  | @advance f hflipping =>
    refine ⟨(Recorder.histogram_withPhaser ..).trans hrefilled.active, ?_⟩
    cases hrefilled.stands with
    | empty hreader => simp [hflipping] at hreader
    | emptying _ hreader => simp [hflipping] at hreader
    | full hswaps hstage _ hfull htotal =>
      exact .full hswaps hstage (.inl ⟨_, by simp [Traffic.advance, Traffic.turn]; rfl⟩)
        ((Recorder.histogram_withPhaser ..).trans hfull) htotal
  | handOut hfinished =>
    refine ⟨hrefilled.active, ?_⟩
    cases hrefilled.stands with
    | empty hreader => simp [hfinished] at hreader
    | emptying _ hreader => simp [hfinished] at hreader
    | full hswaps hstage _ hfull htotal =>
      exact .full hswaps hstage (.inr (by simp [Traffic.handOut, Traffic.turn])) hfull htotal
  | merge hfetching hholding => exact hrefilled.merge hbounds hs hb hfetching hholding
  | clear hholding => exact hrefilled.clear hs hholding

omit [DecidableEq ω] in
/-- When all cells are cleared, the snapshot is dropped empty. -/
theorem Refilled.drop (hrefilled : s.Refilled L) (hemptying : s.stage = .emptying)
    (hholding : s.traffic.readers () = .holding []) : s.drop.Refilled L := by
  refine ⟨hrefilled.active, ?_⟩
  cases hrefilled.stands with
  | empty hreader => simp [hholding] at hreader
  | full _ hstage => simp [hemptying] at hstage
  | emptying _ hreader hcleared htotal =>
    obtain rfl : _ = [] := Sampler.holding.inj (hreader.symm.trans hholding)
    refine .empty (.inl ⟨rfl, ?_⟩) hcleared htotal
    simp [Collector.drop, Traffic.drop, Traffic.turn]

/-- However writers and the reader are interleaved, the active histogram holds what was changed
since the last swap, and the total gathers the samples of the intervals that were merged. -/
theorem Reachable.refilled [Fintype ω] {b : Bounds} (hbounds : Layout.ofBounds b = .ok L)
    (hs : s.Reachable L) (hb : s.Moderate) : s.Refilled L := by
  induction hs with
  | refl => exact ⟨rfl, .empty (.inl ⟨rfl, rfl⟩) rfl (Histogram.ofLayout_gathers hbounds .bits64)⟩
  | tail hreach hstep ih =>
    have hbefore := hstep.moderate hb
    have hrefilled := ih hbefore
    cases hstep with
    | write _ hstep => exact hrefilled.write hreach hbefore hstep
    | leave =>
      exact hrefilled.frame rfl (Recorder.histogram_withPhaser ..)
        (Recorder.histogram_withPhaser ..) rfl rfl rfl rfl rfl fun n _ => rfl
    | read hstep => exact hrefilled.read hbounds hreach hbefore hstep
    | drop hemptying hholding => exact hrefilled.drop hemptying hholding

end DynamicRange.Collector
