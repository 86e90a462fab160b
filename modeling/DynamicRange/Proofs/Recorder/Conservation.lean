import DynamicRange.Proofs.Recorder.Cut
import Mathlib.Algebra.BigOperators.Group.List.Basic

/-!
# A recorder loses and duplicates nothing

`reachable_conserved` balances the books of a recorder, for the counter of every slot and for the
number of samples. Whatever the interleaving, what the two histograms hold and what resets took
away comes to what was there in the beginning and all that writers have added, modulo what the
tally can hold.

What a reset takes away is what it finds in the cell. That this is what the snapshot held when it
was handed out, so that a reader that merges its snapshots elsewhere and resets them misses no
addition, is where the phases come in: `Reachable.removed_eq` needs that no writer is left in a
snapshot.
-/

namespace DynamicRange

namespace Histogram

variable {h : Histogram} {L : Layout} {w : CounterWidth}

/-- Touches keep the cells. -/
theorem Framed.replay (hframed : Framed L w h) (log : List Touch) : Framed L w (h.replay log) := by
  induction log with
  | nil => exact hframed
  | cons x log ih =>
    cases x with
    | changed c u => exact ih.apply u
    | cleared n side x => exact ih.clear x

/-- Clearing cells takes away what they held, and leaves the other cells as they are. -/
theorem held_clearAll (h : Histogram) (cells : List Cell) (t : Tally) :
    (h.clearAll cells).held t = if .tally t ∈ cells then 0 else h.held t := by
  induction cells with
  | nil => rfl
  | cons x cells ih =>
    rw [show h.clearAll (x :: cells) = (h.clearAll cells).clear x from rfl, held_clear, ih]
    by_cases hx : x = .tally t
    · simp [hx]
    · have hne : .tally t ≠ x := fun heq => hx heq.symm
      simp [hx, hne]

end Histogram

namespace Recorder

/-- What a tally holds on both sides of a recorder. -/
def held (r : Recorder) (t : Tally) : ℕ := r.left.held t + r.right.held t

/-- Both sides are the active and the inactive one, if they are opposite. -/
theorem held_eq {r : Recorder} (hopposite : r.active = r.inactive.other) (t : Tally) :
    (r.histogram r.active).held t + r.snapshot.held t = r.held t := by
  unfold snapshot held
  rw [hopposite]
  cases r.inactive with
  | left => exact Nat.add_comm _ _
  | right => rfl

/-- A change on one side changes what both sides hold by as much. -/
theorem held_modify {α : Type} (r : Recorder) (side : Side) (f : Histogram → Histogram × α)
    (t : Tally) :
    (r.modify side f).1.held t + (r.histogram side).held t =
      r.held t + (f (r.histogram side)).1.held t := by
  cases side <;> simp only [held, modify, histogram] <;> omega

end Recorder

/-- The count that a writer is yet to add to a tally, of what its call is to add. -/
def Writer.owes (t : Tally) : Writer → ℕ
  | outside | entered .. => 0
  | inside _ _ rest => (rest.map (·.adds t)).sum

theorem Writer.owes_entered (t : Tally) (t' : Ticket) (work : List CellUpdate) :
    (entered t' work).owes t = 0 := rfl

theorem Writer.owes_inside (t : Tally) (t' : Ticket) (c : Call) (rest : List CellUpdate) :
    (inside t' c rest).owes t = (rest.map (·.adds t)).sum := rfl

/-- The changes that a writer is yet to make. -/
def Writer.pending : Writer → List CellUpdate
  | outside => []
  | entered _ work => work
  | inside _ _ rest => rest

/-- What a snapshot held in a tally, if the tally was cleared since. -/
def Sample.taken (p : Sample) (log : List Touch) (t : Tally) : ℕ :=
  if .tally t ∈ clearedIn p.interval log then p.contents.held t else 0

/-- A change takes nothing from a snapshot. -/
theorem Sample.taken_changed (p : Sample) (c : Call) (u : CellUpdate) (log : List Touch)
    (t : Tally) : p.taken (.changed c u :: log) t = p.taken log t := by
  unfold taken
  rw [clearedIn_cons]
  rfl

/-- What is cleared in one snapshot is not taken from another one. -/
theorem Sample.taken_of_ne {p : Sample} {n : ℕ} (hn : p.interval ≠ n) (side : Side) (x : Cell)
    (log : List Touch) (t : Tally) : p.taken (.cleared n side x :: log) t = p.taken log t := by
  unfold taken
  rw [clearedIn_cons, Touch.cell?, if_neg hn.symm]
  rfl

/-- What is cleared in a snapshot is taken from it, unless it was before. -/
theorem Sample.taken_self {p : Sample} {g : Histogram} {log : List Touch}
    (hg : g = p.contents.clearAll (clearedIn p.interval log)) (side : Side) (x : Cell) (t : Tally) :
    p.taken (.cleared p.interval side x :: log) t =
      p.taken log t + if x = .tally t then g.held t else 0 := by
  unfold taken
  rw [clearedIn_cons, Touch.cell?, if_pos rfl, hg, Histogram.held_clearAll]
  by_cases hbefore : .tally t ∈ clearedIn p.interval log
  · simp [hbefore]
  · by_cases hx : x = .tally t
    · simp [hx, hbefore]
    · have hne : .tally t ≠ x := fun heq => hx heq.symm
      simp [hx, hne, hbefore]

namespace Traffic

variable {ω ρ : Type} {s s' : Traffic ω ρ} {h : Histogram} {L : Layout}

/-- What writers have added to a tally so far. -/
def added (s : Traffic ω ρ) (t : Tally) : ℕ := (s.log.map (·.adds t)).sum

/-- What all calls add to a tally when they have made all of their changes. -/
def requested (s : Traffic ω ρ) (t : Tally) : ℕ :=
  (s.calls.map fun c => (c.work.map (·.adds t)).sum).sum

/-- What the snapshots held in a tally, as far as it was cleared since. -/
def taken (s : Traffic ω ρ) (t : Tally) : ℕ := (s.samples.map (·.taken s.log t)).sum

/-- A change counts as added. -/
theorem added_change [DecidableEq ω] (s : Traffic ω ρ) (w : ω) (t' : Ticket) (c : Call)
    (u : CellUpdate) (rest : List CellUpdate) (t : Tally) :
    (s.change w t' c u rest).added t = u.adds t + s.added t := by
  simp [added, change, Touch.adds]

/-- Clearing a cell adds nothing. -/
theorem added_clear [DecidableEq ρ] (s : Traffic ω ρ) (r : ρ) (x : Cell) (rest : List Cell)
    (t : Tally) :
    (s.clear r x rest).added t = s.added t := by
  simp [added, clear, Touch.adds]

/-- A change makes both sides hold as much more as it adds. -/
theorem held_change [DecidableEq ω] {width : CounterWidth} {c : Call} {u : CellUpdate}
    (hframed : Histogram.Framed L width (s.recorder.histogram c.side)) (hu : L.Admits u) (w : ω)
    (t' : Ticket) (rest : List CellUpdate) (t : Tally) :
    (s.change w t' c u rest).recorder.held t ≡
      s.recorder.held t + u.adds t [MOD t.limit width] := by
  have hcell := Histogram.held_apply hframed hu t
  have hboth := s.recorder.held_modify c.side (fun h => (h.apply u, ())) t
  refine Nat.ModEq.add_right_cancel' ((s.recorder.histogram c.side).held t) ?_
  calc (s.change w t' c u rest).recorder.held t + (s.recorder.histogram c.side).held t
      = s.recorder.held t + ((s.recorder.histogram c.side).apply u).held t := hboth
    _ ≡ s.recorder.held t + ((s.recorder.histogram c.side).held t + u.adds t)
        [MOD t.limit width] := hcell.add_left _
    _ = s.recorder.held t + u.adds t + (s.recorder.histogram c.side).held t := by omega

/-- What a snapshot loses when a cell of it is cleared counts as removed. -/
theorem held_clear [DecidableEq ρ] (s : Traffic ω ρ) (r : ρ) (x : Cell) (rest : List Cell)
    (t : Tally) :
    (s.clear r x rest).recorder.held t + (s.clear r x rest).removed t =
      s.recorder.held t + s.removed t := by
  have hcell := s.recorder.snapshot.held_clear x t
  have hboth : (s.clear r x rest).recorder.held t + s.recorder.snapshot.held t =
      s.recorder.held t + (s.recorder.snapshot.clear x).held t :=
    s.recorder.held_modify s.recorder.inactive (fun h => (h.clear x, ())) t
  have hremoved : (s.clear r x rest).removed t =
      s.removed t + if x = .tally t then s.recorder.snapshot.held t else 0 := rfl
  rw [hremoved]
  by_cases hx : x = .tally t
  · rw [if_pos hx] at hcell ⊢
    omega
  · rw [if_neg hx] at hcell ⊢
    omega

variable [DecidableEq ω] [DecidableEq ρ] {r : ρ}

/-- Writers change only cells that there are. -/
theorem Reachable.admits (hs : s.Reachable h) :
    ∀ w, ∀ u ∈ (s.writers w).pending, h.layout.Admits u := by
  induction hs with
  | refl => simp [start, Writer.pending]
  | @tail s s' _ hstep ih =>
    have hupdate : ∀ {w : ω} {x : Writer}, (∀ u ∈ x.pending, h.layout.Admits u) →
        ∀ v, ∀ u ∈ (Function.update s.writers w x v).pending, h.layout.Admits u := by
      intro w x hx v
      rcases eq_or_ne v w with rfl | hne
      · simpa using hx
      · simpa [hne] using ih v
    cases hstep with
    | enter _ hwork => exact hupdate hwork
    | @lookUp w t work hentered =>
      have hw := ih w
      rw [hentered] at hw
      exact hupdate hw
    | @change w t c u rest hinside =>
      have hw := ih w
      rw [hinside] at hw
      exact hupdate fun v hv => hw v (List.mem_cons_of_mem _ hv)
    | leave => exact hupdate (by simp [Writer.pending])
    | acquire | swap | advance | handOut | reset | clear | drop => exact ih

/-- Both histograms have the cells that the layout asks for. -/
theorem Reachable.framed (hs : s.Reachable h) (hsize : h.slots.size = h.layout.slotCount)
    (side : Side) : Histogram.Framed h.layout h.width (s.recorder.histogram side) := by
  rw [hs.histogram_eq]
  refine Histogram.Framed.replay ?_ _
  cases side with
  | left => exact ⟨rfl, rfl, hsize⟩
  | right => exact Histogram.ofLayout_framed _ _

/-- What both histograms hold and what resets took away is what was there and what writers added. -/
theorem Reachable.balance (hs : s.Reachable h) (hsize : h.slots.size = h.layout.slotCount)
    (t : Tally) :
    s.recorder.held t + s.removed t ≡ h.held t + s.added t [MOD t.limit h.width] := by
  induction hs with
  | refl =>
    have hright : (Histogram.ofLayout h.layout h.width).held t = 0 := Histogram.held_ofLayout _ _ _
    show h.held t + (Histogram.ofLayout h.layout h.width).held t + 0 ≡ h.held t + 0 [MOD _]
    rw [hright]
    exact Nat.ModEq.rfl
  | @tail s s' hreach hstep ih =>
    cases hstep with
    | enter | lookUp | leave | acquire | swap | advance | handOut | reset | drop => exact ih
    | @change w t' c u rest hinside =>
      have hadmits := Reachable.admits hreach w u (by simp [hinside, Writer.pending])
      have hgrown := held_change (Reachable.framed hreach hsize c.side) hadmits w t' rest t
      calc (s.change w t' c u rest).recorder.held t + s.removed t
          ≡ s.recorder.held t + u.adds t + s.removed t [MOD t.limit h.width] :=
            hgrown.add_right _
        _ = s.recorder.held t + s.removed t + u.adds t := by omega
        _ ≡ h.held t + s.added t + u.adds t [MOD t.limit h.width] := ih.add_right _
        _ = h.held t + (s.change w t' c u rest).added t := by rw [added_change]; omega
    | @clear r x rest hholding =>
      rw [held_clear, added_clear]
      exact ih

/-- What was added, and what the calls in progress are yet to add, is what all calls add. -/
theorem Reachable.added_eq [Fintype ω] (hs : s.Reachable h) (t : Tally) :
    s.added t + ∑ w, (s.writers w).owes t = s.requested t := by
  induction hs with
  | refl => simp [added, requested, start, Writer.owes]
  | @tail s s' _ hstep ih =>
    have hupdate := fun w x => Crowd.sum_comp_update (Writer.owes t) s.writers w x
    cases hstep with
    | @enter w work houtside _ =>
      have howes := hupdate w (.entered s.ticket work)
      rw [houtside] at howes
      exact (congrArg (s.added t + ·) howes).trans ih
    | @lookUp w t' work hentered =>
      have howes := hupdate w (.inside t' (s.call work) work)
      have hrequested : (s.lookUp w t' work).requested t =
          (work.map (·.adds t)).sum + s.requested t := by
        simp [requested, lookUp, call]
      rw [hentered, Writer.owes_entered, Writer.owes_inside] at howes
      show s.added t + ∑ v, (Function.update s.writers w _ v).owes t = _
      omega
    | @change w t' c u rest hinside =>
      have howes := hupdate w (.inside t' c rest)
      rw [hinside, Writer.owes_inside, Writer.owes_inside, List.map_cons, List.sum_cons] at howes
      rw [added_change]
      show _ + ∑ v, (Function.update s.writers w _ v).owes t = s.requested t
      omega
    | @leave w t' c hinside =>
      have howes := hupdate w .outside
      rw [hinside] at howes
      exact (congrArg (s.added t + ·) howes).trans ih
    | @clear r x rest _ =>
      rw [added_clear]
      exact ih
    | acquire | swap | advance | handOut | reset | drop => exact ih

/-- Resets take away what the snapshots held when they were handed out. -/
theorem Reachable.removed_eq [Fintype ω] (hs : s.Reachable h) (hb : s.Unwrapped) (t : Tally) :
    s.removed t = s.taken t := by
  induction hs with
  | refl => rfl
  | @tail s s' hreach hstep ih =>
    have hbefore := hstep.unwrapped hb
    have hsampled := Reachable.sampled hreach hbefore
    have hsame := ih hbefore
    cases hstep with
    | enter | lookUp | leave | acquire | swap | advance | reset | drop => exact hsame
    | @change w t' c u rest _ =>
      refine hsame.trans ?_
      unfold taken
      rw [show (s.change w t' c u rest).log = .changed c u :: s.log from rfl]
      simp only [Sample.taken_changed]
      rfl
    | @handOut r hfinished =>
      -- Nothing of the new snapshot is cleared yet.
      have hnone : s.sample.taken s.log t = 0 := by
        unfold Sample.taken
        rw [Reachable.sample_interval hreach hfinished, hsampled.clearedIn_eq_nil]
        rfl
      refine hsame.trans ?_
      show s.taken t = s.sample.taken s.log t + s.taken t
      rw [hnone, Nat.zero_add]
    | @clear r x rest hholding =>
      obtain ⟨p, ps, hsamples, -, hheld⟩ := hsampled.held r _ hholding
      have hinterval : s.swaps - 1 = p.interval := by
        have hpace := (Reachable.paced hreach).of_readers_eq hholding
        rw [← hpace.2, ← hsampled.interval_head hsamples, Nat.add_sub_cancel]
      have hothers : ∀ q ∈ ps, q.interval ≠ p.interval := by
        have hnodup := hsampled.nodup
        rw [hsamples, List.map_cons, List.nodup_cons] at hnodup
        exact fun q hq heq => hnodup.1 (heq ▸ List.mem_map_of_mem hq)
      have htaken : (s.clear r x rest).taken t =
          s.taken t + if x = .tally t then s.recorder.snapshot.held t else 0 := by
        unfold taken
        rw [show (s.clear r x rest).samples = p :: ps from hsamples, hsamples,
          show (s.clear r x rest).log = .cleared (s.swaps - 1) s.recorder.inactive x :: s.log
            from rfl, hinterval, List.map_cons, List.sum_cons, List.map_cons, List.sum_cons,
          Sample.taken_self hheld,
          List.map_congr_left fun q hq => Sample.taken_of_ne (hothers q hq) _ _ _ _]
        omega
      rw [htaken, ← hsame]
      rfl

/-- The books of a recorder that began with the samples of `h`, for one tally. -/
structure Conserved (h : Histogram) (s : Traffic ω ρ) (t : Tally) : Prop where
  /-- What the histograms hold and what resets took away is what was there and what was added. -/
  balance : (s.recorder.histogram s.recorder.active).held t + s.recorder.snapshot.held t +
    s.removed t ≡ h.held t + s.added t [MOD t.limit h.width]
  /-- When all writers have finished, it is what was there and all that the calls were to add. -/
  finished : (∀ w, s.writers w = .outside) →
    (s.recorder.histogram s.recorder.active).held t + s.recorder.snapshot.held t +
      s.removed t ≡ h.held t + s.requested t [MOD t.limit h.width]
  /-- What resets took away is what the snapshots held when they were handed out. -/
  removed : s.Unwrapped → s.removed t = s.taken t
  /-- So when all writers have finished and all snapshots are reset, the snapshots and the two
  histograms hold what was there and what all calls added. -/
  settled : s.Unwrapped → (∀ w, s.writers w = .outside) →
    (∀ p ∈ s.samples, .tally t ∈ clearedIn p.interval s.log) →
    (s.samples.map (·.contents.held t)).sum + (s.recorder.histogram s.recorder.active).held t +
      s.recorder.snapshot.held t ≡ h.held t + s.requested t [MOD t.limit h.width]

/-- However writers and readers are interleaved, a recorder loses and duplicates nothing. -/
theorem reachable_conserved [Fintype ω] (hs : s.Reachable h)
    (hsize : h.slots.size = h.layout.slotCount) (t : Tally) : s.Conserved h t := by
  have hbalance := hs.balance hsize t
  rw [← Recorder.held_eq hs.paced.opposite] at hbalance
  have hfinished : (∀ w, s.writers w = .outside) →
      (s.recorder.histogram s.recorder.active).held t + s.recorder.snapshot.held t +
        s.removed t ≡ h.held t + s.requested t [MOD t.limit h.width] := by
    intro houtside
    -- No call is yet to add anything.
    have howes : ∑ w, (s.writers w).owes t = 0 :=
      Finset.sum_eq_zero fun w _ => by rw [houtside w]; rfl
    rw [← hs.added_eq t, howes]
    exact hbalance
  refine ⟨hbalance, hfinished, fun hb => hs.removed_eq hb t, fun hb houtside hreset => ?_⟩
  have htaken : s.taken t = (s.samples.map (·.contents.held t)).sum := by
    unfold taken
    rw [List.map_congr_left fun p hp => ?_]
    exact if_pos (hreset p hp)
  rw [← htaken, ← hs.removed_eq hb t, add_assoc, add_comm]
  exact hfinished houtside

/-- The second writer leaves the active histogram, and the reader clears a slot of its snapshot. -/
def emptied : Traffic Bool Unit :=
  let call := ⟨1, 1, .right, [.addToSlot 0 1]⟩
  let left := (overtaken.change true late call (.addToSlot 0 1) []).leave true late
  let resetting := left.turn () (.holding small.layout.cells)
  resetting.clear () (.tally (.slot 0)) small.layout.cells.tail

/-- Threads can come to where both writers have left and a slot of the snapshot is cleared. -/
theorem emptied_reachable : emptied.Reachable small := by
  have hchanged := overtaken_reachable.tail (.change (w := true) (t := late)
    (c := ⟨1, 1, .right, [.addToSlot 0 1]⟩) rfl)
  have hleft := hchanged.tail (.leave (w := true) (t := late)
    (c := ⟨1, 1, .right, [.addToSlot 0 1]⟩) rfl)
  exact (hleft.tail (.reset (r := ()) rfl)).tail (.clear (r := ()) rfl)

/-- Of the two samples that the writers recorded, one was in the snapshot and one is in the active
histogram. -/
theorem emptied_conserved :
    emptied.Conserved small (.slot 0) ∧
      (emptied.recorder.histogram emptied.recorder.active).held (.slot 0) = 1 ∧
      emptied.removed (.slot 0) = 1 ∧ emptied.added (.slot 0) = 2 :=
  ⟨reachable_conserved emptied_reachable rfl (.slot 0), rfl, rfl, rfl⟩

end Traffic

end DynamicRange
