import DynamicRange.Proofs.Ingest.Accounts

/-!
# Crews come to an end

Until the feeder has returned, somebody can take a step (`Accounted.progress`): a worker waits only
for values, and it gets one or finds the queue closed; the feeder waits for room in the queue, for
writers inside or for a worker to stop, and then some worker is not idle. And each step leads nearer
to the end (`Accounted.cost_lt`). So under every schedule the feeder returns (`Schedule.returns`).
-/

namespace DynamicRange

/-! ## Steps lead to an end -/

/-- The accesses that a worker has before it with what it has received. -/
def Worker.cost (L : Layout) (x : Writer) : Worker → ℕ
  | idle => 1
  | recording v => x.cost (L.work v 1).length + 1
  | stopped _ => 0

/-- A bound on what the feeder has before it, if a collection takes `round` accesses. -/
def Feeder.cost {n : ℕ} (round : ℕ) : Feeder n → ℕ
  | reading _ lines => lines.length * (round + 10) + (round + n + 2)
  | offering _ _ lines => lines.length * (round + 10) + (round + n + 2) + (round + 9)
  | collecting (some (_, lines)) => lines.length * (round + 10) + (round + n + 2) + round
  | joining ws => round + ws.length + 1
  | collecting none => round
  | failing _ => 1
  | returned _ => 0

namespace Crew

open Collector (WriterStep ReaderStep)

variable {n : ℕ} {s s' : Crew n} {L : Layout} {values : List ℤ} {w : Fin n} {interval : ℕ}

/-- What a worker has before it. -/
def workerCost (L : Layout) (s : Crew n) (w : Fin n) : ℕ :=
  (s.workers w).cost L (s.collector.traffic.writers w)

/-- A bound on the steps that a crew has before it. To receive a value and to record it takes eight
steps at most. -/
def cost (L : Layout) (s : Crew n) : ℕ :=
  s.feeder.cost (L.cells.length + 9) + s.collector.readerCost L + 8 * s.queue.card +
    ∑ w, s.workerCost L w

/-- Every step of a worker leads nearer to its end, or to the end of the queue. -/
theorem Accounted.workerCost_lt (hs : s.Accounted L values) (hstep : WorkerStep L w s s') :
    8 * s'.queue.card + s'.workerCost L w < 8 * s.queue.card + s.workerCost L w := by
  unfold workerCost
  cases hstep with
  | @receive v hidle hv =>
    have houtside : s.collector.traffic.writers w = .outside := hs.of_worker_eq hidle
    have hqueue : (s.queue.erase v).card + 1 = s.queue.card := Multiset.card_erase_add_one hv
    have hwork := L.length_work_le v 1
    simp only [turn, hidle, houtside, Function.update_self, Worker.cost, Writer.cost]
    omega
  | record hrecording hstep =>
    have hlt := hstep.cost_lt
    simp only [hrecording, Worker.cost]
    omega
  | @leave v t c hrecording hinside =>
    simp only [turn, hrecording, hinside, Function.update_self]
    rcases L.outcome v 1 with e | ⟨⟩ <;> simp [Worker.after, Worker.cost, Writer.cost]
  | hangUp hidle => simp [turn, hidle, Worker.cost]

/-- Every step of the feeder leads nearer to its end. -/
theorem FeederStep.cost_lt (hstep : FeederStep L interval s s') : s'.cost L < s.cost L := by
  have hfed : ∀ f : Feeder n, f.cost (L.cells.length + 9) < s.feeder.cost (L.cells.length + 9) →
      (s.feed f).cost L < s.cost L := fun f hlt =>
    Nat.add_lt_add_right (Nat.add_lt_add_right (Nat.add_lt_add_right hlt _) _) _
  cases hstep with
  | read hreading | misread hreading =>
    refine hfed _ ?_
    simp only [hreading, Feeder.cost, List.length_cons, Nat.succ_mul]
    omega
  | @send v number lines hoffering =>
    -- The value costs a worker no more than the feeder has less before it.
    have hsent : (Feeder.afterLine interval number lines : Feeder n).cost (L.cells.length + 9) + 8 <
        s.feeder.cost (L.cells.length + 9) := by
      rcases Feeder.afterLine_cases (n := n) interval number lines with heq | heq <;>
        (simp only [heq, hoffering, Feeder.cost]; omega)
    have hqueue : (v ::ₘ s.queue).card = s.queue.card + 1 := Multiset.card_cons ..
    show (Feeder.afterLine interval number lines : Feeder n).cost (L.cells.length + 9) +
      s.collector.readerCost L + 8 * (v ::ₘ s.queue).card + ∑ w, s.workerCost L w < s.cost L
    rw [hqueue, cost]
    omega
  | giveUp hoffering =>
    refine hfed _ ?_
    simp only [hoffering, Feeder.cost, List.length_finRange]
    omega
  | close hreading =>
    refine hfed _ ?_
    simp only [hreading, Feeder.cost, List.length_finRange]
    omega
  | join hjoining | joinFailed hjoining | joined hjoining =>
    refine hfed _ ?_
    simp only [hjoining, Feeder.cost, List.length_cons]
    omega
  | @collect next c hcollecting hstep =>
    have hworkers : ∀ w, ({ s with collector := c } : Crew n).workerCost L w = s.workerCost L w :=
      fun w => by rw [workerCost, hstep.frame.1, workerCost]
    have hlt := hstep.cost_lt
    simp only [cost, hworkers]
    omega
  | @collected next hcollecting hemptying hholding =>
    have hround : (Feeder.afterCollection s.collector.total next : Feeder n).cost
        (L.cells.length + 9) + (L.cells.length + 9) = s.feeder.cost (L.cells.length + 9) := by
      rw [hcollecting]
      rcases next with _ | ⟨number, lines⟩
      · exact Nat.zero_add _
      · rfl
    have hbefore : s.collector.readerCost L = 1 := by
      simp [Collector.readerCost, hemptying, hholding, Stage.cost, Sampler.cost]
    have hafter : s.collector.drop.readerCost L = L.cells.length + 9 := by
      simp [Collector.readerCost, Collector.drop, Traffic.drop, Traffic.turn, Stage.cost,
        Sampler.cost]
    show (Feeder.afterCollection s.collector.total next : Feeder n).cost (L.cells.length + 9) +
      s.collector.drop.readerCost L + 8 * s.queue.card + ∑ w, s.workerCost L w < s.cost L
    rw [hafter, cost, hbefore]
    omega
  | fail hfailing =>
    refine hfed _ ?_
    simp only [hfailing, Feeder.cost]
    omega

/-- Every step leads a crew nearer to its end. -/
theorem Accounted.cost_lt (hs : s.Accounted L values) (hstep : Step L interval s s') :
    s'.cost L < s.cost L := by
  cases hstep with
  | feed hstep => exact hstep.cost_lt
  | @work w hstep =>
    have hspares := hstep.spares
    have hothers : ∀ w', w' ≠ w → s'.workerCost L w' = s.workerCost L w' := fun w' hw' => by
      rw [workerCost, hspares.workers w' hw', hspares.writers w' hw', workerCost]
    have hsum := Crowd.sum_add_of_forall_ne w hothers
    have hreader : s'.collector.readerCost L = s.collector.readerCost L := by
      rw [Collector.readerCost, hspares.stage, hspares.readers, Collector.readerCost]
    have hlt := hs.workerCost_lt hstep
    rw [cost, cost, hspares.feeder, hreader]
    omega

/-! ## Somebody can take a step -/

/-- A worker that has not stopped can take a step, unless it waits for a value. -/
theorem Accounted.worker_moves (hs : s.Accounted L values) (hgoing : ¬s.Stopped w)
    (hready : s.workers w = .idle → s.queue ≠ 0 ∨ s.feeder.Closed) :
    ∃ s', WorkerStep L w s s' := by
  cases hworker : s.workers w with
  | stopped outcome => exact absurd ⟨outcome, hworker⟩ hgoing
  | idle =>
    by_cases hempty : s.queue = 0
    · have hclosed := (hready hworker).resolve_left (not_not.mpr hempty)
      exact ⟨_, .hangUp hworker hempty hclosed⟩
    · obtain ⟨v, hv⟩ := Multiset.exists_mem_of_ne_zero hempty
      exact ⟨_, .receive hworker hv⟩
  | recording v =>
    cases hwriter : s.collector.traffic.writers w with
    | outside => exact ⟨_, .record hworker (.enter hwriter)⟩
    | entered t work =>
      obtain rfl := (hs.of_worker_eq hworker).2 t work hwriter
      exact ⟨_, .record hworker (.lookUp hwriter)⟩
    | inside t c rest =>
      cases rest with
      | nil => exact ⟨_, .leave hworker hwriter⟩
      | cons u rest => exact ⟨_, .record hworker (.change hwriter)⟩

/-- A writer that is inside can take a step. -/
theorem Accounted.writer_moves (hs : s.Accounted L values)
    (hinside : s.collector.traffic.writers w ≠ .outside) : ∃ s', WorkerStep L w s s' := by
  have hgoing : ¬s.Stopped w := fun hstopped => hinside (hs.outside_of_stopped hstopped)
  exact hs.worker_moves hgoing fun hidle => absurd (hs.of_worker_eq hidle) hinside

/-- Until the feeder has returned, somebody can take a step. -/
theorem Accounted.progress {b : Bounds} (hbounds : Layout.ofBounds b = .ok L)
    (hs : s.Accounted L values) (hfew : values.length < 2 ^ 63) (interval : ℕ)
    (hgoing : ∀ result, s.feeder ≠ .returned result) : ∃ s', Step L interval s s' := by
  have hwork : ∀ w, (∃ s', WorkerStep L w s s') → ∃ s', Step L interval s s' :=
    fun w ⟨s', hstep⟩ => ⟨s', .work hstep⟩
  cases hfeeder : s.feeder with
  | returned result => exact absurd hfeeder (hgoing result)
  | reading number lines =>
    cases lines with
    | nil => exact ⟨_, .feed (.close hfeeder)⟩
    | cons line lines =>
      rcases hvalue : Ingest.valueOn (number + 1) line with e | v
      · exact ⟨_, .feed (.misread hfeeder hvalue)⟩
      · exact ⟨_, .feed (.read hfeeder hvalue)⟩
  | offering v number lines =>
    by_cases hroom : s.queue.card < queueCapacity
    · exact ⟨_, .feed (.send hfeeder hroom)⟩
    · by_cases hstopped : ∀ w, s.Stopped w
      · exact ⟨_, .feed (.giveUp hfeeder hstopped)⟩
      · obtain ⟨w, hw⟩ := not_forall.mp hstopped
        -- The queue is full, so that a worker finds a value in it.
        refine hwork w (hs.worker_moves hw fun _ => .inl ?_)
        intro hempty
        rw [hempty] at hroom
        exact hroom (by decide)
  | collecting next =>
    by_cases houtside : ∀ w, s.collector.traffic.writers w = .outside
    · rcases hs.collector.reader_moves hbounds (hs.moderate hfew) houtside with
        ⟨c, hstep⟩ | ⟨hemptying, hholding⟩
      · exact ⟨_, .feed (.collect hfeeder hstep)⟩
      · exact ⟨_, .feed (.collected hfeeder hemptying hholding)⟩
    · -- A reader may wait for a writer that is inside, but that one waits for nobody.
      obtain ⟨w, hw⟩ := not_forall.mp houtside
      exact hwork w (hs.writer_moves hw)
  | joining ws =>
    cases ws with
    | nil => exact ⟨_, .feed (.joined hfeeder)⟩
    | cons w ws =>
      by_cases hstopped : s.Stopped w
      · obtain ⟨e | ⟨⟩, hw⟩ := hstopped
        · exact ⟨_, .feed (.joinFailed hfeeder hw)⟩
        · exact ⟨_, .feed (.join hfeeder hw)⟩
      · refine hwork w (hs.worker_moves hstopped fun _ => .inr ?_)
        rw [hfeeder]
        trivial
  | failing e =>
    by_cases hstopped : ∀ w, s.Stopped w
    · exact ⟨_, .feed (.fail hfeeder hstopped)⟩
    · obtain ⟨w, hw⟩ := not_forall.mp hstopped
      refine hwork w (hs.worker_moves hw fun _ => .inr ?_)
      rw [hfeeder]
      trivial

/-! ## Schedules -/

/-- Under every schedule the feeder returns. -/
theorem Schedule.returns [NeZero n] {b : Bounds} (hbounds : Layout.ofBounds b = .ok L)
    {lines : List (List UInt8)} (hlines : List.Forall₂ Ingest.Bears lines values)
    (hfew : values.length < 2 ^ 63) {run : ℕ → Crew n} (hrun : Schedule L interval lines run) :
    ∃ k result, (run k).feeder = .returned result := by
  by_contra hnever
  have haccounted : ∀ k, (run k).Accounted L values := fun k =>
    (hrun.reachable k).accounted hbounds hlines
  have hgoing : ∀ k, ∃ s, Step L interval (run k) s := fun k =>
    (haccounted k).progress hbounds hfew interval fun result hresult => hnever ⟨k, result, hresult⟩
  have hanti : Antitone fun k => (run k).cost L := by
    refine antitone_nat_of_succ_le fun k => ?_
    rcases hrun.step k with hstep | hrest
    · exact ((haccounted k).cost_lt hstep).le
    · rw [hrest]
  -- Behind each point there is a step, after which less is left than was before.
  have hspent : ∀ c k, (run k).cost L < c → False := by
    intro c
    induction c with
    | zero => exact fun k hk => absurd hk (Nat.not_lt_zero _)
    | succ c ih =>
      intro k hk
      obtain ⟨j, hkj, hmoved⟩ := hrun.fair k (hgoing k)
      have hlt := (haccounted j).cost_lt ((hrun.step j).resolve_right hmoved)
      have hle : (run j).cost L ≤ (run k).cost L := hanti hkj
      exact ih (j + 1) (by omega)
  exact hspent _ 0 (Nat.lt_succ_self _)

end Crew

end DynamicRange
