import DynamicRange.Proofs.Ingest.Crew
import Mathlib.Tactic.Abel

/-!
# What becomes of the values

At any time each value is in one place: on a line that is still before the feeder, in the queue,
with a worker that has not yet told it to the recorder, or among those that were told (`Crew.sent`).
A value is lost only behind a worker that was stopped by an error, and then the feeder finds that
worker before it returns. So the feeder returns a total only if every value was told and could be
recorded, and only after it has collected the interval of the last one (`Reachable.accounted`).
-/

namespace DynamicRange

open Ingest (Answers)

/-- When a value is sent, the feeder collects an interval or reads on. -/
theorem Feeder.afterLine_cases {n : ℕ} (interval number : ℕ) (lines : List (List UInt8)) :
    (afterLine interval number lines : Feeder n) = collecting (some (number, lines)) ∨
      (afterLine interval number lines : Feeder n) = reading number lines := by
  unfold afterLine
  split
  · exact .inl rfl
  · exact .inr rfl

/-! ## Values that were told -/

namespace Collector

variable {ω : Type} {s s' : Collector ω} {L : Layout}

/-- All values that were told. -/
def values (s : Collector ω) : Multiset ℤ := (s.heard : Multiset (ℕ × ℤ)).map (·.2)

/-- A value that is told is told beside the others. -/
theorem values_cons (s : Collector ω) (traffic : Traffic ω Unit) (n : ℕ) (v : ℤ) :
    ({ s with traffic, heard := (n, v) :: s.heard } : Collector ω).values = {v} + s.values := rfl

/-- All values were told before the last swap, or the reader is still to swap the histograms. -/
def Settling (s : Collector ω) : Prop :=
  s.traffic.readers () = .away ∨ s.traffic.readers () = .locked ∨
    ∀ x ∈ s.heard, x.1 < s.traffic.swaps

/-- The reader swaps the histograms before it has a snapshot. -/
theorem ReaderStep.settling [DecidableEq ω] (hs : s.Reachable L) (hstep : ReaderStep L s s')
    (hsettling : s.Settling) : s'.Settling := by
  cases hstep with
  | acquire => exact .inr (.inl (by simp [Traffic.acquire, Traffic.turn]))
  | swap => exact .inr (.inr fun x hx => Nat.lt_succ_of_le (hs.interval_le x hx))
  | advance hreader | handOut hreader | merge _ hreader | clear hreader =>
    rcases hsettling with haway | hlocked | hearlier
    · simp [hreader] at haway
    · simp [hreader] at hlocked
    · exact .inr (.inr hearlier)

end Collector

/-- The value that a worker has received and is yet to tell, if there is one. -/
def Worker.untold : Worker → Writer → Multiset ℤ
  | recording v, .outside | recording v, .entered .. => {v}
  | recording _, .inside .. | idle, _ | stopped _, _ => 0

namespace Crew

open Collector (WriterStep ReaderStep)

variable {n : ℕ} {s s' : Crew n} {L : Layout} {values : List ℤ} {w : Fin n}

/-- The value that a worker is yet to tell. -/
def untold (s : Crew n) (w : Fin n) : Multiset ℤ :=
  (s.workers w).untold (s.collector.traffic.writers w)

/-- All values that were sent. -/
def sent (s : Crew n) : Multiset ℤ := s.queue + ∑ w, s.untold w + s.collector.values

/-- A value that a worker only moves remains among those that were sent. -/
theorem sent_eq (hothers : ∀ w', w' ≠ w → s'.untold w' = s.untold w')
    (hmoved : s'.queue + s'.untold w + s'.collector.values =
      s.queue + s.untold w + s.collector.values) : s'.sent = s.sent := by
  have hsum := Crowd.sum_add_of_forall_ne w hothers
  refine add_right_cancel (b := s.untold w) ?_
  calc s'.sent + s.untold w
      = s'.queue + s'.collector.values + (∑ w, s'.untold w + s.untold w) := by
        unfold sent
        abel
    _ = s'.queue + s'.untold w + s'.collector.values + ∑ w, s.untold w := by
        rw [hsum]
        abel
    _ = s.sent + s.untold w := by
        rw [hmoved]
        unfold sent
        abel

/-! ## Accounts -/

/-- Some worker was stopped by an error. -/
def Failed (s : Crew n) : Prop := ∃ w e, s.workers w = .stopped (.error e)

/-- The values that the feeder has not sent, if some are left. -/
def Owes (L : Layout) (values : List ℤ) (s : Crew n) (rest : List ℤ) : Prop :=
  match s.feeder with
  | .reading _ lines | .collecting (some (_, lines)) => List.Forall₂ Ingest.Bears lines rest
  | .offering v _ lines => ∃ vs, rest = v :: vs ∧ List.Forall₂ Ingest.Bears lines vs
  | .joining ws => (rest = [] ∨ s.Failed) ∧ ∀ w, w ∉ ws → s.workers w = .stopped (.ok ())
  | .collecting none =>
    rest = [] ∧ (∀ w, s.workers w = .stopped (.ok ())) ∧ s.collector.Settling
  | .failing e => Answers L values (.error e)
  | .returned result => Answers L values result

/-- A worker is a writer of the recorder as long as it records a value. It stops when nothing is
left in the queue and nothing will come, or at a value that cannot be recorded. -/
def Tied (L : Layout) (values : List ℤ) (s : Crew n) (w : Fin n) : Worker → Prop
  | .idle => s.collector.traffic.writers w = .outside
  | .recording v =>
    v ∈ values ∧ ∀ t work, s.collector.traffic.writers w = .entered t work → work = L.work v 1
  | .stopped (.ok ()) =>
    s.collector.traffic.writers w = .outside ∧ s.queue = 0 ∧ s.feeder.Closed
  | .stopped (.error e) =>
    s.collector.traffic.writers w = .outside ∧ ∃ v ∈ values, L.outcome v 1 = .error e

/-- A value that was told can be recorded, unless a worker was stopped by an error or will be by
this value. -/
def Sound (L : Layout) (s : Crew n) (v : ℤ) : Prop :=
  L.outcome v 1 = .ok () ∨ s.Failed ∨ ∃ w t c rest,
    s.workers w = .recording v ∧ s.collector.traffic.writers w = .inside t c rest

/-- All values are accounted for. -/
structure Accounted (L : Layout) (values : List ℤ) (s : Crew n) : Prop where
  collector : s.collector.Reachable L
  /-- Outside its collections the feeder holds no snapshot. -/
  resting : (∃ next, s.feeder = .collecting next) ∨
    s.collector.stage = .resting ∧ s.collector.traffic.readers () = .away
  tied : ∀ w, s.Tied L values w (s.workers w)
  sound : ∀ v ∈ s.collector.values, s.Sound L v
  /-- The values that were sent and those that were not are all that there are. -/
  sent : ∃ rest : List ℤ, s.sent + (rest : Multiset ℤ) = values ∧ s.Owes L values rest

/-- What is known of a worker of which it is known what it is doing. -/
theorem Accounted.of_worker_eq (hs : s.Accounted L values) {x : Worker} (hw : s.workers w = x) :
    s.Tied L values w x := by
  rw [← hw]
  exact hs.tied w

/-- A worker that has stopped is outside of the recorder. -/
theorem Accounted.outside_of_stopped (hs : s.Accounted L values) (hstopped : s.Stopped w) :
    s.collector.traffic.writers w = .outside := by
  obtain ⟨e | ⟨⟩, hw⟩ := hstopped
  · exact (hs.of_worker_eq hw).1
  · exact (hs.of_worker_eq hw).1

/-- What was sent are values. -/
theorem Accounted.sent_le (hs : s.Accounted L values) : s.sent ≤ values := by
  obtain ⟨rest, hsum, -⟩ := hs.sent
  rw [← hsum]
  exact Multiset.le_add_right _ _

/-- What is in the queue are values. -/
theorem Accounted.mem_of_mem_queue (hs : s.Accounted L values) {v : ℤ} (hv : v ∈ s.queue) :
    v ∈ values := by
  have hle : s.queue ≤ s.sent := (Multiset.le_add_right _ _).trans (Multiset.le_add_right _ _)
  exact Multiset.mem_coe.mp (Multiset.mem_of_le (hle.trans hs.sent_le) hv)

/-- If there are fewer than `2 ^ 63` values, no epoch starts over and no counter overflows. -/
theorem Accounted.moderate (hs : s.Accounted L values) (hfew : values.length < 2 ^ 63) :
    s.collector.Moderate := by
  refine hs.collector.moderate (lt_of_le_of_lt ?_ hfew)
  -- A writer that has entered and not yet told its value is a worker that is yet to tell it.
  have hsearching : ∀ w, (s.collector.traffic.writers w).searching ≤ (s.untold w).card := by
    intro w
    unfold untold
    cases hworker : s.workers w with
    | idle =>
      have houtside : s.collector.traffic.writers w = .outside := hs.of_worker_eq hworker
      simp [houtside, Writer.searching]
    | recording v =>
      cases s.collector.traffic.writers w <;> simp [Writer.searching, Worker.untold]
    | stopped outcome => simp [hs.outside_of_stopped ⟨outcome, hworker⟩, Writer.searching]
  calc s.collector.heard.length + ∑ w, (s.collector.traffic.writers w).searching
      ≤ s.collector.heard.length + ∑ w, (s.untold w).card :=
        Nat.add_le_add_left (Finset.sum_le_sum fun w _ => hsearching w) _
    _ ≤ s.sent.card := by
        have hcard : s.collector.values.card = s.collector.heard.length := by
          simp [Collector.values]
        rw [Crew.sent, Multiset.card_add, Multiset.card_add, Multiset.card_sum, hcard]
        omega
    _ ≤ values.length := by simpa using Multiset.card_le_card hs.sent_le

/-- What is known of a worker depends on its writer, and on the queue when it has hung up. -/
theorem Tied.frame {x : Worker} (htied : s.Tied L values w x)
    (hwriter : s'.collector.traffic.writers w = s.collector.traffic.writers w)
    (hclosed : s.queue = 0 → s.feeder.Closed → s'.queue = 0 ∧ s'.feeder.Closed) :
    s'.Tied L values w x := by
  cases x with
  | idle => exact hwriter.trans htied
  | recording v =>
    refine ⟨htied.1, fun t work hentered => htied.2 t work ?_⟩
    rwa [← hwriter]
  | stopped outcome =>
    rcases outcome with e | ⟨⟩
    · exact ⟨hwriter.trans htied.1, htied.2⟩
    · exact ⟨hwriter.trans htied.1, hclosed htied.2.1 htied.2.2⟩

/-! ## Steps of the workers -/

/-- What a step of a worker leaves as it is. -/
structure Spares (w : Fin n) (s s' : Crew n) : Prop where
  feeder : s'.feeder = s.feeder
  queue : s'.queue ≤ s.queue
  stage : s'.collector.stage = s.collector.stage
  readers : s'.collector.traffic.readers = s.collector.traffic.readers
  workers : ∀ w', w' ≠ w → s'.workers w' = s.workers w'
  writers : ∀ w', w' ≠ w → s'.collector.traffic.writers w' = s.collector.traffic.writers w'

/-- A worker takes its steps beside the others and the feeder. -/
theorem WorkerStep.spares (hstep : WorkerStep L w s s') : Spares w s s' := by
  have hturn : ∀ x w', w' ≠ w → (s.turn w x).workers w' = s.workers w' := fun x w' hw' =>
    Function.update_of_ne hw' ..
  cases hstep with
  | receive => exact ⟨rfl, Multiset.erase_le .., rfl, rfl, hturn _, fun _ _ => rfl⟩
  | record _ hstep =>
    exact ⟨rfl, le_rfl, hstep.frame.2.1, hstep.frame.2.2, fun _ _ => rfl, hstep.frame.1⟩
  | leave =>
    exact ⟨rfl, le_rfl, rfl, rfl, hturn _, fun w' hw' => Function.update_of_ne hw' ..⟩
  | hangUp => exact ⟨rfl, le_rfl, rfl, rfl, hturn _, fun _ _ => rfl⟩

/-- A worker that has stopped takes no steps. -/
theorem WorkerStep.not_stopped (hstep : WorkerStep L w s s') : ¬s.Stopped w := by
  rintro ⟨outcome, hstopped⟩
  cases hstep with
  | receive hworker | record hworker | leave hworker | hangUp hworker =>
    cases hworker.symm.trans hstopped

/-- A worker that has failed has stopped for good. -/
theorem WorkerStep.failed (hstep : WorkerStep L w s s') (hfailed : s.Failed) : s'.Failed := by
  obtain ⟨w', e, hw'⟩ := hfailed
  refine ⟨w', e, ?_⟩
  rwa [hstep.spares.workers w']
  rintro rfl
  exact hstep.not_stopped ⟨_, hw'⟩

/-- What a worker does changes nothing about what the feeder owes. -/
theorem WorkerStep.owes (hstep : WorkerStep L w s s') {rest : List ℤ}
    (howes : s.Owes L values rest) : s'.Owes L values rest := by
  unfold Owes at howes ⊢
  rw [hstep.spares.feeder]
  cases hfeeder : s.feeder with
  | reading | offering | failing | returned =>
    rw [hfeeder] at howes
    exact howes
  | joining ws =>
    rw [hfeeder] at howes
    refine ⟨howes.1.imp_right hstep.failed, fun w' hw' => ?_⟩
    rw [hstep.spares.workers w', howes.2 w' hw']
    rintro rfl
    exact hstep.not_stopped ⟨_, howes.2 w' hw'⟩
  | collecting next =>
    rw [hfeeder] at howes
    rcases next with _ | ⟨number, lines⟩
    · -- Behind the last line, all workers have stopped.
      exact absurd ⟨_, howes.2.1 w⟩ hstep.not_stopped
    · exact howes

/-- A value that was told can still be recorded, or the worker of this step has told it and settles
what comes of it. -/
theorem WorkerStep.sound (hstep : WorkerStep L w s s') {v : ℤ} (hsound : s.Sound L v)
    (hsettled : ∀ t c rest, s.workers w = .recording v →
      s.collector.traffic.writers w = .inside t c rest → s'.Sound L v) : s'.Sound L v := by
  rcases hsound with hok | hlost | ⟨w', t, c, rest, hrecording, hinside⟩
  · exact .inl hok
  · exact .inr (.inl (hstep.failed hlost))
  · by_cases hw' : w' = w
    · subst hw'
      exact hsettled t c rest hrecording hinside
    · refine .inr (.inr ⟨w', t, c, rest, ?_, ?_⟩)
      · rwa [hstep.spares.workers w' hw']
      · rwa [hstep.spares.writers w' hw']

/-- The values are still accounted for when a worker has moved its value. -/
theorem Accounted.of_workerStep (hs : s.Accounted L values) (hstep : WorkerStep L w s s')
    (hcollector : s'.collector.Reachable L) {x : Worker} (hworker : s'.workers w = x)
    (htied : s'.Tied L values w x)
    (hmoved : s'.queue + s'.untold w + s'.collector.values =
      s.queue + s.untold w + s.collector.values)
    (htold : ∀ v ∈ s'.collector.values, v ∈ s.collector.values ∨ s'.Sound L v)
    (hsettled : ∀ v t c rest, s.workers w = .recording v →
      s.collector.traffic.writers w = .inside t c rest → s'.Sound L v) :
    s'.Accounted L values := by
  have hspares := hstep.spares
  refine ⟨hcollector, ?_, fun w' => ?_, fun v hv => ?_, ?_⟩
  · rw [hspares.feeder, hspares.stage, hspares.readers]
    exact hs.resting
  · by_cases hw' : w' = w
    · rwa [hw', hworker]
    · rw [hspares.workers w' hw']
      refine (hs.tied w').frame (hspares.writers w' hw') fun hempty hclosed => ?_
      rw [hspares.feeder]
      exact ⟨Multiset.le_zero.mp (hempty ▸ hspares.queue), hclosed⟩
  · rcases htold v hv with hold | hsound
    · exact hstep.sound (hs.sound v hold) (hsettled v)
    · exact hsound
  · obtain ⟨rest, hsum, howes⟩ := hs.sent
    have huntold : ∀ w', w' ≠ w → s'.untold w' = s.untold w' := fun w' hw' => by
      rw [untold, hspares.workers w' hw', hspares.writers w' hw', untold]
    exact ⟨rest, by rwa [sent_eq huntold hmoved], hstep.owes howes⟩

/-- A worker goes on with its recording. -/
theorem Accounted.record (hs : s.Accounted L values) (hvalues : ∀ v ∈ values, v ≤ topValue) {v : ℤ}
    {c : Collector (Fin n)} (hrecording : s.workers w = .recording v)
    (hstep : WriterStep L w v s.collector c) :
    ({ s with collector := c } : Crew n).Accounted L values := by
  have hv : v ∈ values := (hs.of_worker_eq hrecording).1
  have hcollector : c.Reachable L := hs.collector.tail (.write (hvalues v hv) hstep)
  have hworker := WorkerStep.record hrecording hstep
  cases hstep with
  | enter houtside =>
    refine hs.of_workerStep hworker hcollector hrecording ⟨hv, ?_⟩ ?_ (fun _ => .inl)
      (by simp [houtside])
    · intro t work hentered
      simp only [Traffic.enter, Function.update_self] at hentered
      exact (Writer.entered.inj hentered).2.symm
    · simp [untold, hrecording, houtside, Traffic.enter, Worker.untold, Collector.values]
  | lookUp hentered =>
    refine hs.of_workerStep hworker hcollector hrecording ⟨hv, ?_⟩ ?_ (fun v' hv' => ?_)
      (by simp [hentered])
    · intro t work hentered
      simp [Traffic.lookUp] at hentered
    · simp only [untold, hrecording, hentered, Traffic.lookUp, Function.update_self, Worker.untold,
        Collector.values_cons]
      abel
    · rw [Collector.values_cons, Multiset.mem_add, Multiset.mem_singleton] at hv'
      rcases hv' with rfl | hold
      · exact .inr (.inr (.inr ⟨w, _, _, _, hrecording, Function.update_self ..⟩))
      · exact .inl hold
  | @change t c u rest hinside =>
    refine hs.of_workerStep hworker hcollector hrecording ⟨hv, ?_⟩ ?_ (fun _ => .inl)
      fun v' t' c' rest' hrecording' hinside' => ?_
    · intro t work hentered
      simp [Traffic.change] at hentered
    · simp [untold, hrecording, hinside, Traffic.change, Worker.untold, Collector.values]
    · refine .inr (.inr ⟨w, t, c, rest, hrecording', ?_⟩)
      simp [Traffic.change]

/-- Every step of a worker keeps the accounts. -/
theorem Accounted.work (hs : s.Accounted L values) (hvalues : ∀ v ∈ values, v ≤ topValue)
    (hstep : WorkerStep L w s s') : s'.Accounted L values := by
  have hmoves := hstep
  cases hstep with
  | @receive v hidle hv =>
    have houtside : s.collector.traffic.writers w = .outside := hs.of_worker_eq hidle
    refine hs.of_workerStep hmoves hs.collector (Function.update_self ..)
      ⟨hs.mem_of_mem_queue hv, fun t work hentered => ?_⟩ ?_ (fun _ => .inl) (by simp [hidle])
    · cases houtside.symm.trans hentered
    · have hqueue : s.queue.erase v + {v} = s.queue := by
        rw [add_comm]
        exact Multiset.cons_erase hv
      simp [untold, turn, hidle, houtside, Worker.untold, hqueue]
  | record hrecording hstep => exact hs.record hvalues hrecording hstep
  | @leave v t c hrecording hinside =>
    refine hs.of_workerStep hmoves (hs.collector.tail (.leave hinside)) (Function.update_self ..)
      ?_ ?_ (fun _ => .inl) ?_
    · rcases houtcome : L.outcome v 1 with e | ⟨⟩
      · exact ⟨Function.update_self .., v, (hs.of_worker_eq hrecording).1, houtcome⟩
      · exact Function.update_self ..
    · rcases houtcome : L.outcome v 1 with e | ⟨⟩ <;>
        simp [untold, turn, hrecording, hinside, Worker.untold, Worker.after, Collector.leave,
          Collector.values]
    · -- If the value could not be recorded, the worker has stopped.
      intro v' t' c' rest' hrecording' hinside'
      obtain rfl : v = v' := Worker.recording.inj (hrecording.symm.trans hrecording')
      rcases houtcome : L.outcome v 1 with e | ⟨⟩
      · exact .inr (.inl ⟨w, e, by simp [turn, Worker.after]⟩)
      · exact .inl houtcome
  | hangUp hidle hempty hclosed =>
    refine hs.of_workerStep hmoves hs.collector (Function.update_self ..)
      ⟨hs.of_worker_eq hidle, hempty, hclosed⟩ ?_ (fun _ => .inl) (by simp [hidle])
    simp [untold, turn, hidle, Worker.untold]

/-! ## Steps of the feeder -/

/-- The feeder goes on to something else with the values that it owes. -/
theorem Accounted.feed (hs : s.Accounted L values) {f : Feeder n}
    (hresting : (∃ next, f = .collecting next) ∨
      s.collector.stage = .resting ∧ s.collector.traffic.readers () = .away)
    (hclosed : s.feeder.Closed → f.Closed)
    (howes : ∀ rest, s.Owes L values rest → (s.feed f).Owes L values rest) :
    (s.feed f).Accounted L values := by
  obtain ⟨rest, hsum, hrest⟩ := hs.sent
  exact ⟨hs.collector, hresting,
    fun w => (hs.tied w).frame rfl fun hempty hbefore => ⟨hempty, hclosed hbefore⟩, hs.sound,
    rest, hsum, howes rest hrest⟩

/-- Outside its collections the feeder holds no snapshot. -/
theorem Accounted.away (hs : s.Accounted L values) {f : Feeder n} (hfeeder : s.feeder = f)
    (hnot : ∀ next, f ≠ .collecting next) :
    s.collector.stage = .resting ∧ s.collector.traffic.readers () = .away := by
  refine hs.resting.resolve_left ?_
  rintro ⟨next, hcollecting⟩
  exact hnot next (hfeeder.symm.trans hcollecting)

/-- The feeder sends a value. -/
theorem Accounted.send (hs : s.Accounted L values) (interval : ℕ) {v : ℤ} {number : ℕ}
    {lines : List (List UInt8)} (hoffering : s.feeder = .offering v number lines) :
    ({ s.feed (.afterLine interval number lines) with queue := v ::ₘ s.queue } :
      Crew n).Accounted L values := by
  have haway := hs.away hoffering (by simp)
  have hopen : ¬s.feeder.Closed := by simp [hoffering, Feeder.Closed]
  refine ⟨hs.collector, .inr haway, fun w => (hs.tied w).frame rfl fun _ hclosed =>
    absurd hclosed hopen, hs.sound, ?_⟩
  obtain ⟨rest, hsum, howes⟩ := hs.sent
  simp only [Owes, hoffering] at howes
  obtain ⟨vs, rfl, hlines⟩ := howes
  refine ⟨vs, ?_, ?_⟩
  · rw [← hsum, ← Multiset.cons_coe, Multiset.add_cons, ← Multiset.cons_add]
    simp only [Crew.sent, Multiset.cons_add]
    rfl
  · rcases Feeder.afterLine_cases (n := n) interval number lines with hcollecting | hreading
    · rw [hcollecting]
      exact hlines
    · rw [hreading]
      exact hlines

/-- When all workers have stopped and the queue is not closed, one of them was stopped by an
error. -/
theorem Accounted.failed_of_stopped [NeZero n] (hs : s.Accounted L values)
    (hopen : ¬s.feeder.Closed) (hstopped : ∀ w, s.Stopped w) : s.Failed := by
  obtain ⟨e | ⟨⟩, hw⟩ := hstopped 0
  · exact ⟨0, e, hw⟩
  · -- A worker that has hung up has found the queue closed.
    exact absurd (hs.of_worker_eq hw).2.2 hopen

/-- The reader collects. -/
theorem Accounted.collect (hs : s.Accounted L values) {next : Option (ℕ × List (List UInt8))}
    {c : Collector (Fin n)} (hcollecting : s.feeder = .collecting next)
    (hstep : ReaderStep L s.collector c) :
    ({ s with collector := c } : Crew n).Accounted L values := by
  obtain ⟨hwriters, hheard⟩ := hstep.frame
  have htold : c.values = s.collector.values := by rw [Collector.values, hheard, Collector.values]
  refine ⟨hs.collector.tail (.read hstep), .inl ⟨next, hcollecting⟩,
    fun w => (hs.tied w).frame (congrFun hwriters w) fun hempty hclosed => ⟨hempty, hclosed⟩,
    fun v hv => ?_, ?_⟩
  · rw [htold] at hv
    unfold Sound
    rw [hwriters]
    exact hs.sound v hv
  · obtain ⟨rest, hsum, howes⟩ := hs.sent
    refine ⟨rest, ?_, ?_⟩
    · rw [← hsum]
      simp only [Crew.sent, untold, hwriters, htold]
    · simp only [Owes, hcollecting] at howes ⊢
      cases next with
      | none => exact ⟨howes.1, howes.2.1, hstep.settling hs.collector howes.2.2⟩
      | some next => exact howes

/-- When the last interval is collected, the total gathers all values. -/
theorem Accounted.answers [NeZero n] {b : Bounds} (hbounds : Layout.ofBounds b = .ok L)
    (hs : s.Accounted L values) (hcollecting : s.feeder = .collecting none)
    (hemptying : s.collector.stage = .emptying)
    (hholding : s.collector.traffic.readers () = .holding []) :
    Answers L values (.ok s.collector.total) := by
  obtain ⟨rest, hsum, howes⟩ := hs.sent
  simp only [Owes, hcollecting] at howes
  obtain ⟨rfl, hstopped, hsettling⟩ := howes
  have hqueue : s.queue = 0 := (hs.of_worker_eq (hstopped 0)).2.1
  have htold : s.collector.values = values := by
    simpa [Crew.sent, hqueue, untold, hstopped, Worker.untold] using hsum
  refine ⟨fun v hv => ?_, fun hfew => ?_⟩
  · rcases hs.sound v (htold ▸ Multiset.mem_coe.mpr hv) with hok | ⟨w, e, hw⟩ | ⟨w, t, c, us, hw, -⟩
    · have hL := (Layout.ofBounds_precise hbounds).toShaped
      exact (Recording.outcome_eq_ok_iff (r := .plain v 1) hL).mp hok
    · cases (hstopped w).symm.trans hw
    · cases (hstopped w).symm.trans hw
  · have hearlier : ∀ x ∈ s.collector.heard, x.1 < s.collector.traffic.swaps := by
      simpa [Collector.Settling, hholding] using hsettling
    have hall : s.collector.valuesBefore s.collector.traffic.swaps = values := by
      rw [← htold, Collector.valuesBefore, Multiset.filter_eq_self.mpr hearlier, Collector.values]
    cases (hs.collector.refilled hbounds (hs.moderate hfew)).stands with
    | empty hreader => simp [hholding] at hreader
    | full _ hfetching => simp [hemptying] at hfetching
    | emptying _ _ _ htotal => rwa [hall] at htotal

/-- The feeder drops its snapshot. -/
theorem Accounted.collected [NeZero n] {b : Bounds} (hbounds : Layout.ofBounds b = .ok L)
    (hs : s.Accounted L values) {next : Option (ℕ × List (List UInt8))}
    (hcollecting : s.feeder = .collecting next) (hemptying : s.collector.stage = .emptying)
    (hholding : s.collector.traffic.readers () = .holding []) :
    ({ s.feed (.afterCollection s.collector.total next) with
      collector := s.collector.drop } : Crew n).Accounted L values := by
  refine ⟨hs.collector.tail (.drop hemptying hholding), .inr ⟨rfl, ?_⟩, fun w => ?_, hs.sound, ?_⟩
  · simp [Collector.drop, Traffic.drop, Traffic.turn]
  · refine (hs.tied w).frame rfl fun hempty hclosed => ⟨hempty, ?_⟩
    rw [hcollecting] at hclosed
    cases next with
    | none => trivial
    | some next => exact absurd hclosed id
  · obtain ⟨rest, hsum, howes⟩ := hs.sent
    refine ⟨rest, hsum, ?_⟩
    cases next with
    | none => exact hs.answers hbounds hcollecting hemptying hholding
    | some next =>
      simp only [Owes, hcollecting] at howes
      exact howes

/-- Every step of the feeder keeps the accounts. -/
theorem Accounted.of_feederStep [NeZero n] {b : Bounds} (hbounds : Layout.ofBounds b = .ok L)
    (hs : s.Accounted L values) {interval : ℕ} (hstep : FeederStep L interval s s') :
    s'.Accounted L values := by
  cases hstep with
  | read hreading hvalue =>
    refine hs.feed (.inr (hs.away hreading (by simp))) (by simp [hreading, Feeder.Closed])
      fun rest howes => ?_
    simp only [Owes, hreading] at howes
    cases howes with
    | cons hline hlines =>
      obtain rfl := Except.ok.inj ((hline.valueOn _).symm.trans hvalue)
      exact ⟨_, rfl, hlines⟩
  | misread hreading hvalue =>
    refine hs.feed (.inr (hs.away hreading (by simp))) (fun _ => trivial) fun rest howes => ?_
    simp only [Owes, hreading] at howes
    cases howes with
    | cons hline => cases (hline.valueOn _).symm.trans hvalue
  | send hoffering => exact hs.send interval hoffering
  | giveUp hoffering hstopped =>
    have hfailed := hs.failed_of_stopped (by simp [hoffering, Feeder.Closed]) hstopped
    exact hs.feed (.inr (hs.away hoffering (by simp))) (fun _ => trivial)
      fun rest _ => ⟨.inr hfailed, fun w hw => absurd (List.mem_finRange w) hw⟩
  | close hreading =>
    refine hs.feed (.inr (hs.away hreading (by simp))) (fun _ => trivial)
      fun rest howes => ⟨.inl ?_, fun w hw => absurd (List.mem_finRange w) hw⟩
    simp only [Owes, hreading] at howes
    exact List.forall₂_nil_left_iff.mp howes
  | @join w ws hjoining hstopped =>
    refine hs.feed (.inr (hs.away hjoining (by simp))) (fun _ => trivial) fun rest howes => ?_
    simp only [Owes, hjoining] at howes
    refine ⟨howes.1, fun w' hw' => ?_⟩
    by_cases heq : w' = w
    · rwa [heq]
    · exact howes.2 w' (by simp [heq, hw'])
  | joinFailed hjoining hstopped =>
    obtain ⟨-, v, hv, hreason⟩ := hs.of_worker_eq hstopped
    exact hs.feed (.inr (hs.away hjoining (by simp))) (fun _ => trivial)
      fun rest _ => ⟨v, hv, _, hreason, rfl⟩
  | joined hjoining =>
    have haway := hs.away hjoining (by simp)
    refine hs.feed (.inl ⟨none, rfl⟩) (fun _ => trivial) fun rest howes => ?_
    simp only [Owes, hjoining] at howes
    have hstopped : ∀ w, s.workers w = .stopped (.ok ()) := fun w => howes.2 w List.not_mem_nil
    have hnone : ¬s.Failed := fun ⟨w, e, hw⟩ => by cases (hstopped w).symm.trans hw
    exact ⟨howes.1.resolve_right hnone, hstopped, .inl haway.2⟩
  | collect hcollecting hstep => exact hs.collect hcollecting hstep
  | collected hcollecting hemptying hholding =>
    exact hs.collected hbounds hcollecting hemptying hholding
  | fail hfailing hstopped =>
    refine hs.feed (.inr (hs.away hfailing (by simp))) (fun _ => trivial) fun rest howes => ?_
    simp only [Owes, hfailing] at howes
    exact howes

/-! ## All schedules -/

/-- However the threads of a crew are interleaved, all values on its lines are accounted for. -/
theorem Reachable.accounted [NeZero n] {b : Bounds} (hbounds : Layout.ofBounds b = .ok L)
    {interval : ℕ} {lines : List (List UInt8)} (hlines : List.Forall₂ Ingest.Bears lines values)
    (hs : s.Reachable L interval lines) : s.Accounted L values := by
  induction hs with
  | refl =>
    refine ⟨.refl, .inr ⟨rfl, rfl⟩, fun w => rfl, fun v hv => absurd hv (Multiset.notMem_zero v),
      values, ?_, hlines⟩
    simp [Crew.sent, start, untold, Worker.untold, Collector.values, Collector.start]
  | tail _ hstep ih =>
    cases hstep with
    | work hstep => exact ih.work (Ingest.le_topValue_of_lines hlines) hstep
    | feed hstep => exact ih.of_feederStep hbounds hstep

end Crew

end DynamicRange
