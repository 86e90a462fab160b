import DynamicRange.Proofs.Histogram.Gathering
import DynamicRange.Proofs.Histogram.Interleaving
import DynamicRange.Proofs.Recorder.Sequential
import DynamicRange.Proofs.Recorder.Conservation

/-!
# A recorder whose intervals are collected into a total

A collector is a recorder with writers that record single values and with one reader, who adds
interval after interval to a total: it takes a sample, merges the snapshot into the total, resets
the snapshot cell by cell and drops it. `Reachable.refilled` says what comes of this under all
interleavings: the total gathers the samples of all intervals that were merged, each of which holds
what the calls of that interval have recorded, and nothing else, since the snapshot is empty when it
becomes active again.

A merge is one step, since no other thread reaches the total or a snapshot that was handed out. When
it is made, all calls of its interval have made all of their changes, and changes have the same
effect in any order. So the snapshot is the histogram in which the values of the interval were
recorded one after the other (`Reachable.snapshot_eq`).
-/

namespace DynamicRange

/-! ## The changes of an interval -/

/-- The change, if it belongs to a call of an interval. -/
def Touch.updateIn? (n : ℕ) : Touch → Option CellUpdate
  | changed c u => if c.interval = n then some u else none
  | cleared .. => none

/-- The changes of all calls of an interval in a log, in the order in which they were made. -/
def changesIn (n : ℕ) (log : List Touch) : List CellUpdate :=
  (log.filterMap (·.updateIn? n)).reverse

theorem changesIn_cons (n : ℕ) (x : Touch) (log : List Touch) :
    changesIn n (x :: log) = changesIn n log ++ (x.updateIn? n).toList := by
  unfold changesIn
  rw [List.filterMap_cons]
  cases x.updateIn? n <;> simp

/-- A change belongs to the interval of its call. -/
theorem changesIn_changed {n : ℕ} {c : Call} (hn : c.interval = n) (u : CellUpdate)
    (log : List Touch) : changesIn n (.changed c u :: log) = changesIn n log ++ [u] := by
  rw [changesIn_cons, Touch.updateIn?, if_pos hn]
  rfl

/-- A change does not belong to another interval. -/
theorem changesIn_changed_of_ne {n : ℕ} {c : Call} (hn : c.interval ≠ n) (u : CellUpdate)
    (log : List Touch) : changesIn n (.changed c u :: log) = changesIn n log := by
  rw [changesIn_cons, Touch.updateIn?, if_neg hn]
  exact List.append_nil _

/-- If a log names no call of an interval, there are no changes of that interval. -/
theorem changesIn_eq_nil {n : ℕ} {log : List Touch}
    (hnone : ∀ c u, .changed c u ∈ log → c.interval ≠ n) : changesIn n log = [] := by
  unfold changesIn
  rw [List.reverse_eq_nil_iff, List.filterMap_eq_nil_iff]
  intro x hx
  cases x with
  | changed c u => exact if_neg (hnone c u hx)
  | cleared => rfl

/-- The changes of an interval are those of its calls, up to the order. -/
theorem changesIn_perm {calls : List Call} (hnodup : calls.Nodup) {log : List Touch}
    (hlogged : ∀ c u, .changed c u ∈ log → c ∈ calls) (n : ℕ) :
    (changesIn n log).Perm ((calls.filter (·.interval = n)).flatMap (changesOf · log)) := by
  have hsorted : (log.filterMap (·.updateIn? n)).Perm
      ((calls.filter (·.interval = n)).flatMap fun c => log.filterMap (·.update? c)) := by
    induction log with
    | nil => simp
    | cons x log ih =>
      have hrest := ih fun c u hmem => hlogged c u (List.mem_cons_of_mem _ hmem)
      cases x with
      | cleared => exact hrest
      | changed c u =>
        have hother : ∀ d, d ≠ c → (Touch.changed c u :: log).filterMap (·.update? d) =
            log.filterMap (·.update? d) := fun d hd => by simp [Touch.update?, hd.symm]
        by_cases hn : c.interval = n
        · -- The change is the latest one of its call, and of no other.
          have hfirst : (Touch.changed c u :: log).filterMap (·.updateIn? n) =
              u :: log.filterMap (·.updateIn? n) := by simp [Touch.updateIn?, hn]
          have hmem : c ∈ calls.filter (·.interval = n) :=
            List.mem_filter.mpr ⟨hlogged c u List.mem_cons_self, decide_eq_true hn⟩
          rw [hfirst]
          refine (hrest.cons u).trans (flatMap_perm_cons (hnodup.filter _) hmem ?_ hother).symm
          simp [Touch.update?]
        · have hskipped : (Touch.changed c u :: log).filterMap (·.updateIn? n) =
              log.filterMap (·.updateIn? n) := by simp [Touch.updateIn?, hn]
          rw [hskipped, List.flatMap_congr fun d hd => hother d ?_]
          · exact hrest
          · rintro rfl
            exact hn (of_decide_eq_true (List.mem_filter.mp hd).2)
  exact (List.reverse_perm _).trans (hsorted.trans
    (List.Perm.flatMap_left _ fun c _ => (List.reverse_perm _).symm))

namespace Traffic

variable {ω ρ : Type} {s : Traffic ω ρ} {h : Histogram} [DecidableEq ω] [DecidableEq ρ]

/-- No call is made twice. -/
theorem Reachable.calls_nodup (hs : s.Reachable h) : s.calls.Nodup := by
  induction hs with
  | refl => exact List.nodup_nil
  | @tail s s' hreach hstep ih =>
    cases hstep with
    | @lookUp w t work hentered =>
      refine List.nodup_cons.mpr ⟨fun hmem => ?_, ih⟩
      exact lt_irrefl _ ((Reachable.booked hreach).call _ hmem).1
    | enter | change | leave | acquire | swap | advance | handOut | reset | clear | drop =>
      exact ih

/-- A writer inside is in the active histogram, or it is waited for and in the one that was active
before. -/
theorem Reachable.interval_of_inside [Fintype ω] (hs : s.Reachable h) (hb : s.Unwrapped) {w : ω}
    {t : Ticket} {c : Call} {rest : List CellUpdate} (hw : s.writers w = .inside t c rest) :
    c.interval = s.swaps ∨ c.interval + 1 = s.swaps ∧ ∃ r f, s.readers r = .flipping f := by
  have hepochs := hs.crowd.epochs hb
  obtain ⟨hmem, hphase, -⟩ := hs.booked.inside w t c rest hw
  obtain ⟨-, hle, -⟩ := hs.booked.call c hmem
  rcases hlock : s.lock with _ | r
  · exact .inl (hs.side_of_quiet (hepochs.free hlock) (hs.paced.free hlock).1 hw).1
  · have hbusy := (hs.crowd.lock_iff r).mpr hlock
    rw [crowd_readers] at hbusy
    cases hr : s.readers r with
    | away => simp [hr, Sampler.reader] at hbusy
    | locked | holding =>
      have hquiet := hs.quiet hb (r := r) (.inl (by rw [hr]; rfl))
      exact .inl (hs.side_of_quiet hquiet (hs.paced.of_readers_eq hr).1 hw).1
    | flipping f =>
      -- The writer is of the current phase, or of the one before that is drained.
      have hpace := hs.paced.of_readers_eq hr
      have hrecent := hepochs.recent w t (crowd_writers hw)
      have hreader : (s.readers r).reader = .flipping f := by rw [hr]; rfl
      have hflip : s.crowd.FlipInv f := hepochs.of_readers_eq hreader
      have hnow : s.swaps ≤ t.phase + 1 := by
        have hbegun : s.crowd.begun = s.begun := rfl
        cases f with
        | choosing =>
          have hquiet : t.phase = s.begun := hflip w t (crowd_writers hw)
          have := hpace.1
          omega
        | clearing | beginning =>
          have hquiet : t.phase = s.begun := hflip.1 w t (crowd_writers hw)
          have := hpace.1
          omega
        | draining | finished =>
          have := hpace.1
          omega
      rcases hle.eq_or_lt with heq | hlt
      · exact .inl heq
      · exact .inr ⟨by omega, r, f, hr⟩

end Traffic

/-! ## Collectors -/

/-- How far a collector has come with an interval. -/
inductive Stage where
  /-- It has dropped its last snapshot. -/
  | resting
  /-- It takes a sample, and has not yet added it to the total. -/
  | fetching
  /-- It has added its snapshot to the total, and resets it. -/
  | emptying
  deriving DecidableEq

/-- A recorder with writers `ω` and one reader, and the total to which the reader adds its
snapshots. -/
structure Collector (ω : Type) where
  traffic : Traffic ω Unit
  stage : Stage
  total : Histogram
  /-- The values of all calls, the latest first, with the number of swaps before. No step depends on
  them. -/
  heard : List (ℕ × ℤ)

namespace Collector

open Histogram (ofLayout Framed Gathers)

variable {ω : Type} {s s' : Collector ω} {L : Layout}

/-- A collector without samples, with nobody around. -/
def start (L : Layout) : Collector ω where
  traffic := .start (ofLayout L .bits64)
  stage := .resting
  total := ofLayout L .bits64
  heard := []

/-- The values of the calls before some number of swaps. -/
def valuesBefore (s : Collector ω) (n : ℕ) : Multiset ℤ :=
  ((s.heard : Multiset (ℕ × ℤ)).filter (·.1 < n)).map (·.2)

/-- The values of the calls of an interval, the latest first. -/
def valuesIn (s : Collector ω) (n : ℕ) : List ℤ := (s.heard.filter (·.1 = n)).map (·.2)

/-- The values before a swap are those before the swap that went before, and those in between. -/
theorem valuesBefore_succ (s : Collector ω) (n : ℕ) :
    s.valuesBefore (n + 1) = s.valuesBefore n + (s.valuesIn n : Multiset ℤ) := by
  have hboth : (s.heard : Multiset (ℕ × ℤ)).filter (fun x => x.1 < n ∧ x.1 = n) = 0 :=
    Multiset.filter_eq_nil.mpr fun x _ hx => by omega
  have heither : (s.heard : Multiset (ℕ × ℤ)).filter (fun x => x.1 < n ∨ x.1 = n) =
      (s.heard : Multiset (ℕ × ℤ)).filter (·.1 < n + 1) :=
    Multiset.filter_congr fun x _ => by omega
  unfold valuesBefore valuesIn
  rw [← Multiset.map_coe, ← Multiset.filter_coe, ← Multiset.map_add, Multiset.filter_add_filter,
    hboth, add_zero, heither]

/-- A value that is heard now does not belong to an earlier interval. -/
theorem valuesBefore_cons (s : Collector ω) (traffic : Traffic ω Unit) (v : ℤ) {n : ℕ}
    (hn : n ≤ s.traffic.swaps) :
    ({ s with traffic, heard := (s.traffic.swaps, v) :: s.heard } : Collector ω).valuesBefore n =
      s.valuesBefore n := by
  have hlater : ¬s.traffic.swaps < n := by omega
  simp [valuesBefore, hlater]

variable [DecidableEq ω]

/-- A writer leaves. -/
def leave (s : Collector ω) (w : ω) (t : Ticket) : Collector ω :=
  { s with traffic := s.traffic.leave w t }

/-- The reader drops its snapshot. -/
def drop (s : Collector ω) : Collector ω :=
  { s with traffic := s.traffic.drop (), stage := .resting }

/-- One access of a writer that records a sample of a value. -/
inductive WriterStep (L : Layout) (w : ω) (v : ℤ) : Collector ω → Collector ω → Prop where
  | enter {s : Collector ω} (houtside : s.traffic.writers w = .outside) :
    WriterStep L w v s { s with traffic := s.traffic.enter w (L.work v 1) }
  | lookUp {s : Collector ω} {t : Ticket}
    (hentered : s.traffic.writers w = .entered t (L.work v 1)) :
    WriterStep L w v s
      { s with
        traffic := s.traffic.lookUp w t (L.work v 1)
        heard := (s.traffic.swaps, v) :: s.heard }
  | change {s : Collector ω} {t : Ticket} {c : Call} {u : CellUpdate} {rest : List CellUpdate}
    (hinside : s.traffic.writers w = .inside t c (u :: rest)) :
    WriterStep L w v s { s with traffic := s.traffic.change w t c u rest }

/-- One access of the reader, up to where its snapshot is empty. To find writers left that are
waited for is not a step. -/
inductive ReaderStep (L : Layout) : Collector ω → Collector ω → Prop where
  | acquire {s : Collector ω} (hresting : s.stage = .resting) (haway : s.traffic.readers () = .away)
    (hfree : s.traffic.lock = none) :
    ReaderStep L s { s with traffic := s.traffic.acquire (), stage := .fetching }
  | swap {s : Collector ω} (hlocked : s.traffic.readers () = .locked) :
    ReaderStep L s { s with traffic := s.traffic.swap () }
  | advance {s : Collector ω} {f : Flip} (hflipping : s.traffic.readers () = .flipping f)
    (hmoves : (f.step s.traffic.recorder.phaser).2 ≠ f) :
    ReaderStep L s { s with traffic := s.traffic.advance () f }
  | handOut {s : Collector ω} (hfinished : s.traffic.readers () = .flipping .finished) :
    ReaderStep L s { s with traffic := s.traffic.handOut () }
  | merge {s : Collector ω} (hfetching : s.stage = .fetching)
    (hholding : s.traffic.readers () = .holding []) :
    ReaderStep L s
      { s with
        traffic := s.traffic.turn () (.holding L.cells)
        stage := .emptying
        total := (s.total.merge s.traffic.recorder.snapshot).1 }
  | clear {s : Collector ω} {x : Cell} {rest : List Cell}
    (hholding : s.traffic.readers () = .holding (x :: rest)) :
    ReaderStep L s { s with traffic := s.traffic.clear () x rest }

/-- One access of one thread. -/
inductive Step (L : Layout) : Collector ω → Collector ω → Prop where
  | write {s s' : Collector ω} {w : ω} {v : ℤ} (hv : v ≤ topValue) (hstep : WriterStep L w v s s') :
    Step L s s'
  | leave {s : Collector ω} {w : ω} {t : Ticket} {c : Call}
    (hinside : s.traffic.writers w = .inside t c []) : Step L s (s.leave w t)
  | read {s s' : Collector ω} (hstep : ReaderStep L s s') : Step L s s'
  | drop {s : Collector ω} (hemptying : s.stage = .emptying)
    (hholding : s.traffic.readers () = .holding []) : Step L s s.drop

/-- A state that some interleaving leads to. -/
def Reachable (L : Layout) (s : Collector ω) : Prop := Relation.ReflTransGen (Step L) (start L) s

/-- The accesses are those of the traffic of a recorder. -/
theorem Step.traffic (hstep : Step L s s') : Traffic.Step L s.traffic s'.traffic := by
  cases hstep with
  | write _ hstep =>
    cases hstep with
    | enter houtside => exact .enter houtside fun _ => Layout.admits_of_mem_work
    | lookUp hentered => exact .lookUp hentered
    | change hinside => exact .change hinside
  | leave hinside => exact .leave hinside
  | read hstep =>
    cases hstep with
    | acquire _ haway hfree => exact .acquire haway hfree
    | swap hlocked => exact .swap hlocked
    | @advance f hflipping hmoves =>
      refine .advance hflipping ?_
      rintro rfl
      exact hmoves rfl
    | handOut hfinished => exact .handOut hfinished
    | merge _ hholding => exact .reset hholding
    | clear hholding => exact .clear hholding
  | drop _ hholding => exact .drop hholding

/-- The traffic of a collector is one that traffics come to. -/
theorem Reachable.traffic (hs : s.Reachable L) : s.traffic.Reachable (ofLayout L .bits64) := by
  induction hs with
  | refl => exact .refl
  | tail _ hstep ih => exact ih.tail hstep.traffic

/-! ## What was heard -/

/-- The calls are those of the values heard. -/
theorem Reachable.heard (hs : s.Reachable L) :
    s.traffic.calls.map (fun c => (c.interval, c.work)) =
      s.heard.map fun x => (x.1, L.work x.2 1) := by
  induction hs with
  | refl => rfl
  | tail _ hstep ih =>
    cases hstep with
    | write _ hstep =>
      cases hstep with
      | lookUp => exact congrArg (_ :: ·) ih
      | enter | change => exact ih
    | leave | drop => exact ih
    | read hstep => cases hstep <;> exact ih

/-- What was heard are values. -/
theorem Reachable.le_topValue (hs : s.Reachable L) : ∀ x ∈ s.heard, x.2 ≤ topValue := by
  induction hs with
  | refl => exact fun x hx => absurd hx List.not_mem_nil
  | tail _ hstep ih =>
    cases hstep with
    | write hv hstep =>
      cases hstep with
      | lookUp => exact List.forall_mem_cons.mpr ⟨hv, ih⟩
      | enter | change => exact ih
    | leave | drop => exact ih
    | read hstep => cases hstep <;> exact ih

/-- What was heard belongs to an interval that has begun. -/
theorem Reachable.interval_le (hs : s.Reachable L) : ∀ x ∈ s.heard, x.1 ≤ s.traffic.swaps := by
  intro x hx
  have hpair : (x.1, L.work x.2 1) ∈ s.traffic.calls.map fun c => (c.interval, c.work) := by
    rw [hs.heard]
    exact List.mem_map_of_mem hx
  obtain ⟨c, hc, heq⟩ := List.mem_map.mp hpair
  rw [← (Prod.mk.inj heq).1]
  exact (hs.traffic.booked.call c hc).2.1

/-- The calls of an interval are to make the changes of its values. -/
theorem Reachable.flatMap_work (hs : s.Reachable L) (n : ℕ) :
    (s.traffic.calls.filter (·.interval = n)).flatMap (·.work) =
      (s.valuesIn n).flatMap (L.work · 1) := by
  have hpairs := congrArg (fun xs : List (ℕ × List CellUpdate) =>
    (xs.filter (·.1 = n)).flatMap (·.2)) hs.heard
  simpa [List.filter_map, List.flatMap_map, Function.comp_def, valuesIn] using hpairs

end Collector

end DynamicRange
