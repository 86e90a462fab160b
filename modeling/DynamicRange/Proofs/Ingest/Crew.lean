import DynamicRange.Proofs.Ingest.LineByLine
import DynamicRange.Proofs.Recorder.Progress

/-!
# A crew that ingests lines

Lines may be ingested by several threads. The feeder reads the lines and sends their values through
a queue that holds a limited number of them; the workers take values out of the queue and record
them; and after every so many lines the feeder collects an interval, while the workers go on. A
worker stops for good at a value that cannot be recorded, and else when the queue is closed and
empty. The feeder closes the queue behind the last line, or when it finds all workers stopped, or
when a line bears no value. Then it waits for the workers, one after the other, collects the last
interval, and returns the total, or else the error of the first worker that it finds stopped by one.

Of the queue no more is used than that each value that is sent is received once, in any order, and
that nobody finds it closed too early: a worker only when there is nothing left to receive, the
feeder only when all workers have stopped.

A step is one access of one thread, as in the traffic of the recorder, and a schedule is any run of
steps that goes on as long as somebody can take a step. Threads may wait in it at any time.
-/

namespace DynamicRange

/-- What a worker is doing. -/
inductive Worker where
  | idle
  | recording (v : ℤ)
  | stopped (outcome : Except RecordError Unit)

/-- What a worker does when a recording has come to an end. -/
def Worker.after : Except RecordError Unit → Worker
  | .ok () => idle
  | .error e => stopped (.error e)

/-- What the feeder of `n` workers is doing. -/
inductive Feeder (n : ℕ) where
  /-- It has taken care of a number of lines, and has the others before it. -/
  | reading (number : ℕ) (lines : List (List UInt8))
  /-- It has read a number of lines, and is to send the value of the last one. -/
  | offering (v : ℤ) (number : ℕ) (lines : List (List UInt8))
  /-- It collects an interval, and goes on behind a number of lines, or returns. -/
  | collecting (next : Option (ℕ × List (List UInt8)))
  /-- It has closed the queue, and waits for some workers. -/
  | joining (workers : List (Fin n))
  /-- It has closed the queue, and is to fail when all workers have stopped. -/
  | failing (e : IngestError)
  | returned (result : Except IngestError Histogram)

namespace Feeder

variable {n : ℕ}

/-- Whether the feeder has closed the queue. -/
def Closed : Feeder n → Prop
  | reading .. | offering .. | collecting (some _) => False
  | collecting none | joining _ | failing _ | returned _ => True

/-- What the feeder does when it has sent the value of the last of a number of lines. An interval
has `interval` lines, but one at least. -/
def afterLine (interval number : ℕ) (lines : List (List UInt8)) : Feeder n :=
  if number % Nat.max interval 1 = 0 then
    collecting (some (number, lines))
  else
    reading number lines

/-- What the feeder does when an interval is collected into a total. -/
def afterCollection (total : Histogram) : Option (ℕ × List (List UInt8)) → Feeder n
  | some (number, lines) => reading number lines
  | none => returned (.ok total)

end Feeder

/-- A collector whose `n` writers take values out of a queue, into which its reader sends them. -/
structure Crew (n : ℕ) where
  collector : Collector (Fin n)
  feeder : Feeder n
  /-- The values that were sent and not received. -/
  queue : Multiset ℤ
  workers : Fin n → Worker

/-- The number of values that the queue has room for. -/
def queueCapacity : ℕ := 1024

namespace Crew

open Collector (WriterStep ReaderStep)

variable {n : ℕ}

/-- A crew with some lines before it. -/
def start (L : Layout) (lines : List (List UInt8)) : Crew n where
  collector := .start L
  feeder := .reading 0 lines
  queue := 0
  workers _ := .idle

/-- A worker goes on to something else. -/
def turn (s : Crew n) (w : Fin n) (x : Worker) : Crew n :=
  { s with workers := Function.update s.workers w x }

/-- The feeder goes on to something else. -/
def feed (s : Crew n) (f : Feeder n) : Crew n := { s with feeder := f }

/-- Whether a worker has stopped. -/
def Stopped (s : Crew n) (w : Fin n) : Prop := ∃ outcome, s.workers w = .stopped outcome

/-- One access of a worker. -/
inductive WorkerStep (L : Layout) (w : Fin n) : Crew n → Crew n → Prop where
  | receive {s : Crew n} {v : ℤ} (hidle : s.workers w = .idle) (hv : v ∈ s.queue) :
    WorkerStep L w s { s.turn w (.recording v) with queue := s.queue.erase v }
  | record {s : Crew n} {v : ℤ} {c : Collector (Fin n)} (hrecording : s.workers w = .recording v)
    (hstep : WriterStep L w v s.collector c) : WorkerStep L w s { s with collector := c }
  | leave {s : Crew n} {v : ℤ} {t : Ticket} {c : Call} (hrecording : s.workers w = .recording v)
    (hinside : s.collector.traffic.writers w = .inside t c []) :
    WorkerStep L w s
      { s.turn w (.after (L.outcome v 1)) with collector := s.collector.leave w t }
  | hangUp {s : Crew n} (hidle : s.workers w = .idle) (hempty : s.queue = 0)
    (hclosed : s.feeder.Closed) : WorkerStep L w s (s.turn w (.stopped (.ok ())))

/-- One access of the feeder. -/
inductive FeederStep (L : Layout) (interval : ℕ) : Crew n → Crew n → Prop where
  | read {s : Crew n} {number : ℕ} {line : List UInt8} {lines : List (List UInt8)} {v : ℤ}
    (hreading : s.feeder = .reading number (line :: lines))
    (hvalue : Ingest.valueOn (number + 1) line = .ok v) :
    FeederStep L interval s (s.feed (.offering v (number + 1) lines))
  | misread {s : Crew n} {number : ℕ} {line : List UInt8} {lines : List (List UInt8)}
    {e : IngestError} (hreading : s.feeder = .reading number (line :: lines))
    (hvalue : Ingest.valueOn (number + 1) line = .error e) :
    FeederStep L interval s (s.feed (.failing e))
  | send {s : Crew n} {v : ℤ} {number : ℕ} {lines : List (List UInt8)}
    (hoffering : s.feeder = .offering v number lines) (hroom : s.queue.card < queueCapacity) :
    FeederStep L interval s
      { s.feed (.afterLine interval number lines) with queue := v ::ₘ s.queue }
  | giveUp {s : Crew n} {v : ℤ} {number : ℕ} {lines : List (List UInt8)}
    (hoffering : s.feeder = .offering v number lines) (hstopped : ∀ w, s.Stopped w) :
    FeederStep L interval s (s.feed (.joining (List.finRange n)))
  | close {s : Crew n} {number : ℕ} (hreading : s.feeder = .reading number []) :
    FeederStep L interval s (s.feed (.joining (List.finRange n)))
  | join {s : Crew n} {w : Fin n} {ws : List (Fin n)} (hjoining : s.feeder = .joining (w :: ws))
    (hstopped : s.workers w = .stopped (.ok ())) : FeederStep L interval s (s.feed (.joining ws))
  | joinFailed {s : Crew n} {w : Fin n} {ws : List (Fin n)} {e : RecordError}
    (hjoining : s.feeder = .joining (w :: ws)) (hstopped : s.workers w = .stopped (.error e)) :
    FeederStep L interval s (s.feed (.failing (.unrecordable e)))
  | joined {s : Crew n} (hjoining : s.feeder = .joining []) :
    FeederStep L interval s (s.feed (.collecting none))
  | collect {s : Crew n} {next : Option (ℕ × List (List UInt8))} {c : Collector (Fin n)}
    (hcollecting : s.feeder = .collecting next) (hstep : ReaderStep L s.collector c) :
    FeederStep L interval s { s with collector := c }
  | collected {s : Crew n} {next : Option (ℕ × List (List UInt8))}
    (hcollecting : s.feeder = .collecting next) (hemptying : s.collector.stage = .emptying)
    (hholding : s.collector.traffic.readers () = .holding []) :
    FeederStep L interval s
      { s.feed (.afterCollection s.collector.total next) with collector := s.collector.drop }
  | fail {s : Crew n} {e : IngestError} (hfailing : s.feeder = .failing e)
    (hstopped : ∀ w, s.Stopped w) : FeederStep L interval s (s.feed (.returned (.error e)))

/-- One access of one thread. -/
inductive Step (L : Layout) (interval : ℕ) (s s' : Crew n) : Prop where
  | work {w : Fin n} (hstep : WorkerStep L w s s')
  | feed (hstep : FeederStep L interval s s')

/-- A state that some schedule leads to. -/
def Reachable (L : Layout) (interval : ℕ) (lines : List (List UInt8)) (s : Crew n) : Prop :=
  Relation.ReflTransGen (Step L interval) (start L lines) s

/-- A run of a crew, which does not rest for ever when somebody can take a step. -/
structure Schedule (L : Layout) (interval : ℕ) (lines : List (List UInt8)) (run : ℕ → Crew n) :
    Prop where
  start : run 0 = start L lines
  step : ∀ k, Step L interval (run k) (run (k + 1)) ∨ run (k + 1) = run k
  fair : ∀ k, (∃ s, Step L interval (run k) s) → ∃ j, k ≤ j ∧ run (j + 1) ≠ run j

/-- Schedules lead to reachable states. -/
theorem Schedule.reachable {L : Layout} {interval : ℕ} {lines : List (List UInt8)}
    {run : ℕ → Crew n} (hrun : Schedule L interval lines run) (k : ℕ) :
    (run k).Reachable L interval lines := by
  induction k with
  | zero =>
    rw [hrun.start]
    exact .refl
  | succ k ih =>
    rcases hrun.step k with hstep | hrest
    · exact ih.tail hstep
    · rwa [hrest]

end Crew

end DynamicRange
