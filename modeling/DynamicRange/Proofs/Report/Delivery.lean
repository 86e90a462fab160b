import DynamicRange.Proofs.Histogram.Merging
import DynamicRange.Proofs.Traversal.Steps
import DynamicRange.Report.Print

/-!
# What sinks take of a report

A report whose rows come to an end is one series of pieces (`print_eq`), and its text is the pieces
put together (`render_eq`). A sink takes a series of pieces if it has room for the text that they
are put together to, and if it has not, it keeps some of them and refuses the next one
(`writeAll_of_accepts`, `writeAll_of_not_accepts`). How the text is cut into pieces does not matter
for this.

So a bounded sink takes the whole report, or a part of it that is cut off at some piece, and either
is told in the end (`print_delivered`).
-/

namespace DynamicRange

/-! ## Series of pieces -/

/-- What comes second is printed to the sink that the first has left. -/
theorem Printing.andThen_apply (p q : Printing Unit) (s : Sink) :
    (p >>= fun _ => q) s =
      match p s with
      | .ok () s => q s
      | .error e s => .error e s := by
  change EStateM.bind p (fun _ => q) s = _
  rw [EStateM.bind]
  cases p s <;> rfl

namespace Sink

/-- A sink that has taken a further text. -/
def append (s : Sink) (text : String) : Sink := { s with taken := s.taken ++ text }

theorem append_empty (s : Sink) : s.append "" = s := by
  rw [append, String.append_empty]

theorem append_append (s : Sink) (text text' : String) :
    (s.append text).append text' = s.append (text ++ text') := by
  rw [append, append, append, String.append_assoc]

/-- There is room for a text behind another one if there is room for both. -/
theorem accepts_append (s : Sink) (text text' : String) :
    (s.append text).accepts text' = s.accepts (text ++ text') := by
  rw [accepts, accepts, append, String.utf8ByteSize_append, String.utf8ByteSize_append,
    Nat.add_assoc]

/-- If there is room for a text, there is room for the beginning of it. -/
theorem accepts_of_accepts_append {s : Sink} {text text' : String}
    (h : s.accepts (text ++ text') = true) : s.accepts text = true := by
  rw [accepts, Option.all_eq_true] at h ⊢
  intro capacity hcapacity
  have hroom := h capacity hcapacity
  rw [String.utf8ByteSize_append, decide_eq_true_iff] at hroom
  exact decide_eq_true (by omega)

theorem write_eq (piece : String) (s : Sink) :
    write piece s = if s.accepts piece then .ok () (s.append piece) else .error .refused s := rfl

theorem writeAll_cons (piece : String) (pieces : List String) (s : Sink) :
    writeAll (piece :: pieces) s =
      if s.accepts piece then writeAll pieces (s.append piece) else .error .refused s := by
  rw [writeAll, Printing.andThen_apply, write_eq]
  split_ifs <;> rfl

/-- Two series of pieces are handed on one after the other. -/
theorem writeAll_append (ps qs : List String) :
    writeAll (ps ++ qs) = writeAll ps >>= fun _ => writeAll qs := by
  induction ps with
  | nil => rfl
  | cons p ps ih => rw [List.cons_append, writeAll, ih, writeAll, bind_assoc]

/-- Hands on a series of pieces and makes the sink pass them on. -/
def deliver (pieces : List String) : Printing Unit := do
  writeAll pieces
  flush

/-- A sink takes all pieces if there is room for what they are put together to. -/
theorem writeAll_of_accepts {s : Sink} {pieces : List String}
    (h : s.accepts (String.join pieces) = true) :
    writeAll pieces s = .ok () (s.append (String.join pieces)) := by
  induction pieces generalizing s with
  | nil => rw [String.join_nil, append_empty]; rfl
  | cons piece pieces ih =>
    rw [String.join_cons] at h
    rw [writeAll_cons, if_pos (accepts_of_accepts_append h), ih (by rwa [accepts_append]),
      append_append, String.join_cons]

/-- If there is not, a piece is refused, and what the sink has taken before it is a part of the
text. -/
theorem writeAll_of_not_accepts {s : Sink} {pieces : List String} (hs : s.accepts "" = true)
    (h : s.accepts (String.join pieces) = false) :
    ∃ text rest, writeAll pieces s = .error .refused (s.append text) ∧
      text ++ rest = String.join pieces ∧ rest ≠ "" ∧ s.accepts text = true := by
  induction pieces generalizing s with
  | nil =>
    rw [String.join_nil, hs] at h
    cases h
  | cons piece pieces ih =>
    rw [String.join_cons] at h
    rw [writeAll_cons]
    rcases hroom : s.accepts piece with _ | _
    · -- The first piece is refused.
      refine ⟨"", String.join (piece :: pieces), ?_, String.empty_append, fun hnone => ?_, hs⟩
      · rw [append_empty]
        rfl
      · rw [String.join_cons] at hnone
        rw [hnone, hs] at h
        cases h
    · obtain ⟨text, rest, hwrite, htext, hrest, htaken⟩ :=
        ih (s := s.append piece) (by rwa [accepts_append, String.append_empty])
          (by rwa [accepts_append])
      refine ⟨piece ++ text, rest, ?_, ?_, hrest, ?_⟩
      · rw [if_pos rfl, hwrite, append_append]
      · rw [String.append_assoc, htext, String.join_cons]
      · rwa [accepts_append] at htaken

end Sink

/-! ## Reports that come to an end -/

/-- A traversal by percentile levels starts, gives some items and comes to an end behind them. -/
def PercentileLevels.Comprises (h : Histogram) (ticks : ℕ) (xs : List Item) : Prop :=
  ∃ t₀ t, start h ticks = .ok t₀ ∧ Yields (next? h) t₀ xs t ∧ next? h t = none

namespace Report

section

variable {σ : Type} {next? : σ → Option (Item × σ)} (row : Item → List String) {t : σ}

/-- The rows from a state on are the next one and then those behind it. -/
theorem printRows?_eq (s : Sink) :
    printRows? next? row t s =
      match printRow next? row (t, s) with
      | .inl (t, s) => printRows? next? row t s
      | .inr printed => some printed := by
  rw [printRows?, repeatM_eq_of_monadTail, repeatM.body, Option.bind_eq_bind, Option.bind_some]
  cases printRow next? row (t, s) <;> rfl

/-- Behind the last item there is no row. -/
theorem printRows?_of_end (hend : next? t = none) (s : Sink) :
    printRows? next? row t s = some (.ok () s) := by
  rw [printRows?_eq, printRow, hend]

/-- The rows from a state with an item on are the row of this item and then those behind it. -/
theorem printRows?_of_next {x : Item} {t' : σ} (hnext : next? t = some (x, t')) (s : Sink) :
    printRows? next? row t s =
      match Sink.writeAll (row x) s with
      | .ok () s => printRows? next? row t' s
      | .error e s => some (.error e s) := by
  rw [printRows?_eq, printRow, hnext]
  dsimp only
  rcases Sink.writeAll (row x) s with ⟨⟨⟩, s'⟩ | ⟨e, s'⟩ <;> rfl

/-- Rows are printed as far as a traversal has given items, and then those behind them. -/
theorem printRows?_of_yields {t₀ : σ} {xs : List Item} (hyields : Yields next? t₀ xs t)
    (s : Sink) :
    printRows? next? row t₀ s =
      match Sink.writeAll (xs.flatMap row) s with
      | .ok () s => printRows? next? row t s
      | .error e s => some (.error e s) := by
  induction hyields with
  | nil => rfl
  | @snoc xs x t t' _ hnext ih =>
    rw [ih, List.flatMap_append, List.flatMap_singleton, Sink.writeAll_append,
      Printing.andThen_apply]
    rcases Sink.writeAll (xs.flatMap row) s with ⟨⟨⟩, s'⟩ | ⟨e, s'⟩
    · exact printRows?_of_next row hnext s'
    · rfl

end

variable {h : Histogram} {ticks : ℕ} {xs : List Item} (scale : Float) (format : Format)

/-- The pieces of the row for an item. -/
def rowOf (h : Histogram) (scale : Float) (format : Format) (x : Item) : List String :=
  format.row (cells h.layout.digits scale x)

/-- The pieces of a report that has a row for each of some items. -/
def pieces (h : Histogram) (scale : Float) (format : Format) (xs : List Item) : List String :=
  format.head ++ xs.flatMap (rowOf h scale format) ++ summary h scale format

/-- The rows of a traversal that comes to an end are one series of pieces. -/
theorem printRows_eq {t₀ t : PercentileLevels}
    (hyields : Yields (PercentileLevels.next? h) t₀ xs t)
    (hend : PercentileLevels.next? h t = none) :
    printRows h scale format t₀ = Sink.writeAll (xs.flatMap (rowOf h scale format)) := by
  funext s
  change (printRows? _ (rowOf h scale format) t₀ s).getD _ = _
  rw [printRows?_of_yields _ hyields]
  rcases Sink.writeAll (xs.flatMap (rowOf h scale format)) s with ⟨⟨⟩, s'⟩ | ⟨e, s'⟩
  · change (printRows? _ _ t s').getD _ = _
    rw [printRows?_of_end _ hend]
    rfl
  · rfl

section

variable (hall : PercentileLevels.Comprises h ticks xs)
include hall

/-- A report that comes to an end is one series of pieces, which the sink passes on then. -/
theorem print_eq :
    print h ticks scale format = Sink.deliver (pieces h scale format xs) := by
  obtain ⟨t₀, t, hstart, hyields, hend⟩ := hall
  rw [Sink.deliver, pieces, Sink.writeAll_append, Sink.writeAll_append, bind_assoc, bind_assoc,
    ← printRows_eq scale format hyields hend]
  simp only [print, hstart]

/-- The text of a report that comes to an end is its pieces put together. -/
theorem render_eq :
    render h ticks scale format = .ok (String.join (pieces h scale format xs)) := by
  have hroom : (Sink.empty none false).accepts (String.join (pieces h scale format xs)) = true :=
    rfl
  rw [render, print_eq scale format hall, Sink.deliver, Printing.andThen_apply,
    Sink.writeAll_of_accepts hroom]
  exact congrArg Except.ok String.empty_append

end

/-! ## Bounded sinks -/

/-- How a text fares with an empty sink of some capacity. -/
inductive Delivered (text : String) (capacity : ℕ) (flushFails : Bool) :
    EStateM.Result PrintError Sink Unit → Prop where
  /-- If the text is longer than the capacity, the sink refuses a piece. It has taken a part of the
  text, and not all of it. -/
  | refused {s : Sink} {rest : String} (hlong : capacity < text.utf8ByteSize)
    (htaken : s.taken ++ rest = text) (hrest : rest ≠ "")
    (hfits : s.taken.utf8ByteSize ≤ capacity) :
    Delivered text capacity flushFails (.error .refused s)
  /-- If it is not, the sink takes all of it, and fails if it fails to pass it on. -/
  | unflushed {s : Sink} (hfits : text.utf8ByteSize ≤ capacity) (htaken : s.taken = text)
    (hflush : flushFails = true) : Delivered text capacity flushFails (.error .unflushed s)
  /-- Otherwise all is well. -/
  | passedOn {s : Sink} (hfits : text.utf8ByteSize ≤ capacity) (htaken : s.taken = text)
    (hflush : flushFails = false) : Delivered text capacity flushFails (.ok () s)

/-- Whatever pieces a text is cut into, it fares as its length says. -/
theorem writeAll_delivered (ps : List String) (capacity : ℕ) (flushFails : Bool) :
    Delivered (String.join ps) capacity flushFails
      (Sink.deliver ps (.empty (some capacity) flushFails)) := by
  have haccepts : ∀ text, (Sink.empty (some capacity) flushFails).accepts text = true ↔
      text.utf8ByteSize ≤ capacity := by
    intro text
    rw [Sink.accepts, Sink.empty, Option.all_some, decide_eq_true_iff, String.utf8ByteSize_empty,
      Nat.zero_add]
  have htaken : ∀ text, ((Sink.empty (some capacity) flushFails).append text).taken = text :=
    fun _ => String.empty_append
  rw [Sink.deliver, Printing.andThen_apply]
  rcases hroom : (Sink.empty (some capacity) flushFails).accepts (String.join ps) with _ | _
  · obtain ⟨text, rest, hwrite, htext, hrest, hfits⟩ :=
      Sink.writeAll_of_not_accepts ((haccepts "").mpr (Nat.zero_le _)) hroom
    rw [hwrite]
    have hlong := hroom
    rw [← Bool.not_eq_true, haccepts, not_le] at hlong
    exact .refused hlong (by rwa [htaken]) hrest (by rwa [htaken, ← haccepts])
  · rw [Sink.writeAll_of_accepts hroom]
    rw [haccepts] at hroom
    cases flushFails with
    | false => exact .passedOn hroom (htaken _) rfl
    | true => exact .unflushed hroom (htaken _) rfl

/-- A report that comes to an end is printed to a bounded sink as its length says, and the way in
which its text is cut into pieces has no part in that. -/
theorem print_delivered (hfinite : ∃ xs, PercentileLevels.Comprises h ticks xs) (scale : Float)
    (format : Format) :
    ∃ text, render h ticks scale format = .ok text ∧ ∀ capacity flushFails,
      Delivered text capacity flushFails
        (print h ticks scale format (.empty (some capacity) flushFails)) ∧
      ∀ ps, String.join ps = text → Delivered text capacity flushFails
        (Sink.deliver ps (.empty (some capacity) flushFails)) := by
  obtain ⟨xs, hall⟩ := hfinite
  refine ⟨_, render_eq scale format hall, fun capacity flushFails => ⟨?_, fun ps hps => ?_⟩⟩
  · rw [print_eq scale format hall]
    exact writeAll_delivered _ capacity flushFails
  · rw [← hps]
    exact writeAll_delivered ps capacity flushFails

/-- The report on samples of one value has two rows, at 0 and at 100. -/
theorem taking_comprises :
    PercentileLevels.Comprises Histogram.taking 5
      (takeItems (PercentileLevels.next? Histogram.taking) 3
        ⟨.start Histogram.taking, 5, 0.0, false⟩ #[]).1.toList := by
  obtain ⟨t, hyields, hend⟩ := takeItems_yields (PercentileLevels.next? Histogram.taking)
    ⟨.start Histogram.taking, 5, 0.0, false⟩ 3
  exact ⟨_, t, rfl, hyields, hend.mp (by decide +kernel)⟩

/-- It has 90 bytes. A sink with room for one byte less refuses the end of it, and one with room for
all of it passes it on. -/
theorem taking_delivered :
    (∃ xs, PercentileLevels.Comprises Histogram.taking 5 xs) ∧
      ∃ text, render Histogram.taking 5 1.0 .separated = .ok text ∧
        text = "Value,Percentile,TotalCount,1/(1-Percentile)\n" ++
          "51.0,0.000000,250,1.00\n51.0,1.000000,250,inf\n" ∧
        (∃ s rest, print Histogram.taking 5 1.0 .separated (.empty (some 89) false) =
          .error .refused s ∧ s.taken ++ rest = text ∧ rest ≠ "") ∧
        ∃ s, print Histogram.taking 5 1.0 .separated (.empty (some 90) false) = .ok () s ∧
          s.taken = text := by
  obtain ⟨text, hrender, hdelivered⟩ := print_delivered ⟨_, taking_comprises⟩ 1.0 .separated
  have htext : text = "Value,Percentile,TotalCount,1/(1-Percentile)\n" ++
      "51.0,0.000000,250,1.00\n51.0,1.000000,250,inf\n" := by
    rw [render_eq 1.0 .separated taking_comprises] at hrender
    exact (Except.ok.inj hrender).symm.trans (by decide +kernel)
  have hsize : text.utf8ByteSize = 90 := by
    rw [htext]
    decide +kernel
  refine ⟨⟨_, taking_comprises⟩, text, hrender, htext, ?_, ?_⟩
  · have hshort := (hdelivered 89 false).1
    generalize print Histogram.taking 5 1.0 .separated (.empty (some 89) false) = result at hshort
    cases hshort with
    | refused hlong htaken hrest hfits => exact ⟨_, _, rfl, htaken, hrest⟩
    | unflushed hfits => omega
    | passedOn hfits => omega
  · have hlong := (hdelivered 90 false).1
    generalize print Histogram.taking 5 1.0 .separated (.empty (some 90) false) = result at hlong
    cases hlong with
    | refused hlong => omega
    | unflushed _ _ hflush => cases hflush
    | passedOn hfits htaken => exact ⟨_, rfl, htaken⟩

end Report

end DynamicRange
