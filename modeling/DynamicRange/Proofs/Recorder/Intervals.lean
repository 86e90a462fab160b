import DynamicRange.Proofs.Recorder.Phases

/-!
# Swaps, phases and calls of a recorder

The histograms are swapped once for every phase that begins and for every snapshot that is handed
out, and the number of swaps tells which of the two is active (`Reachable.paced`). A writer looks
up the active histogram after it has entered, so that the phase of its ticket is never later than
the interval of its call (`Reachable.booked`). Both together keep writers out of a snapshot: all
writers inside have entered the phase that began behind the last swap, and so have looked up the
histogram that was active since (`Reachable.side_of_quiet`).

What the histograms hold is what the log of touches says (`Reachable.histogram_eq`).
-/

namespace DynamicRange

namespace Side

/-- The sides are active in turn. -/
theorem nth_succ (n : ℕ) : nth (n + 1) = (nth n).other := by
  unfold nth
  rw [ite_even_succ]
  split <;> rfl

@[simp]
theorem other_other (side : Side) : side.other.other = side := by cases side <;> rfl

theorem other_ne (side : Side) : side.other ≠ side := by cases side <;> decide

end Side

/-! ## Logs -/

theorem changesOf_cons (c : Call) (x : Touch) (log : List Touch) :
    changesOf c (x :: log) = changesOf c log ++ (x.update? c).toList := by
  unfold changesOf
  rw [List.filterMap_cons]
  cases x.update? c <;> simp

/-- The changes of a call are all on its own side. -/
theorem changesOf_filter {c : Call} {side : Side} (hside : c.side = side) (log : List Touch) :
    changesOf c (log.filter (·.side = side)) = changesOf c log := by
  unfold changesOf
  rw [List.filterMap_filter]
  congr 2
  funext x
  cases x with
  | changed d u =>
    by_cases hd : d = c
    · simp [Touch.side, hd, hside]
    · simp [Touch.update?, hd]
  | cleared n side x => simp [Touch.update?]

theorem clearedIn_cons (n : ℕ) (x : Touch) (log : List Touch) :
    clearedIn n (x :: log) = (x.cell? n).toList ++ clearedIn n log := by
  unfold clearedIn
  rw [List.filterMap_cons]
  cases x.cell? n <;> rfl

namespace Traffic

variable {ω ρ : Type} {s s' : Traffic ω ρ} {h : Histogram} {L : Layout}

/-! ## Pace -/

/-- How far swaps, phases and samples are apart around a reader. -/
def PaceOf (s : Traffic ω ρ) : Sampler → Prop
  | .away => True
  | .locked | .holding _ => s.swaps = s.begun ∧ s.samples.length = s.swaps
  | .flipping .choosing | .flipping (.clearing _) | .flipping (.beginning _) =>
    s.swaps = s.begun + 1 ∧ s.samples.length + 1 = s.swaps
  | .flipping (.draining ..) | .flipping .finished =>
    s.swaps = s.begun ∧ s.samples.length + 1 = s.swaps

/-- Swaps, phases and samples keep pace with each other. -/
structure Paced (s : Traffic ω ρ) : Prop where
  active : s.recorder.active = Side.nth s.swaps
  inactive : s.recorder.inactive = (Side.nth s.swaps).other
  reader : ∀ r, s.PaceOf (s.readers r)
  free : s.lock = none → s.swaps = s.begun ∧ s.samples.length = s.swaps

/-- What is known around a reader of which it is known what it is doing. -/
theorem Paced.of_readers_eq (hp : s.Paced) {r : ρ} {x : Sampler} (hr : s.readers r = x) :
    s.PaceOf x := by
  rw [← hr]
  exact hp.reader r

/-- One of the histograms is active, and the other one is not. -/
theorem Paced.opposite (hp : s.Paced) : s.recorder.active = s.recorder.inactive.other := by
  rw [hp.active, hp.inactive, Side.other_other]

variable [DecidableEq ρ] {r : ρ}

/-- What holds of the other readers, and of what a reader turns to, holds of all readers then. -/
theorem forall_readers_turn {P : Sampler → Prop} {x : Sampler}
    (hothers : ∀ q, q ≠ r → P (s.readers q)) (hx : P x) : ∀ q, P ((s.turn r x).readers q) := by
  intro q
  rcases eq_or_ne q r with rfl | hne
  · simpa [turn] using hx
  · simpa [turn, hne] using hothers q hne

variable [DecidableEq ω]

/-- While a reader is not away, the others are. -/
theorem Reachable.away_of_ne (hs : s.Reachable h) (hr : s.readers r ≠ .away) {q : ρ}
    (hne : q ≠ r) : s.readers q = .away := by
  by_contra hq
  exact hne (hs.reader_unique hq hr)

/-- While a reader is not away, the lock is not free. -/
theorem Reachable.lock_ne_none (hs : s.Reachable h) (hr : s.readers r ≠ .away) :
    s.lock ≠ none := by
  have hheld : s.lock = some r := by
    refine (hs.crowd.lock_iff r).mp ?_
    rw [crowd_readers]
    cases hx : s.readers r with
    | away => exact absurd hx hr
    | _ => simp [Sampler.reader]
  rw [hheld]
  simp

/-- Steps keep pace. -/
theorem Paced.step (hp : s.Paced) (hs : s.Reachable h) (hstep : Step L s s') : s'.Paced := by
  -- Counts change only in the hands of the reader with the lock, while the others are away.
  have hothers : ∀ {P : Sampler → Prop} {r}, P .away → s.readers r ≠ .away →
      ∀ q, q ≠ r → P (s.readers q) := by
    intro P r haway hr q hne
    rwa [hs.away_of_ne hr hne]
  cases hstep with
  | enter | lookUp | leave => exact ⟨hp.active, hp.inactive, hp.reader, hp.free⟩
  | change =>
    exact ⟨(Recorder.active_modify ..).trans hp.active,
      (Recorder.inactive_modify ..).trans hp.inactive, hp.reader, hp.free⟩
  | @acquire r haway hfree =>
    exact ⟨hp.active, hp.inactive, forall_readers_turn (fun q _ => hp.reader q) (hp.free hfree),
      by simp [acquire]⟩
  | @swap r hlocked =>
    have hbusy : s.readers r ≠ .away := by simp [hlocked]
    obtain ⟨hbegun, hlength⟩ := hp.of_readers_eq hlocked
    refine ⟨?_, ?_, forall_readers_turn (hothers trivial hbusy) ⟨?_, ?_⟩, ?_⟩
    -- The sides change places when the number of swaps goes up.
    · exact hp.inactive.trans (Side.nth_succ _).symm
    · show s.recorder.active = (Side.nth (s.swaps + 1)).other
      rw [Side.nth_succ, Side.other_other]
      exact hp.active
    · exact congrArg (· + 1) hbegun
    · exact congrArg (· + 1) hlength
    · exact fun hfree => absurd hfree (hs.lock_ne_none hbusy)
  | @advance r f hflipping _ =>
    have hbusy : s.readers r ≠ .away := by simp [hflipping]
    have hr := hp.of_readers_eq hflipping
    refine ⟨hp.active, hp.inactive, forall_readers_turn (hothers trivial hbusy) ?_, ?_⟩
    · -- A phase is begun when the histograms have been swapped for it.
      cases f with
      | choosing | clearing | finished => exact hr
      | beginning next => exact ⟨hr.1, hr.2⟩
      | draining last stopped =>
        rw [Flip.step_draining]
        split <;> exact hr
    · exact fun hfree => absurd hfree (hs.lock_ne_none hbusy)
  | @handOut r hfinished =>
    have hbusy : s.readers r ≠ .away := by simp [hfinished]
    have hr := hp.of_readers_eq hfinished
    exact ⟨hp.active, hp.inactive, forall_readers_turn (hothers trivial hbusy) hr,
      fun hfree => absurd hfree (hs.lock_ne_none hbusy)⟩
  | @reset r hholding =>
    have hr := hp.of_readers_eq hholding
    exact ⟨hp.active, hp.inactive, forall_readers_turn (fun q _ => hp.reader q) hr, hp.free⟩
  | @clear r x rest hholding =>
    have hr := hp.of_readers_eq hholding
    exact ⟨(Recorder.active_modify ..).trans hp.active,
      (Recorder.inactive_modify ..).trans hp.inactive,
      forall_readers_turn (fun q _ => hp.reader q) hr, hp.free⟩
  | @drop r hholding =>
    have hr := hp.of_readers_eq hholding
    exact ⟨hp.active, hp.inactive, forall_readers_turn (fun q _ => hp.reader q) trivial,
      fun _ => hr⟩

/-- Swaps, phases and samples keep pace in every run. -/
theorem Reachable.paced (hs : s.Reachable h) : s.Paced := by
  induction hs with
  | refl => exact ⟨rfl, rfl, fun _ => trivial, fun _ => ⟨rfl, rfl⟩⟩
  | tail hreach hstep ih => exact ih.step hreach hstep

/-- No phase begins, and no snapshot is handed out, before the histograms are swapped for it. -/
theorem Reachable.counts_le (hs : s.Reachable h) :
    s.begun ≤ s.swaps ∧ s.samples.length ≤ s.swaps := by
  rcases hlock : s.lock with _ | r
  · obtain ⟨hbegun, hlength⟩ := hs.paced.free hlock
    omega
  · -- The reader that holds the lock tells how far the counts are apart.
    have hr := (hs.crowd.lock_iff r).mpr hlock
    rw [crowd_readers] at hr
    match hx : s.readers r with
    | .away => simp [hx, Sampler.reader] at hr
    | .locked | .holding _ | .flipping (.draining ..) | .flipping .finished
    | .flipping .choosing | .flipping (.clearing _) | .flipping (.beginning _) =>
      obtain ⟨hbegun, hlength⟩ := hs.paced.of_readers_eq hx
      omega

/-! ## Calls -/

/-- What a call that is in progress has changed, and how calls, writers and intervals belong
together. -/
structure Booked (s : Traffic ω ρ) : Prop where
  entered : ∀ w t work, s.writers w = .entered t work → t.phase ≤ s.swaps
  inside : ∀ w t c rest, s.writers w = .inside t c rest →
    c ∈ s.calls ∧ t.phase ≤ c.interval ∧ changesOf c s.log ++ rest = c.work
  alone : ∀ v w t t' c rest rest', s.writers v = .inside t c rest →
    s.writers w = .inside t' c rest' → v = w
  settled : ∀ c ∈ s.calls, (∃ w t rest, s.writers w = .inside t c rest) ∨
    changesOf c s.log = c.work
  call : ∀ c ∈ s.calls, c.number < s.calls.length ∧ c.interval ≤ s.swaps ∧
    c.side = Side.nth c.interval
  logged : ∀ c u, .changed c u ∈ s.log → c ∈ s.calls

/-- A call that is not in a log has changed nothing. -/
theorem changesOf_eq_nil {c : Call} {log : List Touch} (hnone : ∀ u, .changed c u ∉ log) :
    changesOf c log = [] := by
  unfold changesOf
  rw [List.reverse_eq_nil_iff, List.filterMap_eq_nil_iff]
  intro x hx
  cases x with
  | changed d u =>
    have hd : d ≠ c := by
      rintro rfl
      exact hnone u hx
    simp [Touch.update?, hd]
  | cleared => rfl

omit [DecidableEq ρ] [DecidableEq ω] in
/-- Readers keep the books. -/
theorem Booked.frame (hbooked : s.Booked) (hwriters : s'.writers = s.writers)
    (hcalls : s'.calls = s.calls) (hswaps : s.swaps ≤ s'.swaps)
    (hlog : s'.log = s.log ∨ ∃ n side x, s'.log = .cleared n side x :: s.log) : s'.Booked := by
  have hchanges : ∀ c, changesOf c s'.log = changesOf c s.log := by
    intro c
    rcases hlog with hlog | ⟨n, side, x, hlog⟩
    · rw [hlog]
    · rw [hlog, changesOf_cons]
      exact List.append_nil _
  have hlogged : ∀ c u, Touch.changed c u ∈ s'.log → Touch.changed c u ∈ s.log := by
    intro c u hmem
    rcases hlog with hlog | ⟨n, side, x, hlog⟩
    · rwa [hlog] at hmem
    · rw [hlog] at hmem
      simpa using hmem
  obtain ⟨hentered, hinside, halone, hsettled, hcall, hold⟩ := hbooked
  refine ⟨?_, ?_, ?_, ?_, ?_, ?_⟩
  · rw [hwriters]
    exact fun w t work hw => (hentered w t work hw).trans hswaps
  · simpa only [hwriters, hcalls, hchanges] using hinside
  · simpa only [hwriters] using halone
  · simpa only [hwriters, hcalls, hchanges] using hsettled
  · rw [hcalls]
    exact fun c hc => ⟨(hcall c hc).1, (hcall c hc).2.1.trans hswaps, (hcall c hc).2.2⟩
  · rw [hcalls]
    exact fun c u hmem => hold c u (hlogged c u hmem)

omit [DecidableEq ρ] in
/-- A writer that enters keeps the books. -/
theorem Booked.enter (hbooked : s.Booked) (hbegun : s.begun ≤ s.swaps) {w : ω}
    {work : List CellUpdate} (houtside : s.writers w = .outside) : (s.enter w work).Booked := by
  have hold : ∀ v t c rest, (s.enter w work).writers v = .inside t c rest →
      s.writers v = .inside t c rest := by
    intro v t c rest hv
    rcases update_cases hv with ⟨-, hnew⟩ | ⟨-, hsame⟩
    · cases hnew
    · exact hsame
  obtain ⟨hentered, hinside, halone, hsettled, hcall, hlogged⟩ := hbooked
  refine ⟨?_, fun v t c rest hv => hinside v t c rest (hold v t c rest hv), ?_, ?_, hcall, hlogged⟩
  · intro v t work' hv
    rcases update_cases hv with ⟨-, hnew⟩ | ⟨-, hsame⟩
    · -- The ticket is of the phase that was begun last.
      cases hnew
      exact hbegun
    · exact hentered v t work' hsame
  · intro v v' t t' c rest rest' hv hv'
    exact halone v v' t t' c rest rest' (hold v t c rest hv) (hold v' t' c rest' hv')
  · intro c hc
    refine (hsettled c hc).imp_left fun ⟨v, t, rest, hv⟩ => ⟨v, t, rest, ?_⟩
    have hne : v ≠ w := by
      rintro rfl
      simp [houtside] at hv
    simpa [Traffic.enter, hne] using hv

omit [DecidableEq ρ] in
/-- A writer that looks up the active histogram keeps the books. -/
theorem Booked.lookUp (hbooked : s.Booked) (hactive : s.recorder.active = Side.nth s.swaps) {w : ω}
    {t : Ticket} {work : List CellUpdate} (hw : s.writers w = .entered t work) :
    (s.lookUp w t work).Booked := by
  obtain ⟨hentered, hinside, halone, hsettled, hcall, hlogged⟩ := hbooked
  -- The new call has a number of its own, so that it is in no log yet.
  have hnew : s.call work ∉ s.calls := fun hmem => lt_irrefl _ (hcall _ hmem).1
  have hcases : ∀ v t' c rest, (s.lookUp w t work).writers v = .inside t' c rest →
      v = w ∧ t' = t ∧ c = s.call work ∧ rest = work ∨ s.writers v = .inside t' c rest := by
    intro v t' c rest hv
    rcases update_cases hv with ⟨hvw, hnew⟩ | ⟨-, hsame⟩
    · cases hnew
      exact .inl ⟨hvw, rfl, rfl, rfl⟩
    · exact .inr hsame
  refine ⟨?_, ?_, ?_, ?_, ?_, fun c u hmem => List.mem_cons_of_mem _ (hlogged c u hmem)⟩
  · intro v t' work' hv
    rcases update_cases hv with ⟨-, hnew⟩ | ⟨-, hsame⟩
    · cases hnew
    · exact hentered v t' work' hsame
  · intro v t' c rest hv
    rcases hcases v t' c rest hv with ⟨rfl, rfl, rfl, rfl⟩ | hold
    -- The new call has all of its changes before it.
    · refine ⟨List.mem_cons_self, hentered v t' rest hw, ?_⟩
      rw [show (s.lookUp v t' rest).log = s.log from rfl,
        changesOf_eq_nil fun u hmem => hnew (hlogged _ u hmem)]
      rfl
    · obtain ⟨hmem, hphase, hwork⟩ := hinside v t' c rest hold
      exact ⟨List.mem_cons_of_mem _ hmem, hphase, hwork⟩
  · intro v v' t₁ t₂ c rest rest' hv hv'
    rcases hcases v t₁ c rest hv with ⟨rfl, -, rfl, -⟩ | hold <;>
      rcases hcases v' t₂ _ rest' hv' with ⟨rfl, -, hc, -⟩ | hold'
    · rfl
    · exact absurd (hinside _ _ _ _ hold').1 hnew
    · exact absurd (hc ▸ (hinside _ _ _ _ hold).1) hnew
    · exact halone v v' t₁ t₂ c rest rest' hold hold'
  · intro c hc
    rcases List.mem_cons.mp hc with rfl | hmem
    · exact .inl ⟨w, t, work, by simp [Traffic.lookUp]⟩
    · refine (hsettled c hmem).imp_left fun ⟨v, t', rest, hv⟩ => ⟨v, t', rest, ?_⟩
      have hne : v ≠ w := by
        rintro rfl
        simp [hw] at hv
      simpa [Traffic.lookUp, hne] using hv
  · intro c hc
    rcases List.mem_cons.mp hc with rfl | hmem
    · exact ⟨Nat.lt_succ_self _, le_rfl, hactive⟩
    · exact ⟨(hcall c hmem).1.trans (Nat.lt_succ_self _), (hcall c hmem).2⟩

omit [DecidableEq ρ] in
/-- A writer that changes a cell keeps the books. -/
theorem Booked.change (hbooked : s.Booked) {w : ω} {t : Ticket} {c : Call} {u : CellUpdate}
    {rest : List CellUpdate} (hw : s.writers w = .inside t c (u :: rest)) :
    (s.change w t c u rest).Booked := by
  obtain ⟨hentered, hinside, halone, hsettled, hcall, hlogged⟩ := hbooked
  have hsame : changesOf c (s.change w t c u rest).log = changesOf c s.log ++ [u] := by
    simp [Traffic.change, changesOf_cons, Touch.update?]
  have hother : ∀ d, d ≠ c → changesOf d (s.change w t c u rest).log = changesOf d s.log := by
    intro d hd
    simp [Traffic.change, changesOf_cons, Touch.update?, hd.symm]
  have hcases : ∀ v t' d rest', (s.change w t c u rest).writers v = .inside t' d rest' →
      v = w ∧ t' = t ∧ d = c ∧ rest' = rest ∨ v ≠ w ∧ s.writers v = .inside t' d rest' := by
    intro v t' d rest' hv
    rcases update_cases hv with ⟨hvw, hnew⟩ | hother
    · cases hnew
      exact .inl ⟨hvw, rfl, rfl, rfl⟩
    · exact .inr hother
  have hself : (s.change w t c u rest).writers w = .inside t c rest := by simp [Traffic.change]
  refine ⟨?_, ?_, ?_, ?_, hcall, ?_⟩
  · intro v t' work hv
    rcases update_cases hv with ⟨-, hnew⟩ | ⟨-, hsame⟩
    · cases hnew
    · exact hentered v t' work hsame
  · intro v t' d rest' hv
    rcases hcases v t' d rest' hv with ⟨rfl, rfl, rfl, rfl⟩ | ⟨hne, hold⟩
    -- One change goes from what is left to what was made.
    · obtain ⟨hmem, hphase, hwork⟩ := hinside _ _ _ _ hw
      refine ⟨hmem, hphase, ?_⟩
      rw [hsame, List.append_assoc]
      exact hwork
    · obtain ⟨hmem, hphase, hwork⟩ := hinside _ _ _ _ hold
      refine ⟨hmem, hphase, ?_⟩
      have hd : d ≠ c := by
        rintro rfl
        exact hne (halone _ _ _ _ _ _ _ hold hw)
      rw [hother d hd]
      exact hwork
  · intro v v' t₁ t₂ d rest₁ rest₂ hv hv'
    rcases hcases v t₁ d rest₁ hv with ⟨rfl, -, rfl, -⟩ | ⟨-, hold⟩ <;>
      rcases hcases v' t₂ _ rest₂ hv' with ⟨rfl, -, hd, -⟩ | ⟨-, hold'⟩
    · rfl
    · exact halone _ _ _ _ _ _ _ hw hold'
    · exact halone _ _ _ _ _ _ _ (hd ▸ hold) hw
    · exact halone _ _ _ _ _ _ _ hold hold'
  · intro d hd
    rcases eq_or_ne d c with rfl | hne
    · exact .inl ⟨w, t, rest, hself⟩
    · rw [hother d hne]
      refine (hsettled d hd).imp_left fun ⟨v, t', rest', hv⟩ => ⟨v, t', rest', ?_⟩
      have hvw : v ≠ w := by
        rintro rfl
        rw [hw] at hv
        cases hv
        exact hne rfl
      simpa [Traffic.change, hvw] using hv
  · intro d u' hmem
    rcases List.mem_cons.mp hmem with heq | hold
    · cases heq
      exact (hinside _ _ _ _ hw).1
    · exact hlogged d u' hold

omit [DecidableEq ρ] in
/-- A writer that leaves keeps the books: it has made all of its changes. -/
theorem Booked.leave (hbooked : s.Booked) {w : ω} {t : Ticket} {c : Call}
    (hw : s.writers w = .inside t c []) : (s.leave w t).Booked := by
  have hold : ∀ {v x}, x ≠ .outside → (s.leave w t).writers v = x → s.writers v = x := by
    intro v x hx hv
    rcases update_cases hv with ⟨-, hnew⟩ | ⟨-, hsame⟩
    · exact absurd hnew.symm hx
    · exact hsame
  obtain ⟨hentered, hinside, halone, hsettled, hcall, hlogged⟩ := hbooked
  refine ⟨fun v t' work hv => hentered v t' work (hold (by simp) hv),
    fun v t' d rest hv => hinside v t' d rest (hold (by simp) hv), ?_, ?_, hcall, hlogged⟩
  · intro v v' t₁ t₂ d rest₁ rest₂ hv hv'
    exact halone _ _ _ _ _ _ _ (hold (by simp) hv) (hold (by simp) hv')
  · intro d hd
    rcases hsettled d hd with ⟨v, t', rest, hv⟩ | hwork
    · rcases eq_or_ne v w with rfl | hne
      -- The call that ends here has nothing left to change.
      · rw [hw] at hv
        cases hv
        have hall := (hinside _ _ _ _ hw).2.2
        rw [List.append_nil] at hall
        exact .inr hall
      · exact .inl ⟨v, t', rest, by simpa [Traffic.leave, hne] using hv⟩
    · exact .inr hwork

/-- The books are kept in every run. -/
theorem Reachable.booked (hs : s.Reachable h) : s.Booked := by
  induction hs with
  | refl => constructor <;> simp [start]
  | @tail s s' hreach hstep ih =>
    cases hstep with
    | enter houtside _ => exact ih.enter (Reachable.counts_le hreach).1 houtside
    | lookUp hentered => exact ih.lookUp (Reachable.paced hreach).active hentered
    | change hinside => exact ih.change hinside
    | leave hinside => exact ih.leave hinside
    | swap => exact ih.frame rfl rfl (Nat.le_succ _) (.inl rfl)
    | clear => exact ih.frame rfl rfl le_rfl (.inr ⟨_, _, _, rfl⟩)
    | acquire | advance | handOut | reset | drop => exact ih.frame rfl rfl le_rfl (.inl rfl)

/-! ## Who is in which histogram -/

/-- When only writers of the current phase are inside, they are in the active histogram, and all
other calls have made all of their changes. -/
theorem Reachable.side_of_quiet (hs : s.Reachable h) (hquiet : s.crowd.Quiet)
    (hpace : s.swaps = s.begun) {w : ω} {t : Ticket} {c : Call} {rest : List CellUpdate}
    (hw : s.writers w = .inside t c rest) : c.interval = s.swaps ∧ c.side = s.recorder.active := by
  obtain ⟨hmem, hphase, -⟩ := hs.booked.inside w t c rest hw
  obtain ⟨-, hle, hside⟩ := hs.booked.call c hmem
  have hnow : t.phase = s.begun := hquiet w t (crowd_writers hw)
  have hinterval : c.interval = s.swaps := by omega
  exact ⟨hinterval, by rw [hside, hinterval, hs.paced.active]⟩

/-- A histogram holds what it began with, touched as the log of its side says. -/
theorem Reachable.histogram_eq (hs : s.Reachable h) (side : Side) :
    s.recorder.histogram side =
      ((Recorder.ofHistogram h).histogram side).replay (s.log.filter (·.side = side)) := by
  induction hs with
  | refl => rfl
  | @tail s s' hreach hstep ih =>
    have htouch : ∀ (x : Touch) (r : Recorder),
        r.histogram side = (if side = x.side then (s.recorder.histogram x.side).touch x
          else s.recorder.histogram side) →
        r.histogram side = ((Recorder.ofHistogram h).histogram side).replay
          ((x :: s.log).filter (·.side = side)) := by
      intro x r hr
      rw [hr, List.filter_cons]
      rcases eq_or_ne x.side side with rfl | hne
      · simp only [if_true, decide_true]
        rw [ih]
        rfl
      · simp only [hne, hne.symm, if_false, decide_false]
        exact ih
    cases hstep with
    | enter | lookUp | leave | acquire | swap | advance | handOut | reset | drop =>
      -- These steps touch no cell.
      cases side <;> exact ih
    | change => exact htouch (.changed ..) _ (Recorder.histogram_modify ..)
    | clear => exact htouch (.cleared ..) _ (Recorder.histogram_modify ..)

end Traffic

end DynamicRange
