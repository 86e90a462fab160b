import DynamicRange.Proofs.Phaser.Crowd
import Mathlib.Algebra.Order.BigOperators.Group.Finset

/-!
# The epochs of a crowd

`Reachable.epochs` says what the epochs of a phaser, the tickets of its writers and the stages of
its readers have to do with each other, however the threads are interleaved.

The exits of a phase are *tallied* if its end epoch, counted from where the phase began, is short
of the entries by just the writers that are still inside. The exits of the current phase are
tallied throughout, those of the phase before as long as a flip drains it. At all other times only
writers of the current phase are inside, so that a flip clears an end epoch that no writer inside
will touch.
-/

namespace DynamicRange

/-! ## Epochs and phases -/

/-- An epoch within 64 bits does not start over. -/
theorem wrapEpoch_eq {x : ℤ} (hlow : -2 ^ 63 ≤ x) (hhigh : x < 2 ^ 63) : wrapEpoch x = x := by
  unfold wrapEpoch
  omega

/-- Of two things that are chosen in turn, the next one is the other one. -/
theorem ite_even_succ {α : Type} (n : ℕ) (a b : α) :
    (if (n + 1) % 2 = 0 then a else b) = if n % 2 = 0 then b else a := by
  rcases Nat.mod_two_eq_zero_or_one n with h | h
  · have hnext : ¬(n + 1) % 2 = 0 := by omega
    rw [if_pos h, if_neg hnext]
  · have hnow : ¬n % 2 = 0 := by omega
    have hnext : (n + 1) % 2 = 0 := by omega
    rw [if_neg hnow, if_pos hnext]

/-- After one thread went on, a thread is that one, or it is where it was. -/
theorem update_cases {τ σ : Type} [DecidableEq τ] {f : τ → σ} {a b : τ} {x y : σ}
    (h : Function.update f a x b = y) : (b = a ∧ x = y) ∨ (b ≠ a ∧ f b = y) := by
  rcases eq_or_ne b a with rfl | hne
  · rw [Function.update_self] at h
    exact .inl ⟨rfl, h⟩
  · rw [Function.update_of_ne hne] at h
    exact .inr ⟨hne, h⟩

namespace Phase

/-- Phases are of the two kinds in turn. -/
theorem nth_succ (n : ℕ) : nth (n + 1) = (nth n).other := by
  unfold nth
  rw [ite_even_succ]
  split <;> rfl

/-- The kind before the next one is the same. -/
theorem other_other (p : Phase) : p.other.other = p := by cases p <;> rfl

/-- The next kind is another one. -/
theorem other_ne (p : Phase) : p.other ≠ p := by cases p <;> decide

/-- Neighbouring phases differ in kind. -/
theorem nth_succ_ne (n : ℕ) : nth (n + 1) ≠ nth n := by
  rw [nth_succ]
  exact other_ne _

/-- The first `2 ^ 63` epochs from where a phase begins tell its kind. -/
theorem ofEpoch_eq {p : Phase} {x : ℤ} (hlow : p.firstEpoch ≤ x)
    (hhigh : x < p.firstEpoch + 2 ^ 63) : ofEpoch x = p := by
  unfold ofEpoch
  cases p <;> simp only [firstEpoch] at hlow hhigh
  · rw [if_neg (by omega)]
  · rw [if_pos (by omega)]

/-- A phase begins at an epoch of 64 bits that is not positive. -/
theorem firstEpoch_bounds (p : Phase) : -2 ^ 63 ≤ p.firstEpoch ∧ p.firstEpoch ≤ 0 := by
  cases p <;> simp [firstEpoch]

end Phase

namespace Phaser

/-- Setting one end epoch leaves the other one and the start epoch as they are. -/
theorem endEpoch_setEndEpoch (p : Phaser) (x : ℤ) (k k' : Phase) :
    (p.setEndEpoch x k).endEpoch k' = if k' = k then x else p.endEpoch k' := by
  cases k <;> cases k' <;> rfl

@[simp]
theorem startEpoch_setEndEpoch (p : Phaser) (x : ℤ) (k : Phase) :
    (p.setEndEpoch x k).startEpoch = p.startEpoch := by
  cases k <;> rfl

/-- Only the start epoch changes when a writer enters or a phase begins. -/
@[simp]
theorem endEpoch_withStart (p : Phaser) (x : ℤ) (k : Phase) :
    { p with startEpoch := x }.endEpoch k = p.endEpoch k := by
  cases k <;> rfl

end Phaser

/-- A flip that waits finishes as soon as the end epoch has come to where the start epoch stopped.
-/
theorem Flip.step_draining (p : Phaser) (last : Phase) (stopped : ℤ) :
    (Flip.draining last stopped).step p =
      (p, if p.endEpoch last = stopped then .finished else .draining last stopped) := by
  by_cases h : p.endEpoch last = stopped <;> simp [Flip.step, h]

namespace Crowd

variable {ω ρ : Type} {s s' : Crowd ω ρ}

/-! ## Counts -/

/-- A sum changes by what one of its terms changes. -/
theorem sum_add_of_forall_ne {ι M : Type} [Fintype ι] [DecidableEq ι] [AddCommMonoid M]
    {f g : ι → M} (i : ι) (hothers : ∀ j, j ≠ i → g j = f j) :
    ∑ j, g j + f i = ∑ j, f j + g i := by
  have hrest : ∀ j ∈ Finset.univ.erase i, g j = f j := fun j hj =>
    hothers j (Finset.ne_of_mem_erase hj)
  rw [← Finset.sum_erase_add _ g (Finset.mem_univ i), Finset.sum_congr rfl hrest,
    ← Finset.sum_erase_add _ f (Finset.mem_univ i)]
  exact add_right_comm _ _ _

/-- A sum over all threads changes by what one of them changes. -/
theorem sum_comp_update {σ : Type} [Fintype ω] [DecidableEq ω] (F : σ → ℕ) (f : ω → σ) (w : ω)
    (a : σ) :
    ∑ x, F (Function.update f w a x) + F (f w) = ∑ x, F (f x) + F a := by
  have hsum := sum_add_of_forall_ne (f := F ∘ f) (g := F ∘ Function.update f w a) w fun x hx =>
    congrArg F (Function.update_of_ne hx a f)
  rwa [Function.comp_apply, Function.comp_apply, Function.update_self] at hsum

/-- A ticket counts for its own phase only. -/
theorem ofPhase_some (n : ℕ) (t : Ticket) : ofPhase n (some t) = if t.phase = n then 1 else 0 := by
  simp [ofPhase]

/-- No writer of a phase is inside exactly if all writers inside are of other phases. -/
theorem present_eq_zero_iff [Fintype ω] {n : ℕ} :
    s.present n = 0 ↔ ∀ w t, s.writers w = some t → t.phase ≠ n := by
  simp only [present, Finset.sum_eq_zero_iff, Finset.mem_univ, forall_true_left]
  refine forall_congr' fun w => ?_
  cases s.writers w <;> simp [ofPhase]

/-- A phase that no ticket is of has no entries. -/
theorem entries_eq_zero {n : ℕ} (h : ∀ t ∈ s.tickets, t.phase ≠ n) :
    s.entries n = 0 := by
  simpa [entries, List.countP_eq_zero] using h

/-! ## The invariant -/

/-- The exits of a phase are tallied: its end epoch lacks just the writers still inside. -/
def Tallied [Fintype ω] (s : Crowd ω ρ) (n : ℕ) : Prop :=
  (Phase.nth n).firstEpoch ≤ s.phaser.endEpoch (Phase.nth n) ∧
    s.phaser.endEpoch (Phase.nth n) + s.present n = (Phase.nth n).firstEpoch + s.entries n

/-- All writers inside are of the current phase. -/
def Quiet (s : Crowd ω ρ) : Prop := ∀ w t, s.writers w = some t → t.phase = s.begun

/-- What holds around a flip that has come so far. -/
def FlipInv [Fintype ω] (s : Crowd ω ρ) : Flip → Prop
  | .choosing => s.Quiet
  | .clearing next => s.Quiet ∧ next = Phase.nth (s.begun + 1)
  | .beginning next => s.Quiet ∧ next = Phase.nth (s.begun + 1) ∧
    s.phaser.endEpoch next = next.firstEpoch
  | .draining last stopped => ∃ n, s.begun = n + 1 ∧ last = Phase.nth n ∧
    stopped = last.firstEpoch + s.entries n ∧ s.Tallied n
  | .finished => s.Quiet ∧ ∃ n, s.begun = n + 1 ∧ s.Tallied n

/-- What holds around a reader. -/
def ReaderInv [Fintype ω] (s : Crowd ω ρ) : Reader → Prop
  | .away => True
  | .locked => s.Quiet
  | .flipping f => s.FlipInv f

/-- What the epochs, the tickets and the readers of a crowd have to do with each other. -/
structure Epochs [Fintype ω] (s : Crowd ω ρ) : Prop where
  start : s.phaser.startEpoch = (Phase.nth s.begun).firstEpoch + s.entries s.begun
  current : s.Tallied s.begun
  token : ∀ t ∈ s.tickets, (Phase.nth t.phase).firstEpoch < t.token ∧
    t.token ≤ (Phase.nth t.phase).firstEpoch + s.entries t.phase
  phase_le : ∀ t ∈ s.tickets, t.phase ≤ s.begun
  nodup : s.tickets.Nodup
  mem : ∀ w t, s.writers w = some t → t ∈ s.tickets
  recent : ∀ w t, s.writers w = some t → t.phase = s.begun ∨ t.phase + 1 = s.begun
  reader : ∀ r, s.ReaderInv (s.readers r)
  free : s.lock = none → s.Quiet

/-- What is known around a reader of which it is known what it is doing. -/
theorem Epochs.of_readers_eq [Fintype ω] (h : s.Epochs) {r : ρ} {x : Reader}
    (hr : s.readers r = x) : s.ReaderInv x := by
  rw [← hr]
  exact h.reader r

/-- The sign of a token tells the phase of its entry. -/
theorem Epochs.ofEpoch_token [Fintype ω] (h : s.Epochs) (hb : s.Unwrapped) {t : Ticket}
    (ht : t ∈ s.tickets) : Phase.ofEpoch t.token = Phase.nth t.phase := by
  have htoken := h.token t ht
  have hentries := hb t.phase
  exact Phase.ofEpoch_eq (by omega) (by omega)

/-- A phase that has not begun was never entered, and no writer of it is inside. -/
theorem Epochs.not_begun [Fintype ω] (h : s.Epochs) {n : ℕ} (hn : s.begun < n) :
    s.entries n = 0 ∧ s.present n = 0 := by
  refine ⟨entries_eq_zero fun t ht => ?_, present_eq_zero_iff.mpr fun w t hw => ?_⟩
  · have := h.phase_le t ht
    omega
  · have := h.phase_le t (h.mem w t hw)
    omega

/-! ## Writers keep the invariant -/

variable [DecidableEq ω] {w : ω} {t : Ticket}

/-- An entry counts for the current phase only. -/
theorem entries_enter (s : Crowd ω ρ) (w : ω) (n : ℕ) :
    (s.enter w).entries n = s.entries n + if s.begun = n then 1 else 0 := by
  simp [entries, enter, ticket, List.countP_cons]

/-- A writer that enters is one more of the current phase. -/
theorem present_enter [Fintype ω] {w : ω} (houtside : s.writers w = none) (n : ℕ) :
    (s.enter w).present n = s.present n + if s.begun = n then 1 else 0 := by
  have h := sum_comp_update (ofPhase n) s.writers w (some s.ticket)
  rw [houtside, ofPhase_some] at h
  exact h

/-- A writer that leaves is one less of its phase. -/
theorem present_leave [Fintype ω] {w : ω} {t : Ticket}
    (hinside : s.writers w = some t) (n : ℕ) :
    (s.leave w t).present n + (if t.phase = n then 1 else 0) = s.present n := by
  have h := sum_comp_update (ofPhase n) s.writers w none
  rw [hinside, ofPhase_some] at h
  exact h

/-- After an entry, the new ticket is inside, and those that were. -/
theorem writers_enter {v : ω} {u : Ticket} (hv : (s.enter w).writers v = some u) :
    u = s.ticket ∨ s.writers v = some u := by
  rcases update_cases hv with ⟨-, hnew⟩ | ⟨-, hold⟩
  · exact .inl (Option.some.inj hnew).symm
  · exact .inr hold

/-- A writer that enters is of the current phase. -/
theorem Quiet.enter (h : s.Quiet) : (s.enter w).Quiet := by
  intro v u hv
  rcases writers_enter hv with rfl | hold
  · rfl
  · exact h v u hold

/-- After an exit, only tickets are inside that were. -/
theorem writers_leave {v : ω} {u : Ticket} (hv : (s.leave w t).writers v = some u) :
    s.writers v = some u := by
  rcases update_cases hv with ⟨-, hnone⟩ | ⟨-, hold⟩
  · cases hnone
  · exact hold

variable [Fintype ω]

/-- An entry counts both as an entry and as a writer inside. -/
theorem Tallied.enter {n : ℕ} (h : s.Tallied n) (houtside : s.writers w = none) :
    (s.enter w).Tallied n := by
  obtain ⟨hlow, hadd⟩ := h
  refine ⟨?_, ?_⟩
  · simpa [Crowd.enter, Phaser.enter] using hlow
  · rw [present_enter houtside, entries_enter]
    simp only [Crowd.enter, Phaser.enter, Phaser.endEpoch_withStart]
    push_cast
    omega

/-- An exit counts for its own phase, and leaves the tally of phases of the other kind as it is. -/
theorem Tallied.leave {n : ℕ} (h : s.Tallied n) (hs : s.Epochs) (hb : s.Unwrapped)
    (hinside : s.writers w = some t) (hn : t.phase = n ∨ Phase.nth t.phase ≠ Phase.nth n) :
    (s.leave w t).Tallied n := by
  have hpresent := present_leave hinside n
  have hphase := hs.ofEpoch_token hb (hs.mem w t hinside)
  have hbound := hb n
  obtain ⟨hlow, hadd⟩ := h
  have hfirst := (Phase.nth n).firstEpoch_bounds
  have hend : (s.leave w t).phaser.endEpoch (Phase.nth n) =
      if Phase.nth n = Phase.nth t.phase then
        wrapEpoch (s.phaser.endEpoch (Phase.nth t.phase) + 1)
      else s.phaser.endEpoch (Phase.nth n) := by
    simp only [Crowd.leave, Phaser.leave, hphase, Phaser.endEpoch_setEndEpoch]
  have hentries : (s.leave w t).entries n = s.entries n := rfl
  rcases hn with rfl | hne
  · -- The writer itself is still inside, so that the end epoch is short of the entries.
    rw [if_pos rfl] at hend hpresent
    rw [wrapEpoch_eq (by omega) (by omega)] at hend
    exact ⟨by rw [hend]; omega, by rw [hend, hentries]; omega⟩
  · -- The exit goes to the other end epoch.
    have hne' : t.phase ≠ n := fun heq => hne (by rw [heq])
    rw [if_neg hne.symm] at hend
    rw [if_neg hne'] at hpresent
    exact ⟨by rw [hend]; exact hlow, by rw [hend, hentries]; omega⟩

/-- An entry keeps what holds around a flip. -/
theorem FlipInv.enter {f : Flip} (h : s.FlipInv f) (houtside : s.writers w = none) :
    (s.enter w).FlipInv f := by
  cases f with
  | choosing => exact Quiet.enter h
  | clearing next => exact ⟨h.1.enter, h.2⟩
  | beginning next =>
    obtain ⟨hquiet, hnext, hend⟩ := h
    exact ⟨hquiet.enter, hnext, by simpa [Crowd.enter, Phaser.enter] using hend⟩
  | draining last stopped =>
    obtain ⟨n, hn, hlast, hstopped, htally⟩ := h
    refine ⟨n, hn, hlast, ?_, htally.enter houtside⟩
    -- The phase that is drained was entered before; the new entry is of the next one.
    rw [entries_enter, if_neg (by omega), hstopped]
    rfl
  | finished =>
    obtain ⟨hquiet, n, hn, htally⟩ := h
    exact ⟨hquiet.enter, n, hn, htally.enter houtside⟩

/-- An exit keeps what holds around a flip. -/
theorem FlipInv.leave {f : Flip} (h : s.FlipInv f) (hs : s.Epochs) (hb : s.Unwrapped)
    (hinside : s.writers w = some t) : (s.leave w t).FlipInv f := by
  have hquiet_leave : s.Quiet → (s.leave w t).Quiet := fun hq v u hv => hq v u (writers_leave hv)
  cases f with
  | choosing => exact hquiet_leave h
  | clearing next => exact ⟨hquiet_leave h.1, h.2⟩
  | beginning next =>
    obtain ⟨hquiet, rfl, hend⟩ := h
    refine ⟨hquiet_leave hquiet, rfl, ?_⟩
    -- The writer is of the current phase, so its exit does not count for the next one.
    have hphase := hs.ofEpoch_token hb (hs.mem w t hinside)
    rw [hquiet w t hinside] at hphase
    simp only [Crowd.leave, Phaser.leave, hphase, Phaser.endEpoch_setEndEpoch,
      if_neg (Phase.nth_succ_ne _)]
    exact hend
  | draining last stopped =>
    obtain ⟨n, hn, hlast, hstopped, htally⟩ := h
    refine ⟨n, hn, hlast, hstopped, htally.leave hs hb hinside ?_⟩
    -- The writer is of the phase that is drained, or of the next one, which is of the other kind.
    rcases hs.recent w t hinside with hnew | hold
    · rw [hnew, hn]
      exact .inr (Phase.nth_succ_ne n)
    · exact .inl (by omega)
  | finished =>
    obtain ⟨hquiet, n, hn, htally⟩ := h
    refine ⟨hquiet_leave hquiet, n, hn, htally.leave hs hb hinside ?_⟩
    rw [hquiet w t hinside, hn]
    exact .inr (Phase.nth_succ_ne n)

/-- An entry keeps the invariant. -/
theorem Epochs.enter (h : s.Epochs) (hb : (s.enter w).Unwrapped) (houtside : s.writers w = none) :
    (s.enter w).Epochs := by
  have hentries := entries_enter s w
  have hbound := hb s.begun
  have hfirst := (Phase.nth s.begun).firstEpoch_bounds
  rw [hentries, if_pos rfl] at hbound
  have htoken : s.ticket.token = (Phase.nth s.begun).firstEpoch + s.entries s.begun + 1 := by
    show wrapEpoch (s.phaser.startEpoch + 1) = _
    rw [h.start, wrapEpoch_eq (by omega) (by omega)]
  have hreader : ∀ x, s.ReaderInv x → (s.enter w).ReaderInv x := by
    rintro (_ | _ | f) hx
    · trivial
    · exact Quiet.enter hx
    · exact FlipInv.enter hx houtside
  refine ⟨?_, h.current.enter houtside, ?_, ?_, ?_, ?_, ?_, fun r => hreader _ (h.reader r),
    fun hfree => (h.free hfree).enter⟩
  · -- The start epoch goes up with the entries.
    show s.ticket.token = (Phase.nth s.begun).firstEpoch + (s.enter w).entries s.begun
    rw [htoken, hentries, if_pos rfl]
    push_cast
    omega
  · -- All tokens of the phase stay within what the start epoch has counted.
    intro u hu
    rw [hentries]
    rcases List.mem_cons.mp hu with rfl | hold
    · rw [htoken, show s.ticket.phase = s.begun from rfl, if_pos rfl]
      push_cast
      omega
    · have := h.token u hold
      push_cast
      omega
  · intro u hu
    rcases List.mem_cons.mp hu with rfl | hold
    · exact le_rfl
    · exact h.phase_le u hold
  · -- The new token is greater than all others of the phase.
    refine List.nodup_cons.mpr ⟨fun hold => ?_, h.nodup⟩
    have hle := (h.token _ hold).2
    rw [show s.ticket.phase = s.begun from rfl] at hle
    omega
  · intro v u hv
    rcases writers_enter hv with rfl | hold
    · exact List.mem_cons_self
    · exact List.mem_cons_of_mem _ (h.mem v u hold)
  · intro v u hv
    rcases writers_enter hv with rfl | hold
    · exact .inl rfl
    · exact h.recent v u hold

/-- An exit keeps the invariant. -/
theorem Epochs.leave (h : s.Epochs) (hb : s.Unwrapped) (hinside : s.writers w = some t) :
    (s.leave w t).Epochs := by
  have hquiet : s.Quiet → (s.leave w t).Quiet := fun hq v u hv => hq v u (writers_leave hv)
  have hreader : ∀ x, s.ReaderInv x → (s.leave w t).ReaderInv x := by
    rintro (_ | _ | f) hx
    · trivial
    · exact hquiet hx
    · exact FlipInv.leave hx h hb hinside
  refine ⟨?_, h.current.leave h hb hinside ?_, h.token, h.phase_le, h.nodup,
    fun v u hv => h.mem v u (writers_leave hv), fun v u hv => h.recent v u (writers_leave hv),
    fun r => hreader _ (h.reader r), fun hfree => hquiet (h.free hfree)⟩
  · rw [Crowd.leave, Phaser.leave, Phaser.startEpoch_setEndEpoch]
    exact h.start
  · -- The exit of a writer of the phase before goes to the other end epoch.
    rcases h.recent w t hinside with hnew | hold
    · exact .inl hnew
    · rw [← hold]
      exact .inr (Phase.nth_succ_ne _).symm

/-! ## Readers keep the invariant -/

omit [Fintype ω] in
/-- Steps forget no entry. -/
theorem Step.unwrapped [DecidableEq ρ] (h : Step s s') (hb : s'.Unwrapped) : s.Unwrapped := by
  intro n
  have hn := hb n
  cases h with
  | enter => exact lt_of_le_of_lt (by rw [entries_enter]; omega) hn
  | _ => exact hn

variable [DecidableEq ρ] {r : ρ}

omit [DecidableEq ω] [Fintype ω] in
/-- Looking whether a phase is drained changes nothing but where the flip stands. -/
theorem advance_draining (s : Crowd ω ρ) (r : ρ) (last : Phase) (stopped : ℤ) :
    s.advance r (.draining last stopped) =
      s.turn r (.flipping (if s.phaser.endEpoch last = stopped then .finished
        else .draining last stopped)) := by
  unfold Crowd.advance
  rw [Flip.step_draining]
  rfl

omit [DecidableEq ω] [Fintype ω] in
@[simp]
theorem turn_readers (s : Crowd ω ρ) (r : ρ) (x : Reader) (q : ρ) :
    (s.turn r x).readers q = if q = r then x else s.readers q := by
  rw [← Function.update_apply]
  rfl

omit [DecidableEq ω] in
/-- A reader that turns to something for which the crowd is ready keeps the invariant. -/
theorem Epochs.turn (h : s.Epochs) {x : Reader} {lock : Option ρ} (hx : s.ReaderInv x)
    (hfree : lock = none → s.Quiet) : { s.turn r x with lock := lock }.Epochs := by
  refine ⟨h.start, h.current, h.token, h.phase_le, h.nodup, h.mem, h.recent,
    fun q => ?_, hfree⟩
  show s.ReaderInv ((s.turn r x).readers q)
  rw [turn_readers]
  split
  · exact hx
  · exact h.reader q

omit [DecidableEq ω] in
/-- A step of a flip keeps the invariant, when the other readers are away. -/
theorem Epochs.advance (h : s.Epochs) (hb : s.Unwrapped) {f : Flip}
    (hflipping : s.readers r = .flipping f) (hothers : ∀ q, q ≠ r → s.readers q = .away)
    (hlock : s.lock = some r) : (s.advance r f).Epochs := by
  have hf : s.FlipInv f := h.of_readers_eq hflipping
  have hfree : ∀ p : Prop, s.lock = none → p := by simp [hlock]
  have hphase : Phase.ofEpoch s.phaser.startEpoch = Phase.nth s.begun := by
    have hstart := h.start
    have hbound := hb s.begun
    exact Phase.ofEpoch_eq (by omega) (by omega)
  have hreader : ∀ (s' : Crowd ω ρ) x, s'.ReaderInv x →
      ∀ q, s'.ReaderInv ((s.turn r x).readers q) := by
    intro s' x hx q
    rw [turn_readers]
    split
    · exact hx
    · next hne =>
      rw [hothers q hne]
      trivial
  cases f with
  | choosing =>
    refine h.turn (x := .flipping (.clearing (Phase.ofEpoch s.phaser.startEpoch).other)) ?_
      (hfree _)
    exact ⟨hf, by rw [hphase, Phase.nth_succ]⟩
  | clearing next =>
    obtain ⟨hquiet, rfl⟩ := hf
    obtain ⟨hlow, hadd⟩ := h.current
    -- The current phase is of the other kind, so its exits are not cleared.
    have hkept : (s.phaser.clearExits (Phase.nth (s.begun + 1))).endEpoch (Phase.nth s.begun) =
        s.phaser.endEpoch (Phase.nth s.begun) := by
      rw [Phaser.clearExits, Phaser.endEpoch_setEndEpoch, if_neg (Phase.nth_succ_ne _).symm]
    refine ⟨?_, ⟨?_, ?_⟩, h.token, h.phase_le, h.nodup, h.mem, h.recent,
      hreader _ _ ⟨hquiet, rfl, ?_⟩, hfree _⟩
    · show (s.phaser.clearExits _).startEpoch = _
      rw [Phaser.clearExits, Phaser.startEpoch_setEndEpoch]
      exact h.start
    · exact hlow.trans_eq hkept.symm
    · exact (congrArg (· + (s.present s.begun : ℤ)) hkept).trans hadd
    · show (s.phaser.clearExits _).endEpoch _ = _
      rw [Phaser.clearExits, Phaser.endEpoch_setEndEpoch, if_pos rfl]
  | beginning next =>
    obtain ⟨hquiet, rfl, hend⟩ := hf
    obtain ⟨hlow, hadd⟩ := h.current
    obtain ⟨hentries, hpresent⟩ := h.not_begun (Nat.lt_succ_self _)
    have hother : (Phase.nth (s.begun + 1)).other = Phase.nth s.begun := by
      rw [Phase.nth_succ, Phase.other_other]
    have hkept : ∀ k, (s.phaser.begin (Phase.nth (s.begun + 1))).2.endEpoch k =
        s.phaser.endEpoch k := Phaser.endEpoch_withStart _ _
    refine ⟨?_, ⟨?_, ?_⟩, h.token, fun t ht => (h.phase_le t ht).trans (Nat.le_succ _), h.nodup,
      h.mem, fun w t hw => .inr (congrArg (· + 1) (hquiet w t hw)),
      hreader _ _ ⟨s.begun, rfl, hother, ?_, ?_, ?_⟩, hfree _⟩
    -- Nobody has entered the new phase yet, and its exits were cleared.
    · show (Phase.nth (s.begun + 1)).firstEpoch = _ + (s.entries (s.begun + 1) : ℤ)
      rw [hentries]
      simp [Crowd.advance]
    · show _ ≤ (s.phaser.begin _).2.endEpoch (Phase.nth (s.begun + 1))
      rw [hkept, hend]
      exact le_rfl
    · show (s.phaser.begin _).2.endEpoch (Phase.nth (s.begun + 1)) + (s.present (s.begun + 1) : ℤ) =
        (Phase.nth (s.begun + 1)).firstEpoch + (s.entries (s.begun + 1) : ℤ)
      rw [hkept, hend, hentries, hpresent]
    -- What was tallied for the current phase is tallied for it now that it is drained.
    · rw [hother]
      exact h.start
    · exact hlow.trans_eq (hkept _).symm
    · exact (congrArg (· + (s.present s.begun : ℤ)) (hkept _)).trans hadd
  | draining last stopped =>
    obtain ⟨n, hn, rfl, rfl, hlow, hadd⟩ := hf
    by_cases hdrained : s.phaser.endEpoch (Phase.nth n) = (Phase.nth n).firstEpoch + s.entries n
    · -- The epochs agree, so that all writers inside are of the current phase.
      have hpresent : s.present n = 0 := by omega
      have hquiet : s.Quiet := by
        intro w t hw
        have := h.recent w t hw
        have := present_eq_zero_iff.mp hpresent w t hw
        omega
      rw [advance_draining, if_pos hdrained]
      exact h.turn (x := .flipping .finished) ⟨hquiet, n, hn, hlow, hadd⟩ (hfree _)
    · rw [advance_draining, if_neg hdrained]
      exact h.turn (x := .flipping (.draining _ _)) ⟨n, hn, rfl, rfl, hlow, hadd⟩ (hfree _)
  | finished => exact h.turn (x := .flipping .finished) hf (hfree _)

/-! ## The lock -/

omit [Fintype ω] in
/-- The reader that holds the lock is the one that is not away. -/
theorem Reachable.lock_iff (h : s.Reachable) : ∀ r, s.readers r ≠ .away ↔ s.lock = some r := by
  induction h with
  | refl => simp [initial]
  | @tail s _ _ hstep ih =>
    -- A reader that turns to something else while it holds the lock still holds it.
    have hturn : ∀ q x, s.readers q ≠ .away → x ≠ Reader.away →
        ∀ r, (s.turn q x).readers r ≠ .away ↔ s.lock = some r := by
      intro q x hq hx r
      rw [← ih, turn_readers]
      split
      · next heq => simp [heq, hq, hx]
      · rfl
    cases hstep with
    | enter | leave => exact ih
    | @acquire q haway hfree =>
      intro r
      have hr := ih r
      rcases eq_or_ne r q with rfl | hne
      · simp [Crowd.acquire, turn]
      · simpa [Crowd.acquire, turn, hne, hfree, hne.symm] using hr
    | @release q hlocked =>
      intro r
      rcases eq_or_ne r q with rfl | hne
      · simp [Crowd.release, turn]
      · have hq : s.lock = some q := (ih q).mp (by simp [hlocked])
        -- The lock had one holder, so the reader was away before.
        have hr : s.readers r = .away := by
          by_contra haway
          rw [(ih r).mp haway] at hq
          exact hne (Option.some.inj hq)
        simp [Crowd.release, turn, hne, hr]
    | start hlocked => exact hturn _ _ (by simp [hlocked]) (by simp)
    | advance hflipping _ => exact hturn _ _ (by simp [hflipping]) (by simp)
    | finish hfinished => exact hturn _ _ (by simp [hfinished]) (by simp)

omit [Fintype ω] in
/-- At most one reader is not away. -/
theorem Reachable.reader_unique (h : s.Reachable) {r r' : ρ} (hr : s.readers r ≠ .away)
    (hr' : s.readers r' ≠ .away) : r = r' := by
  rw [h.lock_iff] at hr hr'
  exact Option.some.inj (hr.symm.trans hr')

/-! ## The barrier -/

/-- The invariant holds in every crowd whose epochs did not start over. -/
theorem Reachable.epochs (h : s.Reachable) (hb : s.Unwrapped) : s.Epochs := by
  induction h with
  | refl =>
    have htally : (initial : Crowd ω ρ).Tallied 0 := by
      simp [Tallied, initial, present, entries, ofPhase, Phaser.initial, Phaser.endEpoch, Phase.nth]
    refine ⟨rfl, htally, ?_, ?_, List.nodup_nil, ?_, ?_, fun r => trivial, ?_⟩ <;>
      simp [initial, Quiet]
  | @tail s s' hreach hstep ih =>
    have hbefore := hstep.unwrapped hb
    have hs := ih hbefore
    have hlock := Reachable.lock_iff hreach
    cases hstep with
    | enter houtside => exact hs.enter hb houtside
    | leave hinside => exact hs.leave hb hinside
    | acquire haway hfree => exact hs.turn (x := .locked) (hs.free hfree) (by simp)
    -- The reader whose turn it is holds the lock.
    | @start r hlocked =>
      have hheld := (hlock r).mp (by simp [hlocked])
      have hquiet : s.Quiet := hs.of_readers_eq hlocked
      exact hs.turn (x := .flipping .choosing) hquiet (by simp [hheld])
    | @advance r f hflipping hunfinished =>
      refine hs.advance hbefore hflipping (fun q hne => ?_)
        ((hlock r).mp (by simp [hflipping]))
      by_contra haway
      exact hne (Reachable.reader_unique hreach haway (by simp [hflipping]))
    | @finish r hfinished =>
      have hheld := (hlock r).mp (by simp [hfinished])
      have hflip : s.FlipInv .finished := hs.of_readers_eq hfinished
      exact hs.turn (x := .locked) hflip.1 (by simp [hheld])
    | @release r hlocked =>
      exact hs.turn (x := .away) trivial fun _ => hs.of_readers_eq hlocked

end Crowd

end DynamicRange
