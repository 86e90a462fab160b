import DynamicRange.Proofs.Phaser.Epochs

/-!
# A flip waits for the writers of earlier phases, and for no others

`reachable_barrier` says what the steps of a flip find, however writers and readers are
interleaved. Once a new phase has begun, the end epoch of the phase before has come to where its
start epoch stopped exactly when every writer that entered before the new phase began has left. So
a flip that is finished leaves no writer of an earlier phase inside, a flip is never held up by the
writers of the phase that it began, and the end epoch that a flip clears has no exit to come.

All of it is read off the invariant `Crowd.Epochs`: while a phase is drained its exits are tallied,
so that its end epoch lacks just the writers of that phase that are still inside.
-/

namespace DynamicRange

namespace Crowd

variable {ω ρ : Type} {s : Crowd ω ρ}

/-- No writer that entered before the current phase began is inside. -/
def Drained (s : Crowd ω ρ) : Prop := ∀ w t, s.writers w = some t → ¬t.phase < s.begun

/-- What a phaser owes to the readers that flip it. -/
structure Barrier (s : Crowd ω ρ) : Prop where
  /-- A flip that waits finds the epochs to agree exactly when all earlier writers have left. -/
  agree_iff : ∀ r last stopped, s.readers r = .flipping (.draining last stopped) →
    (s.phaser.endEpoch last = stopped ↔ s.Drained)
  /-- The next step of a flip finishes it unless an earlier writer is inside. -/
  unhindered : ∀ r last stopped, s.readers r = .flipping (.draining last stopped) → s.Drained →
    (Flip.draining last stopped).step s.phaser = (s.phaser, .finished)
  /-- When a flip is finished, no writer of an earlier phase is inside, and the epochs agree. -/
  finished : ∀ r, s.readers r = .flipping .finished → s.Drained ∧
    ∃ n, s.begun = n + 1 ∧
      s.phaser.endEpoch (Phase.nth n) = (Phase.nth n).firstEpoch + s.entries n
  /-- No writer inside will change the end epoch that a flip is to clear or has cleared. -/
  cleared : ∀ r next, s.readers r = .flipping (.clearing next) ∨
    s.readers r = .flipping (.beginning next) →
    ∀ w t, s.writers w = some t → Phase.ofEpoch t.token ≠ next
  /-- The sign of a token names the phase of the entry that it was given for. -/
  sign : ∀ t ∈ s.tickets, Phase.ofEpoch t.token = Phase.nth t.phase
  /-- Two entries into one phase were given different tokens. -/
  distinct : s.tickets.Nodup
  /-- A writer inside has the token of one of the entries. -/
  held : ∀ w t, s.writers w = some t → t ∈ s.tickets
  /-- At most one reader holds the lock. -/
  alone : ∀ r r', s.readers r ≠ .away → s.readers r' ≠ .away → r = r'

/-- When only writers of the current phase are inside, the earlier ones have left. -/
theorem Quiet.drained (h : s.Quiet) : s.Drained := by
  intro w t hw hbefore
  rw [h w t hw] at hbefore
  exact lt_irrefl _ hbefore

variable [Fintype ω]

/-- Where the exits of the phase before are tallied, its end epoch has come to where its start epoch
stopped exactly when the earlier writers have left. -/
theorem Tallied.agree_iff {n : ℕ} (h : s.Tallied n) (hs : s.Epochs) (hn : s.begun = n + 1) :
    s.phaser.endEpoch (Phase.nth n) = (Phase.nth n).firstEpoch + s.entries n ↔ s.Drained := by
  have hadd := h.2
  have hpresent : s.phaser.endEpoch (Phase.nth n) = (Phase.nth n).firstEpoch + s.entries n ↔
      s.present n = 0 := by omega
  rw [hpresent, present_eq_zero_iff]
  refine forall_congr' fun w => forall_congr' fun t => imp_congr_right fun hw => ?_
  -- A writer inside is of the current phase or of the one before.
  have hrecent := hs.recent w t hw
  omega

variable [DecidableEq ω] [DecidableEq ρ]

/-- However writers and readers are interleaved, flips wait for exactly the writers of earlier
phases. -/
theorem reachable_barrier (hs : s.Reachable) (hb : s.Unwrapped) : s.Barrier := by
  have hepochs := hs.epochs hb
  have hflip : ∀ {r f}, s.readers r = .flipping f → s.FlipInv f :=
    fun hr => hepochs.of_readers_eq hr
  have hagree : ∀ r last stopped, s.readers r = .flipping (.draining last stopped) →
      (s.phaser.endEpoch last = stopped ↔ s.Drained) := by
    intro r last stopped hr
    obtain ⟨n, hn, rfl, rfl, htally⟩ := hflip hr
    exact htally.agree_iff hepochs hn
  refine ⟨hagree, ?_, ?_, ?_, fun t ht => hepochs.ofEpoch_token hb ht, hepochs.nodup, hepochs.mem,
    fun r r' => hs.reader_unique⟩
  · intro r last stopped hr hdrained
    rw [Flip.step_draining, if_pos ((hagree r last stopped hr).mpr hdrained)]
  · intro r hr
    obtain ⟨hquiet, n, hn, htally⟩ := hflip hr
    exact ⟨hquiet.drained, n, hn, (htally.agree_iff hepochs hn).mpr hquiet.drained⟩
  · intro r next hr w t hw
    obtain ⟨hquiet, rfl⟩ : s.Quiet ∧ next = Phase.nth (s.begun + 1) := by
      rcases hr with hclearing | hbeginning
      · exact hflip hclearing
      · exact ⟨(hflip hbeginning).1, (hflip hbeginning).2.1⟩
    rw [hepochs.ofEpoch_token hb (hepochs.mem w t hw), hquiet w t hw]
    exact (Phase.nth_succ_ne _).symm

/-- A writer enters, a reader flips up to where it waits for that writer, and another writer enters
the new phase. -/
def waiting : Crowd Bool Unit :=
  let locked := (initial.enter false).acquire ()
  let chosen := (locked.turn () (.flipping .choosing)).advance () .choosing
  let begun := (chosen.advance () (.clearing .odd)).advance () (.beginning .odd)
  begun.enter true

/-- Threads can come to where the reader waits. -/
theorem waiting_reachable : waiting.Reachable := by
  have hnew : (initial : Crowd Bool Unit).Reachable := .refl
  have hlocked := (hnew.tail (.enter (w := false) rfl)).tail (.acquire (r := ()) rfl rfl)
  have hchosen := (hlocked.tail (.start (r := ()) rfl)).tail
    (.advance (r := ()) (f := .choosing) rfl (by decide))
  have hcleared := hchosen.tail (.advance (r := ()) (f := .clearing .odd) rfl (by decide))
  have hbegun := hcleared.tail (.advance (r := ()) (f := .beginning .odd) rfl (by decide))
  exact hbegun.tail (.enter (w := true) rfl)

/-- The reader waits for the writer that was there before, and not for the other one. -/
theorem waiting_barrier :
    waiting.readers () = .flipping (.draining .even 1) ∧ waiting.Barrier := by
  refine ⟨by decide, reachable_barrier waiting_reachable fun n => ?_⟩
  have hentries : waiting.entries n ≤ waiting.tickets.length := List.countP_le_length
  have hlength : waiting.tickets.length = 2 := rfl
  omega

end Crowd

end DynamicRange
