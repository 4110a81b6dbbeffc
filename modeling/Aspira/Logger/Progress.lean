import Aspira.Logger.Delivery

/-!
# Logger — Progress

Nothing in the logger waits for what cannot come: from every state that a run reaches, some order of
steps brings `logger_shutdown` to its return (`Sound.can_finish`).

The argument is a measure.  What the writers have left to do goes down with every step of theirs that
is not a wait; while they wait for the logger, `running` is false, and what the logger has left to do
goes down with every step of its own.
-/

namespace Aspira

open Spsc (Consumer.left Producer.left)

/-- The steps that a call of `logger_write` has left, at most. -/
def WriterPc.left : WriterPc → ℕ
  | .idle => 0
  | .popping _ k => 5 + Consumer.left k
  | .filling _ _ => 5
  | .pushing _ _ k => Producer.left k

/-- The steps that the logger has left until it has seen `running` cleared and the filled ring empty,
less those for what is in the ring. -/
def LoggerPc.left : LoggerPc → ℕ
  | .checking => 6
  | .popping k => 6 + Consumer.left k
  | .flushing _ => 11
  | .returning _ k => 6 + Producer.left k
  | .draining k => 1 + Consumer.left k
  | .flushingLast _ => 6
  | .exited => 0

theorem consumer_left_pos (k : Consumer ℕ) : 0 < Consumer.left k := by
  cases k <;> simp [Consumer.left]

theorem producer_left_pos (k : Producer ℕ) : 0 < Producer.left k := by
  cases k <;> simp [Producer.left]

namespace Logger

/-- The steps that a writer has left, at most. -/
def work (s : Logger) (w : LogWriter) : ℕ := (s.pc w).left + 10 * (s.todo w).length

variable {n cap : ℕ} {s s' : Logger} {free filled free' filled' : List ℕ} {w : LogWriter}
  {r : LogReport} {date : ℕ → List UInt8} {all : LogWriter → List LogCall}

/-- A writer that does not wait gets on. -/
theorem WriterMove.work_lt (hm : WriterMove s w free filled r s' free' filled')
    (hw : ¬ s.Waits w) : s'.work w < s.work w := by
  cases hm with
  | wait h => exact absurd h hw
  | enter _ pc todo =>
      simp only [work, move, advance, pc, todo, Function.update_self, WriterPc.left, Consumer.left,
        List.length_cons]
      omega
  | spawnIo pc todo => simp [work, advance, pc, todo]
  | joinIo pc todo _ => simp [work, advance, pc, todo]
  | clearRunning pc todo => simp [work, advance, pc, todo]
  | joinLogger pc todo _ => simp [work, advance, pc, todo]
  | popOn pc left => simpa [work, move, pc, WriterPc.left] using left
  | drop pc _ => simp [work, leave, pc, WriterPc.left]
  | @take c k _ e _ pc _ =>
      have hpos := consumer_left_pos k
      simpa [work, move, pc, WriterPc.left] using hpos
  | fill pc => simp [work, move, pc, WriterPc.left, Producer.left]
  | pushOn pc left => simpa [work, move, pc, WriterPc.left] using left
  | @pushed c e k _ pc =>
      have hpos := producer_left_pos k
      simpa [work, leave, pc, WriterPc.left] using hpos

/-- The other writer has as much left as before. -/
theorem WriterMove.work_other (hm : WriterMove s w free filled r s' free' filled') :
    s'.work w.other = s.work w.other := by
  have hne : w.other ≠ w := by cases w <;> decide
  obtain ⟨hpc, htodo, -⟩ := hm.frame.2.2 w.other hne
  rw [work, work, hpc, htodo]

/-- What the two writers have left. -/
theorem WriterMove.works_lt (hm : WriterMove s w free filled r s' free' filled')
    (hw : ¬ s.Waits w) : s'.work .main + s'.work .io < s.work .main + s.work .io := by
  have hlt := hm.work_lt hw
  have hother := hm.work_other
  cases w with
  | main =>
      simp only [LogWriter.other] at hother
      omega
  | io =>
      simp only [LogWriter.other] at hother
      omega

/-- After `running` is cleared the logger gets on until it returns. -/
theorem LoggerMove.left_lt (hm : LoggerMove date s free filled r s' free' filled')
    (hrun : s.running = false) (hne : s.logger ≠ .exited) :
    s'.logger.left + 10 * filled'.length < s.logger.left + 10 * filled.length := by
  cases hm with
  | check pc => simp [pc, hrun, LoggerPc.left, Consumer.left]
  | popOn pc left => simpa [pc, LoggerPc.left] using left
  | pop pc first =>
      simp only [pc, first, LoggerPc.left, List.length_cons]
      omega
  | @idle k _ pc empty =>
      have hpos := consumer_left_pos k
      simpa [pc, empty, LoggerPc.left] using hpos
  | flush pc => simp [pc, LoggerPc.left, Producer.left]
  | returnOn pc left => simpa [pc, LoggerPc.left] using left
  | @returned e k _ pc =>
      have hpos := producer_left_pos k
      simpa [pc, LoggerPc.left] using hpos
  | drainOn pc left => simpa [pc, LoggerPc.left] using left
  | drain pc first =>
      simp only [pc, first, LoggerPc.left, List.length_cons]
      omega
  | exit pc empty => simp [pc, empty, LoggerPc.left]
  | flushLast pc => simp [pc, LoggerPc.left, Consumer.left]
  | exited pc => exact absurd pc hne

/-- Of the writers in a call, one can go on with it. -/
theorem exists_spaced (hw : s.pc w ≠ .idle) : ∃ v, s.pc v ≠ .idle ∧ s.Spaced (.writer v) := by
  by_cases hs : s.Spaced (.writer w)
  · exact ⟨w, hw, hs⟩
  · -- the other is in the middle of the same operation, and goes on with that
    refine ⟨w.other, ?_, ?_⟩
    · intro hidle
      exact hs (spaced_of_idle (by rw [hidle]; rfl) (by rw [hidle]; rfl))
    · have hbusy : (s.pc w.other).pop = .idle → (s.pc w.other).push ≠ .idle :=
        fun h₁ h₂ => hs (spaced_of_idle h₁ h₂)
      simp only [Spaced]
      split
      · rename_i hpc
        rw [hpc] at hbusy
        exact absurd rfl (hbusy rfl)
      · rename_i hpc
        rw [hpc] at hbusy
        exact absurd rfl (hbusy rfl)
      · trivial

/-- **Some thread can get on**, until `logger_shutdown` has returned. -/
theorem Sound.advance (h : Sound date n cap all s free filled) (hf : ¬ s.Finished) :
    ∃ t r s' free' filled', s.Spaced t ∧ Logger.step date s t = some (r, s') ∧
      Sound date n cap all s' free' filled' ∧
      (s'.work .main + s'.work .io < s.work .main + s.work .io ∨
        s'.work .main + s'.work .io = s.work .main + s.work .io ∧
        s'.logger.left + 10 * filled'.length < s.logger.left + 10 * filled.length) := by
  -- a writer that is not waiting
  have hwriter : ∀ w, s.Spaced (.writer w) → ¬ s.Waits w →
      ∃ t r s' free' filled', s.Spaced t ∧ Logger.step date s t = some (r, s') ∧
        Sound date n cap all s' free' filled' ∧
        (s'.work .main + s'.work .io < s.work .main + s.work .io ∨
          s'.work .main + s'.work .io = s.work .main + s.work .io ∧
          s'.logger.left + 10 * filled'.length < s.logger.left + 10 * filled.length) := by
    intro w hs hw
    obtain ⟨r, s', free', filled', hstep, hm, h'⟩ := h.writer hs
    exact ⟨.writer w, r, s', free', filled', hs, hstep, h', .inl (hm.works_lt hw)⟩
  by_cases hbusy : ∃ w, s.pc w ≠ .idle
  · obtain ⟨w, hw⟩ := hbusy
    obtain ⟨v, hv, hs⟩ := exists_spaced hw
    refine hwriter v hs fun hwaits => ?_
    cases hwaits with
    | unborn hlive =>
        cases v with
        | main => cases hlive
        | io => exact hv (h.spawns hlive).1
    | done pc _ => exact hv pc
    | io pc _ _ => exact hv pc
    | logger pc _ _ => exact hv pc
  · have hidle : ∀ w, s.pc w = .idle := fun w => by
      by_contra hw
      exact hbusy ⟨w, hw⟩
    have hspaced : ∀ w, s.Spaced (.writer w) := fun w => by
      simp only [Spaced, hidle]
    by_cases hmain : s.Waits .main
    · cases hmain with
      | unborn hlive => cases hlive
      | done pc todo => exact absurd ⟨pc, todo⟩ hf
      | @io ops pc todo busy =>
          -- the I/O thread was spawned, and has a message to log
          refine hwriter .io (hspaced .io) fun hwaits => ?_
          cases hwaits with
          | unborn hlive =>
              have hfirst := (h.spawns hlive).2
              rw [todo] at hfirst
              cases hfirst
          | done pc' todo' =>
              rw [ioDone_iff.mpr ⟨pc', todo'⟩] at busy
              cases busy
          | io pc' todo' _ =>
              obtain ⟨c, hc⟩ := h.staged.ioLogs _ (todo' ▸ List.mem_cons_self ..)
              cases hc
          | logger pc' todo' _ =>
              obtain ⟨c, hc⟩ := h.staged.ioLogs _ (todo' ▸ List.mem_cons_self ..)
              cases hc
      | @logger ops pc todo busy =>
          obtain ⟨r, s', free', filled', hstep, hm, h'⟩ := h.logger
          have hrun : s.running = false := h.staged.phase.closing_of_join todo
          have hne : s.logger ≠ .exited := fun he => by
            rw [loggerDone_iff.mpr he] at busy
            cases busy
          refine ⟨.logger, r, s', free', filled', trivial, hstep, h', .inr ⟨?_, ?_⟩⟩
          · obtain ⟨hpc, htodo, -⟩ := hm.frame
            simp only [work, hpc, htodo]
          · exact hm.left_lt hrun hne
    · exact hwriter .main (hspaced .main) hmain

/-- **`logger_shutdown` can always be brought to its return**, by steps that are `Spaced`. -/
theorem Sound.can_finish {s : Logger} {free filled : List ℕ}
    (h : Sound date n cap all s free filled) :
    ∃ turns rs s', Run.Along (Logger.step date) Spaced s turns ∧
      Run.exec (Logger.step date) s turns = some (rs, s') ∧ s'.Finished := by
  by_cases hf : s.Finished
  · exact ⟨[], [], s, trivial, rfl, hf⟩
  · obtain ⟨t, r, s₁, free₁, filled₁, hs, hstep, h₁, hless⟩ := h.advance hf
    obtain ⟨turns, rs, s', halong, hexec, hfin⟩ := h₁.can_finish
    refine ⟨t :: turns, r :: rs, s', ⟨hs, ?_⟩, Run.exec_cons hstep hexec, hfin⟩
    rw [hstep]
    exact halong
termination_by (s.work .main + s.work .io, s.logger.left + 10 * filled.length)
decreasing_by
  rcases hless with hlt | ⟨heq, hlt⟩
  · exact Prod.Lex.left _ _ hlt
  · rw [heq]
    exact Prod.Lex.right _ hlt

end Logger

end Aspira
