import Aspira.Logger.Logger

/-!
# Logger — Circulation

Where the entries are.  `Circulates n cap s free filled` says that the two rings hold `free` and
`filled` and that these, with what the threads have in hand, are the entries `0` to `n - 1`, each in
one place.

`Spaced` is what the rings need of the two writers: neither begins a pop, or a push, while the other
is in the middle of one.  A step of that kind does one of the things that `WriterMove` and
`LoggerMove` list, and keeps `Circulates` (`Circulates.writer`, `Circulates.logger`); no push finds
its ring full.
-/

namespace Aspira

open Spsc (Shared Produced Consumed stepProducer stepConsumer Producer.Carries)

/-- The other writer. -/
def LogWriter.other : LogWriter → LogWriter
  | .main => .io
  | .io => .main

theorem LogWriter.eq_other {v w : LogWriter} (h : v ≠ w) : v = w.other := by
  cases v <;> cases w <;> first | rfl | exact absurd rfl h

namespace WriterPc

/-- The call of `ring_buffer_pop` that the writer is in. -/
def pop : WriterPc → Consumer ℕ
  | .popping _ k => k
  | _ => .idle

/-- The call of `ring_buffer_push` that the writer is in. -/
def push : WriterPc → Producer ℕ
  | .pushing _ _ k => k
  | _ => .idle

/-- The entry that the writer has. -/
def hand : WriterPc → List ℕ
  | .filling _ e | .pushing _ e _ => [e]
  | _ => []

end WriterPc

namespace LoggerPc

/-- The call of `ring_buffer_pop` that the logger is in. -/
def pop : LoggerPc → Consumer ℕ
  | .popping k | .draining k => k
  | _ => .idle

/-- The call of `ring_buffer_push` that the logger is in. -/
def push : LoggerPc → Producer ℕ
  | .returning _ k => k
  | _ => .idle

/-- The entry that the logger has. -/
def hand : LoggerPc → List ℕ
  | .flushing e | .returning e _ | .flushingLast e => [e]
  | _ => []

end LoggerPc

namespace Logger

/-- The writer begins a pop of the free ring only while the other is in none, and a push to the
filled ring only while the other is in none. -/
def Spaced (s : Logger) : LogTurn → Prop
  | .logger => True
  | .writer w =>
      match s.pc w with
      | .popping _ .idle => (s.pc w.other).pop = .idle
      | .pushing _ _ .idle => (s.pc w.other).push = .idle
      | _ => True

/-- The rings, what is in them and what the threads have. -/
structure Circulates (n cap : ℕ) (s : Logger) (free filled : List ℕ) : Prop where
  freeRing : Shared cap s.free (fun _ : Unit => s.logger.push) (fun w => (s.pc w).pop) free
  filledRing : Shared cap s.filled (fun w => (s.pc w).push) (fun _ : Unit => s.logger.pop) filled
  entries : (free ++ filled ++ (s.pc .main).hand ++ (s.pc .io).hand ++ s.logger.hand ++
    s.retired).Perm (List.range n)
  room : n < cap
  pushes : ∀ w c e k, s.pc w = .pushing c e k → Producer.Carries (some e) k
  returns : ∀ e k, s.logger = .returning e k → Producer.Carries (some e) k

/-- The writer can do nothing: it does not exist, has no more to do, or waits for another thread. -/
inductive Waits (s : Logger) (w : LogWriter) : Prop where
  | unborn (h : s.live w = false)
  | done (pc : s.pc w = .idle) (todo : s.todo w = [])
  | io {ops : List LogOp} (pc : s.pc w = .idle) (todo : s.todo w = .joinIo :: ops)
      (busy : s.ioDone = false)
  | logger {ops : List LogOp} (pc : s.pc w = .idle) (todo : s.todo w = .joinLogger :: ops)
      (busy : s.loggerDone = false)

/-- What a step of a writer does, where the rings hold `free` and `filled` before it. -/
inductive WriterMove (s : Logger) (w : LogWriter) (free filled : List ℕ) :
    LogReport → Logger → List ℕ → List ℕ → Prop where
  | wait (h : s.Waits w) : WriterMove s w free filled .quiet s free filled
  | enter {c : LogCall} {ops : List LogOp} (live : s.live w = true) (pc : s.pc w = .idle)
      (todo : s.todo w = .log c :: ops) :
      WriterMove s w free filled .quiet ((s.advance w ops).move w (.popping c .idle)) free filled
  | spawnIo {ops : List LogOp} (pc : s.pc w = .idle) (todo : s.todo w = .spawnIo :: ops) :
      WriterMove s w free filled .quiet { s.advance w ops with spawned := true } free filled
  | joinIo {ops : List LogOp} (pc : s.pc w = .idle) (todo : s.todo w = .joinIo :: ops)
      (done : s.ioDone = true) :
      WriterMove s w free filled .quiet (s.advance w ops) free filled
  | clearRunning {ops : List LogOp} (pc : s.pc w = .idle) (todo : s.todo w = .clearRunning :: ops) :
      WriterMove s w free filled .quiet { s.advance w ops with running := false } free filled
  | joinLogger {ops : List LogOp} (pc : s.pc w = .idle) (todo : s.todo w = .joinLogger :: ops)
      (done : s.loggerDone = true) :
      WriterMove s w free filled .quiet (s.advance w ops) free filled
  | popOn {c : LogCall} {k k' : Consumer ℕ} {rb : RingBuffer ℕ} (pc : s.pc w = .popping c k)
      (left : Spsc.Consumer.left k' < Spsc.Consumer.left k) :
      WriterMove s w free filled .quiet ({ s with free := rb }.move w (.popping c k')) free filled
  | drop {c : LogCall} {k : Consumer ℕ} {rb : RingBuffer ℕ} (pc : s.pc w = .popping c k)
      (empty : free = []) :
      WriterMove s w free filled .dropped ({ s with free := rb }.leave w c false) [] filled
  | take {c : LogCall} {k : Consumer ℕ} {rb : RingBuffer ℕ} {e : ℕ} {free' : List ℕ}
      (pc : s.pc w = .popping c k) (first : free = e :: free') :
      WriterMove s w free filled .quiet ({ s with free := rb }.move w (.filling c e)) free' filled
  | fill {c : LogCall} {e : ℕ} (pc : s.pc w = .filling c e) :
      WriterMove s w free filled .quiet
        ({ s with pool := Function.update s.pool e c.entry }.move w (.pushing c e .idle)) free
        filled
  | pushOn {c : LogCall} {e : ℕ} {k k' : Producer ℕ} {rb : RingBuffer ℕ}
      (pc : s.pc w = .pushing c e k) (left : Spsc.Producer.left k' < Spsc.Producer.left k) :
      WriterMove s w free filled .quiet ({ s with filled := rb }.move w (.pushing c e k')) free
        filled
  | pushed {c : LogCall} {e : ℕ} {k : Producer ℕ} {rb : RingBuffer ℕ}
      (pc : s.pc w = .pushing c e k) :
      WriterMove s w free filled (.push true) ({ s with filled := rb }.leave w c true) free
        (filled ++ [e])

/-- What a step of the logger does, where the rings hold `free` and `filled` before it. -/
inductive LoggerMove (date : ℕ → List UInt8) (s : Logger) (free filled : List ℕ) :
    LogReport → Logger → List ℕ → List ℕ → Prop where
  | check (pc : s.logger = .checking) :
      LoggerMove date s free filled .quiet
        { s with logger := if s.running then .popping .idle else .draining .idle } free filled
  | popOn {k k' : Consumer ℕ} {rb : RingBuffer ℕ} (pc : s.logger = .popping k)
      (left : Spsc.Consumer.left k' < Spsc.Consumer.left k) :
      LoggerMove date s free filled .quiet { s with filled := rb, logger := .popping k' } free
        filled
  | pop {k : Consumer ℕ} {rb : RingBuffer ℕ} {e : ℕ} {filled' : List ℕ} (pc : s.logger = .popping k)
      (first : filled = e :: filled') :
      LoggerMove date s free filled .quiet { s with filled := rb, logger := .flushing e } free
        filled'
  | idle {k : Consumer ℕ} {rb : RingBuffer ℕ} (pc : s.logger = .popping k) (empty : filled = []) :
      LoggerMove date s free filled .quiet { s with filled := rb, logger := .checking } free []
  | flush {e : ℕ} (pc : s.logger = .flushing e) :
      LoggerMove date s free filled .quiet
        { s with
          file := s.file ++ (s.pool e).flush date
          pool := Function.update s.pool e { s.pool e with msgLen := 0 }
          logger := .returning e .idle } free filled
  | returnOn {e : ℕ} {k k' : Producer ℕ} {rb : RingBuffer ℕ} (pc : s.logger = .returning e k)
      (left : Spsc.Producer.left k' < Spsc.Producer.left k) :
      LoggerMove date s free filled .quiet { s with free := rb, logger := .returning e k' } free
        filled
  | returned {e : ℕ} {k : Producer ℕ} {rb : RingBuffer ℕ} (pc : s.logger = .returning e k) :
      LoggerMove date s free filled (.push true) { s with free := rb, logger := .checking }
        (free ++ [e]) filled
  | drainOn {k k' : Consumer ℕ} {rb : RingBuffer ℕ} (pc : s.logger = .draining k)
      (left : Spsc.Consumer.left k' < Spsc.Consumer.left k) :
      LoggerMove date s free filled .quiet { s with filled := rb, logger := .draining k' } free
        filled
  | drain {k : Consumer ℕ} {rb : RingBuffer ℕ} {e : ℕ} {filled' : List ℕ}
      (pc : s.logger = .draining k) (first : filled = e :: filled') :
      LoggerMove date s free filled .quiet { s with filled := rb, logger := .flushingLast e } free
        filled'
  | exit {k : Consumer ℕ} {rb : RingBuffer ℕ} (pc : s.logger = .draining k) (empty : filled = []) :
      LoggerMove date s free filled .quiet { s with filled := rb, logger := .exited } free []
  | flushLast {e : ℕ} (pc : s.logger = .flushingLast e) :
      LoggerMove date s free filled .quiet
        { s with
          file := s.file ++ (s.pool e).flush date
          retired := s.retired ++ [e]
          logger := .draining .idle } free filled
  | exited (pc : s.logger = .exited) : LoggerMove date s free filled .quiet s free filled

variable {n cap : ℕ} {s : Logger} {free filled : List ℕ} {w : LogWriter}

/-! ### Writers -/

/-- A writer has the rings to itself while the other is in no operation on them. -/
theorem spaced_of_idle (hpop : (s.pc w.other).pop = .idle) (hpush : (s.pc w.other).push = .idle) :
    s.Spaced (.writer w) := by
  simp only [Spaced, hpop, hpush]
  split <;> trivial

theorem pop_move (s : Logger) (w : LogWriter) (p : WriterPc) :
    (fun v => (Function.update s.pc w p v).pop) =
      Function.update (fun v => (s.pc v).pop) w p.pop :=
  funext fun v => Function.apply_update (fun _ => WriterPc.pop) s.pc w p v

theorem push_move (s : Logger) (w : LogWriter) (p : WriterPc) :
    (fun v => (Function.update s.pc w p v).push) =
      Function.update (fun v => (s.pc v).push) w p.push :=
  funext fun v => Function.apply_update (fun _ => WriterPc.push) s.pc w p v

/-- The entries, seen from one writer. -/
theorem Circulates.perm (h : Circulates n cap s free filled) (w : LogWriter) :
    (free ++ filled ++ (s.pc w).hand ++ (s.pc w.other).hand ++ s.logger.hand ++ s.retired).Perm
      (List.range n) := by
  cases w with
  | main => exact h.entries
  | io =>
      refine List.Perm.trans ?_ h.entries
      rw [List.perm_iff_count]
      intro a
      simp only [List.count_append, LogWriter.other]
      omega

/-- No entry is in two places. -/
theorem Circulates.nodup (h : Circulates n cap s free filled) (w : LogWriter) :
    (free ++ filled ++ (s.pc w).hand ++ (s.pc w.other).hand ++ s.logger.hand ++ s.retired).Nodup :=
  (h.perm w).nodup_iff.mpr List.nodup_range

theorem Circulates.length (h : Circulates n cap s free filled) (w : LogWriter) :
    free.length + filled.length + (s.pc w).hand.length + (s.pc w.other).hand.length +
      s.logger.hand.length + s.retired.length = n := by
  have hlen := (h.perm w).length_eq
  simpa only [List.length_append, List.length_range] using hlen

theorem Circulates.freeRing_keep (h : Circulates n cap s free filled) {p : WriterPc}
    (hp : p.pop = (s.pc w).pop) :
    Shared cap s.free (fun _ : Unit => s.logger.push)
      (Function.update (fun v => (s.pc v).pop) w p.pop) free := by
  rw [hp, Function.update_eq_self w fun v => (s.pc v).pop]
  exact h.freeRing

theorem Circulates.filledRing_keep (h : Circulates n cap s free filled) {p : WriterPc}
    (hp : p.push = (s.pc w).push) :
    Shared cap s.filled (Function.update (fun v => (s.pc v).push) w p.push)
      (fun _ : Unit => s.logger.pop) filled := by
  rw [hp, Function.update_eq_self w fun v => (s.pc v).push]
  exact h.filledRing

/-- One writer moves to `p`, with the entries that it takes or gives. -/
theorem Circulates.set_writer (h : Circulates n cap s free filled) {s' : Logger} {p : WriterPc}
    {free' filled' : List ℕ} (hpc : s'.pc = Function.update s.pc w p)
    (hlogger : s'.logger = s.logger) (hretired : s'.retired = s.retired)
    (hfree : Shared cap s'.free (fun _ : Unit => s.logger.push)
      (Function.update (fun v => (s.pc v).pop) w p.pop) free')
    (hfilled : Shared cap s'.filled (Function.update (fun v => (s.pc v).push) w p.push)
      (fun _ : Unit => s.logger.pop) filled')
    (hentries : (free' ++ filled' ++ p.hand).Perm (free ++ filled ++ (s.pc w).hand))
    (hpush : ∀ c e k, p = .pushing c e k → Producer.Carries (some e) k) :
    Circulates n cap s' free' filled' where
  freeRing := by
    rw [hpc, hlogger, pop_move]
    exact hfree
  filledRing := by
    rw [hpc, hlogger, push_move]
    exact hfilled
  entries := by
    refine List.Perm.trans ?_ (h.perm w)
    rw [hpc, hlogger, hretired]
    rw [List.perm_iff_count] at hentries ⊢
    intro a
    have ha := hentries a
    cases w with
    | main =>
        simp only [List.count_append, LogWriter.other, Function.update_self,
          Function.update_of_ne (show LogWriter.io ≠ .main by decide)] at ha ⊢
        omega
    | io =>
        simp only [List.count_append, LogWriter.other, Function.update_self,
          Function.update_of_ne (show LogWriter.main ≠ .io by decide)] at ha ⊢
        omega
  room := h.room
  pushes := by
    intro v c e k hv
    rw [hpc] at hv
    by_cases hvw : v = w
    · rw [hvw, Function.update_self] at hv
      exact hpush c e k hv
    · rw [Function.update_of_ne hvw] at hv
      exact h.pushes v c e k hv
  returns := by
    rw [hlogger]
    exact h.returns

/-- The other writer is in no pop while this one is in one, or begins one. -/
theorem Circulates.alone_pop (h : Circulates n cap s free filled) {c : LogCall} {k : Consumer ℕ}
    (hs : s.Spaced (.writer w)) (hpc : s.pc w = .popping c k) (v : LogWriter) (hv : v ≠ w) :
    (s.pc v).pop = .idle := by
  by_cases hk : k = .idle
  · rw [hk] at hpc
    simp only [Spaced, hpc] at hs
    rw [LogWriter.eq_other hv]
    exact hs
  · refine (h.freeRing.one_consumer v w hv).resolve_right fun hidle => hk ?_
    rw [hpc] at hidle
    exact hidle

/-- The other writer is in no push while this one is in one, or begins one. -/
theorem Circulates.alone_push (h : Circulates n cap s free filled) {c : LogCall} {e : ℕ}
    {k : Producer ℕ} (hs : s.Spaced (.writer w)) (hpc : s.pc w = .pushing c e k) (v : LogWriter)
    (hv : v ≠ w) : (s.pc v).push = .idle := by
  by_cases hk : k = .idle
  · rw [hk] at hpc
    simp only [Spaced, hpc] at hs
    rw [LogWriter.eq_other hv]
    exact hs
  · refine (h.filledRing.one_producer v w hv).resolve_right fun hidle => hk ?_
    rw [hpc] at hidle
    exact hidle

/-- A writer goes on to what it has to do next. -/
theorem Circulates.next (h : Circulates n cap s free filled) (hlive : s.live w = true)
    (hpc : s.pc w = .idle) :
    WriterMove s w free filled .quiet (s.next w) free filled ∧
      Circulates n cap (s.next w) free filled := by
  -- all but `log` leave the writers and the rings alone
  have hkeep : ∀ {s' : Logger}, s'.free = s.free → s'.filled = s.filled → s'.pc = s.pc →
      s'.logger = s.logger → s'.retired = s.retired → Circulates n cap s' free filled := by
    intro s' h₁ h₂ h₃ h₄ h₅
    refine ⟨?_, ?_, ?_, h.room, ?_, ?_⟩
    · rw [h₁, h₃, h₄]
      exact h.freeRing
    · rw [h₂, h₃, h₄]
      exact h.filledRing
    · rw [h₃, h₄, h₅]
      exact h.entries
    · rw [h₃]
      exact h.pushes
    · rw [h₄]
      exact h.returns
  unfold Logger.next
  split
  · rename_i htodo
    exact ⟨.wait (.done hpc htodo), h⟩
  · rename_i c ops htodo
    refine ⟨.enter hlive hpc htodo, ?_⟩
    refine h.set_writer (p := .popping c .idle) rfl rfl rfl (h.freeRing_keep ?_)
      (h.filledRing_keep ?_) ?_ nofun
    · rw [hpc]
      rfl
    · rw [hpc]
      rfl
    · rw [hpc]
      exact List.Perm.refl _
  · rename_i ops htodo
    exact ⟨.spawnIo hpc htodo, hkeep rfl rfl rfl rfl rfl⟩
  · rename_i ops htodo
    cases hdone : s.ioDone with
    | false => exact ⟨.wait (.io hpc htodo hdone), h⟩
    | true => exact ⟨.joinIo hpc htodo hdone, hkeep rfl rfl rfl rfl rfl⟩
  · rename_i ops htodo
    exact ⟨.clearRunning hpc htodo, hkeep rfl rfl rfl rfl rfl⟩
  · rename_i ops htodo
    cases hdone : s.loggerDone with
    | false => exact ⟨.wait (.logger hpc htodo hdone), h⟩
    | true => exact ⟨.joinLogger hpc htodo hdone, hkeep rfl rfl rfl rfl rfl⟩

/-- A writer in its pop. -/
theorem Circulates.writer_pop (h : Circulates n cap s free filled) {c : LogCall} {k : Consumer ℕ}
    (hs : s.Spaced (.writer w)) (hpc : s.pc w = .popping c k) :
    ∃ r s' free', s.writeStep w (.popping c k) = some (r, s') ∧
      WriterMove s w free filled r s' free' filled ∧ Circulates n cap s' free' filled := by
  obtain ⟨r, rb, k', free', hstep, hring, hmove⟩ := h.freeRing.consume (h.alone_pop hs hpc)
  have hk : (s.pc w).pop = k := by
    rw [hpc]
    rfl
  rw [hk] at hstep hmove
  have hkeep : ∀ p : WriterPc, p.push = .idle → p.push = (s.pc w).push := by
    intro p hp
    rw [hp, hpc]
    rfl
  simp only [writeStep, hstep, Option.bind_eq_bind, Option.bind_some]
  cases hmove with
  | on left =>
      refine ⟨_, _, free, rfl, .popOn hpc left, ?_⟩
      refine h.set_writer (p := .popping c k') rfl rfl rfl hring
        (h.filledRing_keep (hkeep _ rfl)) ?_ nofun
      rw [hpc]
      exact List.Perm.refl _
  | empty =>
      refine ⟨_, _, [], rfl, .drop hpc rfl, ?_⟩
      refine h.set_writer (p := .idle) rfl rfl rfl hring (h.filledRing_keep (hkeep _ rfl)) ?_ nofun
      rw [hpc]
      exact List.Perm.refl _
  | @popped e l =>
      refine ⟨_, _, free', rfl, .take hpc rfl, ?_⟩
      refine h.set_writer (p := .filling c e) rfl rfl rfl hring
        (h.filledRing_keep (hkeep _ rfl)) ?_ nofun
      rw [hpc, List.perm_iff_count]
      intro a
      simp only [WriterPc.hand, List.count_append, List.count_cons, List.count_nil]
      omega

/-- A writer in its push. -/
theorem Circulates.writer_push (h : Circulates n cap s free filled) {c : LogCall} {e : ℕ}
    {k : Producer ℕ} (hs : s.Spaced (.writer w)) (hpc : s.pc w = .pushing c e k) :
    ∃ r s' filled', s.writeStep w (.pushing c e k) = some (r, s') ∧
      WriterMove s w free filled r s' free filled' ∧ Circulates n cap s' free filled' := by
  have hk : (s.pc w).push = k := by
    rw [hpc]
    rfl
  have hcarries : Producer.Carries (some e) (s.pc w).push := by
    rw [hk]
    exact h.pushes w c e k hpc
  obtain ⟨r, rb, k', filled', hstep, hring, hmove⟩ :=
    h.filledRing.produce (h.alone_push hs hpc) hcarries
  rw [hk] at hstep hmove
  have hkeep : ∀ p : WriterPc, p.pop = .idle → p.pop = (s.pc w).pop := by
    intro p hp
    rw [hp, hpc]
    rfl
  simp only [writeStep, hstep, Option.bind_eq_bind, Option.bind_some]
  cases hmove with
  | on carries left =>
      refine ⟨_, _, filled, rfl, .pushOn hpc left, ?_⟩
      refine h.set_writer (p := .pushing c e k') rfl rfl rfl (h.freeRing_keep (hkeep _ rfl))
        hring ?_ ?_
      · rw [hpc]
        exact List.Perm.refl _
      · intro c' e' k'' heq
        obtain ⟨-, rfl, rfl⟩ := WriterPc.pushing.inj heq
        exact carries
  | full hfull =>
      -- the entry in hand is not in the ring, which has room for all of them
      have hlen := h.length w
      have hroom := h.room
      rw [hpc] at hlen
      simp only [WriterPc.hand, List.length_singleton] at hlen
      omega
  | pushed =>
      refine ⟨_, _, filled ++ [e], rfl, .pushed hpc, ?_⟩
      refine h.set_writer (p := .idle) rfl rfl rfl (h.freeRing_keep (hkeep _ rfl)) hring ?_ nofun
      rw [hpc, List.perm_iff_count]
      intro a
      simp only [WriterPc.hand, List.count_append, List.count_nil]
      omega

/-- **A step of a writer.** -/
theorem Circulates.writer (h : Circulates n cap s free filled) (hs : s.Spaced (.writer w)) :
    ∃ r s' free' filled', s.writerStep w = some (r, s') ∧
      WriterMove s w free filled r s' free' filled' ∧ Circulates n cap s' free' filled' := by
  cases hlive : s.live w with
  | false =>
      refine ⟨_, s, free, filled, ?_, .wait (.unborn hlive), h⟩
      rw [writerStep, hlive]
      rfl
  | true =>
      rw [writerStep, if_pos hlive]
      cases hpc : s.pc w with
      | idle =>
          obtain ⟨hmove, h'⟩ := h.next hlive hpc
          exact ⟨_, _, free, filled, rfl, hmove, h'⟩
      | popping c k =>
          obtain ⟨r, s', free', hstep, hmove, h'⟩ := h.writer_pop hs hpc
          exact ⟨r, s', free', filled, hstep, hmove, h'⟩
      | filling c e =>
          refine ⟨_, _, free, filled, rfl, .fill hpc, ?_⟩
          refine h.set_writer (p := .pushing c e .idle) rfl rfl rfl (h.freeRing_keep ?_)
            (h.filledRing_keep ?_) ?_ ?_
          · rw [hpc]
            rfl
          · rw [hpc]
            rfl
          · rw [hpc]
            exact List.Perm.refl _
          · intro c' e' k heq
            obtain ⟨-, -, rfl⟩ := WriterPc.pushing.inj heq
            trivial
      | pushing c e k =>
          obtain ⟨r, s', filled', hstep, hmove, h'⟩ := h.writer_push hs hpc
          exact ⟨r, s', free, filled', hstep, hmove, h'⟩

/-! ### The logger -/

/-- The logger moves to `p`, with the entries that it takes or gives. -/
theorem Circulates.set_logger (h : Circulates n cap s free filled) {s' : Logger} {p : LoggerPc}
    {free' filled' : List ℕ} (hlogger : s'.logger = p) (hpc : s'.pc = s.pc)
    (hfree : Shared cap s'.free (Function.update (fun _ : Unit => s.logger.push) () p.push)
      (fun w => (s.pc w).pop) free')
    (hfilled : Shared cap s'.filled (fun w => (s.pc w).push)
      (Function.update (fun _ : Unit => s.logger.pop) () p.pop) filled')
    (hentries : (free' ++ filled' ++ p.hand ++ s'.retired).Perm
      (free ++ filled ++ s.logger.hand ++ s.retired))
    (hreturns : ∀ e k, p = .returning e k → Producer.Carries (some e) k) :
    Circulates n cap s' free' filled' where
  freeRing := by
    have hupdate : Function.update (fun _ : Unit => s.logger.push) () p.push = fun _ => p.push :=
      funext fun _ => rfl
    rw [hupdate] at hfree
    rw [hpc, hlogger]
    exact hfree
  filledRing := by
    have hupdate : Function.update (fun _ : Unit => s.logger.pop) () p.pop = fun _ => p.pop :=
      funext fun _ => rfl
    rw [hupdate] at hfilled
    rw [hpc, hlogger]
    exact hfilled
  entries := by
    refine List.Perm.trans ?_ h.entries
    rw [hpc, hlogger]
    rw [List.perm_iff_count] at hentries ⊢
    intro a
    have ha := hentries a
    simp only [List.count_append] at ha ⊢
    omega
  room := h.room
  pushes := by
    rw [hpc]
    exact h.pushes
  returns := by
    rw [hlogger]
    exact hreturns

theorem Circulates.freeRing_same (h : Circulates n cap s free filled) {p : LoggerPc}
    (hp : p.push = s.logger.push) :
    Shared cap s.free (Function.update (fun _ : Unit => s.logger.push) () p.push)
      (fun w => (s.pc w).pop) free := by
  rw [hp, Function.update_eq_self () fun _ => s.logger.push]
  exact h.freeRing

theorem Circulates.filledRing_same (h : Circulates n cap s free filled) {p : LoggerPc}
    (hp : p.pop = s.logger.pop) :
    Shared cap s.filled (fun w => (s.pc w).push)
      (Function.update (fun _ : Unit => s.logger.pop) () p.pop) filled := by
  rw [hp, Function.update_eq_self () fun _ => s.logger.pop]
  exact h.filledRing

/-- What a step of a pop of the filled ring finds. -/
inductive Popped (s : Logger) (k : Consumer ℕ) (on : Consumer ℕ → LoggerPc) (found : ℕ → LoggerPc)
    (empty : LoggerPc) : List ℕ → Logger → List ℕ → Prop where
  | on {l : List ℕ} {k' : Consumer ℕ} {rb : RingBuffer ℕ}
      (left : Spsc.Consumer.left k' < Spsc.Consumer.left k) :
      Popped s k on found empty l { s with filled := rb, logger := on k' } l
  | found {e : ℕ} {l : List ℕ} {rb : RingBuffer ℕ} :
      Popped s k on found empty (e :: l) { s with filled := rb, logger := found e } l
  | empty {rb : RingBuffer ℕ} :
      Popped s k on found empty [] { s with filled := rb, logger := empty } []

/-- The logger in its pop, in the loop or after it. -/
theorem Circulates.logger_pop (h : Circulates n cap s free filled) {k : Consumer ℕ}
    (on : Consumer ℕ → LoggerPc) (found : ℕ → LoggerPc) (empty : LoggerPc) (hk : s.logger.pop = k) (hpush : s.logger.push = .idle) (hhand : s.logger.hand = [])
    (hon : ∀ k', (on k').pop = k' ∧ (on k').push = .idle ∧ (on k').hand = [])
    (hfound : ∀ e, (found e).pop = .idle ∧ (found e).push = .idle ∧ (found e).hand = [e])
    (hempty : empty.pop = .idle ∧ empty.push = .idle ∧ empty.hand = []) :
    ∃ s' filled', s.popFilled k on found empty = some (.quiet, s') ∧
      Popped s k on found empty filled s' filled' ∧ Circulates n cap s' free filled' := by
  obtain ⟨r, rb, k', filled', hstep, hring, hmove⟩ :=
    h.filledRing.consume (j := ()) fun j' hj => absurd rfl hj
  rw [hk] at hstep hmove
  have hreturns : ∀ p : LoggerPc, p.push = .idle →
      ∀ e k, p = .returning e k → Producer.Carries (some e) k := by
    rintro p hp e k rfl
    obtain rfl : k = .idle := hp
    trivial
  simp only [popFilled, hstep, Option.bind_eq_bind, Option.bind_some]
  cases hmove with
  | on left =>
      obtain ⟨h₁, h₂, h₃⟩ := hon k'
      refine ⟨_, filled, rfl, .on left, ?_⟩
      refine h.set_logger (p := on k') rfl rfl (h.freeRing_same (h₂.trans hpush.symm)) ?_ ?_
        (hreturns _ h₂)
      · rw [h₁]
        exact hring
      · rw [h₃, hhand]
  | empty =>
      obtain ⟨h₁, h₂, h₃⟩ := hempty
      refine ⟨_, [], rfl, .empty, ?_⟩
      refine h.set_logger (p := empty) rfl rfl (h.freeRing_same (h₂.trans hpush.symm)) ?_ ?_
        (hreturns _ h₂)
      · rw [h₁]
        exact hring
      · rw [h₃, hhand]
  | @popped e l =>
      obtain ⟨h₁, h₂, h₃⟩ := hfound e
      refine ⟨_, filled', rfl, .found, ?_⟩
      refine h.set_logger (p := found e) rfl rfl (h.freeRing_same (h₂.trans hpush.symm)) ?_ ?_
        (hreturns _ h₂)
      · rw [h₁]
        exact hring
      · rw [h₃, hhand, List.perm_iff_count]
        intro a
        simp only [List.count_append, List.count_cons, List.count_nil]
        omega

/-- The logger in its push. -/
theorem Circulates.logger_push (h : Circulates n cap s free filled) (date : ℕ → List UInt8) {e : ℕ}
    {k : Producer ℕ} (hpc : s.logger = .returning e k) :
    ∃ r s' free', s.loggerStep date = some (r, s') ∧
      LoggerMove date s free filled r s' free' filled ∧ Circulates n cap s' free' filled := by
  have hk : s.logger.push = k := by
    rw [hpc]
    rfl
  have hcarries : Producer.Carries (some e) s.logger.push := by
    rw [hk]
    exact h.returns e k hpc
  obtain ⟨r, rb, k', free', hstep, hring, hmove⟩ :=
    h.freeRing.produce (i := ()) (fun i' hi => absurd rfl hi) hcarries
  rw [hk] at hstep hmove
  have hkeep : ∀ p : LoggerPc, p.pop = .idle → p.pop = s.logger.pop := by
    intro p hp
    rw [hp, hpc]
    rfl
  simp only [loggerStep, hpc, hstep, Option.bind_eq_bind, Option.bind_some]
  cases hmove with
  | on carries left =>
      refine ⟨_, _, free, rfl, .returnOn hpc left, ?_⟩
      refine h.set_logger (p := .returning e k') rfl rfl hring (h.filledRing_same (hkeep _ rfl))
        ?_ ?_
      · rw [hpc]
        exact List.Perm.refl _
      · intro e' k'' heq
        obtain ⟨rfl, rfl⟩ := LoggerPc.returning.inj heq
        exact carries
  | full hfull =>
      -- the entry in hand is not in the ring, which has room for all of them
      have hlen := h.length .main
      have hroom := h.room
      rw [hpc] at hlen
      simp only [LoggerPc.hand, List.length_singleton] at hlen
      omega
  | pushed =>
      refine ⟨_, _, free ++ [e], rfl, .returned hpc, ?_⟩
      refine h.set_logger (p := .checking) rfl rfl hring (h.filledRing_same (hkeep _ rfl)) ?_ nofun
      rw [hpc, List.perm_iff_count]
      intro a
      simp only [LoggerPc.hand, List.count_append, List.count_nil]
      omega

/-- **A step of the logger.** -/
theorem Circulates.loggerStep (h : Circulates n cap s free filled) (date : ℕ → List UInt8) :
    ∃ r s' free' filled', s.loggerStep date = some (r, s') ∧
      LoggerMove date s free filled r s' free' filled' ∧ Circulates n cap s' free' filled' := by
  -- a step that leaves the rings alone
  have hkeep : ∀ {s' : Logger} {p : LoggerPc}, s'.logger = p → s'.pc = s.pc → s'.free = s.free →
      s'.filled = s.filled → p.push = s.logger.push → p.pop = s.logger.pop →
      (p.hand ++ s'.retired).Perm (s.logger.hand ++ s.retired) →
      (∀ e k, p = .returning e k → Producer.Carries (some e) k) →
      Circulates n cap s' free filled := by
    intro s' p h₁ h₂ h₃ h₄ h₅ h₆ h₇ h₈
    refine h.set_logger h₁ h₂ ?_ ?_ ?_ h₈
    · rw [h₃]
      exact h.freeRing_same h₅
    · rw [h₄]
      exact h.filledRing_same h₆
    · rw [List.append_assoc (free ++ filled), List.append_assoc (free ++ filled)]
      exact h₇.append_left _
  cases hpc : s.logger with
  | checking =>
      refine ⟨_, _, free, filled, ?_, .check hpc, ?_⟩
      · simp only [Logger.loggerStep, hpc]
      · refine hkeep rfl rfl rfl rfl ?_ ?_ ?_ ?_
        · rw [hpc]
          split <;> rfl
        · rw [hpc]
          split <;> rfl
        · rw [hpc]
          split <;> exact .refl _
        · intro e k heq
          split at heq <;> cases heq
  | popping k =>
      have hstep : s.loggerStep date = s.popFilled k .popping .flushing .checking := by
        simp only [Logger.loggerStep, hpc]
      obtain ⟨s', filled', hpop, hmove, h'⟩ := h.logger_pop (k := k) .popping .flushing .checking
        (by rw [hpc]; rfl) (by rw [hpc]; rfl)
        (by rw [hpc]; rfl) (fun _ => ⟨rfl, rfl, rfl⟩) (fun _ => ⟨rfl, rfl, rfl⟩) ⟨rfl, rfl, rfl⟩
      refine ⟨_, s', free, filled', hstep.trans hpop, ?_, h'⟩
      cases hmove with
      | on left => exact .popOn hpc left
      | found => exact .pop hpc rfl
      | empty => exact .idle hpc rfl
  | flushing e =>
      refine ⟨_, _, free, filled, ?_, .flush hpc, ?_⟩
      · simp only [Logger.loggerStep, hpc]
      · refine hkeep rfl rfl rfl rfl (by rw [hpc]; rfl) (by rw [hpc]; rfl)
          (by rw [hpc]; exact .refl _) ?_
        intro e' k heq
        obtain ⟨-, rfl⟩ := LoggerPc.returning.inj heq
        trivial
  | returning e k =>
      obtain ⟨r, s', free', hstep, hmove, h'⟩ := h.logger_push date hpc
      exact ⟨r, s', free', filled, hstep, hmove, h'⟩
  | draining k =>
      have hstep : s.loggerStep date = s.popFilled k .draining .flushingLast .exited := by
        simp only [Logger.loggerStep, hpc]
      obtain ⟨s', filled', hpop, hmove, h'⟩ := h.logger_pop (k := k) .draining .flushingLast
        .exited (by rw [hpc]; rfl) (by rw [hpc]; rfl)
        (by rw [hpc]; rfl) (fun _ => ⟨rfl, rfl, rfl⟩) (fun _ => ⟨rfl, rfl, rfl⟩) ⟨rfl, rfl, rfl⟩
      refine ⟨_, s', free, filled', hstep.trans hpop, ?_, h'⟩
      cases hmove with
      | on left => exact .drainOn hpc left
      | found => exact .drain hpc rfl
      | empty => exact .exit hpc rfl
  | flushingLast e =>
      refine ⟨_, _, free, filled, ?_, .flushLast hpc, ?_⟩
      · simp only [Logger.loggerStep, hpc]
      · refine hkeep rfl rfl rfl rfl (by rw [hpc]; rfl) (by rw [hpc]; rfl) ?_ nofun
        rw [hpc, List.perm_iff_count]
        intro a
        simp only [LoggerPc.hand, List.count_append, List.count_nil]
        omega
  | exited =>
      refine ⟨_, s, free, filled, ?_, .exited hpc, h⟩
      simp only [Logger.loggerStep, hpc]

/-! ### The start -/

/-- The entries that `logger_init` puts in circulation: its last push finds a ring of `queue_size`
slots full. -/
def circulating (queueSize : UInt32) : ℕ :=
  if isPowerOfTwo queueSize then queueSize.toNat - 1 else queueSize.toNat

/-- **`logger_init`**, for every size from 1 to 2³¹. -/
theorem init_circulates {queueSize : UInt32} (hpos : 1 ≤ queueSize.toNat)
    (hle : queueSize.toNat ≤ 2 ^ 31) (main io : List LogOp) :
    ∃ free filled cap, init queueSize main io = some (opened free filled main io) ∧
      Circulates (circulating queueSize) cap (opened free filled main io)
        (List.range (circulating queueSize)) [] := by
  obtain ⟨rb, hinit, hrb⟩ := RingBuffer.init_holds_of_le (A := ℕ) hpos hle
  obtain ⟨free, hfree, hholds⟩ := hrb.pushAll (List.range queueSize.toNat)
  have hcap := RingBuffer.init_capacity hinit
  have hn : min (rb.capacity.toNat - 1) queueSize.toNat = circulating queueSize := by
    rw [hcap, circulating]
    split
    · exact min_eq_left (Nat.sub_le ..)
    · rename_i hp
      exact min_eq_right (Nat.le_sub_one_of_lt (lt_nextPowerOfTwo hpos hle hp))
  rw [List.nil_append, List.take_range, hn] at hholds
  refine ⟨free, rb, rb.capacity.toNat, ?_, Spsc.shared_of_holds hholds, Spsc.shared_of_holds hrb,
    ?_, ?_, nofun, nofun⟩
  · simp only [init, hinit, hfree, Option.bind_eq_bind, Option.bind_some]
    rfl
  · simp [opened, WriterPc.hand, LoggerPc.hand]
  · have hlt := hholds.length_lt
    rwa [List.length_range] at hlt

end Logger

end Aspira
