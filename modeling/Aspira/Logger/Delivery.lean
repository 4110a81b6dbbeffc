import Aspira.Logger.Circulation

/-!
# Logger — Delivery

What happens to the messages.  `Sound` puts beside `Circulates` what the entries contain (`Flows`),
how far `logger_shutdown` and the logger's drain have come (`Staged`) and which calls have returned
(`Ordered`).  Every step of the two writers and the logger that is `Spaced` keeps it (`Sound.step`).

`Sound.finished` says what is left to say when `logger_shutdown` has returned: the file has what was
pushed.
-/

namespace Aspira

/-- The I/O thread is not joined before it is spawned. -/
def spawnsFirst : List LogOp → Bool
  | .spawnIo :: _ | [] => true
  | .joinIo :: _ => false
  | _ :: ops => spawnsFirst ops

/-- What a writer does before `logger_shutdown`. -/
def LogOp.opens : LogOp → Bool
  | .log _ | .spawnIo | .joinIo => true
  | .clearRunning | .joinLogger => false

/-- The message that a writer logs. -/
def LogOp.call? : LogOp → Option LogCall
  | .log c => some c
  | _ => none

/-- The call of `logger_write` that the writer is in. -/
def WriterPc.call : WriterPc → List LogCall
  | .idle => []
  | .popping c _ | .filling c _ | .pushing c _ _ => [c]

/-- The entry that the logger has and has not written out. -/
def LoggerPc.unread : LoggerPc → List ℕ
  | .flushing e | .flushingLast e => [e]
  | _ => []

/-- The logger has left its loop. -/
def LoggerPc.past : LoggerPc → Bool
  | .draining _ | .flushingLast _ | .exited => true
  | _ => false

theorem LoggerPc.unread_sublist_hand (p : LoggerPc) : p.unread.Sublist p.hand := by
  cases p <;> simp [unread, hand]

namespace Logger

/-- The messages pushed to the filled ring, in order. -/
def pushed (s : Logger) : List LogCall := (s.returns.filter (·.pushed)).map (·.call)

/-- The calls of a writer that have returned, in order. -/
def returned (s : Logger) (w : LogWriter) : List LogCall :=
  (s.returns.filter (·.writer = w)).map (·.call)

/-- The entries pushed contain their messages, and what was pushed is what is in the file and then
what is on its way. -/
structure Flows (date : ℕ → List UInt8) (s : Logger) (filled : List ℕ) : Prop where
  content : ∀ w c e k, s.pc w = .pushing c e k → s.pool e = c.entry
  flow : s.pushed.flatMap (fun c => c.entry.flush date) =
    s.file ++ (s.logger.unread ++ filled).flatMap fun e => (s.pool e).flush date

/-- How far the main thread is. -/
inductive Phase (s : Logger) : Prop where
  /-- Before `logger_shutdown`. -/
  | serving {ops : List LogOp} (running : s.running = true)
      (todo : s.todo .main = ops ++ [.clearRunning, .joinLogger])
      (opens : ∀ op ∈ ops, op.opens = true) (io : .joinIo ∈ ops ∨ s.ioDone = true)
  /-- In its `pthread_join`. -/
  | closing (running : s.running = false) (main : s.pc .main = .idle)
      (todo : s.todo .main = [.joinLogger]) (io : s.ioDone = true)
  /-- After it. -/
  | closed (running : s.running = false) (main : s.pc .main = .idle) (todo : s.todo .main = [])
      (io : s.ioDone = true) (exited : s.logger = .exited)

/-- The shutdown, and the drain that goes with it. -/
structure Staged (s : Logger) (filled : List ℕ) : Prop where
  phase : s.Phase
  ioLogs : ∀ op ∈ s.todo .io, ∃ c, op = .log c
  past : s.logger.past = true → s.running = false
  drained : s.logger = .exited → filled = []

/-- The calls that a writer has made, is in and will make are those of `all`. -/
def Ordered (s : Logger) (all : LogWriter → List LogCall) : Prop :=
  ∀ w, s.returned w ++ (s.pc w).call ++ (s.todo w).filterMap LogOp.call? = all w

/-- An I/O thread that does not exist is in no call, and will be spawned if it is joined. -/
def Spawns (s : Logger) : Prop :=
  s.spawned = false → s.pc .io = .idle ∧ spawnsFirst (s.todo .main) = true

variable {n cap : ℕ} {s s' : Logger} {free filled free' filled' : List ℕ} {w : LogWriter}
  {r : LogReport} {date : ℕ → List UInt8} {all : LogWriter → List LogCall}

/-! ### What the entries contain -/

/-- What a writer has is nowhere else. -/
theorem Circulates.writer_only (h : Circulates n cap s free filled) {e : ℕ}
    (he : e ∈ (s.pc w).hand) : e ∉ filled ∧ e ∉ (s.pc w.other).hand ∧ e ∉ s.logger.hand := by
  have hcount := List.nodup_iff_count_le_one.mp (h.nodup w) e
  have hpos := List.count_pos_iff.mpr he
  simp only [List.count_append] at hcount
  refine ⟨?_, ?_, ?_⟩
  · rw [← List.count_eq_zero]
    omega
  · rw [← List.count_eq_zero]
    omega
  · rw [← List.count_eq_zero]
    omega

/-- What the logger has is nowhere else. -/
theorem Circulates.logger_only (h : Circulates n cap s free filled) {e : ℕ}
    (he : e ∈ s.logger.hand) : e ∉ filled ∧ ∀ w, e ∉ (s.pc w).hand := by
  have hpos := List.count_pos_iff.mpr he
  refine ⟨?_, fun w => ?_⟩
  · have hcount := List.nodup_iff_count_le_one.mp (h.nodup .main) e
    simp only [List.count_append] at hcount
    rw [← List.count_eq_zero]
    omega
  · have hcount := List.nodup_iff_count_le_one.mp (h.nodup w) e
    simp only [List.count_append] at hcount
    rw [← List.count_eq_zero]
    omega

/-- The lines of entries that are not written to. -/
theorem flatMap_flush_update {pool : ℕ → LogEntry} {e : ℕ} {entry : LogEntry} {l : List ℕ}
    (h : e ∉ l) :
    l.flatMap (fun a => (Function.update pool e entry a).flush date) =
      l.flatMap fun a => (pool a).flush date := by
  induction l with
  | nil => rfl
  | cons a l ih =>
      rw [List.mem_cons, not_or] at h
      rw [List.flatMap_cons, List.flatMap_cons, ih h.2, Function.update_of_ne (Ne.symm h.1)]

/-- A writer that moves to `p`. -/
theorem content_move {pool : ℕ → LogEntry} {p : WriterPc}
    (h : ∀ v, v ≠ w → ∀ c e k, s.pc v = .pushing c e k → pool e = c.entry)
    (hp : ∀ c e k, p = .pushing c e k → pool e = c.entry) :
    ∀ v c e k, Function.update s.pc w p v = .pushing c e k → pool e = c.entry := by
  intro v c e k hv
  by_cases hvw : v = w
  · rw [hvw, Function.update_self] at hv
    exact hp c e k hv
  · rw [Function.update_of_ne hvw] at hv
    exact h v hvw c e k hv

theorem pushed_leave_false (s : Logger) (w : LogWriter) (c : LogCall) :
    (s.leave w c false).pushed = s.pushed := by
  simp [pushed, leave]

theorem pushed_leave_true (s : Logger) (w : LogWriter) (c : LogCall) :
    (s.leave w c true).pushed = s.pushed ++ [c] := by
  simp [pushed, leave]

theorem Flows.writer (h : s.Flows date filled) (hc : Circulates n cap s free filled)
    (hm : WriterMove s w free filled r s' free' filled') : s'.Flows date filled' := by
  have hothers : ∀ v, v ≠ w → ∀ c e k, s.pc v = .pushing c e k → s.pool e = c.entry :=
    fun v _ => h.content v
  cases hm with
  | wait _ => exact h
  | enter _ _ _ => exact ⟨content_move hothers nofun, h.flow⟩
  | spawnIo _ _ => exact ⟨h.content, h.flow⟩
  | joinIo _ _ _ => exact ⟨h.content, h.flow⟩
  | clearRunning _ _ => exact ⟨h.content, h.flow⟩
  | joinLogger _ _ _ => exact ⟨h.content, h.flow⟩
  | popOn _ _ => exact ⟨content_move hothers nofun, h.flow⟩
  | @drop c _ _ _ _ =>
      refine ⟨content_move hothers nofun, ?_⟩
      rw [pushed_leave_false]
      exact h.flow
  | take _ _ => exact ⟨content_move hothers nofun, h.flow⟩
  | @fill c e pc =>
      have hhand : e ∈ (s.pc w).hand := by simp [pc, WriterPc.hand]
      obtain ⟨hfilled, hother, hlogger⟩ := hc.writer_only hhand
      refine ⟨content_move ?_ ?_, ?_⟩
      · intro v hv c' e' k hv'
        have hne : e' ≠ e := by
          rintro rfl
          rw [← LogWriter.eq_other hv, hv'] at hother
          exact hother (List.mem_singleton_self _)
        show Function.update s.pool e c.entry e' = c'.entry
        rw [Function.update_of_ne hne]
        exact h.content v c' e' k hv'
      · intro c' e' k heq
        obtain ⟨rfl, rfl, -⟩ := WriterPc.pushing.inj heq
        exact Function.update_self ..
      · have hunread : e ∉ s.logger.unread ++ filled := by
          rw [List.mem_append, not_or]
          exact ⟨fun hmem => hlogger (s.logger.unread_sublist_hand.subset hmem), hfilled⟩
        exact h.flow.trans (congrArg (s.file ++ ·) (flatMap_flush_update hunread).symm)
  | @pushOn c e k k' _ pc _ =>
      refine ⟨content_move hothers ?_, h.flow⟩
      intro c' e' k'' heq
      obtain ⟨rfl, rfl, -⟩ := WriterPc.pushing.inj heq
      exact h.content w c e k pc
  | @pushed c e k _ pc =>
      refine ⟨content_move hothers nofun, ?_⟩
      have hline : [c].flatMap (fun c => c.entry.flush date) =
          [e].flatMap fun e => (s.pool e).flush date := by
        rw [List.flatMap_singleton, List.flatMap_singleton, h.content w c e k pc]
      rw [pushed_leave_true, List.flatMap_append, hline]
      show s.pushed.flatMap _ ++ _ = s.file ++ (s.logger.unread ++ (filled ++ [e])).flatMap _
      rw [h.flow, ← List.append_assoc s.logger.unread, List.append_assoc s.file,
        ← List.flatMap_append]
      rfl

theorem Flows.logger (h : s.Flows date filled) (hc : Circulates n cap s free filled)
    (hm : LoggerMove date s free filled r s' free' filled') : s'.Flows date filled' := by
  have hflow := h.flow
  cases hm with
  | check pc =>
      refine ⟨h.content, ?_⟩
      have hunread : (if s.running then LoggerPc.popping .idle else .draining .idle).unread =
          s.logger.unread := by
        rw [pc]
        split <;> rfl
      show s.pushed.flatMap _ = s.file ++ (LoggerPc.unread (if s.running then _ else _) ++ _).flatMap _
      rw [hunread]
      exact hflow
  | popOn pc _ =>
      rw [pc] at hflow
      exact ⟨h.content, hflow⟩
  | pop pc first =>
      rw [pc, first] at hflow
      exact ⟨h.content, hflow⟩
  | idle pc empty =>
      rw [pc, empty] at hflow
      exact ⟨h.content, hflow⟩
  | @flush e pc =>
      have hhand : e ∈ s.logger.hand := by simp [pc, LoggerPc.hand]
      obtain ⟨hfilled, hwriters⟩ := hc.logger_only hhand
      refine ⟨?_, ?_⟩
      · intro w c e' k hw
        have hne : e' ≠ e := by
          rintro rfl
          refine hwriters w ?_
          rw [hw]
          exact List.mem_singleton_self _
        show Function.update s.pool e _ e' = c.entry
        rw [Function.update_of_ne hne]
        exact h.content w c e' k hw
      · rw [pc] at hflow
        show s.pushed.flatMap _ = (s.file ++ (s.pool e).flush date) ++ filled.flatMap _
        rw [hflow, flatMap_flush_update hfilled, List.append_assoc]
        rfl
  | returnOn pc _ =>
      rw [pc] at hflow
      exact ⟨h.content, hflow⟩
  | returned pc =>
      rw [pc] at hflow
      exact ⟨h.content, hflow⟩
  | drainOn pc _ =>
      rw [pc] at hflow
      exact ⟨h.content, hflow⟩
  | drain pc first =>
      rw [pc, first] at hflow
      exact ⟨h.content, hflow⟩
  | exit pc empty =>
      rw [pc, empty] at hflow
      exact ⟨h.content, hflow⟩
  | @flushLast e pc =>
      refine ⟨h.content, ?_⟩
      rw [pc] at hflow
      show s.pushed.flatMap _ = (s.file ++ (s.pool e).flush date) ++ filled.flatMap _
      rw [hflow, List.append_assoc]
      rfl
  | exited _ => exact h

/-! ### The shutdown -/

theorem ioDone_iff : s.ioDone = true ↔ s.pc .io = .idle ∧ s.todo .io = [] := by
  unfold ioDone
  split
  · rename_i hpc htodo
    simp [hpc, htodo]
  · rename_i hno
    simp only [Bool.false_eq_true, false_iff, not_and]
    exact fun hpc htodo => hno hpc htodo

theorem loggerDone_iff : s.loggerDone = true ↔ s.logger = .exited := by
  unfold loggerDone
  split
  · rename_i hpc
    simp [hpc]
  · rename_i hno
    simp only [Bool.false_eq_true, false_iff]
    exact hno

/-- A writer in a call goes on with it. -/
theorem Phase.busy (h : s.Phase) (hw : s.pc w ≠ .idle) (htodo : s'.todo = s.todo)
    (hrun : s'.running = s.running) (hpc : ∀ v, v ≠ w → s'.pc v = s.pc v) : s'.Phase := by
  have hio : s.ioDone = true → w = .main ∧ s'.ioDone = true := by
    intro hdone
    obtain ⟨hidle, hnil⟩ := ioDone_iff.mp hdone
    have hne : w ≠ .io := fun e => hw (e ▸ hidle)
    refine ⟨by cases w <;> first | rfl | exact absurd rfl hne, ioDone_iff.mpr ⟨?_, ?_⟩⟩
    · rw [hpc .io hne.symm, hidle]
    · rw [htodo, hnil]
  cases h with
  | serving running todo opens io =>
      refine .serving (hrun.trans running) ((congrFun htodo _).trans todo) opens ?_
      exact io.imp id fun hdone => (hio hdone).2
  | closing running main todo io =>
      obtain ⟨rfl, -⟩ := hio io
      exact absurd main hw
  | closed running main todo io exited =>
      obtain ⟨rfl, -⟩ := hio io
      exact absurd main hw

/-- The I/O thread is not done while it has something to log. -/
theorem Phase.serving_of_io (h : s.Phase) (hio : s.ioDone ≠ true) :
    ∃ ops, s.running = true ∧ s.todo .main = ops ++ [.clearRunning, .joinLogger] ∧
      (∀ op ∈ ops, op.opens = true) ∧ .joinIo ∈ ops := by
  cases h with
  | @serving ops running todo opens io =>
      exact ⟨ops, running, todo, opens, io.resolve_right hio⟩
  | closing running main todo io => exact absurd io hio
  | closed running main todo io exited => exact absurd io hio

/-- The main thread takes its next step before the shutdown. -/
theorem Phase.serving_cons (h : s.Phase) {op : LogOp} {ops : List LogOp}
    (htodo : s.todo .main = op :: ops) (hop : op.opens = true) :
    ∃ ops', s.running = true ∧ ops = ops' ++ [.clearRunning, .joinLogger] ∧
      (∀ o ∈ ops', o.opens = true) ∧ (.joinIo ∈ op :: ops' ∨ s.ioDone = true) := by
  cases h with
  | @serving l running todo opens io =>
      rw [htodo] at todo
      cases l with
      | nil =>
          obtain ⟨rfl, -⟩ := List.cons.inj todo
          cases hop
      | cons o l =>
          obtain ⟨rfl, rfl⟩ := List.cons.inj todo
          exact ⟨l, running, rfl, fun o ho => opens o (List.mem_cons_of_mem _ ho), io⟩
  | closing running main todo io =>
      rw [htodo] at todo
      obtain ⟨rfl, -⟩ := List.cons.inj todo
      cases hop
  | closed running main todo io exited =>
      rw [htodo] at todo
      cases todo

/-- The main thread clears the flag when the I/O thread is done. -/
theorem Phase.at_clearRunning (h : s.Phase) {ops : List LogOp}
    (htodo : s.todo .main = .clearRunning :: ops) : ops = [.joinLogger] ∧ s.ioDone = true := by
  cases h with
  | @serving l running todo opens io =>
      rw [htodo] at todo
      cases l with
      | nil => exact ⟨(List.cons.inj todo).2, io.resolve_left List.not_mem_nil⟩
      | cons o l =>
          obtain ⟨rfl, -⟩ := List.cons.inj todo
          cases opens _ (List.mem_cons_self ..)
  | closing running main todo io =>
      rw [htodo] at todo
      cases todo
  | closed running main todo io exited =>
      rw [htodo] at todo
      cases todo

/-- It waits for the logger thread after that, and does nothing else. -/
theorem Phase.at_joinLogger (h : s.Phase) {ops : List LogOp}
    (htodo : s.todo .main = .joinLogger :: ops) :
    ops = [] ∧ s.running = false ∧ s.ioDone = true := by
  cases h with
  | @serving l running todo opens io =>
      rw [htodo] at todo
      cases l with
      | nil => cases todo
      | cons o l =>
          obtain ⟨rfl, -⟩ := List.cons.inj todo
          cases opens _ (List.mem_cons_self ..)
  | closing running main todo io =>
      rw [htodo] at todo
      exact ⟨(List.cons.inj todo).2, running, io⟩
  | closed running main todo io exited =>
      rw [htodo] at todo
      cases todo

theorem Phase.writer (h : s.Phase) (hio : ∀ op ∈ s.todo .io, ∃ c, op = .log c)
    (hm : WriterMove s w free filled r s' free' filled') : s'.Phase := by
  -- the I/O thread only logs
  have hmain : ∀ {op ops}, s.todo w = op :: ops → (∀ c, op ≠ .log c) → w = .main := by
    intro op ops htodo hop
    cases w with
    | main => rfl
    | io =>
        obtain ⟨c, rfl⟩ := hio op (htodo ▸ List.mem_cons_self ..)
        exact absurd rfl (hop c)
  have hbusy : ∀ {p : WriterPc} {l : Logger}, s.pc w ≠ .idle → l.pc = Function.update s.pc w p →
      l.todo = s.todo → l.running = s.running → l.Phase := by
    intro p l hw hpc htodo hrun
    refine h.busy hw htodo hrun fun v hv => ?_
    rw [hpc, Function.update_of_ne hv]
  cases hm with
  | wait _ => exact h
  | @enter c ops live pc todo =>
      cases w with
      | main =>
          obtain ⟨ops', running, rfl, opens, io⟩ := h.serving_cons todo rfl
          refine .serving running ?_ opens (io.imp (fun hmem => ?_) id)
          · simp [move, advance]
          · simpa using hmem
      | io =>
          have hne : s.ioDone ≠ true := fun hdone => by
            rw [(ioDone_iff.mp hdone).2] at todo
            cases todo
          obtain ⟨ops', running, hops, opens, hjoin⟩ := h.serving_of_io hne
          exact .serving running hops opens (.inl hjoin)
  | @spawnIo ops pc todo =>
      obtain rfl := hmain todo nofun
      obtain ⟨ops', running, rfl, opens, io⟩ := h.serving_cons todo rfl
      refine .serving running ?_ opens (io.imp (fun hmem => ?_) id)
      · simp [advance]
      · simpa using hmem
  | @joinIo ops pc todo done =>
      obtain rfl := hmain todo nofun
      obtain ⟨ops', running, rfl, opens, io⟩ := h.serving_cons todo rfl
      refine .serving running ?_ opens (.inr done)
      simp [advance]
  | @clearRunning ops pc todo =>
      obtain rfl := hmain todo nofun
      obtain ⟨rfl, io⟩ := h.at_clearRunning todo
      refine .closing rfl pc ?_ io
      simp [advance]
  | @joinLogger ops pc todo done =>
      obtain rfl := hmain todo nofun
      obtain ⟨rfl, running, io⟩ := h.at_joinLogger todo
      refine .closed running pc ?_ io (loggerDone_iff.mp done)
      simp [advance]
  | popOn pc _ => exact hbusy (by simp [pc]) rfl rfl rfl
  | drop pc _ => exact hbusy (by simp [pc]) rfl rfl rfl
  | take pc _ => exact hbusy (by simp [pc]) rfl rfl rfl
  | fill pc => exact hbusy (by simp [pc]) rfl rfl rfl
  | pushOn pc _ => exact hbusy (by simp [pc]) rfl rfl rfl
  | pushed pc => exact hbusy (by simp [pc]) rfl rfl rfl

/-- The writer, as far as others see it. -/
theorem WriterMove.frame (hm : WriterMove s w free filled r s' free' filled') :
    s'.logger = s.logger ∧ (s.running = false → s'.running = false) ∧
      ∀ v, v ≠ w → s'.pc v = s.pc v ∧ s'.todo v = s.todo v ∧ s'.returned v = s.returned v := by
  have hreturned : ∀ (l : Logger) (c : LogCall) (ok : Bool) (v : LogWriter), v ≠ w →
      (l.leave w c ok).returned v = l.returned v := by
    intro l c ok v hv
    simp [Logger.returned, leave, Ne.symm hv]
  cases hm with
  | wait _ => exact ⟨rfl, id, fun _ _ => ⟨rfl, rfl, rfl⟩⟩
  | enter _ _ _ =>
      exact ⟨rfl, id, fun v hv => ⟨Function.update_of_ne hv .., Function.update_of_ne hv .., rfl⟩⟩
  | spawnIo _ _ => exact ⟨rfl, id, fun v hv => ⟨rfl, Function.update_of_ne hv .., rfl⟩⟩
  | joinIo _ _ _ => exact ⟨rfl, id, fun v hv => ⟨rfl, Function.update_of_ne hv .., rfl⟩⟩
  | clearRunning _ _ =>
      exact ⟨rfl, fun _ => rfl, fun v hv => ⟨rfl, Function.update_of_ne hv .., rfl⟩⟩
  | joinLogger _ _ _ => exact ⟨rfl, id, fun v hv => ⟨rfl, Function.update_of_ne hv .., rfl⟩⟩
  | popOn _ _ => exact ⟨rfl, id, fun v hv => ⟨Function.update_of_ne hv .., rfl, rfl⟩⟩
  | drop _ _ =>
      exact ⟨rfl, id, fun v hv => ⟨Function.update_of_ne hv .., rfl, hreturned _ _ _ v hv⟩⟩
  | take _ _ => exact ⟨rfl, id, fun v hv => ⟨Function.update_of_ne hv .., rfl, rfl⟩⟩
  | fill _ => exact ⟨rfl, id, fun v hv => ⟨Function.update_of_ne hv .., rfl, rfl⟩⟩
  | pushOn _ _ => exact ⟨rfl, id, fun v hv => ⟨Function.update_of_ne hv .., rfl, rfl⟩⟩
  | pushed _ =>
      exact ⟨rfl, id, fun v hv => ⟨Function.update_of_ne hv .., rfl, hreturned _ _ _ v hv⟩⟩

/-- The calls of a writer: it enters the first that it has to make, or stays in one, or returns. -/
theorem WriterMove.calls (hm : WriterMove s w free filled r s' free' filled') :
    s'.returned w ++ (s'.pc w).call ++ (s'.todo w).filterMap LogOp.call? =
      s.returned w ++ (s.pc w).call ++ (s.todo w).filterMap LogOp.call? := by
  cases hm with
  | wait _ => rfl
  | enter _ pc todo => simp [returned, move, advance, pc, todo, WriterPc.call, LogOp.call?]
  | spawnIo pc todo => simp [returned, advance, todo, List.filterMap_cons, LogOp.call?]
  | joinIo pc todo _ => simp [returned, advance, todo, List.filterMap_cons, LogOp.call?]
  | clearRunning pc todo => simp [returned, advance, todo, List.filterMap_cons, LogOp.call?]
  | joinLogger pc todo _ => simp [returned, advance, todo, List.filterMap_cons, LogOp.call?]
  | popOn pc _ => simp [returned, move, pc, WriterPc.call]
  | drop pc _ => simp [returned, leave, pc, WriterPc.call]
  | take pc _ => simp [returned, move, pc, WriterPc.call]
  | fill pc => simp [returned, move, pc, WriterPc.call]
  | pushOn pc _ => simp [returned, move, pc, WriterPc.call]
  | pushed pc => simp [returned, leave, pc, WriterPc.call]

/-- The logger, as far as the writers see it. -/
theorem LoggerMove.frame (hm : LoggerMove date s free filled r s' free' filled') :
    s'.pc = s.pc ∧ s'.todo = s.todo ∧ s'.running = s.running ∧ s'.returns = s.returns ∧
      s'.spawned = s.spawned := by
  cases hm <;> exact ⟨rfl, rfl, rfl, rfl, rfl⟩

theorem Ordered.writer (h : s.Ordered all) (hm : WriterMove s w free filled r s' free' filled') :
    s'.Ordered all := by
  intro v
  by_cases hv : v = w
  · rw [hv, ← h w]
    exact hm.calls
  · obtain ⟨hpc, htodo, hreturned⟩ := hm.frame.2.2 v hv
    rw [hpc, htodo, hreturned]
    exact h v

theorem Ordered.logger (h : s.Ordered all)
    (hm : LoggerMove date s free filled r s' free' filled') : s'.Ordered all := by
  obtain ⟨hpc, htodo, -, hreturns, -⟩ := hm.frame
  intro w
  rw [Logger.returned, hpc, htodo, hreturns]
  exact h w

/-- Both writers are idle once `running` is cleared. -/
theorem Phase.idle (h : s.Phase) (hrun : s.running = false) (w : LogWriter) : s.pc w = .idle := by
  have hboth : s.pc .main = .idle ∧ s.ioDone = true := by
    cases h with
    | serving running todo opens io =>
        rw [hrun] at running
        cases running
    | closing running main todo io => exact ⟨main, io⟩
    | closed running main todo io exited => exact ⟨main, io⟩
  cases w with
  | main => exact hboth.1
  | io => exact (ioDone_iff.mp hboth.2).1

/-- A writer goes through what it has to do. -/
theorem WriterMove.todo_suffix (hm : WriterMove s w free filled r s' free' filled')
    (v : LogWriter) : s'.todo v <:+ s.todo v := by
  have hadvance : ∀ {op ops}, s.todo w = op :: ops →
      Function.update s.todo w ops v <:+ s.todo v := by
    intro op ops htodo
    by_cases hv : v = w
    · rw [hv, Function.update_self, htodo]
      exact List.suffix_cons ..
    · rw [Function.update_of_ne hv]
  cases hm with
  | enter _ _ todo => exact hadvance todo
  | spawnIo _ todo => exact hadvance todo
  | joinIo _ todo _ => exact hadvance todo
  | clearRunning _ todo => exact hadvance todo
  | joinLogger _ todo _ => exact hadvance todo
  | _ => exact List.suffix_rfl

/-- A logger that has returned does nothing more. -/
theorem LoggerMove.of_exited (hm : LoggerMove date s free filled r s' free' filled')
    (h : s.logger = .exited) : s' = s ∧ filled' = filled := by
  cases hm <;> simp_all

theorem Staged.writer (h : s.Staged filled)
    (hm : WriterMove s w free filled r s' free' filled') : s'.Staged filled' := by
  obtain ⟨hlogger, hrun, -⟩ := hm.frame
  refine ⟨h.phase.writer h.ioLogs hm, ?_, ?_, ?_⟩
  · exact fun op hop => h.ioLogs op ((hm.todo_suffix .io).subset hop)
  · rw [hlogger]
    exact fun hpast => hrun (h.past hpast)
  · rw [hlogger]
    intro hexited
    have hfilled := h.drained hexited
    have hidle := h.phase.idle (h.past (by rw [hexited]; rfl)) w
    cases hm with
    | pushed pc =>
        rw [hidle] at pc
        cases pc
    | _ => exact hfilled

theorem Staged.logger (h : s.Staged filled)
    (hm : LoggerMove date s free filled r s' free' filled') : s'.Staged filled' := by
  obtain ⟨hpc, htodo, hrun, -⟩ := hm.frame
  have hio : s'.ioDone = s.ioDone := by simp only [ioDone, hpc, htodo]
  refine ⟨?_, ?_, ?_, ?_⟩
  · cases h.phase with
    | serving running todo opens io =>
        refine .serving (hrun.trans running) ((congrFun htodo _).trans todo) opens ?_
        rw [hio]
        exact io
    | closing running main todo io =>
        exact .closing (hrun.trans running) ((congrFun hpc _).trans main)
          ((congrFun htodo _).trans todo) (hio.trans io)
    | closed running main todo io exited =>
        rw [(hm.of_exited exited).1]
        exact h.phase
  · rw [htodo]
    exact h.ioLogs
  · rw [hrun]
    intro hpast
    cases hm with
    | check pc =>
        cases hr : s.running with
        | false => rfl
        | true =>
            rw [if_pos hr] at hpast
            cases hpast
    | drainOn pc _ => exact h.past (by rw [pc]; rfl)
    | drain pc _ => exact h.past (by rw [pc]; rfl)
    | exit pc _ => exact h.past (by rw [pc]; rfl)
    | flushLast pc => exact h.past (by rw [pc]; rfl)
    | exited _ => exact h.past hpast
    | _ => cases hpast
  · intro hexited
    cases hm with
    | check pc =>
        exfalso
        revert hexited
        show (if s.running then LoggerPc.popping .idle else .draining .idle) ≠ .exited
        split <;> nofun
    | exit pc _ => rfl
    | exited pc => exact h.drained pc
    | _ => cases hexited

theorem Spawns.writer (h : s.Spawns) (hio : ∀ op ∈ s.todo .io, ∃ c, op = .log c)
    (hm : WriterMove s w free filled r s' free' filled') : s'.Spawns := by
  intro hspawned
  -- a step of the main thread, or of an I/O thread that only logs
  have hmain : ∀ {op ops}, s.spawned = false → s.todo w = op :: ops → (∀ c, op ≠ .log c) →
      w = .main ∧ s.pc .io = .idle ∧ spawnsFirst (op :: ops) = true := by
    intro op ops hs htodo hop
    cases w with
    | main => exact ⟨rfl, (h hs).1, htodo ▸ (h hs).2⟩
    | io =>
        obtain ⟨c, rfl⟩ := hio op (htodo ▸ List.mem_cons_self ..)
        exact absurd rfl (hop c)
  have hbusy : ∀ {p : WriterPc}, s.spawned = false → s.pc w ≠ .idle →
      Function.update s.pc w p .io = .idle ∧ spawnsFirst (s.todo .main) = true := by
    intro p hs hw
    obtain ⟨hidle, hfirst⟩ := h hs
    have hne : LogWriter.io ≠ w := fun e => hw (e ▸ hidle)
    exact ⟨(Function.update_of_ne hne ..).trans hidle, hfirst⟩
  cases hm with
  | wait _ => exact h hspawned
  | @enter c ops live pc todo =>
      cases w with
      | main =>
          obtain ⟨hidle, hfirst⟩ := h hspawned
          rw [todo] at hfirst
          simpa [move, advance, hidle, spawnsFirst] using hfirst
      | io => exact absurd (hspawned.symm.trans live) (by decide)
  | spawnIo pc todo => cases hspawned
  | joinIo pc todo done => cases (hmain hspawned todo nofun).2.2
  | @clearRunning ops pc todo =>
      obtain ⟨rfl, hidle, hfirst⟩ := hmain hspawned todo nofun
      simpa [advance, hidle, spawnsFirst] using hfirst
  | @joinLogger ops pc todo done =>
      obtain ⟨rfl, hidle, hfirst⟩ := hmain hspawned todo nofun
      simpa [advance, hidle, spawnsFirst] using hfirst
  | popOn pc _ => exact hbusy hspawned (by simp [pc])
  | drop pc _ => exact hbusy hspawned (by simp [pc])
  | take pc _ => exact hbusy hspawned (by simp [pc])
  | fill pc => exact hbusy hspawned (by simp [pc])
  | pushOn pc _ => exact hbusy hspawned (by simp [pc])
  | pushed pc => exact hbusy hspawned (by simp [pc])

theorem Spawns.logger (h : s.Spawns) (hm : LoggerMove date s free filled r s' free' filled') :
    s'.Spawns := by
  obtain ⟨hpc, htodo, -, -, hspawned⟩ := hm.frame
  rw [Spawns, hpc, htodo, hspawned]
  exact h

/-! ### Steps and runs -/

/-- All that is kept. -/
structure Sound (date : ℕ → List UInt8) (n cap : ℕ) (all : LogWriter → List LogCall) (s : Logger)
    (free filled : List ℕ) : Prop where
  circulates : Circulates n cap s free filled
  flows : s.Flows date filled
  staged : s.Staged filled
  ordered : s.Ordered all
  spawns : s.Spawns

/-- A step of a writer. -/
theorem Sound.writer (h : Sound date n cap all s free filled) (hs : s.Spaced (.writer w)) :
    ∃ r s' free' filled', s.writerStep w = some (r, s') ∧
      WriterMove s w free filled r s' free' filled' ∧
      Sound date n cap all s' free' filled' := by
  obtain ⟨r, s', free', filled', hstep, hm, hc⟩ := h.circulates.writer hs
  exact ⟨r, s', free', filled', hstep, hm, hc, h.flows.writer h.circulates hm, h.staged.writer hm,
    h.ordered.writer hm, h.spawns.writer h.staged.ioLogs hm⟩

/-- A step of the logger. -/
theorem Sound.logger (h : Sound date n cap all s free filled) :
    ∃ r s' free' filled', s.loggerStep date = some (r, s') ∧
      LoggerMove date s free filled r s' free' filled' ∧
      Sound date n cap all s' free' filled' := by
  obtain ⟨r, s', free', filled', hstep, hm, hc⟩ := h.circulates.loggerStep date
  exact ⟨r, s', free', filled', hstep, hm, hc, h.flows.logger h.circulates hm, h.staged.logger hm,
    h.ordered.logger hm, h.spawns.logger hm⟩

/-- **A step**, of any thread.  No push fails, and a message is dropped only when the free ring is
empty. -/
theorem Sound.step (h : Sound date n cap all s free filled) {t : LogTurn} (hs : s.Spaced t) :
    ∃ r s', step date s t = some (r, s') ∧
      (∃ free' filled', Sound date n cap all s' free' filled') ∧ r ≠ .push false ∧
      (r = .dropped → s.free.count.toNat = 0) := by
  cases t with
  | writer w =>
      obtain ⟨r, s', free', filled', hstep, hm, h'⟩ := h.writer hs
      refine ⟨r, s', hstep, ⟨free', filled', h'⟩, ?_, ?_⟩
      · rintro rfl
        cases hm
      · rintro rfl
        cases hm with
        | drop _ empty => rw [h.circulates.freeRing.holds.spans.count, empty, List.length_nil]
  | logger =>
      obtain ⟨r, s', free', filled', hstep, hm, h'⟩ := h.logger
      refine ⟨r, s', hstep, ⟨free', filled', h'⟩, ?_, ?_⟩
      · rintro rfl
        cases hm
      · rintro rfl
        cases hm

/-! ### The end -/

/-- The main thread has nothing left to do: `logger_shutdown` has returned. -/
def Finished (s : Logger) : Prop := s.pc .main = .idle ∧ s.todo .main = []

/-- The main thread joins the logger after it has cleared `running`. -/
theorem Phase.closing_of_join (h : s.Phase) {ops : List LogOp}
    (htodo : s.todo .main = .joinLogger :: ops) : s.running = false := by
  cases h with
  | @serving l running todo opens io =>
      rw [htodo] at todo
      cases l with
      | nil => cases todo
      | cons o l =>
          obtain ⟨rfl, -⟩ := List.cons.inj todo
          cases opens _ (List.mem_cons_self ..)
  | closing running main todo io => exact running
  | closed running main todo io exited => exact running

theorem Phase.finished (h : s.Phase) (hf : s.Finished) : s.ioDone = true ∧ s.logger = .exited := by
  have htodo := hf.2
  cases h with
  | serving running todo opens io =>
      rw [htodo] at todo
      exact absurd todo.symm (List.append_ne_nil_of_right_ne_nil _ (List.cons_ne_nil _ _))
  | closing running main todo io =>
      rw [htodo] at todo
      cases todo
  | closed running main todo io exited => exact ⟨io, exited⟩

/-- **After `logger_shutdown`** all calls have returned, and what was pushed is in the file. -/
theorem Sound.finished (h : Sound date n cap all s free filled) (hf : s.Finished) :
    s.file = s.pushed.flatMap (fun c => c.entry.flush date) ∧ ∀ w, s.returned w = all w := by
  obtain ⟨hio, hexited⟩ := h.staged.phase.finished hf
  have hflow := h.flows.flow
  rw [h.staged.drained hexited, hexited] at hflow
  refine ⟨?_, fun w => ?_⟩
  · rw [hflow]
    exact (List.append_nil _).symm
  · have hdone : s.pc w = .idle ∧ s.todo w = [] := by
      cases w with
      | main => exact hf
      | io => exact ioDone_iff.mp hio
    have hord := h.ordered w
    rw [hdone.1, hdone.2] at hord
    simpa [WriterPc.call] using hord

/-- The length of the message is no multiple of 2¹⁶, so `msg_len` is not 0. -/
def Printable (c : LogCall) : Prop := c.printed.length % 65536 ≠ 0

instance (c : LogCall) : Decidable (Printable c) :=
  inferInstanceAs (Decidable (c.printed.length % 65536 ≠ 0))

theorem flush_entry_of_printable {c : LogCall} (h : Printable c) :
    c.entry.flush date = [c.entry.line date] := by
  refine if_neg fun hzero => h ?_
  have hnat := congrArg UInt16.toNat hzero
  rwa [LogCall.entry, UInt16.toNat_ofNat'] at hnat

/-- Messages with a line each. -/
theorem flatMap_flush {l : List LogCall} (h : ∀ c ∈ l, Printable c) :
    l.flatMap (fun c => c.entry.flush date) = l.map fun c => c.entry.line date := by
  induction l with
  | nil => rfl
  | cons c l ih =>
      rw [List.flatMap_cons, flush_entry_of_printable (h c (List.mem_cons_self ..)),
        ih fun d hd => h d (List.mem_cons_of_mem c hd)]
      rfl

/-- What was pushed was one of the calls. -/
theorem Sound.mem_pushed (h : Sound date n cap all s free filled) {c : LogCall}
    (hc : c ∈ s.pushed) : ∃ w, c ∈ all w := by
  obtain ⟨x, hx, rfl⟩ := List.mem_map.mp hc
  refine ⟨x.writer, ?_⟩
  rw [← h.ordered x.writer, List.append_assoc]
  refine List.mem_append_left _ (List.mem_map_of_mem ?_)
  rw [List.mem_filter]
  exact ⟨(List.mem_filter.mp hx).1, by simp⟩

theorem Sound.lines (h : Sound date n cap all s free filled)
    (hall : ∀ w, ∀ c ∈ all w, Printable c) :
    s.pushed.flatMap (fun c => c.entry.flush date) = s.pushed.map fun c => c.entry.line date := by
  refine flatMap_flush fun c hc => ?_
  obtain ⟨w, hw⟩ := h.mem_pushed hc
  exact hall w c hw

/-- **The file is a part of what was pushed**, in order and from the start. -/
theorem Sound.file_prefix (h : Sound date n cap all s free filled)
    (hall : ∀ w, ∀ c ∈ all w, Printable c) :
    s.file <+: s.pushed.map fun c => c.entry.line date := by
  rw [← h.lines hall, h.flows.flow]
  exact List.prefix_append ..

/-- **After `logger_shutdown`** the file has a line for each message that was pushed. -/
theorem Sound.file_eq (h : Sound date n cap all s free filled)
    (hall : ∀ w, ∀ c ∈ all w, Printable c) (hf : s.Finished) :
    s.file = s.pushed.map fun c => c.entry.line date := by
  rw [← h.lines hall]
  exact (h.finished hf).1

/-! ### The start -/

/-- The calls that the two writers make. -/
def calls (main io : List LogOp) : LogWriter → List LogCall
  | .main => main.filterMap LogOp.call?
  | .io => io.filterMap LogOp.call?

/-- **The start**, for a main thread that shuts the logger down last and an I/O thread that it has
joined by then. -/
theorem init_sound {queueSize : UInt32} (hpos : 1 ≤ queueSize.toNat)
    (hle : queueSize.toNat ≤ 2 ^ 31) (ops : List LogOp) (ioCalls : List LogCall)
    (hopens : ∀ op ∈ ops, op.opens = true) (hio : .joinIo ∈ ops ∨ ioCalls = [])
    (hspawn : spawnsFirst (thenShutdown ops) = true) (date : ℕ → List UInt8) :
    ∃ free filled cap, init queueSize (thenShutdown ops) (ioCalls.map .log) =
        some (opened free filled (thenShutdown ops) (ioCalls.map .log)) ∧
      Sound date (circulating queueSize) cap (calls (thenShutdown ops) (ioCalls.map .log))
        (opened free filled (thenShutdown ops) (ioCalls.map .log))
        (List.range (circulating queueSize)) [] := by
  obtain ⟨free, filled, cap, hinit, hc⟩ :=
    init_circulates hpos hle (thenShutdown ops) (ioCalls.map .log)
  have hcontent : ∀ w c e k,
      (opened free filled (thenShutdown ops) (ioCalls.map .log)).pc w = .pushing c e k →
        LogEntry.zeroed = c.entry := by
    intro w c e k hpc
    cases hpc
  refine ⟨free, filled, cap, hinit, hc, ⟨hcontent, rfl⟩, ⟨?_, ?_, ?_, ?_⟩, ?_,
    fun _ => ⟨rfl, hspawn⟩⟩
  · refine .serving rfl rfl hopens (hio.imp id ?_)
    rintro rfl
    rfl
  · intro op hop
    obtain ⟨c, -, rfl⟩ := List.mem_map.mp hop
    exact ⟨c, rfl⟩
  · intro hpast
    cases hpast
  · intro hexited
    cases hexited
  · intro w
    cases w <;> rfl

end Logger

end Aspira
