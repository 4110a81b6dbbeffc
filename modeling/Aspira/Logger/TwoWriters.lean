import Aspira.Logger.OneWriter

/-!
# Logger — two writers

The logger as the pipeline uses it.  The main thread logs in `init` and `start` before it creates the
I/O thread, once in `start` and once in `stop` while the I/O thread runs, and again after joining it;
the I/O thread logs in `process_io_event`.  So there are moments when both rings of the logger have
two threads at one end, which `ring_buffer_push` and `ring_buffer_pop` are not made for.

Two pops that begin at the same tail return the same entry: `writers_share_entry` is such a run.
`writers_exclusive` says that it takes an overlap of that kind: as long as neither writer begins a
pop, or a push, while the other is in the middle of one, no entry is with both, and every message
pushed is written once.
-/

namespace Aspira

open Spsc (stepProducer stepConsumer)

namespace Logger

/-- What the main thread does with the logger: the messages before the I/O thread exists, while it
does, and after it is joined. -/
def pipelineOps (early serving late : List LogCall) : List LogOp :=
  thenShutdown (early.map .log ++ LogOp.spawnIo :: (serving.map .log ++
    LogOp.joinIo :: late.map .log))

/-! ### The messages of the pipeline -/

/-- `LOG_INFO_`. -/
def logInfo (message : List UInt8) (now : UInt64) : LogCall :=
  ⟨.info, text "[INFO]  " ++ message, now⟩

/-- The messages of `init` and of `start` before it creates the I/O thread; `clock` has the times. -/
def earlyCalls (symbol : List UInt8) (clock : ℕ → UInt64) : List LogCall :=
  [logInfo (text "EventPipeline initializing for symbol " ++ symbol) (clock 0),
    logInfo (text "EventPipeline initialized successfully") (clock 1),
    logInfo (text "EventPipeline starting...") (clock 2)]

/-- The messages of `start` and `stop` while the I/O thread runs. -/
def servingCalls (clock : ℕ → UInt64) : List LogCall :=
  [logInfo (text "EventPipeline started — 2-stage pipeline active") (clock 3),
    logInfo (text "EventPipeline stopping...") (clock 4)]

/-- The statistics that `stop` logs, with the values as printed. -/
def finalCalls (value : ℕ → List UInt8) (clock : ℕ → UInt64) : List LogCall :=
  [logInfo (text "=== Final Pipeline Statistics ===") (clock 5),
    logInfo (text "  Market data msgs:  " ++ value 0) (clock 6),
    logInfo (text "  Orders created:    " ++ value 1) (clock 7),
    logInfo (text "  Orders accepted:   " ++ value 2) (clock 8),
    logInfo (text "  Orders rejected:   " ++ value 3) (clock 9),
    logInfo (text "  Orders executed:   " ++ value 4) (clock 10),
    logInfo (text "  Trades generated:  " ++ value 5) (clock 11),
    logInfo (text "  I/O events dropped:" ++ value 6) (clock 12),
    logInfo (text "  Avg latency (us):  " ++ value 7) (clock 13)]

/-- What the I/O thread logs for a trade. -/
def firstTrade : LogCall := logInfo (text "TRADE id=1 AAPL 100@150.25 (buy=1, sell=2)") 7

/-- The pipeline for `AAPL`, with statistics that are all 2. -/
def shortSession : List LogOp :=
  pipelineOps (earlyCalls (text "AAPL") fun _ => 7) (servingCalls fun _ => 7)
    (finalCalls (fun _ => text "2") fun _ => 7)

/-! ### Runs without overlap -/

variable {n cap : ℕ} {s s' : Logger} {free filled : List ℕ} {w : LogWriter}
  {date : ℕ → List UInt8} {all : LogWriter → List LogCall}

/-- No entry is with both writers. -/
theorem Circulates.exclusive (h : Circulates n cap s free filled) (e : ℕ) :
    ¬ (e ∈ (s.pc .main).hand ∧ e ∈ (s.pc .io).hand) :=
  fun ⟨hmain, hio⟩ => (h.writer_only hmain).2.1 hio

theorem spawnsFirst_append (calls : List LogCall) (ops : List LogOp) :
    spawnsFirst (calls.map .log ++ ops) = spawnsFirst ops := by
  induction calls with
  | nil => rfl
  | cons c calls ih => exact ih

theorem mem_calls_pipelineOps {early serving late io : List LogCall} {c : LogCall}
    (hc : c ∈ calls (pipelineOps early serving late) (io.map .log) w) :
    c ∈ early ++ serving ++ late ++ io := by
  cases w with
  | main =>
      simp [calls, pipelineOps, thenShutdown, List.filterMap_append, List.filterMap_cons,
        List.filterMap_map, Function.comp_def, LogOp.call?] at hc
      simp only [List.mem_append]
      tauto
  | io =>
      simp [calls, List.filterMap_map, Function.comp_def, LogOp.call?] at hc
      exact List.mem_append_right _ hc

/-- `logger_init`, for the pipeline. -/
theorem init_pipeline (early serving late io : List LogCall) (date : ℕ → List UInt8) :
    ∃ cap s₀ free filled, init 4096 (pipelineOps early serving late) (io.map .log) = some s₀ ∧
      s₀.pc .io = .idle ∧ Sound date (circulating 4096) cap
        (calls (pipelineOps early serving late) (io.map .log)) s₀ free filled := by
  have hopens : ∀ op ∈ early.map .log ++ LogOp.spawnIo :: (serving.map .log ++
      LogOp.joinIo :: late.map .log), op.opens = true := by
    intro op hop
    simp only [List.mem_append, List.mem_cons, List.mem_map] at hop
    rcases hop with ⟨c, -, rfl⟩ | rfl | ⟨c, -, rfl⟩ | rfl | ⟨c, -, rfl⟩ <;> rfl
  have hjoin : LogOp.joinIo ∈ early.map .log ++ LogOp.spawnIo :: (serving.map .log ++
      LogOp.joinIo :: late.map .log) := by simp
  have hspawn : spawnsFirst (pipelineOps early serving late) = true := by
    rw [pipelineOps, thenShutdown, List.append_assoc, spawnsFirst_append]
    rfl
  obtain ⟨free, filled, cap, hinit, hsound⟩ := @init_sound 4096 (by decide) (by decide) _ io hopens
    (.inl hjoin) hspawn date
  exact ⟨cap, _, _, _, hinit, rfl, hsound⟩

/-- A run without overlap. -/
theorem Sound.exec (h : Sound date n cap all s free filled) {turns : List LogTurn}
    (hspaced : Run.Along (Logger.step date) Spaced s turns) :
    ∃ rs s', Run.exec (Logger.step date) s turns = some (rs, s') ∧
      ∃ free filled, Sound date n cap all s' free filled :=
  Run.exec_of_step (I := fun s => ∃ free filled, Sound date n cap all s free filled)
    (fun s t hs hC => by
      obtain ⟨free, filled, h⟩ := hs
      obtain ⟨r, s', hstep, h', -⟩ := h.step hC
      exact ⟨r, s', hstep, h'⟩) ⟨free, filled, h⟩ hspaced

/-- **The pipeline's two writers**, with whatever messages they log, none of a length that is a
multiple of 2¹⁶.  In every run whose steps are all `Spaced`, no entry is with both of them, and what
is in the file is what was pushed, line by line, as far as the logger has come; all of it once `stop`
has returned, which some order of steps always achieves. -/
theorem writers_exclusive {early serving late io : List LogCall}
    (hlen : ∀ c ∈ early ++ serving ++ late ++ io, Printable c) (date : ℕ → List UInt8)
    (turns : List LogTurn) :
    ∃ s₀, init 4096 (pipelineOps early serving late) (io.map .log) = some s₀ ∧
      (Run.Along (step date) Spaced s₀ turns →
        ∃ rs s, Run.exec (step date) s₀ turns = some (rs, s) ∧
          (∀ e, ¬ (e ∈ (s.pc .main).hand ∧ e ∈ (s.pc .io).hand)) ∧
          s.file <+: s.pushed.map (fun c => c.entry.line date) ∧
          (s.Finished → s.file = s.pushed.map fun c => c.entry.line date) ∧
          ∃ more rs' s', Run.Along (step date) Spaced s more ∧
            Run.exec (step date) s more = some (rs', s') ∧ s'.Finished) := by
  have hprintable : ∀ w, ∀ c ∈ calls (pipelineOps early serving late) (io.map .log) w,
      Printable c := fun w c hc => hlen c (mem_calls_pipelineOps hc)
  obtain ⟨cap, s₀, free, filled, hinit, -, hsound⟩ := init_pipeline early serving late io date
  refine ⟨s₀, hinit, fun hspaced => ?_⟩
  obtain ⟨rs, s, hexec, free', filled', h⟩ := hsound.exec hspaced
  exact ⟨rs, s, hexec, h.circulates.exclusive, h.file_prefix hprintable, h.file_eq hprintable,
    h.can_finish⟩

/-- A run in which both writers log all they have. -/
theorem writers_exclusive_shortSession : ∃ s₀ turns rs s,
    init 4096 shortSession ([firstTrade].map .log) = some s₀ ∧
    Run.Along (step epochDate) Spaced s₀ turns ∧
    Run.exec (step epochDate) s₀ turns = some (rs, s) ∧
    s.returned .io = [firstTrade] ∧ (s.returned .main).length = 14 ∧
    (∀ e, ¬ (e ∈ (s.pc .main).hand ∧ e ∈ (s.pc .io).hand)) ∧
    s.file = s.pushed.map fun c => c.entry.line epochDate := by
  have hlen : ∀ c ∈ earlyCalls (text "AAPL") (fun _ => 7) ++ servingCalls (fun _ => 7) ++
      finalCalls (fun _ => text "2") (fun _ => 7) ++ [firstTrade], Printable c := by
    decide +kernel
  -- some order of steps comes to the end of `stop`
  obtain ⟨s₀, hinit, hnone⟩ := writers_exclusive hlen epochDate []
  obtain ⟨rs₀, s₁, hexec₀, -, -, -, turns, rs, s, hspaced, hexec, hfinished⟩ := hnone trivial
  obtain ⟨-, rfl⟩ := Prod.mk.inj (Option.some.inj hexec₀)
  obtain ⟨s₁, hinit₁, hrun⟩ := writers_exclusive hlen epochDate turns
  obtain rfl := Option.some.inj (hinit.symm.trans hinit₁)
  obtain ⟨rs₁, s₁, hexec₁, hexclusive, -, hfile, -⟩ := hrun hspaced
  obtain ⟨-, rfl⟩ := Prod.mk.inj (Option.some.inj (hexec.symm.trans hexec₁))
  -- by then every call has returned
  obtain ⟨cap, s₁, free, filled, hinit₁, -, hsound⟩ := init_pipeline
    (earlyCalls (text "AAPL") fun _ => 7) (servingCalls fun _ => 7)
    (finalCalls (fun _ => text "2") fun _ => 7) [firstTrade] epochDate
  obtain rfl := Option.some.inj (hinit.symm.trans hinit₁)
  obtain ⟨rs₂, s₁, hexec₂, free', filled', h⟩ := hsound.exec hspaced
  obtain ⟨-, rfl⟩ := Prod.mk.inj (Option.some.inj (hexec.symm.trans hexec₂))
  have hreturned := (h.finished hfinished).2
  refine ⟨_, turns, rs, s, hinit, hspaced, hexec, (hreturned .io).trans rfl, ?_, hexclusive,
    hfile hfinished⟩
  rw [hreturned .main]
  rfl

/-! ### A call on its own -/

section Steps

variable {c : LogCall} {e : ℕ} {t : UInt32}

theorem step_writer (hlive : s.live w = true) :
    step date s (.writer w) = s.writeStep w (s.pc w) := by
  rw [step, writerStep, if_pos hlive]

theorem step_enter {ops : List LogOp} (hlive : s.live w = true) (hpc : s.pc w = .idle)
    (htodo : s.todo w = .log c :: ops) :
    step date s (.writer w) = some (.quiet, (s.advance w ops).move w (.popping c .idle)) := by
  simp only [step_writer hlive, hpc, writeStep, next, htodo]

theorem step_spawnIo {ops : List LogOp} (date : ℕ → List UInt8) (hpc : s.pc .main = .idle)
    (htodo : s.todo .main = .spawnIo :: ops) :
    step date s (.writer .main) = some (.quiet, { s.advance .main ops with spawned := true }) := by
  have hlive : s.live .main = true := rfl
  simp only [step_writer hlive, hpc, writeStep, next, htodo]

theorem step_loadTail (hlive : s.live w = true) (hpc : s.pc w = .popping c .idle) :
    step date s (.writer w) =
      some (.quiet, s.move w (.popping c (.loadedTail s.free.tail))) := by
  rw [step_writer hlive, hpc]
  rfl

theorem step_loadHead (hlive : s.live w = true) (hpc : s.pc w = .popping c (.loadedTail t))
    (hne : t ≠ s.free.head) :
    step date s (.writer w) = some (.quiet, s.move w (.popping c (.reading t))) := by
  simp only [step_writer hlive, hpc, writeStep, stepConsumer, if_neg hne]
  rfl

theorem step_read (hlive : s.live w = true) (hpc : s.pc w = .popping c (.reading t))
    (hslot : s.free.buffer[t.toNat]? = some (some e)) :
    step date s (.writer w) = some (.quiet, s.move w (.popping c (.releasing t (some e)))) := by
  simp only [step_writer hlive, hpc, writeStep, stepConsumer, hslot]
  rfl

theorem step_release (hlive : s.live w = true) (hpc : s.pc w = .popping c (.releasing t (some e))) :
    step date s (.writer w) =
      some (.quiet, { s with free := { s.free with tail := (t + 1) &&& s.free.mask } }.move w
        (.filling c e)) := by
  rw [step_writer hlive, hpc]
  rfl

theorem step_fill (hlive : s.live w = true) (hpc : s.pc w = .filling c e) :
    step date s (.writer w) =
      some (.quiet, { s with pool := Function.update s.pool e c.entry }.move w
        (.pushing c e .idle)) := by
  rw [step_writer hlive, hpc]
  rfl

theorem step_pushLoadHead (hlive : s.live w = true) (hpc : s.pc w = .pushing c e .idle) :
    step date s (.writer w) =
      some (.quiet, s.move w (.pushing c e (.loadedHead (some e) s.filled.head))) := by
  rw [step_writer hlive, hpc]
  rfl

theorem step_pushLoadTail (hlive : s.live w = true)
    (hpc : s.pc w = .pushing c e (.loadedHead (some e) t))
    (hne : (t + 1) &&& s.filled.mask ≠ s.filled.tail) :
    step date s (.writer w) =
      some (.quiet,
        s.move w (.pushing c e (.storing (some e) t ((t + 1) &&& s.filled.mask)))) := by
  simp only [step_writer hlive, hpc, writeStep, stepProducer, if_neg hne]
  rfl

theorem step_store {t' : UInt32} (hlive : s.live w = true)
    (hpc : s.pc w = .pushing c e (.storing (some e) t t'))
    (hlt : t.toNat < s.filled.buffer.length) :
    step date s (.writer w) =
      some (.quiet,
        { s with filled := { s.filled with buffer := s.filled.buffer.set t.toNat (some e) } }.move
          w (.pushing c e (.publishing (some e) t'))) := by
  simp only [step_writer hlive, hpc, writeStep, stepProducer, if_pos hlt]
  rfl

theorem step_publish (hlive : s.live w = true)
    (hpc : s.pc w = .pushing c e (.publishing (some e) t)) :
    step date s (.writer w) =
      some (.push true, { s with filled := { s.filled with head := t } }.leave w c true) := by
  rw [step_writer hlive, hpc]
  rfl

/-- A call up to the two loads of its pop, which finds the ring not empty. -/
theorem exec_begin {ops : List LogOp} (date : ℕ → List UInt8) (hlive : s.live w = true) (hpc : s.pc w = .idle)
    (htodo : s.todo w = .log c :: ops) (hne : s.free.tail ≠ s.free.head) :
    Run.exec (step date) s [.writer w, .writer w, .writer w] =
      some ([.quiet, .quiet, .quiet],
        (s.advance w ops).move w (.popping c (.reading s.free.tail))) := by
  rw [Run.exec_cons (step_enter hlive hpc htodo)
    (Run.exec_cons (step_loadTail hlive (Function.update_self ..))
      (Run.exec_cons (step_loadHead hlive (Function.update_self ..) hne) rfl))]
  simp [move, advance]

/-- The rest of the pop. -/
theorem exec_end (date : ℕ → List UInt8) (hlive : s.live w = true)
    (hpc : s.pc w = .popping c (.reading t))
    (hslot : s.free.buffer[t.toNat]? = some (some e)) :
    Run.exec (step date) s [.writer w, .writer w] =
      some ([.quiet, .quiet],
        { s with free := { s.free with tail := (t + 1) &&& s.free.mask } }.move w
          (.filling c e)) := by
  rw [Run.exec_cons (step_read hlive hpc hslot)
    (Run.exec_cons (step_release hlive (Function.update_self ..)) rfl)]
  simp [move]

/-- A push to a ring that is not full. -/
theorem exec_push (date : ℕ → List UInt8) (hlive : s.live w = true)
    (hpc : s.pc w = .pushing c e .idle) (hfilled : s.filled.Holds cap filled)
    (hroom : filled.length + 1 < cap) :
    Run.exec (step date) s [.writer w, .writer w, .writer w, .writer w] =
      some ([.quiet, .quiet, .quiet, .push true],
        { s with
          filled := { s.filled with
            buffer := s.filled.buffer.set s.filled.head.toNat (some e)
            head := (s.filled.head + 1) &&& s.filled.mask } }.leave w c true) := by
  have hlt : s.filled.head.toNat < s.filled.buffer.length := by
    rw [hfilled.slots]
    exact hfilled.head_lt
  have hne : (s.filled.head + 1) &&& s.filled.mask ≠ s.filled.tail :=
    fun heq => hroom.ne (hfilled.next_eq_tail.mp heq)
  rw [Run.exec_cons (step_pushLoadHead hlive hpc)
    (Run.exec_cons (step_pushLoadTail hlive (Function.update_self ..) hne)
      (Run.exec_cons (step_store hlive (Function.update_self ..) hlt)
        (Run.exec_cons (step_publish hlive (Function.update_self ..)) rfl)))]
  simp [move, leave]

theorem live_of_spawned (h : s'.spawned = s.spawned) (w : LogWriter) : s'.live w = s.live w := by
  cases w with
  | main => rfl
  | io => exact h

/-- **A call of `logger_write` on its own**, with an entry to take and room to push it. -/
theorem exec_write {ops : List LogOp} (date : ℕ → List UInt8) (hlive : s.live w = true)
    (hpc : s.pc w = .idle) (htodo : s.todo w = .log c :: ops)
    (hfree : s.free.Holds cap (e :: free)) (hfilled : s.filled.Holds cap filled)
    (hroom : filled.length + 1 < cap) :
    ∃ rs s', Run.exec (step date) s (List.replicate 10 (.writer w)) = some (rs, s') ∧
      s'.free.Holds cap free ∧ s'.filled.Holds cap (filled ++ [e]) ∧ s'.pc = s.pc ∧
      s'.todo = Function.update s.todo w ops ∧ s'.spawned = s.spawned := by
  have hlive' : ∀ {l : Logger}, l.spawned = s.spawned → l.live w = true :=
    fun hl => (live_of_spawned hl w).trans hlive
  have hset : ∀ {l : Logger} {p p' : WriterPc}, l.pc = Function.update s.pc w p →
      Function.update l.pc w p' = Function.update s.pc w p' := by
    intro l p p' hl
    rw [hl, Function.update_idem]
  -- the pop
  obtain ⟨s₁, h₁, hpc₁, htodo₁, hfree₁, hfilled₁, hspawned₁⟩ :
      ∃ s₁, Run.exec (step date) s [.writer w, .writer w, .writer w] =
          some ([.quiet, .quiet, .quiet], s₁) ∧
        s₁.pc = Function.update s.pc w (.popping c (.reading s.free.tail)) ∧
        s₁.todo = Function.update s.todo w ops ∧ s₁.free = s.free ∧ s₁.filled = s.filled ∧
        s₁.spawned = s.spawned :=
    ⟨_, exec_begin date hlive hpc htodo hfree.tail_ne_head, rfl, rfl, rfl, rfl, rfl⟩
  rw [← hfree₁] at hfree hpc₁
  obtain ⟨s₂, h₂, hpc₂, htodo₂, hfree₂, hfilled₂, hspawned₂⟩ :
      ∃ s₂, Run.exec (step date) s₁ [.writer w, .writer w] = some ([.quiet, .quiet], s₂) ∧
        s₂.pc = Function.update s.pc w (.filling c e) ∧ s₂.todo = s₁.todo ∧
        s₂.free.Holds cap free ∧ s₂.filled = s₁.filled ∧ s₂.spawned = s₁.spawned :=
    ⟨_, exec_end date (hlive' hspawned₁) (by rw [hpc₁, Function.update_self]) hfree.first,
      hset hpc₁, rfl, hfree.popped, rfl, rfl⟩
  -- the entry, and the push
  obtain ⟨s₃, h₃, hpc₃, htodo₃, hfree₃, hfilled₃, hspawned₃⟩ :
      ∃ s₃, step date s₂ (.writer w) = some (.quiet, s₃) ∧
        s₃.pc = Function.update s.pc w (.pushing c e .idle) ∧ s₃.todo = s₁.todo ∧
        s₃.free = s₂.free ∧ s₃.filled = s.filled ∧ s₃.spawned = s.spawned :=
    ⟨_, step_fill (hlive' (hspawned₂.trans hspawned₁)) (by rw [hpc₂, Function.update_self]),
      hset hpc₂, htodo₂, rfl, hfilled₂.trans hfilled₁, hspawned₂.trans hspawned₁⟩
  rw [← hfilled₃] at hfilled
  have h₄ := exec_push (c := c) (e := e) date (hlive' hspawned₃)
    (by rw [hpc₃, Function.update_self]) hfilled hroom
  refine ⟨_, _, Run.exec_append h₁ (Run.exec_append h₂ (Run.exec_cons h₃ h₄)), ?_,
    hfilled.pushed hroom e, ?_, htodo₃.trans htodo₁, hspawned₃⟩
  · rw [← hfree₃] at hfree₂
    exact hfree₂
  · show Function.update s₃.pc w .idle = s.pc
    rw [hset hpc₃, ← hpc, Function.update_eq_self]

/-- Calls one after the other. -/
theorem exec_writes {ops : List LogOp} (date : ℕ → List UInt8) (messages : List LogCall) :
    ∀ {s : Logger} (es : List ℕ) {filled : List ℕ}, s.live w = true → s.pc w = .idle →
      s.todo w = messages.map .log ++ ops → es.length = messages.length →
      s.free.Holds cap (es ++ free) → s.filled.Holds cap filled →
      filled.length + messages.length < cap →
      ∃ rs s', Run.exec (step date) s (List.replicate (10 * messages.length) (.writer w)) =
          some (rs, s') ∧
        s'.free.Holds cap free ∧ s'.pc = s.pc ∧ s'.todo = Function.update s.todo w ops ∧
        s'.spawned = s.spawned := by
  induction messages with
  | nil =>
      intro s es filled _ _ htodo hlen hfree _ _
      obtain rfl : es = [] := List.length_eq_zero_iff.mp hlen
      refine ⟨[], s, rfl, hfree, rfl, ?_, rfl⟩
      rw [← htodo.trans (List.nil_append ops), Function.update_eq_self]
  | cons c messages ih =>
      intro s es filled hlive hpc htodo hlen hfree hfilled hroom
      cases es with
      | nil => cases hlen
      | cons e es =>
          rw [List.length_cons] at hroom
          obtain ⟨rs, s₁, hexec, hfree₁, hfilled₁, hpc₁, htodo₁, hspawned₁⟩ :=
            exec_write date hlive hpc htodo hfree hfilled (by omega)
          have hlive₁ : s₁.live w = true := (live_of_spawned hspawned₁ w).trans hlive
          have htodo' : s₁.todo w = messages.map .log ++ ops := by
            rw [htodo₁, Function.update_self]
            rfl
          obtain ⟨rs', s', hexec', hfree', hpc', htodo'', hspawned'⟩ :=
            ih es hlive₁ (by rw [hpc₁, hpc]) htodo' (Nat.succ.inj hlen) hfree₁ hfilled₁
              (by rw [List.length_append, List.length_singleton]; omega)
          refine ⟨rs ++ rs', s', ?_, hfree', hpc'.trans hpc₁, ?_, hspawned'.trans hspawned₁⟩
          · rw [List.length_cons, Nat.mul_add_one, Nat.add_comm, List.replicate_add]
            exact Run.exec_append hexec hexec'
          · rw [htodo'', htodo₁, Function.update_idem]

/-- Both writers begin a pop before either of them ends it. -/
def overlap : List LogTurn :=
  [.writer .main, .writer .main, .writer .main, .writer .io, .writer .io, .writer .io,
    .writer .main, .writer .main, .writer .io, .writer .io]

/-- **Two pops that overlap return the same entry.** -/
theorem exec_overlap {c' : LogCall} {ops ops' : List LogOp} (date : ℕ → List UInt8)
    (hspawned : s.spawned = true)
    (hmain : s.pc .main = .idle) (hio : s.pc .io = .idle) (htodo : s.todo .main = .log c :: ops)
    (htodo' : s.todo .io = .log c' :: ops') (hfree : s.free.Holds cap (e :: free)) :
    ∃ rs s', Run.exec (step date) s overlap = some (rs, s') ∧ e ∈ (s'.pc .main).hand ∧
      e ∈ (s'.pc .io).hand := by
  have hne := hfree.tail_ne_head
  have hslot := hfree.first
  -- the main thread has loaded the tail
  obtain ⟨s₁, hexec₁, hmain₁, hio₁, htodo₁, hfree₁, hspawned₁⟩ :
      ∃ s₁, Run.exec (step date) s [.writer .main, .writer .main, .writer .main] =
          some ([.quiet, .quiet, .quiet], s₁) ∧
        s₁.pc .main = .popping c (.reading s.free.tail) ∧ s₁.pc .io = .idle ∧
        s₁.todo .io = .log c' :: ops' ∧ s₁.free = s.free ∧ s₁.spawned = true :=
    ⟨_, exec_begin date rfl hmain htodo hne, by simp [move], by simpa [move, advance] using hio,
      by simpa [move, advance] using htodo', rfl, hspawned⟩
  -- and so has the I/O thread, which finds it unchanged
  obtain ⟨s₂, hexec₂, hmain₂, hio₂, hfree₂, hspawned₂⟩ :
      ∃ s₂, Run.exec (step date) s₁ [.writer .io, .writer .io, .writer .io] =
          some ([.quiet, .quiet, .quiet], s₂) ∧
        s₂.pc .main = .popping c (.reading s.free.tail) ∧
        s₂.pc .io = .popping c' (.reading s.free.tail) ∧ s₂.free = s.free ∧
        s₂.spawned = true := by
    refine ⟨_, exec_begin date hspawned₁ hio₁ htodo₁ (by rw [hfree₁]; exact hne), ?_, ?_, hfree₁,
      hspawned₁⟩
    · simpa [move, advance] using hmain₁
    · simp [move, hfree₁]
  have hslot₂ : s₂.free.buffer[s.free.tail.toNat]? = some (some e) := by
    rw [hfree₂]
    exact hslot
  -- both read the slot at that tail
  obtain ⟨s₃, hexec₃, hmain₃, hio₃, hslot₃, hspawned₃⟩ :
      ∃ s₃, Run.exec (step date) s₂ [.writer .main, .writer .main] =
          some ([.quiet, .quiet], s₃) ∧
        s₃.pc .main = .filling c e ∧ s₃.pc .io = .popping c' (.reading s.free.tail) ∧
        s₃.free.buffer[s.free.tail.toNat]? = some (some e) ∧ s₃.spawned = true :=
    ⟨_, exec_end date rfl hmain₂ hslot₂, by simp [move], by simpa [move] using hio₂, hslot₂,
      hspawned₂⟩
  refine ⟨_, _, Run.exec_append hexec₁ (Run.exec_append hexec₂ (Run.exec_append hexec₃
    (exec_end date hspawned₃ hio₃ hslot₃))), ?_, ?_⟩
  · simp [move, hmain₃, WriterPc.hand]
  · simp [move, WriterPc.hand]

end Steps

/-- The main thread logs its three messages and creates the I/O thread; then its next message and the
first of the I/O thread overlap. -/
def collision : List LogTurn := List.replicate 30 (.writer .main) ++ (.writer .main :: overlap)

/-- **An entry with both writers.** -/
theorem writers_share_entry :
    ∃ s₀ rs s, init 4096 shortSession [.log firstTrade] = some s₀ ∧
      Run.exec (step epochDate) s₀ collision = some (rs, s) ∧
      3 ∈ (s.pc .main).hand ∧ 3 ∈ (s.pc .io).hand := by
  obtain ⟨free, filled, cap, hinit, hc⟩ :=
    @init_circulates 4096 (by decide) (by decide) shortSession [.log firstTrade]
  have hn : circulating 4096 = 4 + 4091 := by decide
  have hfree := hc.freeRing.holds
  have hroom := hc.room
  rw [hn, List.range_add] at hfree
  rw [hn] at hroom
  -- the messages before the I/O thread exists
  obtain ⟨rs, s₁, hexec, hfree₁, hpc, htodo, hspawned⟩ :=
    exec_writes epochDate (earlyCalls (text "AAPL") fun _ => 7)
      (s := opened free filled shortSession [.log firstTrade]) [0, 1, 2]
      (show live _ .main = true from rfl) rfl (List.append_assoc ..) rfl hfree
      hc.filledRing.holds (by simp only [earlyCalls, List.length_nil, List.length_cons]; omega)
  obtain ⟨c, ops, htodo₁⟩ : ∃ c ops, s₁.todo .main = .spawnIo :: .log c :: ops :=
    ⟨_, _, (congrFun htodo .main).trans (Function.update_self ..)⟩
  have hspawn := step_spawnIo epochDate (congrFun hpc .main) htodo₁
  have hnext : Function.update s₁.todo .main (.log c :: ops) .main = .log c :: ops :=
    Function.update_self ..
  -- both then have a message to log
  obtain ⟨rs', s', hexec', hmain, hio⟩ := exec_overlap epochDate
    (s := { s₁.advance .main (.log c :: ops) with spawned := true }) rfl (congrFun hpc .main)
    (congrFun hpc .io) hnext (congrFun htodo .io) hfree₁
  exact ⟨_, _, s', hinit, Run.exec_append hexec (Run.exec_cons hspawn hexec'), hmain, hio⟩

end Logger

end Aspira
