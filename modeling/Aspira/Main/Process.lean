import Aspira.Support.Run

/-!
# Main — Process

`main` and `signal_handler` of `main.cpp`, with `start`, `stop` and the destructor of the pipeline,
as far as the threads, their flags and the journal go.  A step is one access to a flag or to a global
pointer, one call on a thread, or one turn of a thread's loop.  A signal puts `signal_handler` on top
of `main`, wherever that is, and is blocked until it returns; of `SIGINT` and `SIGTERM` only one comes
in a run, and it is `main`'s thread that takes it.

A step is undefined where the program is: a thread is joined that was not created or was joined
already, the I/O thread writes to a journal that is closed, a journal is closed twice, or a thread
is alive when the pipeline is gone.  `MainAt.Calm` says where a signal does no harm: `stop` is not
under way, the pipeline is not being started, and nobody needs the journal that the handler closes.
The runs whose signals come there are in `Main/Graceful.lean`, the others in `Main/Interrupts.lean`.
-/

namespace Aspira

/-- A thread, between `pthread_create` and `pthread_join`. -/
inductive ThreadAt where
  | absent
  | alive
  | exited
  | joined
  deriving DecidableEq, Repr

/-- What `journal_open` has returned. -/
inductive HandleAt where
  | absent
  | opened
  | closed
  deriving DecidableEq, Repr

/-- Where `EventPipeline::stop` is. -/
inductive StopAt where
  | test
  | clear
  | joinConsumer
  | clearFeed
  | joinFeed
  | joinIo
  | clearLogger
  | joinLogger
  deriving DecidableEq, Repr

/-- Where `if (g_journal) { journal_close(g_journal); g_journal = nullptr; }` is. -/
inductive CloseAt where
  | test
  | close
  | null
  deriving DecidableEq, Repr

/-- What `signal_handler` does, and `main` when it is done: `stop`, and then the journal. -/
inductive FinishAt where
  | stop (c : StopAt)
  | close (c : CloseAt)
  deriving DecidableEq, Repr

/-- Where `start` is when it takes back what it has done. -/
inductive UnwindAt where
  | clear (io : Bool)
  | joinIo
  | clearFeed
  | joinFeed
  deriving DecidableEq, Repr

/-- Where `main` is, with what it calls. -/
inductive MainAt where
  | openJournal
  /-- Before `g_pipeline = &pipeline`. -/
  | construct
  /-- In `init`, at `logger_init`. -/
  | initLogger
  /-- In `init`, after that. -/
  | initRest
  /-- At `if (g_journal)`, before `set_journal`. -/
  | testJournal
  | attach
  /-- In `start`, at `feed_start`. -/
  | startFeed
  | setRunning
  | createIo
  | createConsumer
  | unwind (c : UnwindAt)
  /-- In the main loop. -/
  | serving
  | finish (c : FinishAt)
  /-- In the destructor, which calls `stop`. -/
  | leave (c : StopAt)
  | destroy
  | ended
  deriving DecidableEq, Repr

/-- The threads of the pipeline with their flags.  `filled` counts the events in `io_filled_queue_`, and
`hand` says that the I/O thread has one to process. -/
structure Threads where
  running : Bool
  feedRunning : Bool
  loggerRunning : Bool
  feed : ThreadAt
  consumer : ThreadAt
  io : ThreadAt
  logger : ThreadAt
  filled : ℕ
  hand : Bool
  deriving DecidableEq, Repr

structure Process where
  main : MainAt
  handler : Option FinishAt
  gPipeline : Bool
  gJournal : Bool
  journal : HandleAt
  /-- `journal_` of the pipeline is set. -/
  attached : Bool
  /-- The pipeline is gone. -/
  destroyed : Bool
  threads : Threads
  deriving DecidableEq, Repr

/-- Who takes the next step.  Of `main`, `ok` is whether what it calls succeeds, and in the main loop
whether the duration is not over; of the consumer, `event` is whether it pushes an event. -/
inductive ProcessTurn where
  | main (ok : Bool)
  | signal
  | feed
  | consumer (event : Bool)
  | io
  | logger
  deriving DecidableEq, Repr

namespace ThreadAt

/-- `pthread_join`: it waits for a thread that is alive (`false`). -/
def join : ThreadAt → Option Bool
  | .absent | .joined => none
  | .alive => some false
  | .exited => some true

/-- The thread was created, and has returned. -/
def returned : ThreadAt → Bool
  | .absent | .alive => false
  | .exited | .joined => true

end ThreadAt

namespace Threads

/-- No thread was created. -/
def init : Threads where
  running := false
  feedRunning := false
  loggerRunning := false
  feed := .absent
  consumer := .absent
  io := .absent
  logger := .absent
  filled := 0
  hand := false

/-- A turn of `recv_thread_func`. -/
def feedTurn (t : Threads) : Threads :=
  if t.feed = .alive ∧ t.feedRunning = false then { t with feed := .exited } else t

/-- A turn of `consumer_loop`; after the loop it drains its queue. -/
def consumerTurn (t : Threads) (event : Bool) : Threads :=
  if t.consumer = .alive then
    if event then { t with filled := t.filled + 1 }
    else if t.running then t
    else { t with consumer := .exited }
  else t

/-- A turn of `io_loop`: it processes its event, pops the next, or leaves. -/
def ioTurn (t : Threads) : Threads :=
  if t.io = .alive then
    if t.hand then { t with hand := false }
    else if 0 < t.filled then { t with filled := t.filled - 1, hand := true }
    else if t.running then t
    else { t with io := .exited }
  else t

/-- A turn of `logger_thread`. -/
def loggerTurn (t : Threads) : Threads :=
  if t.logger = .alive ∧ t.loggerRunning = false then { t with logger := .exited } else t

/-- `EventPipeline::stop`, and where it goes on, if it does not return. -/
def stopStep (t : Threads) : StopAt → Option (Option StopAt × Threads)
  | .test => some (if t.running then some .clear else none, t)
  | .clear => some (some .joinConsumer, { t with running := false })
  | .joinConsumer => do
      let done ← t.consumer.join
      return if done then (some .clearFeed, { t with consumer := .joined })
        else (some .joinConsumer, t)
  | .clearFeed => some (some .joinFeed, { t with feedRunning := false })
  | .joinFeed => do
      let done ← t.feed.join
      return if done then (some .joinIo, { t with feed := .joined }) else (some .joinFeed, t)
  | .joinIo => do
      let done ← t.io.join
      return if done then (some .clearLogger, { t with io := .joined }) else (some .joinIo, t)
  | .clearLogger => some (some .joinLogger, { t with loggerRunning := false })
  | .joinLogger => do
      let done ← t.logger.join
      return if done then (none, { t with logger := .joined }) else (some .joinLogger, t)

/-- `start`, when a thread could not be created, and where it goes on, if it does not return. -/
def unwindStep (t : Threads) : UnwindAt → Option (Option UnwindAt × Threads)
  | .clear io => some (some (if io then .joinIo else .clearFeed), { t with running := false })
  | .joinIo => do
      let done ← t.io.join
      return if done then (some .clearFeed, { t with io := .joined }) else (some .joinIo, t)
  | .clearFeed => some (some .joinFeed, { t with feedRunning := false })
  | .joinFeed => do
      let done ← t.feed.join
      return if done then (none, { t with feed := .joined }) else (some .joinFeed, t)

/-- The I/O thread will not touch the journal again. -/
def Drained (t : Threads) : Prop :=
  t.io.returned = true ∨ t.consumer.returned = true ∧ t.filled = 0 ∧ t.hand = false

instance (t : Threads) : Decidable t.Drained := inferInstanceAs (Decidable (_ ∨ _))

end Threads

namespace Process

/-- The process when the signal handlers are installed. -/
def start : Process where
  main := .openJournal
  handler := none
  gPipeline := false
  gJournal := false
  journal := .absent
  attached := false
  destroyed := false
  threads := .init

/-- A step of `stop`. -/
def stopStep (p : Process) (c : StopAt) : Option (Option StopAt × Process) :=
  if p.destroyed then none
  else (p.threads.stopStep c).map fun r => (r.1, { p with threads := r.2 })

/-- The journal is closed.  `journal_close` of a null pointer does nothing. -/
def closeStep (p : Process) : CloseAt → Option (Option FinishAt × Process)
  | .test => some (if p.gJournal then some (.close .close) else none, p)
  | .close =>
      if p.gJournal then
        if p.journal = .opened then some (some (.close .null), { p with journal := .closed })
        else none
      else some (some (.close .null), p)
  | .null => some (none, { p with gJournal := false })

/-- `stop`, and then the journal. -/
def finishStep (p : Process) : FinishAt → Option (Option FinishAt × Process)
  | .stop c => (p.stopStep c).map fun r => (some (r.1.elim (.close .test) .stop), r.2)
  | .close c => p.closeStep c

/-- `main`; `endless` is the duration 0. -/
def mainStep (endless ok : Bool) (p : Process) : Option Process :=
  match p.main with
  | .openJournal =>
      some { p with
        gJournal := ok
        journal := if ok then .opened else .absent
        main := .construct }
  | .construct => some { p with gPipeline := true, main := .initLogger }
  | .initLogger =>
      if ok then
        some { p with
          threads := { p.threads with loggerRunning := true, logger := .alive }
          main := .initRest }
      else some { p with main := .finish (.close .test) }
  | .initRest => some { p with main := if ok then .testJournal else .finish (.close .test) }
  | .testJournal => some { p with main := if p.gJournal then .attach else .startFeed }
  | .attach => some { p with attached := p.gJournal, main := .startFeed }
  | .startFeed =>
      if ok then
        some { p with
          threads := { p.threads with feedRunning := true, feed := .alive }
          main := .setRunning }
      else some { p with main := .finish (.close .test) }
  | .setRunning => some { p with threads := { p.threads with running := true }, main := .createIo }
  | .createIo =>
      if ok then some { p with threads := { p.threads with io := .alive }, main := .createConsumer }
      else some { p with main := .unwind (.clear false) }
  | .createConsumer =>
      if ok then some { p with threads := { p.threads with consumer := .alive }, main := .serving }
      else some { p with main := .unwind (.clear true) }
  | .unwind c => do
      let r ← p.threads.unwindStep c
      return { p with threads := r.2, main := r.1.elim (.finish (.close .test)) .unwind }
  | .serving => some (if ok || endless then p else { p with main := .finish (.stop .test) })
  | .finish c => do
      let r ← p.finishStep c
      return { r.2 with main := r.1.elim (.leave .test) .finish }
  | .leave c => do
      let r ← p.stopStep c
      return { r.2 with main := r.1.elim .destroy .leave }
  | .destroy => some { p with destroyed := true, main := .ended }
  | .ended => some p

/-- `main`, or the handler that has interrupted it. -/
def mainTurn (endless ok : Bool) (p : Process) : Option Process :=
  match p.handler with
  | none => p.mainStep endless ok
  | some c => do
      let r ← p.finishStep c
      return { r.2 with handler := r.1 }

/-- A signal is delivered. -/
def interrupted (p : Process) : Process :=
  match p.handler with
  | none => { p with handler := some (if p.gPipeline then .stop .test else .close .test) }
  | some _ => p

/-- A turn of a thread, which uses the pipeline. -/
def turn (p : Process) (thread : ThreadAt) (threads : Threads) : Option Process :=
  if thread = .alive ∧ p.destroyed = true then none else some { p with threads := threads }

/-- The I/O thread is about to write to a journal that is not open. -/
def Dangles (p : Process) : Prop :=
  p.threads.io = .alive ∧ p.threads.hand = true ∧ p.attached = true ∧ p.journal ≠ .opened

instance (p : Process) : Decidable p.Dangles := inferInstanceAs (Decidable (_ ∧ _))

/-- The next step. -/
def step (endless : Bool) (p : Process) (t : ProcessTurn) : Option (Unit × Process) :=
  Option.map (fun p' => ((), p')) <|
    match t with
    | .main ok => p.mainTurn endless ok
    | .signal => some p.interrupted
    | .feed => p.turn p.threads.feed p.threads.feedTurn
    | .consumer event => p.turn p.threads.consumer (p.threads.consumerTurn event)
    | .io => if p.Dangles then none else p.turn p.threads.io p.threads.ioTurn
    | .logger => p.turn p.threads.logger p.threads.loggerTurn

end Process

/-! ### Where a signal does no harm -/

/-- `stop` can be interrupted before it has begun, and once the I/O thread does not need the journal. -/
def StopAt.Calm (p : Process) : StopAt → Prop
  | .test => True
  | .clear => False
  | _ => p.gJournal = true → p.threads.Drained

instance (p : Process) : ∀ c : StopAt, Decidable (c.Calm p)
  | .test => inferInstanceAs (Decidable True)
  | .clear => inferInstanceAs (Decidable False)
  | .joinConsumer | .clearFeed | .joinFeed | .joinIo | .clearLogger | .joinLogger =>
      inferInstanceAs (Decidable (_ → _))

/-- Where a signal does no harm. -/
def MainAt.Calm (p : Process) : MainAt → Prop
  | .startFeed | .setRunning => p.gJournal = false
  | .createIo | .createConsumer | .unwind _ | .ended => False
  | .finish (.stop c) | .leave c => c.Calm p
  | .finish (.close .null) => p.gJournal = false
  | _ => True

instance (p : Process) : ∀ c : MainAt, Decidable (c.Calm p)
  | .startFeed | .setRunning | .finish (.close .null) => inferInstanceAs (Decidable (_ = _))
  | .createIo | .createConsumer | .unwind _ | .ended => inferInstanceAs (Decidable False)
  | .finish (.stop c) | .leave c => inferInstanceAs (Decidable (c.Calm p))
  | .openJournal | .construct | .initLogger | .initRest | .testJournal | .attach | .serving |
    .finish (.close .test) | .finish (.close .close) | .destroy => inferInstanceAs (Decidable True)

/-- `main` is about to create something that it cannot take back. -/
def MainAt.creates : MainAt → Bool
  | .initRest | .startFeed | .createIo | .createConsumer => true
  | _ => false

/-- `main` has not left its loop, and nothing has failed. -/
def MainAt.early : MainAt → Bool
  | .unwind _ | .finish _ | .leave _ | .destroy | .ended => false
  | _ => true

namespace Process

/-- The step is a signal that comes where it does no harm, or no signal, and does not fail where `main`
cannot take back what it has done. -/
def Good (p : Process) : ProcessTurn → Prop
  | .signal => p.handler = none → p.main.Calm p
  | .main ok => p.handler = none → p.main.creates = true → ok = true
  | _ => True

instance (p : Process) : ∀ t, Decidable (p.Good t)
  | .signal | .main _ => inferInstanceAs (Decidable (_ → _))
  | .feed | .consumer _ | .io | .logger => inferInstanceAs (Decidable True)

end Process

/-! ### The invariant -/

/-- How far `stop` has come. -/
def StopAt.rank : StopAt → ℕ
  | .test | .clear => 0
  | .joinConsumer => 1
  | .clearFeed => 2
  | .joinFeed => 3
  | .joinIo => 4
  | .clearLogger => 5
  | .joinLogger => 6

/-- A thread that runs until `stop` has come to `up`, and is joined when it has come to `till`. -/
structure ThreadAt.Fits (up till n : ℕ) (t : ThreadAt) : Prop where
  alive : n < up → t = .alive
  waits : n < till → t = .alive ∨ t = .exited
  joined : till ≤ n → t = .joined

namespace Threads

/-- `stop` has come to `n`; before it is called that is 0, and 7 when it has returned. -/
structure Stopping (n : ℕ) (t : Threads) : Prop where
  running : t.running = decide (n < 1)
  feedRunning : t.feedRunning = decide (n < 3)
  loggerRunning : t.loggerRunning = decide (n < 6)
  consumer : t.consumer.Fits 1 2 n
  feed : t.feed.Fits 3 4 n
  io : t.io.Fits 1 5 n
  logger : t.logger.Fits 6 7 n

/-- `start` has come to `n`; `logger` says that the logger was created. -/
def Starting (logger : Bool) (n : ℕ) (t : Threads) : Prop :=
  t = { Threads.init with
    running := decide (2 ≤ n)
    feedRunning := decide (1 ≤ n)
    loggerRunning := logger
    feed := if 1 ≤ n then .alive else .absent
    io := if 3 ≤ n then .alive else .absent
    logger := if logger then .alive else .absent }

/-- The threads serve, or `stop` has returned. -/
def Settled (t : Threads) : Prop := t.Stopping 0 ∨ t.Stopping 7

end Threads

/-- `main` has given its journal, if there is one, to the pipeline, and has not come to close it. -/
def MainAt.attaches : MainAt → Bool
  | .startFeed | .setRunning | .createIo | .createConsumer | .serving | .finish (.stop _) => true
  | _ => false

/-- No thread was created, or `stop` has returned. -/
def Process.Quiet (p : Process) : Prop :=
  p.threads = .init ∧ p.attached = false ∨ p.threads.Stopping 7

/-- What holds when `main` is at `c`, or was interrupted there by a handler that is not under way. -/
def MainAt.Fits (p : Process) : MainAt → Prop
  | .openJournal => p.threads = .init ∧ p.attached = false ∧ p.gJournal = false
  | .construct | .initLogger => p.threads = .init ∧ p.attached = false
  | .initRest | .testJournal | .attach => p.threads.Starting true 0 ∧ p.attached = false
  | .startFeed => p.threads.Starting true 0 ∧ (p.attached = true → p.gJournal = true)
  | .setRunning => p.threads.Starting true 1 ∧ (p.attached = true → p.gJournal = true)
  | .createIo => p.threads.Starting true 2
  | .createConsumer => p.threads.Starting true 3
  | .unwind _ => False
  | .serving | .finish (.stop .test) => p.threads.Settled
  | .finish (.stop c) => p.threads.Stopping c.rank
  | .finish (.close _) => p.Quiet
  | .leave c => c = .test ∧ p.Quiet ∧ p.gJournal = false
  | .destroy | .ended => p.Quiet ∧ p.gJournal = false

namespace Process

/-- Where `main` and its handler are, and the state. -/
def Placed (p : Process) : Prop :=
  match p.handler with
  | none | some (.stop .test) => p.main.Fits p
  | some (.stop c) =>
      p.threads.Stopping c.rank ∧ (p.main = .serving ∨ p.main = .finish (.stop .test))
  | some (.close _) => p.main.Fits p ∧ p.threads.running = false

/-- The journal was closed, and `g_journal` is about to be reset. -/
def Closing (p : Process) : Prop :=
  p.handler = some (.close .null) ∨ p.handler = none ∧ p.main = .finish (.close .null)

/-- What the runs keep. -/
structure Sound (p : Process) : Prop where
  placed : p.Placed
  calm : p.handler ≠ none → p.main.Calm p
  opened : p.gJournal = true → p.journal = .opened ∨ p.Closing
  known : p.journal = .opened → p.gJournal = true
  closing : p.Closing → p.journal ≠ .opened
  attached : p.attached = true → p.journal = .opened ∨ p.threads.Drained
  attaches : p.main.attaches = true → p.gJournal = true → p.attached = true
  destroyed : p.destroyed = true ↔ p.main = .ended
  registered : p.gPipeline = true ∨ p.main = .openJournal ∨ p.main = .construct

end Process

/-! ### The threads -/

namespace ThreadAt

variable {up till n : ℕ} {t : ThreadAt}

theorem Fits.exit (h : t.Fits up till n) (ht : t = .alive) (hn : up ≤ n) :
    ThreadAt.Fits up till n .exited where
  alive hlt := absurd hn (Nat.not_le_of_lt hlt)
  waits _ := .inr rfl
  joined hle := by cases ht.symm.trans (h.joined hle)

theorem Fits.succ (h : t.Fits up till n) (hne : till ≠ n + 1) : t.Fits up till (n + 1) where
  alive hlt := h.alive (Nat.lt_of_succ_lt hlt)
  waits hlt := h.waits (Nat.lt_of_succ_lt hlt)
  joined hle := h.joined (Nat.lt_succ_iff.mp (lt_of_le_of_ne hle hne))

theorem fits_alive (hup : n < up) (hle : up ≤ till) : ThreadAt.Fits up till n .alive where
  alive _ := rfl
  waits _ := .inl rfl
  joined hn := absurd hn (Nat.not_le_of_lt (hup.trans_le hle))

theorem fits_joined (hup : up ≤ n) : ThreadAt.Fits up n n .joined where
  alive hlt := absurd hup (Nat.not_le_of_lt hlt)
  waits hlt := absurd hlt (lt_irrefl n)
  joined _ := rfl

/-- A thread that is to be joined: either it has returned, or it is waited for. -/
theorem Fits.join (h : t.Fits up till n) (hn : n < till) :
    t = .exited ∧ t.join = some true ∨ t.join = some false := by
  rcases h.waits hn with rfl | rfl
  · exact .inr rfl
  · exact .inl ⟨rfl, rfl⟩

end ThreadAt

namespace Threads

variable {t t' : Threads} {n : ℕ}

/-- What a turn of a thread leaves as it was. -/
structure Turned (t t' : Threads) : Prop where
  running : t'.running = t.running
  starting : ∀ l n, t.Starting l n → t' = t
  stopping : ∀ n, t.Stopping n → t'.Stopping n
  drained : t.Drained → t'.Drained

theorem turned_feedTurn (t : Threads) : t.Turned t.feedTurn := by
  unfold feedTurn
  split
  · rename_i hexit
    refine ⟨rfl, fun l n h => ?_, fun n h => ?_, id⟩
    · obtain ⟨hfeed, hflag⟩ := hexit
      rw [h] at hfeed hflag
      exact absurd hfeed (by simp_all)
    · have hn : 3 ≤ n := by simpa [h.feedRunning] using hexit.2
      exact { h with feed := h.feed.exit hexit.1 hn }
  · exact ⟨rfl, fun _ _ _ => rfl, fun _ => id, id⟩

theorem turned_loggerTurn (t : Threads) : t.Turned t.loggerTurn := by
  unfold loggerTurn
  split
  · rename_i hexit
    refine ⟨rfl, fun l n h => ?_, fun n h => ?_, id⟩
    · obtain ⟨hlogger, hflag⟩ := hexit
      rw [h] at hlogger hflag
      exact absurd hlogger (by simp_all)
    · have hn : 6 ≤ n := by simpa [h.loggerRunning] using hexit.2
      exact { h with logger := h.logger.exit hexit.1 hn }
  · exact ⟨rfl, fun _ _ _ => rfl, fun _ => id, id⟩

theorem turned_consumerTurn (t : Threads) (event : Bool) : t.Turned (t.consumerTurn event) := by
  unfold consumerTurn
  by_cases halive : t.consumer = .alive
  · have hno : ∀ l n, ¬ t.Starting l n := fun l n h => by
      rw [h] at halive
      cases halive
    have hdrained : t.Drained → t.io.returned = true := by
      rintro (h | ⟨h, -⟩)
      · exact h
      · rw [halive] at h
        cases h
    rw [if_pos halive]
    refine ⟨?_, fun l n h => absurd h (hno l n), fun n h => ?_, fun h => ?_⟩
    · split_ifs <;> rfl
    · split_ifs with _ hrun
      · exact { h with }
      · exact h
      · have hn : 1 ≤ n := Nat.one_le_iff_ne_zero.mpr (by simpa [h.running] using hrun)
        exact { h with consumer := h.consumer.exit halive hn }
    · split_ifs <;> exact .inl (hdrained h)
  · rw [if_neg halive]
    exact ⟨rfl, fun _ _ _ => rfl, fun _ => id, id⟩

theorem turned_ioTurn (t : Threads) : t.Turned t.ioTurn := by
  unfold ioTurn
  by_cases halive : t.io = .alive
  · rw [if_pos halive]
    refine ⟨?_, fun l n h => ?_, fun n h => ?_, fun h => ?_⟩
    · split_ifs <;> rfl
    · have hhand : t.hand = false := by rw [h]; rfl
      have hfilled : t.filled = 0 := by rw [h]; rfl
      have hrun : t.running = true := by
        rw [h] at halive ⊢
        simp only [ite_eq_left_iff, reduceCtorEq, imp_false, not_not, decide_eq_true_eq] at halive ⊢
        omega
      simp [hhand, hfilled, hrun]
    · split_ifs with _ _ hrun
      · exact { h with }
      · exact { h with }
      · exact h
      · have hn : 1 ≤ n := Nat.one_le_iff_ne_zero.mpr (by simpa [h.running] using hrun)
        exact { h with io := h.io.exit halive hn }
    · rcases h with h | ⟨hc, hfilled, hhand⟩
      · rw [halive] at h
        cases h
      · simp only [hhand, hfilled, lt_irrefl, if_false, Bool.false_eq_true]
        split_ifs
        · exact .inr ⟨hc, hfilled, hhand⟩
        · exact .inl rfl
  · rw [if_neg halive]
    exact ⟨rfl, fun _ _ _ => rfl, fun _ => id, id⟩

theorem Starting.not_drained {l : Bool} (h : t.Starting l n) : ¬ t.Drained := by
  rw [h]
  rintro (hio | ⟨hconsumer, -⟩)
  · by_cases hn : 3 ≤ n <;> simp [hn, ThreadAt.returned] at hio
  · cases hconsumer

/-- What holds when `stop` goes on at `c`, or has returned. -/
def Reached (t : Threads) : Option StopAt → Prop
  | none => t.Stopping 7
  | some c => c ≠ .test ∧ t.Stopping c.rank

/-- **A step of `stop`**, once it is under way. -/
theorem Stopping.stopStep {c : StopAt} (h : t.Stopping c.rank) (hc : c ≠ .test) :
    ∃ next t', t.stopStep c = some (next, t') ∧ t'.Reached next ∧ (t.Drained → t'.Drained) := by
  cases c with
  | test => exact absurd rfl hc
  | clear =>
      refine ⟨_, _, rfl, ⟨StopAt.noConfusion, ?_⟩, id⟩
      exact ⟨rfl, h.feedRunning, h.loggerRunning, h.consumer.succ (by decide), h.feed.succ (by decide),
        h.io.succ (by decide), h.logger.succ (by decide)⟩
  | joinConsumer =>
      rcases h.consumer.join (by decide) with ⟨-, hjoin⟩ | hjoin
      · refine ⟨some .clearFeed, { t with consumer := .joined }, ?_, ⟨StopAt.noConfusion, ?_⟩, ?_⟩
        · simp [Threads.stopStep, hjoin]
        · exact ⟨h.running, h.feedRunning, h.loggerRunning, ThreadAt.fits_joined (by decide),
            h.feed.succ (by decide), h.io.succ (by decide), h.logger.succ (by decide)⟩
        · exact Or.imp_right fun hd => ⟨rfl, hd.2⟩
      · refine ⟨some .joinConsumer, t, ?_, ⟨StopAt.noConfusion, h⟩, id⟩
        simp [Threads.stopStep, hjoin]
  | clearFeed =>
      refine ⟨_, _, rfl, ⟨StopAt.noConfusion, ?_⟩, id⟩
      exact ⟨h.running, rfl, h.loggerRunning, h.consumer.succ (by decide), h.feed.succ (by decide),
        h.io.succ (by decide), h.logger.succ (by decide)⟩
  | joinFeed =>
      rcases h.feed.join (by decide) with ⟨-, hjoin⟩ | hjoin
      · refine ⟨some .joinIo, { t with feed := .joined }, ?_, ⟨StopAt.noConfusion, ?_⟩, id⟩
        · simp [Threads.stopStep, hjoin]
        · exact ⟨h.running, h.feedRunning, h.loggerRunning, h.consumer.succ (by decide),
            ThreadAt.fits_joined (by decide), h.io.succ (by decide), h.logger.succ (by decide)⟩
      · refine ⟨some .joinFeed, t, ?_, ⟨StopAt.noConfusion, h⟩, id⟩
        simp [Threads.stopStep, hjoin]
  | joinIo =>
      rcases h.io.join (by decide) with ⟨-, hjoin⟩ | hjoin
      · refine ⟨some .clearLogger, { t with io := .joined }, ?_, ⟨StopAt.noConfusion, ?_⟩,
          fun _ => .inl rfl⟩
        · simp [Threads.stopStep, hjoin]
        · exact ⟨h.running, h.feedRunning, h.loggerRunning, h.consumer.succ (by decide),
            h.feed.succ (by decide), ThreadAt.fits_joined (by decide), h.logger.succ (by decide)⟩
      · refine ⟨some .joinIo, t, ?_, ⟨StopAt.noConfusion, h⟩, id⟩
        simp [Threads.stopStep, hjoin]
  | clearLogger =>
      refine ⟨_, _, rfl, ⟨StopAt.noConfusion, ?_⟩, id⟩
      exact ⟨h.running, h.feedRunning, rfl, h.consumer.succ (by decide), h.feed.succ (by decide),
        h.io.succ (by decide), h.logger.succ (by decide)⟩
  | joinLogger =>
      rcases h.logger.join (by decide) with ⟨-, hjoin⟩ | hjoin
      · refine ⟨none, { t with logger := .joined }, ?_, ?_, id⟩
        · simp [Threads.stopStep, hjoin]
        · exact ⟨h.running, h.feedRunning, h.loggerRunning, h.consumer.succ (by decide),
            h.feed.succ (by decide), h.io.succ (by decide), ThreadAt.fits_joined (by decide)⟩
      · refine ⟨some .joinLogger, t, ?_, ⟨StopAt.noConfusion, h⟩, id⟩
        simp [Threads.stopStep, hjoin]

end Threads

end Aspira
