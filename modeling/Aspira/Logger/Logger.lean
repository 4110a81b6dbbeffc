import Aspira.Support.Run
import Aspira.Support.Text
import Aspira.Ring.Shared

/-!
# Logger — Logger

`logger.c`, by the loads and stores of its rings.  The threads are the two that call `logger_write`
in the pipeline, the main thread and the I/O thread, and the logger's own.  A step of a writer or of
the logger is one load or store of a ring, one access to `running`, one entry filled or one entry
written out.

The main thread has a list of things to do, ending in the two halves of `logger_shutdown`; the I/O
thread has messages to log.  `joinIo` and `joinLogger` wait.  With no I/O thread the main thread is
the one writer that the logger is made for.
-/

namespace Aspira

open Spsc (stepProducer stepConsumer)

/-- `log_level_t`. -/
inductive Severity where
  | trace
  | debug
  | info
  | warn
  | error
  deriving DecidableEq, Repr

/-- `level_str`. -/
def Severity.levelStr : Severity → List UInt8
  | .trace => text "TRACE"
  | .debug => text "DEBUG"
  | .info => text "INFO "
  | .warn => text "WARN "
  | .error => text "ERROR"

/-- `log_entry_t`. -/
structure LogEntry where
  timestampNs : UInt64
  level : Severity
  message : List UInt8
  msgLen : UInt16

/-- An entry as `calloc` leaves it. -/
def LogEntry.zeroed : LogEntry := ⟨0, .trace, [], 0⟩

/-- A call of `logger_write`: all that its arguments print, and what the clock reads in it. -/
structure LogCall where
  level : Severity
  printed : List UInt8
  now : UInt64
  deriving DecidableEq

/-- What `logger_write` makes of an entry.  `msg_len` is 16 bits of what `vsnprintf` returns, the
length of all that would be printed. -/
def LogCall.entry (c : LogCall) : LogEntry where
  timestampNs := c.now
  level := c.level
  message := snprintf 512 c.printed
  msgLen := UInt16.ofNat c.printed.length

/-- The line that `flush_entry` prints; `date` is `localtime_r` and `strftime`, of the seconds. -/
def LogEntry.line (date : ℕ → List UInt8) (e : LogEntry) : List UInt8 :=
  let frac := decimal (e.timestampNs.toNat % 1000000000)
  date (e.timestampNs.toNat / 1000000000) ++ text "." ++ List.replicate (9 - frac.length) 48 ++
    frac ++ text " [" ++ e.level.levelStr ++ text "] " ++ e.message ++ text "\n"

/-- `flush_entry`: the lines printed, one or none. -/
def LogEntry.flush (date : ℕ → List UInt8) (e : LogEntry) : List (List UInt8) :=
  if e.msgLen = 0 then [] else [e.line date]

/-- The threads that call `logger_write`. -/
inductive LogWriter where
  | main
  | io
  deriving DecidableEq, Repr

/-- Where a writer is in `logger_write`. -/
inductive WriterPc where
  /-- In no call. -/
  | idle
  /-- In `ring_buffer_pop` of the free ring. -/
  | popping (c : LogCall) (k : Consumer ℕ)
  /-- With a free entry. -/
  | filling (c : LogCall) (e : ℕ)
  /-- In `ring_buffer_push` to the filled ring. -/
  | pushing (c : LogCall) (e : ℕ) (k : Producer ℕ)

/-- Where `logger_thread` is. -/
inductive LoggerPc where
  /-- At the head of its loop, to read `running`. -/
  | checking
  /-- In the loop, in `ring_buffer_pop` of the filled ring. -/
  | popping (k : Consumer ℕ)
  /-- In the loop, with an entry. -/
  | flushing (e : ℕ)
  /-- In the loop, in `ring_buffer_push` to the free ring. -/
  | returning (e : ℕ) (k : Producer ℕ)
  /-- After the loop, in `ring_buffer_pop` of the filled ring. -/
  | draining (k : Consumer ℕ)
  /-- After the loop, with an entry. -/
  | flushingLast (e : ℕ)
  | exited

/-- What a writer has to do.  `spawnIo` and `joinIo` are the `pthread_create` and `pthread_join` of
the I/O thread, `clearRunning` and `joinLogger` the two statements of `logger_shutdown`. -/
inductive LogOp where
  | log (c : LogCall)
  | spawnIo
  | joinIo
  | clearRunning
  | joinLogger

/-- A thread that does `ops` and then calls `logger_shutdown`. -/
def thenShutdown (ops : List LogOp) : List LogOp := ops ++ [LogOp.clearRunning, LogOp.joinLogger]

/-- The return of a call of `logger_write`, and whether the message was pushed. -/
structure LogReturn where
  writer : LogWriter
  call : LogCall
  pushed : Bool

/-- `logger_t` and its threads.  The last two fields are a record of the run: the calls that have
returned, and the entries that the logger keeps after its loop. -/
structure Logger where
  free : RingBuffer ℕ
  filled : RingBuffer ℕ
  pool : ℕ → LogEntry
  running : Bool
  pc : LogWriter → WriterPc
  todo : LogWriter → List LogOp
  spawned : Bool
  logger : LoggerPc
  file : List (List UInt8)
  returns : List LogReturn
  retired : List ℕ

/-- The thread that takes the next step. -/
inductive LogTurn where
  | writer (w : LogWriter)
  | logger
  deriving DecidableEq, Repr

/-- What a step returns: a message dropped because `ring_buffer_pop` returned `NULL`, or the result
of a `ring_buffer_push`, which the callers ignore. -/
inductive LogReport where
  | quiet
  | dropped
  | push (ok : Bool)
  deriving DecidableEq, Repr

namespace Logger

/-- A logger with these rings, before anything happens; `main` and `io` are what the writers will
do. -/
def opened (free filled : RingBuffer ℕ) (main io : List LogOp) : Logger where
  free := free
  filled := filled
  pool := fun _ => .zeroed
  running := true
  pc := fun _ => .idle
  todo := fun
    | .main => main
    | .io => io
  spawned := false
  logger := .checking
  file := []
  returns := []
  retired := []

/-- `logger_init`, if the allocations succeed and the thread is created. -/
def init (queueSize : UInt32) (main io : List LogOp) : Option Logger := do
  let free ← RingBuffer.init queueSize
  let filled ← RingBuffer.init queueSize
  let free ← free.pushAll (List.range queueSize.toNat)
  return opened free filled main io

/-! ### The steps -/

/-- The writer goes on with `ops`. -/
def advance (s : Logger) (w : LogWriter) (ops : List LogOp) : Logger :=
  { s with todo := Function.update s.todo w ops }

/-- The writer is at `pc`. -/
def move (s : Logger) (w : LogWriter) (pc : WriterPc) : Logger :=
  { s with pc := Function.update s.pc w pc }

/-- The writer has returned from `logger_write`. -/
def leave (s : Logger) (w : LogWriter) (c : LogCall) (pushed : Bool) : Logger :=
  { s with pc := Function.update s.pc w .idle, returns := s.returns ++ [⟨w, c, pushed⟩] }

/-- The I/O thread has nothing more to log. -/
def ioDone (s : Logger) : Bool :=
  match s.pc .io, s.todo .io with
  | .idle, [] => true
  | _, _ => false

/-- `logger_thread` has returned. -/
def loggerDone (s : Logger) : Bool :=
  match s.logger with
  | .exited => true
  | _ => false

/-- A writer in no call goes on to what it has to do next. -/
def next (s : Logger) (w : LogWriter) : Logger :=
  match s.todo w with
  | [] => s
  | .log c :: ops => (s.advance w ops).move w (.popping c .idle)
  | .spawnIo :: ops => { s.advance w ops with spawned := true }
  | .joinIo :: ops => if s.ioDone then s.advance w ops else s
  | .clearRunning :: ops => { s.advance w ops with running := false }
  | .joinLogger :: ops => if s.loggerDone then s.advance w ops else s

/-- A step of `logger_write`. -/
def writeStep (s : Logger) (w : LogWriter) : WriterPc → Option (LogReport × Logger)
  | .idle => some (.quiet, s.next w)
  | .popping c k => do
      let r ← stepConsumer { ring := s.free, consumer := k }
      let s := { s with free := r.2.ring }
      match r.1 with
      | none => return (.quiet, s.move w (.popping c r.2.consumer))
      | some (.popped (some e)) => return (.quiet, s.move w (.filling c e))
      | some _ => return (.dropped, s.leave w c false)
  | .filling c e =>
      let s := { s with pool := Function.update s.pool e c.entry }
      some (.quiet, s.move w (.pushing c e .idle))
  | .pushing c e k => do
      let r ← stepProducer { ring := s.filled, producer := k } (some e)
      let s := { s with filled := r.2.ring }
      match r.1 with
      | none => return (.quiet, s.move w (.pushing c e r.2.producer))
      | some (.pushed _) => return (.push true, s.leave w c true)
      | some _ => return (.push false, s.leave w c false)

/-- The thread exists. -/
def live (s : Logger) : LogWriter → Bool
  | .main => true
  | .io => s.spawned

/-- The next step of a writer. -/
def writerStep (s : Logger) (w : LogWriter) : Option (LogReport × Logger) :=
  if s.live w then s.writeStep w (s.pc w) else some (.quiet, s)

/-- A step of `ring_buffer_pop` of the filled ring by the logger: where it goes on in the call, with
an entry and without. -/
def popFilled (s : Logger) (k : Consumer ℕ) (on : Consumer ℕ → LoggerPc) (found : ℕ → LoggerPc)
    (empty : LoggerPc) : Option (LogReport × Logger) := do
  let r ← stepConsumer { ring := s.filled, consumer := k }
  let s := { s with filled := r.2.ring }
  match r.1 with
  | none => return (.quiet, { s with logger := on r.2.consumer })
  | some (.popped (some e)) => return (.quiet, { s with logger := found e })
  | some _ => return (.quiet, { s with logger := empty })

/-- The next step of `logger_thread`. -/
def loggerStep (date : ℕ → List UInt8) (s : Logger) : Option (LogReport × Logger) :=
  match s.logger with
  | .checking =>
      some (.quiet, { s with logger := if s.running then .popping .idle else .draining .idle })
  | .popping k => s.popFilled k .popping .flushing .checking
  | .flushing e =>
      some (.quiet,
        { s with
          file := s.file ++ (s.pool e).flush date
          pool := Function.update s.pool e { s.pool e with msgLen := 0 }
          logger := .returning e .idle })
  | .returning e k => do
      let r ← stepProducer { ring := s.free, producer := k } (some e)
      let s := { s with free := r.2.ring }
      match r.1 with
      | none => return (.quiet, { s with logger := .returning e r.2.producer })
      | some (.pushed _) => return (.push true, { s with logger := .checking })
      | some _ => return (.push false, { s with logger := .checking })
  | .draining k => s.popFilled k .draining .flushingLast .exited
  | .flushingLast e =>
      some (.quiet,
        { s with
          file := s.file ++ (s.pool e).flush date
          retired := s.retired ++ [e]
          logger := .draining .idle })
  | .exited => some (.quiet, s)

def step (date : ℕ → List UInt8) (s : Logger) : LogTurn → Option (LogReport × Logger)
  | .writer w => s.writerStep w
  | .logger => s.loggerStep date

end Logger

end Aspira
