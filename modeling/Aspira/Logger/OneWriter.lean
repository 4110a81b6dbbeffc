import Aspira.Logger.Progress

/-!
# Logger — one writer

The logger as its comments describe it: one thread calls `logger_write` any number of times and then
`logger_shutdown`, and the logger's thread does its part in any order of loads and stores.

`logger_delivers` is about every such run.  A run in which each `ring_buffer_push` and
`ring_buffer_pop` is taken whole is one of them.
-/

namespace Aspira

namespace Logger

/-- One thread logs and then calls `logger_shutdown`. -/
def oneWriter (calls : List LogCall) : List LogOp := thenShutdown (calls.map .log)

/-- The entries from `0` to `n - 1` are each in one of the two rings or with one of the threads; an
entry that the logger takes after its loop stays with it. -/
def Partitioned (s : Logger) (n : ℕ) : Prop :=
  ∃ cap free filled, s.free.Holds cap free ∧ s.filled.Holds cap filled ∧
    (free ++ filled ++ (s.pc .main).hand ++ (s.pc .io).hand ++ s.logger.hand ++ s.retired).Perm
      (List.range n)

variable {n cap : ℕ} {s s' : Logger} {free filled : List ℕ} {r : LogReport}
  {date : ℕ → List UInt8} {all : LogWriter → List LogCall}

theorem Circulates.partitioned (h : Circulates n cap s free filled) : s.Partitioned n :=
  ⟨cap, free, filled, h.freeRing.holds, h.filledRing.holds, h.entries⟩

/-- Nothing overlaps while the I/O thread is in no call. -/
theorem spaced_of_io (hio : s.pc .io = .idle) (t : LogTurn) : s.Spaced t := by
  cases t with
  | logger => trivial
  | writer w =>
      cases w with
      | io => simp only [Spaced, hio]
      | main =>
          have hpop : (s.pc .io).pop = .idle := by
            rw [hio]
            rfl
          have hpush : (s.pc .io).push = .idle := by
            rw [hio]
            rfl
          exact spaced_of_idle hpop hpush

/-- The other threads leave the I/O thread where it is. -/
theorem Sound.io_stays (h : Sound date n cap all s free filled) {t : LogTurn} (hs : s.Spaced t)
    (ht : t ≠ .writer .io) (hstep : Logger.step date s t = some (r, s')) :
    s'.pc .io = s.pc .io ∧ s'.todo .io = s.todo .io := by
  cases t with
  | logger =>
      obtain ⟨r', l, free', filled', hstep', hm, -⟩ := h.logger
      obtain ⟨-, rfl⟩ := Prod.mk.inj (Option.some.inj (hstep.symm.trans hstep'))
      obtain ⟨hpc, htodo, -⟩ := hm.frame
      exact ⟨congrFun hpc _, congrFun htodo _⟩
  | writer w =>
      obtain ⟨r', l, free', filled', hstep', hm, -⟩ := h.writer hs
      obtain ⟨-, rfl⟩ := Prod.mk.inj (Option.some.inj (hstep.symm.trans hstep'))
      obtain ⟨hpc, htodo, -⟩ := hm.frame.2.2 .io fun he => ht (he ▸ rfl)
      exact ⟨hpc, htodo⟩

/-- The I/O thread does nothing. -/
def Alone (s : Logger) : Prop := s.pc .io = .idle ∧ s.todo .io = []

theorem Alone.step (h : s.Alone) {t : LogTurn} (hstep : Logger.step date s t = some (r, s'))
    (hsound : Sound date n cap all s free filled) : s'.Alone := by
  by_cases ht : t = .writer .io
  · -- a thread that has nothing to do does nothing
    have hsame : Logger.step date s t = some (.quiet, s) := by
      simp only [ht, Logger.step, writerStep, h.1, writeStep, next, h.2, ite_self]
    obtain ⟨-, rfl⟩ := Prod.mk.inj (Option.some.inj (hsame.symm.trans hstep))
    exact h
  · obtain ⟨hpc, htodo⟩ := hsound.io_stays (spaced_of_io h.1 t) ht hstep
    exact ⟨hpc.trans h.1, htodo.trans h.2⟩

/-- With one writer, the calls that have returned are all its own. -/
theorem returns_of_alone (h : s.returned .io = []) : s.returns.map (·.call) = s.returned .main := by
  have hmain : s.returns.filter (·.writer = .main) = s.returns := by
    rw [List.filter_eq_self]
    intro x hx
    have hio : ¬ (x.writer = .io) := by
      intro hx'
      have hmem : x ∈ s.returns.filter (·.writer = .io) := by
        rw [List.mem_filter]
        exact ⟨hx, by simpa using hx'⟩
      rw [List.map_eq_nil_iff.mp h] at hmem
      cases hmem
    cases hw : x.writer with
    | main => simp
    | io => exact absurd hw hio
  rw [returned, hmain]

theorem calls_oneWriter (calls : List LogCall) :
    Logger.calls (oneWriter calls) [] .main = calls := by
  simp [Logger.calls, oneWriter, thenShutdown, List.filterMap_append, List.filterMap_map, Function.comp_def,
    LogOp.call?]

/-- What one writer keeps. -/
def Served (date : ℕ → List UInt8) (n cap : ℕ) (messages : List LogCall) (s : Logger) : Prop :=
  s.Alone ∧ ∃ free filled, Sound date n cap (calls (oneWriter messages) []) s free filled

theorem Served.step {messages : List LogCall} (h : Served date n cap messages s) (t : LogTurn) :
    ∃ r s', step date s t = some (r, s') ∧ Served date n cap messages s' ∧
      (r ≠ .push false ∧ (r = .dropped → s.free.count.toNat = 0)) := by
  obtain ⟨halone, free, filled, hsound⟩ := h
  obtain ⟨r, s', hs, hsound', hreport⟩ := hsound.step (spaced_of_io halone.1 t)
  exact ⟨r, s', hs, ⟨halone.step hs hsound, hsound'⟩, hreport⟩

/-- `logger_init`, for one writer. -/
theorem init_served {queueSize : UInt32} (hpos : 1 ≤ queueSize.toNat)
    (hle : queueSize.toNat ≤ 2 ^ 31) (date : ℕ → List UInt8) (messages : List LogCall) :
    ∃ cap s, init queueSize (oneWriter messages) [] = some s ∧
      Served date (circulating queueSize) cap messages s := by
  have hopens : ∀ op ∈ messages.map LogOp.log, op.opens = true := by
    intro op hop
    obtain ⟨c, -, rfl⟩ := List.mem_map.mp hop
    rfl
  have hspawn : spawnsFirst (oneWriter messages) = true := by
    induction messages with
    | nil => rfl
    | cons c messages ih => exact ih fun op hop => hopens op (List.mem_cons_of_mem _ hop)
  obtain ⟨free, filled, cap, hinit, hsound⟩ :=
    init_sound hpos hle (messages.map .log) [] hopens (.inr rfl) hspawn date
  exact ⟨cap, _, hinit, ⟨rfl, rfl⟩, _, _, hsound⟩

/-- **The logger delivers what it accepts**, for every queue size from 1 to 2³¹, every sequence of
messages of 1 to 65535 bytes and every interleaving.  In every state reached the entries in
circulation are partitioned; no push fails, and a message is dropped only at a moment when the free
ring is empty; and once `logger_shutdown` has returned, the file has a line for each message that was
accepted, in the order of the calls.  It can always be brought to return. -/
theorem logger_delivers {queueSize : UInt32} (hpos : 1 ≤ queueSize.toNat)
    (hle : queueSize.toNat ≤ 2 ^ 31) {messages : List LogCall}
    (hlen : ∀ c ∈ messages, 1 ≤ c.printed.length ∧ c.printed.length ≤ 65535)
    (date : ℕ → List UInt8) (turns : List LogTurn) :
    ∃ s₀ rs s, init queueSize (oneWriter messages) [] = some s₀ ∧
      Run.exec (step date) s₀ turns = some (rs, s) ∧
      s.Partitioned (circulating queueSize) ∧
      Run.Always (step date) (fun s _ r _ => r ≠ .push false ∧
        (r = .dropped → s.free.count.toNat = 0)) s₀ turns ∧
      (s.Finished → s.returns.map (·.call) = messages ∧
        s.file = s.pushed.map fun c => c.entry.line date) ∧
      ∃ more rs' s', Run.exec (step date) s more = some (rs', s') ∧ s'.Finished := by
  have hprintable : ∀ w, ∀ c ∈ calls (oneWriter messages) [] w, Printable c := by
    intro w c hc
    cases w with
    | main =>
        rw [calls_oneWriter] at hc
        obtain ⟨h₁, h₂⟩ := hlen c hc
        rw [Printable, Nat.mod_eq_of_lt (Nat.lt_succ_of_le h₂)]
        exact Nat.pos_iff_ne_zero.mp h₁
    | io => cases hc
  obtain ⟨cap, s₀, hinit, hserved⟩ := init_served hpos hle date messages
  have hall : Run.Along (step date) (fun _ _ => True) s₀ turns :=
    Run.along_of_forall (fun _ _ => trivial) s₀
  obtain ⟨rs, s, hexec, halone, free, filled, h⟩ := Run.exec_of_step
    (fun s t hs _ => by
      obtain ⟨r, s', h₁, h₂, -⟩ := Served.step hs t
      exact ⟨r, s', h₁, h₂⟩) hserved hall
  refine ⟨s₀, rs, s, hinit, hexec, h.circulates.partitioned,
    Run.always_of_step (fun s t hs _ => Served.step hs t) hserved hall, fun hf => ⟨?_, ?_⟩, ?_⟩
  · have hreturned := (h.finished hf).2
    rw [returns_of_alone (hreturned .io), hreturned .main, calls_oneWriter]
  · exact h.file_eq hprintable hf
  · obtain ⟨more, rs', s', -, hmore, hfin⟩ := h.can_finish
    exact ⟨more, rs', s', hmore, hfin⟩

/-- The date of the first second, in a zone without an offset. -/
def epochDate : ℕ → List UInt8 := fun _ => text "1970-01-01 00:00:00"

/-- Two messages. -/
def greetings : List LogCall := [⟨.info, text "hello", 1⟩, ⟨.warn, text "bye", 2⟩]

/-- The writer logs both before the logger takes a step, and shuts it down. -/
def eager : List LogTurn := List.replicate 22 (.writer .main) ++ List.replicate 3 .logger

theorem logger_delivers_greetings :
    1 ≤ (3 : UInt32).toNat ∧ (3 : UInt32).toNat ≤ 2 ^ 31 ∧
    greetings.Forall (fun c => 1 ≤ c.printed.length ∧ c.printed.length ≤ 65535) ∧
    ∃ s₀ rs s, init 3 (oneWriter greetings) [] = some s₀ ∧
      Run.exec (step epochDate) s₀ eager = some (rs, s) ∧
      s.Partitioned (circulating 3) ∧
      Run.Always (step epochDate) (fun s _ r _ => r ≠ .push false ∧
        (r = .dropped → s.free.count.toNat = 0)) s₀ eager ∧
      (s.Finished → s.returns.map (·.call) = greetings ∧
        s.file = s.pushed.map fun c => c.entry.line epochDate) ∧
      ∃ more rs' s', Run.exec (step epochDate) s more = some (rs', s') ∧ s'.Finished := by
  have hlen : ∀ c ∈ greetings, 1 ≤ c.printed.length ∧ c.printed.length ≤ 65535 := by decide
  exact ⟨by decide, by decide, List.forall_iff_forall_mem.mpr hlen,
    logger_delivers (by decide) (by decide) hlen epochDate eager⟩

end Logger

end Aspira
