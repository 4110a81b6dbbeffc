import Aspira.Support.Run
import Aspira.Ring.RingBuffer
import Aspira.Pipeline.IoEvent
import Aspira.Pipeline.Submissions

/-!
# Pipeline — the two stages

The hot path takes a free entry, fills it and hands it over; the I/O thread takes it, processes it
and gives it back.  The rings `io_free_queue_` and `io_filled_queue_` carry the entries between the
two threads, and each operation on a ring is one step.

`Circulates` is the invariant of the rings: 4095 of the 4096 entries are in circulation (the last
push of `init` finds the ring full), each in one place, and what was pushed is what was passed on
followed by what is still on its way.  Every step keeps it (`Circulates.hotStep`,
`Circulates.ioStep`), so it holds in every interleaving.
-/

namespace Aspira

/-- An entry of `io_event_pool_`. -/
abbrev Entry := Fin 4096

/-- What the hot path is doing with an entry. -/
inductive HotHand (P : Type) where
  | idle
  /-- Popped from the free ring. -/
  | taken (e : Entry) (w : IoWrite P)
  /-- Filled. -/
  | written (e : Entry) (w : IoWrite P)

/-- What the I/O thread is doing with an entry. -/
inductive IoHand where
  | idle
  /-- Popped from the filled ring. -/
  | popped (e : Entry)
  /-- Processed. -/
  | processed (e : Entry)

/-- The state of the two threads and the rings.  The last four fields are a record of the run: the
writes that got an entry, the events pushed to the filled ring and those passed to
`process_io_event`, and what that did. -/
structure Stages (P : Type) where
  todo : List (IoWrite P)
  hot : HotHand P
  io : IoHand
  pool : Entry → IoEvent P
  free : RingBuffer Entry
  filled : RingBuffer Entry
  ioEventsDropped : UInt64
  kept : List (IoWrite P)
  pushed : List (Entry × IoEvent P)
  passed : List (Entry × IoEvent P)
  actions : List (Action P)

/-- The two threads. -/
inductive Thread where
  | hot
  | io
  deriving DecidableEq

namespace Stages

variable {P : Type}

/-- The I/O queues of `EventPipeline::init`, with the writes that the hot path will make. -/
def init [Zero P] (todo : List (IoWrite P)) : Option (Stages P) := do
  let free ← RingBuffer.init 4096
  let filled ← RingBuffer.init 4096
  let free ← free.pushAll (List.finRange 4096)
  return {
    todo := todo
    hot := .idle
    io := .idle
    pool := fun _ => .zeroed
    free := free
    filled := filled
    ioEventsDropped := 0
    kept := []
    pushed := []
    passed := []
    actions := [] }

/-! ### The steps -/

/-- The hot path has popped `e` for the next write. -/
def taking (s : Stages P) (free : RingBuffer Entry) (e : Entry) (w : IoWrite P)
    (ws : List (IoWrite P)) : Stages P :=
  { s with todo := ws, free := free, hot := .taken e w, kept := s.kept ++ [w] }

/-- The hot path has found no free entry. -/
def dropping (s : Stages P) (ws : List (IoWrite P)) : Stages P :=
  { s with todo := ws, ioEventsDropped := s.ioEventsDropped + 1 }

/-- The hot path has filled its entry. -/
def filling (s : Stages P) (e : Entry) (w : IoWrite P) : Stages P :=
  { s with hot := .written e w, pool := Function.update s.pool e (w.fill (s.pool e)) }

/-- The hot path has pushed its entry. -/
def pushing (s : Stages P) (filled : RingBuffer Entry) (e : Entry) : Stages P :=
  { s with hot := .idle, filled := filled, pushed := s.pushed ++ [(e, s.pool e)] }

/-- The I/O thread has popped `e`. -/
def popping (s : Stages P) (filled : RingBuffer Entry) (e : Entry) : Stages P :=
  { s with filled := filled, io := .popped e }

/-- The I/O thread has given its entry back. -/
def returning (s : Stages P) (free : RingBuffer Entry) : Stages P :=
  { s with io := .idle, free := free }

/-- The next step of the hot path: pop a free entry or drop the event, fill the entry, push it.  The
result is that of a push. -/
def hotStep (s : Stages P) : Option (Option Bool × Stages P) :=
  match s.hot with
  | .idle =>
      match s.todo with
      | [] => some (none, s)
      | w :: ws => do
          let r ← s.free.pop
          match r.1 with
          | none => return (none, s.dropping ws)
          | some e => return (none, s.taking r.2 e w ws)
  | .taken e w => some (none, s.filling e w)
  | .written e _ => do
      let r ← s.filled.push e
      return (some r.1, if r.1 then s.pushing r.2 e else { s with hot := .idle })

/-- The I/O thread pops the filled ring. -/
def ioPop (s : Stages P) : Option (Option Entry × Stages P) := do
  let r ← s.filled.pop
  match r.1 with
  | none => return (none, s)
  | some e => return (some e, s.popping r.2 e)

/-- The I/O thread processes the entry it holds. -/
def ioProcess [Price P] (journal : Bool) (s : Stages P) (e : Entry) : Stages P :=
  { s with
    io := .processed e
    passed := s.passed ++ [(e, s.pool e)]
    actions := s.actions ++ (s.pool e).processIoEvent journal }

/-- The I/O thread gives the entry back. -/
def ioReturn (s : Stages P) (e : Entry) : Option (Option Bool × Stages P) := do
  let r ← s.free.push e
  return (some r.1, s.returning r.2)

/-- The next step of the I/O thread while the pipeline runs. -/
def ioStep [Price P] (journal : Bool) (s : Stages P) : Option (Option Bool × Stages P) :=
  match s.io with
  | .idle => (s.ioPop).map fun r => (none, r.2)
  | .popped e => some (none, s.ioProcess journal e)
  | .processed e => s.ioReturn e

/-- The next step of a thread. -/
def step [Price P] (journal : Bool) (s : Stages P) : Thread → Option (Option Bool × Stages P)
  | .hot => s.hotStep
  | .io => s.ioStep journal

end Stages

/-! ### The rings -/

section Circulation

variable {P : Type}

/-- The entry in the hand of the hot path. -/
def HotHand.entries : HotHand P → List Entry
  | .idle => []
  | .taken e _ | .written e _ => [e]

/-- The entry that the hot path's next step pushes. -/
def HotHand.handed : HotHand P → List Entry
  | .written e _ => [e]
  | .idle | .taken _ _ => []

/-- The entry in the hand of the I/O thread. -/
def IoHand.entries : IoHand → List Entry
  | .idle => []
  | .popped e | .processed e => [e]

/-- The entry the I/O thread has still to process. -/
def IoHand.unread : IoHand → List Entry
  | .popped e => [e]
  | .idle | .processed _ => []

/-- The entries in circulation: all but the one that `init` finds no room for. -/
def circulating : List Entry := (List.finRange 4096).take 4095

theorem circulating_nodup : circulating.Nodup :=
  (List.nodup_finRange 4096).sublist (List.take_sublist _ _)

theorem circulating_length : circulating.length = 4095 := by
  rw [circulating, List.length_take, List.length_finRange]
  rfl

namespace Stages

/-- Each entry in circulation is in one place. -/
def Partitioned (s : Stages P) : Prop :=
  ∃ free filled, s.free.Holds 4096 free ∧ s.filled.Holds 4096 filled ∧
    (free ++ filled ++ s.hot.entries ++ s.io.entries).Perm circulating

/-- The rings hold `free` and `filled`; the entries of `out` have left the circulation. -/
structure Circulates (s : Stages P) (free filled out : List Entry) : Prop where
  holdsFree : s.free.Holds 4096 free
  holdsFilled : s.filled.Holds 4096 filled
  perm : (free ++ filled ++ s.hot.entries ++ s.io.entries ++ out).Perm circulating
  flow : s.pushed = s.passed ++ (s.io.unread ++ filled).map fun e => (e, s.pool e)

variable {s : Stages P} {free filled out : List Entry}

theorem Circulates.partitioned (h : s.Circulates free filled []) : s.Partitioned :=
  ⟨free, filled, h.holdsFree, h.holdsFilled, by simpa using h.perm⟩

theorem Circulates.length (h : s.Circulates free filled out) :
    free.length + filled.length + s.hot.entries.length + s.io.entries.length + out.length = 4095 := by
  have hlen := h.perm.length_eq
  rw [circulating_length] at hlen
  simpa [Nat.add_assoc] using hlen

theorem Circulates.nodup (h : s.Circulates free filled out) :
    (free ++ filled ++ s.hot.entries ++ s.io.entries ++ out).Nodup :=
  h.perm.nodup_iff.mpr circulating_nodup

/-- What a step of the hot path does. -/
inductive HotMove (s : Stages P) : Option Bool → Stages P → Prop where
  | rest (hh : s.hot = .idle) (ht : s.todo = []) : HotMove s none s
  | drop {w : IoWrite P} {ws : List (IoWrite P)} (hh : s.hot = .idle) (ht : s.todo = w :: ws) :
      HotMove s none (s.dropping ws)
  | take {w : IoWrite P} {ws : List (IoWrite P)} {e : Entry} {rb : RingBuffer Entry}
      (hh : s.hot = .idle) (ht : s.todo = w :: ws) : HotMove s none (s.taking rb e w ws)
  | fill {e : Entry} {w : IoWrite P} (hh : s.hot = .taken e w) : HotMove s none (s.filling e w)
  | push {e : Entry} {w : IoWrite P} {rb : RingBuffer Entry} (hh : s.hot = .written e w) :
      HotMove s (some true) (s.pushing rb e)

theorem HotMove.result_ne {r : Option Bool} {s' : Stages P} (h : HotMove s r s') :
    r ≠ some false := by
  cases h <;> exact fun e => by cases e

/-- An update of the entry in the hot path's hand leaves the events on their way alone. -/
theorem Circulates.map_update (h : s.Circulates free filled out) {e : Entry}
    (he : e ∈ s.hot.entries) (ev : IoEvent P) :
    ((s.io.unread ++ filled).map fun a => (a, Function.update s.pool e ev a)) =
      (s.io.unread ++ filled).map fun a => (a, s.pool a) := by
  refine List.map_congr_left fun a ha => ?_
  have hne : a ≠ e := by
    rintro rfl
    have hcount := List.nodup_iff_count_le_one.mp h.nodup a
    have hhot := List.count_pos_iff.mpr he
    have hio : 0 < (s.io.entries ++ filled).count a := by
      refine List.count_pos_iff.mpr ?_
      rcases List.mem_append.mp ha with ha | ha
      · refine List.mem_append_left _ ?_
        cases hs : s.io with
        | idle => rw [hs] at ha; cases ha
        | popped b => rw [hs] at ha; exact ha
        | processed b => rw [hs] at ha; cases ha
      · exact List.mem_append_right _ ha
    simp only [List.count_append] at hcount hio
    omega
  rw [Function.update_of_ne hne]

/-- The hot path takes the oldest free entry. -/
theorem Circulates.take {e : Entry} (h : s.Circulates (e :: free) filled out)
    {w : IoWrite P} {ws : List (IoWrite P)} (hh : s.hot = .idle) (ht : s.todo = w :: ws) :
    ∃ rb, s.hotStep = some (none, s.taking rb e w ws) ∧
      (s.taking rb e w ws).Circulates free filled out := by
  have hperm := h.perm
  rw [hh] at hperm
  obtain ⟨rb, hpop, hrb⟩ := h.holdsFree.pop_cons
  refine ⟨rb, ?_, hrb, h.holdsFilled, ?_, h.flow⟩
  · simp only [Stages.hotStep, hh, ht, hpop]
    rfl
  · refine List.Perm.trans (List.perm_iff_count.mpr fun a => ?_) hperm
    simp only [taking, HotHand.entries, List.count_append, List.count_cons, List.count_nil]
    omega

/-- The hot path drops an event when no entry is free. -/
theorem Circulates.drop (h : s.Circulates [] filled out) {w : IoWrite P} {ws : List (IoWrite P)}
    (hh : s.hot = .idle) (ht : s.todo = w :: ws) :
    s.hotStep = some (none, s.dropping ws) ∧ (s.dropping ws).Circulates [] filled out := by
  refine ⟨?_, h.holdsFree, h.holdsFilled, h.perm, h.flow⟩
  simp only [Stages.hotStep, hh, ht, h.holdsFree.pop_nil]
  rfl

/-- The hot path fills the entry in its hand. -/
theorem Circulates.fill (h : s.Circulates free filled out) {e : Entry} {w : IoWrite P}
    (hh : s.hot = .taken e w) : (s.filling e w).Circulates free filled out := by
  have hperm := h.perm
  have hflow := h.map_update (by rw [hh]; exact List.mem_singleton_self e) (w.fill (s.pool e))
  rw [hh] at hperm
  exact ⟨h.holdsFree, h.holdsFilled, hperm, h.flow.trans (congrArg (s.passed ++ ·) hflow.symm)⟩

/-- The filled ring has room for the entry that the hot path hands over. -/
theorem Circulates.push (h : s.Circulates free filled out) {e : Entry} {w : IoWrite P}
    (hh : s.hot = .written e w) :
    ∃ rb, s.hotStep = some (some true, s.pushing rb e) ∧
      (s.pushing rb e).Circulates free (filled ++ [e]) out := by
  have hlen := h.length
  have hperm := h.perm
  rw [hh] at hlen hperm
  have hroom : filled.length + 1 < 4096 := by
    simp only [HotHand.entries, List.length_singleton] at hlen
    omega
  obtain ⟨rb, hpush, hrb⟩ := h.holdsFilled.push hroom e
  refine ⟨rb, ?_, h.holdsFree, hrb, ?_, ?_⟩
  · simp only [Stages.hotStep, hh, hpush]
    rfl
  · refine List.Perm.trans (List.perm_iff_count.mpr fun a => ?_) hperm
    simp only [pushing, HotHand.entries, List.count_append, List.count_cons, List.count_nil]
    omega
  · show s.pushed ++ [(e, s.pool e)] = _
    rw [h.flow]
    simp [pushing]

/-- **A step of the hot path** is defined, and keeps the circulation. -/
theorem Circulates.hotStep (h : s.Circulates free filled out) :
    ∃ r s' free', s.hotStep = some (r, s') ∧ HotMove s r s' ∧
      s'.Circulates free' (filled ++ s.hot.handed) out := by
  cases hh : s.hot with
  | idle =>
      rw [HotHand.handed, List.append_nil]
      cases ht : s.todo with
      | nil => exact ⟨none, s, free, by simp only [Stages.hotStep, hh, ht], .rest hh ht, h⟩
      | cons w ws =>
          cases free with
          | nil =>
              obtain ⟨hstep, h'⟩ := h.drop hh ht
              exact ⟨none, _, [], hstep, .drop hh ht, h'⟩
          | cons e free =>
              obtain ⟨rb, hstep, h'⟩ := h.take hh ht
              exact ⟨none, _, free, hstep, .take hh ht, h'⟩
  | taken e w =>
      rw [HotHand.handed, List.append_nil]
      exact ⟨none, _, free, by simp only [Stages.hotStep, hh], .fill hh, h.fill hh⟩
  | written e w =>
      obtain ⟨rb, hstep, h'⟩ := h.push hh
      exact ⟨some true, _, free, hstep, .push hh, h'⟩

/-- **The I/O thread's pop** returns the oldest event on its way. -/
theorem Circulates.ioPop (h : s.Circulates free filled out) (hio : s.io = .idle) :
    filled = [] ∧ s.ioPop = some (none, s) ∨
    ∃ e filled' rb, filled = e :: filled' ∧
      s.ioPop = some (some e, s.popping rb e) ∧ (s.popping rb e).Circulates free filled' out := by
  have hperm := h.perm
  have hflow := h.flow
  rw [hio] at hperm hflow
  cases filled with
  | nil =>
      refine .inl ⟨rfl, ?_⟩
      unfold Stages.ioPop
      simp only [h.holdsFilled.pop_nil]
      rfl
  | cons e filled =>
      obtain ⟨rb, hpop, hrb⟩ := h.holdsFilled.pop_cons
      refine .inr ⟨e, filled, rb, rfl, ?_, h.holdsFree, hrb, ?_, hflow⟩
      · unfold Stages.ioPop
        simp only [hpop]
        rfl
      · refine List.Perm.trans (List.perm_iff_count.mpr fun a => ?_) hperm
        simp only [popping, IoHand.entries, List.count_append, List.count_cons, List.count_nil]
        omega

/-- Processing moves the oldest event on its way to those passed on. -/
theorem Circulates.ioProcess [Price P] (h : s.Circulates free filled out) (journal : Bool)
    {e : Entry} (hio : s.io = .popped e) : (s.ioProcess journal e).Circulates free filled out := by
  have hperm := h.perm
  have hflow := h.flow
  rw [hio] at hperm hflow
  refine ⟨h.holdsFree, h.holdsFilled, hperm, ?_⟩
  show s.pushed = (s.passed ++ [(e, s.pool e)]) ++ filled.map _
  rw [hflow, List.append_assoc]
  rfl

/-- The free ring has room for the entry that comes back. -/
theorem Circulates.ioReturn (h : s.Circulates free filled out) {e : Entry}
    (hio : s.io = .processed e) :
    ∃ rb, s.ioReturn e = some (some true, s.returning rb) ∧
      (s.returning rb).Circulates (free ++ [e]) filled out := by
  have hlen := h.length
  have hperm := h.perm
  have hflow := h.flow
  rw [hio] at hlen hperm hflow
  have hroom : free.length + 1 < 4096 := by
    simp only [IoHand.entries, List.length_singleton] at hlen
    omega
  obtain ⟨rb, hpush, hrb⟩ := h.holdsFree.push hroom e
  refine ⟨rb, ?_, hrb, h.holdsFilled, ?_, hflow⟩
  · unfold Stages.ioReturn
    simp only [hpush]
    rfl
  · refine List.Perm.trans (List.perm_iff_count.mpr fun a => ?_) hperm
    simp only [returning, IoHand.entries, List.count_append, List.count_cons, List.count_nil]
    omega

/-- What a step of the I/O thread does while the pipeline runs. -/
inductive IoMove [Price P] (journal : Bool) (s : Stages P) : Option Bool → Stages P → Prop where
  | rest : IoMove journal s none s
  | pop {e : Entry} {rb : RingBuffer Entry} (hio : s.io = .idle) :
      IoMove journal s none (s.popping rb e)
  | process {e : Entry} (hio : s.io = .popped e) : IoMove journal s none (s.ioProcess journal e)
  | back {e : Entry} {rb : RingBuffer Entry} (hio : s.io = .processed e) :
      IoMove journal s (some true) (s.returning rb)

theorem IoMove.result_ne [Price P] {journal : Bool} {r : Option Bool} {s' : Stages P}
    (h : IoMove journal s r s') : r ≠ some false := by
  cases h <;> exact fun e => by cases e

theorem ioStep_of_idle [Price P] (journal : Bool) (hio : s.io = .idle) {o : Option Entry}
    {s' : Stages P} (hpop : s.ioPop = some (o, s')) : s.ioStep journal = some (none, s') := by
  simp only [Stages.ioStep, hio, hpop]
  rfl

/-- **A step of the I/O thread** is defined, and keeps the circulation. -/
theorem Circulates.ioStep [Price P] (h : s.Circulates free filled out) (journal : Bool) :
    ∃ r s' free' filled', s.ioStep journal = some (r, s') ∧ IoMove journal s r s' ∧
      s'.Circulates free' filled' out := by
  cases hio : s.io with
  | idle =>
      rcases h.ioPop hio with ⟨-, hpop⟩ | ⟨e, filled', rb, -, hpop, h'⟩
      · exact ⟨none, s, free, filled, ioStep_of_idle journal hio hpop, .rest, h⟩
      · exact ⟨none, _, free, filled', ioStep_of_idle journal hio hpop, .pop hio, h'⟩
  | popped e =>
      exact ⟨none, _, free, filled, by simp only [Stages.ioStep, hio], .process hio,
        h.ioProcess journal hio⟩
  | processed e =>
      obtain ⟨rb, hret, h'⟩ := h.ioReturn hio
      exact ⟨some true, _, free ++ [e], filled, by simp only [Stages.ioStep, hio, hret], .back hio, h'⟩

/-- Nothing has happened yet. -/
structure Fresh [Zero P] (s : Stages P) (todo : List (IoWrite P)) : Prop where
  todo : s.todo = todo
  hot : s.hot = .idle
  io : s.io = .idle
  pool : ∀ e, s.pool e = .zeroed
  dropped : s.ioEventsDropped = 0
  kept : s.kept = []
  pushed : s.pushed = []
  passed : s.passed = []
  actions : s.actions = []

/-- **The rings after `init`.** -/
theorem init_circulates [Zero P] (todo : List (IoWrite P)) :
    ∃ s, Stages.init todo = some s ∧ s.Circulates circulating [] [] ∧ s.Fresh todo := by
  obtain ⟨empty, hinit, hempty⟩ :=
    @RingBuffer.init_holds Entry 4096 12 (by decide) rfl (by decide)
  rw [show (2 : ℕ) ^ 12 = 4096 from rfl] at hempty
  obtain ⟨free, hall, hfree⟩ := hempty.pushAll (List.finRange 4096)
  rw [List.nil_append, show 4096 - 1 = 4095 from rfl] at hfree
  refine ⟨⟨todo, .idle, .idle, fun _ => .zeroed, free, empty, 0, [], [], [], []⟩, ?_,
    ⟨hfree, hempty, ?_, rfl⟩, ⟨rfl, rfl, rfl, fun _ => rfl, rfl, rfl, rfl, rfl, rfl⟩⟩
  · unfold Stages.init
    simp only [hinit, Option.bind_eq_bind, Option.bind_some, hall]
    rfl
  · simp [HotHand.entries, IoHand.entries]

/-! ### One event at a time -/

/-- The schedule in which the I/O thread handles each of `n` events before the next is written. -/
def lockstep : ℕ → List Thread
  | 0 => []
  | n + 1 => [.hot, .hot, .hot, .io, .io, .io] ++ lockstep n

/-- Nothing is on its way, and the next entries are `free`. -/
structure Quiet (s : Stages P) (free : List Entry) : Prop where
  circulates : s.Circulates free [] []
  hot : s.hot = .idle
  io : s.io = .idle

/-- **One event**: it is written over what its entry held, and processed. -/
theorem Quiet.event [Price P] {e : Entry} (h : s.Quiet (e :: free)) (journal : Bool)
    {w : IoWrite P} {ws : List (IoWrite P)} (ht : s.todo = w :: ws) :
    ∃ rs s', Run.exec (step journal) s [.hot, .hot, .hot, .io, .io, .io] = some (rs, s') ∧
      s'.Quiet (free ++ [e]) ∧ s'.todo = ws ∧ s'.kept = s.kept ++ [w] ∧
      s'.pool = Function.update s.pool e (w.fill (s.pool e)) ∧
      s'.actions = s.actions ++ (w.fill (s.pool e)).processIoEvent journal := by
  obtain ⟨rb₁, h₁, c₁⟩ := h.circulates.take h.hot ht
  have c₂ := c₁.fill rfl
  obtain ⟨rb₃, h₃, c₃⟩ := c₂.push rfl
  rcases c₃.ioPop h.io with ⟨hnil, -⟩ | ⟨e', filled', rb₄, hcons, h₄, c₄⟩
  · exact absurd hnil (by simp)
  obtain ⟨rfl, rfl⟩ : e' = e ∧ filled' = [] := by
    simpa [eq_comm] using hcons
  have c₅ := c₄.ioProcess journal rfl
  obtain ⟨rb₆, h₆, c₆⟩ := c₅.ioReturn rfl
  have h₄' := ioStep_of_idle (s := ((s.taking rb₁ e' w ws).filling e' w).pushing rb₃ e') journal
    h.io h₄
  refine ⟨_, _, Run.exec_cons h₁ (Run.exec_cons rfl (Run.exec_cons h₃ (Run.exec_cons h₄'
    (Run.exec_cons rfl (Run.exec_cons h₆ rfl))))), ⟨c₆, rfl, rfl⟩, rfl, rfl, rfl, ?_⟩
  show s.actions ++ (Function.update s.pool e' (w.fill (s.pool e')) e').processIoEvent journal = _
  rw [Function.update_self]

/-- **One event after the other**, on entries not used before: each is processed as on a zeroed
entry, and the entries queue up again with what was written to them. -/
theorem Quiet.events [Price P] (journal : Bool) {more : List (IoWrite P)} (es : List Entry) :
    ∀ {s : Stages P} {rest : List Entry} {ws : List (IoWrite P)}, s.Quiet (es ++ rest) →
      ws.length = es.length → s.todo = ws ++ more → (∀ e ∈ es, s.pool e = .zeroed) →
      ∃ rs s', Run.exec (step journal) s (lockstep ws.length) = some (rs, s') ∧
        s'.Quiet (rest ++ es) ∧ s'.todo = more ∧ s'.kept = s.kept ++ ws ∧
        s'.actions = s.actions ++ ws.flatMap (synchronous journal) ∧
        (∀ e ∉ es, s'.pool e = s.pool e) ∧
        List.Forall₂ (fun e w => s'.pool e = w.fill .zeroed) es ws := by
  induction es with
  | nil =>
      intro s rest ws h hlen ht _
      obtain rfl := List.length_eq_zero_iff.mp hlen
      refine ⟨[], s, rfl, ?_, ht, ?_, ?_, fun _ _ => rfl, .nil⟩
      · rw [List.append_nil]
        exact h
      · rw [List.append_nil]
      · rw [List.flatMap_nil, List.append_nil]
  | cons e es ih =>
      intro s rest ws h hlen ht hzero
      cases ws with
      | nil => cases hlen
      | cons w ws =>
          have hnotin : e ∉ es := by
            have hnd := h.circulates.nodup
            simp only [List.append_assoc, List.cons_append, List.nodup_cons] at hnd
            exact fun he => hnd.1 (List.mem_append_left _ he)
          rw [List.cons_append] at h ht
          obtain ⟨rs₁, s₁, hexec₁, hq₁, ht₁, hk₁, hp₁, ha₁⟩ := h.event journal ht
          rw [List.append_assoc] at hq₁
          have hzero₁ : ∀ a ∈ es, s₁.pool a = .zeroed := by
            intro a ha
            have hne : a ≠ e := fun hae => hnotin (hae ▸ ha)
            rw [hp₁, Function.update_of_ne hne]
            exact hzero a (List.mem_cons_of_mem e ha)
          obtain ⟨rs₂, s₂, hexec₂, hq₂, ht₂, hk₂, ha₂, hframe, hpool⟩ :=
            ih hq₁ (Nat.succ.inj hlen) ht₁ hzero₁
          refine ⟨rs₁ ++ rs₂, s₂, Run.exec_append hexec₁ hexec₂, ?_, ht₂, ?_, ?_, ?_, ?_⟩
          · rw [List.append_assoc] at hq₂
            exact hq₂
          · rw [hk₂, hk₁, List.append_assoc]
            rfl
          · rw [ha₂, ha₁, hzero e (List.mem_cons_self ..), List.append_assoc]
            rfl
          · intro a ha
            rw [List.mem_cons, not_or] at ha
            rw [hframe a ha.2, hp₁, Function.update_of_ne ha.1]
          · refine .cons ?_ hpool
            rw [hframe e hnotin, hp₁, Function.update_self, hzero e (List.mem_cons_self ..)]

end Stages

end Circulation

end Aspira
