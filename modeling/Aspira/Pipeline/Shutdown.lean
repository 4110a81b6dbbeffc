import Aspira.Pipeline.Recycling

/-!
# Pipeline — shutdown

`consumer_loop`, `io_loop` and `stop` of `src/event_pipeline.cpp`, with the receiving thread of the
feed.  A step is one access to `running_` or to a ring, or one event passed to `process_io_event`;
what `process_market_data` writes is put through the rings by the steps of `Stages.lean`.

Both loops see the same flag, and each drains its own queue.  The I/O thread leaves when its queue is
empty once, and nothing makes it wait for the consumer: an event that the consumer pushes later stays
in the ring (`stop_loses`).  `stop_delivers_iff` says that this is the only way to lose one.
-/

namespace Aspira

variable {P : Type}

/-- Where the receiving thread of the feed is. -/
inductive FeedPhase where
  /-- At the head of its loop. -/
  | loop
  /-- In its body. -/
  | receiving
  | exited
  deriving DecidableEq

/-- Where `consumer_loop` is. -/
inductive ConsumerPhase where
  /-- At the head of the loop, to read `running_`. -/
  | loop
  /-- In its body, to pop the feed queue. -/
  | pop
  /-- In `process_market_data`. -/
  | busy (draining : Bool)
  /-- After the loop, to pop the feed queue. -/
  | drain
  | exited
  deriving DecidableEq

/-- Where `io_loop` is. -/
inductive IoPhase where
  /-- At the head of the loop, to read `running_`. -/
  | loop
  /-- In its body, to pop the filled ring. -/
  | pop
  /-- With an event. -/
  | busy (draining : Bool)
  /-- After the loop, to pop the filled ring. -/
  | drain
  | exited
  deriving DecidableEq

/-- Where `stop` is. -/
inductive StopPhase where
  /-- Not called. -/
  | serving
  | joinConsumer
  | stopFeed
  | joinFeed
  | joinIo
  | returned
  deriving DecidableEq

/-- The consumer thread has been joined. -/
def StopPhase.joined : StopPhase → Bool
  | .serving | .joinConsumer => false
  | .stopFeed | .joinFeed | .joinIo | .returned => true

/-- `class EventPipeline`.  The last field is a record of what `process_market_data` has written. -/
structure EventPipeline (P : Type) [LinearOrder P] where
  running : Bool
  feedRunning : Bool
  outputQueue : RingBuffer (Tick P)
  hotPath : HotPath P
  stages : Stages P
  feed : FeedPhase
  consumer : ConsumerPhase
  io : IoPhase
  stop : StopPhase
  writes : List (IoWrite P)

/-- The threads.  The feed brings a message, or none if its pool is empty. -/
inductive Turn (P : Type) where
  | feed (msg : Option (Tick P))
  | consumer
  | io
  | stop

/-- The I/O thread leaves its entry out of the free ring. -/
def Stages.retiring (s : Stages P) : Stages P := { s with io := .idle }

/-- The hot path has these writes to make. -/
def Stages.loading (s : Stages P) (ws : List (IoWrite P)) : Stages P := { s with todo := ws }

namespace EventPipeline

variable [Price P]

/-- `init` and `start`. -/
def start (symbol : List UInt8) : Option (EventPipeline P) := do
  let outputQueue ← RingBuffer.init 4096
  let stages ← Stages.init []
  return {
    running := true
    feedRunning := true
    outputQueue := outputQueue
    hotPath := .init symbol
    stages := stages
    feed := .loop
    consumer := .loop
    io := .loop
    stop := .serving
    writes := [] }

/-! ### The steps -/

/-- `recv_thread_func`, in simulation mode. -/
def feedStep (p : EventPipeline P) (msg : Option (Tick P)) : Option (EventPipeline P) :=
  match p.feed with
  | .loop => some { p with feed := if p.feedRunning then .receiving else .exited }
  | .receiving =>
      match msg with
      | none => some { p with feed := .loop }
      | some t => do
          let r ← p.outputQueue.push t
          return { p with feed := .loop, outputQueue := r.2 }
  | .exited => some p

/-- `process_market_data` is called with a message just popped. -/
def processing (p : EventPipeline P) (draining : Bool) (queue : RingBuffer (Tick P)) (t : Tick P) :
    EventPipeline P :=
  let r := p.hotPath.processMarketData t
  { p with
    outputQueue := queue
    hotPath := r.2
    stages := p.stages.loading r.1
    consumer := .busy draining
    writes := p.writes ++ r.1 }

/-- A pop of `consumer_loop`, in the loop or after it. -/
def consumerPop (p : EventPipeline P) (draining : Bool) : Option (EventPipeline P) := do
  let r ← p.outputQueue.pop
  match r.1 with
  | none => return { p with consumer := if draining then .exited else .loop }
  | some t => return p.processing draining r.2 t

/-- `consumer_loop`. -/
def consumerStep (p : EventPipeline P) : Option (EventPipeline P) :=
  match p.consumer with
  | .loop => some { p with consumer := if p.running then .pop else .drain }
  | .pop => p.consumerPop false
  | .busy draining =>
      match p.stages.hot, p.stages.todo with
      | .idle, [] => some { p with consumer := if draining then .drain else .loop }
      | _, _ => do
          let r ← p.stages.hotStep
          return { p with stages := r.2 }
  | .drain => p.consumerPop true
  | .exited => some p

/-- A pop of `io_loop`; `next` is where it goes on when the ring is empty. -/
def ioPop (p : EventPipeline P) (draining : Bool) (next : IoPhase) : Option (EventPipeline P) := do
  let r ← p.stages.ioPop
  match r.1 with
  | none => return { p with io := next }
  | some _ => return { p with stages := r.2, io := .busy draining }

/-- `io_loop`. -/
def ioStep (journal : Bool) (p : EventPipeline P) : Option (EventPipeline P) :=
  match p.io with
  | .loop => some { p with io := if p.running then .pop else .drain }
  | .pop => p.ioPop false .loop
  | .busy draining =>
      match p.stages.io with
      | .idle => some { p with io := if draining then .drain else .loop }
      | .popped e => some { p with stages := p.stages.ioProcess journal e }
      | .processed e =>
          if draining then some { p with stages := p.stages.retiring }
          else do
            let r ← p.stages.ioReturn e
            return { p with stages := r.2 }
  | .drain => p.ioPop true .exited
  | .exited => some p

/-- `stop`, and `feed_stop` within it.  A join waits. -/
def stopStep (p : EventPipeline P) : EventPipeline P :=
  match p.stop with
  | .serving =>
      if p.running then { p with running := false, stop := .joinConsumer }
      else { p with stop := .returned }
  | .joinConsumer => if p.consumer = .exited then { p with stop := .stopFeed } else p
  | .stopFeed => { p with feedRunning := false, stop := .joinFeed }
  | .joinFeed => if p.feed = .exited then { p with stop := .joinIo } else p
  | .joinIo => if p.io = .exited then { p with stop := .returned } else p
  | .returned => p

/-- The next step of a thread. -/
def step (journal : Bool) (p : EventPipeline P) (t : Turn P) : Option (Unit × EventPipeline P) :=
  Option.map (fun p' => ((), p')) <|
    match t with
    | .feed msg => p.feedStep msg
    | .consumer => p.consumerStep
    | .io => p.ioStep journal
    | .stop => some p.stopStep

/-! ### The invariant -/

/-- What the stages and the feed queue keep.  `out` are the entries retired by the drain. -/
structure Sound (journal : Bool) (p : EventPipeline P) (free filled out : List Entry) : Prop where
  circulates : p.stages.Circulates free filled out
  faithful : ∃ ws, p.stages.Faithful journal p.writes ws
  counted : UInt64.ofNat p.writes.length =
    UInt64.ofNat p.stages.kept.length + UInt64.ofNat p.stages.todo.length + p.stages.ioEventsDropped
  queue : ∃ q, p.outputQueue.Holds 4096 q
  hot : (∀ d, p.consumer ≠ .busy d) → p.stages.hot = .idle ∧ p.stages.todo = []
  io : (∀ d, p.io ≠ .busy d) → p.stages.io = .idle

/-- What `stop` has waited for. -/
structure Phases (p : EventPipeline P) : Prop where
  serving : p.stop = .serving → p.running = true
  joined : p.stop.joined = true → p.consumer = .exited
  returned : p.stop = .returned → p.io = .exited

/-- The step pushes an entry to the filled ring. -/
def Pushes (p : EventPipeline P) : Turn P → Prop
  | .consumer => p.stages.hot.handed ≠ []
  | _ => False

/-- What a step of a thread leaves to the others: `filled` and `filled'` are what the filled ring
holds before and after it. -/
structure Change (p : EventPipeline P) (t : Turn P) (filled : List Entry) (p' : EventPipeline P)
    (filled' : List Entry) : Prop where
  consumer : p.consumer = .exited → p'.consumer = .exited
  io : p.io = .exited → p'.io = .exited
  exits : p'.io = .exited → p.io = .exited ∨ filled' = []
  quiet : p.io = .exited → ¬ p.Pushes t → filled' = filled
  late : p.Pushes t → filled' ≠ []

variable {journal : Bool} {p p' : EventPipeline P} {free filled filled' out : List Entry}

/-- Nothing happens to the filled ring, and the I/O thread stays where it is. -/
theorem Change.of_eq {t : Turn P} (ht : ¬ p.Pushes t) (hio : p'.io = p.io)
    (hc : p.consumer = .exited → p'.consumer = .exited) : p.Change t filled p' filled where
  consumer := hc
  io he := hio.trans he
  exits he := .inl (hio.symm.trans he)
  quiet _ _ := rfl
  late h := absurd h ht

/-! ### The feed -/

theorem Sound.setQueue (h : p.Sound journal free filled out) {queue : RingBuffer (Tick P)}
    {q : List (Tick P)} (hq : queue.Holds 4096 q) (phase : FeedPhase) :
    Sound journal { p with feed := phase, outputQueue := queue } free filled out :=
  ⟨h.circulates, h.faithful, h.counted, ⟨q, hq⟩, h.hot, h.io⟩

/-- **A step of the feed.** -/
theorem Sound.feedStep (h : p.Sound journal free filled out) (msg : Option (Tick P)) :
    ∃ phase queue, p.feedStep msg = some { p with feed := phase, outputQueue := queue } ∧
      Sound journal { p with feed := phase, outputQueue := queue } free filled out := by
  obtain ⟨q, hq⟩ := h.queue
  cases hf : p.feed with
  | loop =>
      refine ⟨if p.feedRunning then .receiving else .exited, p.outputQueue, ?_, h.setQueue hq _⟩
      simp only [EventPipeline.feedStep, hf]
  | exited =>
      refine ⟨.exited, p.outputQueue, ?_, h.setQueue hq _⟩
      simp only [EventPipeline.feedStep, hf]
      rw [← hf]
  | receiving =>
      cases msg with
      | none =>
          refine ⟨.loop, p.outputQueue, ?_, h.setQueue hq _⟩
          simp only [EventPipeline.feedStep, hf]
      | some t =>
          have hlt := hq.length_lt
          by_cases hfull : q.length + 1 = 4096
          · refine ⟨.loop, p.outputQueue, ?_, h.setQueue hq _⟩
            simp only [EventPipeline.feedStep, hf, hq.push_full hfull]
            rfl
          · obtain ⟨rb, hpush, hrb⟩ := hq.push (lt_of_le_of_ne hlt hfull) t
            refine ⟨.loop, rb, ?_, h.setQueue hrb _⟩
            simp only [EventPipeline.feedStep, hf, hpush]
            rfl

/-! ### The consumer thread -/

theorem Sound.setConsumer (h : p.Sound journal free filled out)
    (hidle : p.stages.hot = .idle ∧ p.stages.todo = []) (c : ConsumerPhase) :
    Sound journal { p with consumer := c } free filled out :=
  ⟨h.circulates, h.faithful, h.counted, h.queue, fun _ => hidle, h.io⟩

/-- The writes of a message are added to those to make. -/
theorem Sound.processing (h : p.Sound journal free filled out)
    (hidle : p.stages.hot = .idle ∧ p.stages.todo = []) (draining : Bool)
    {queue : RingBuffer (Tick P)} {q : List (Tick P)} (hq : queue.Holds 4096 q) (t : Tick P) :
    (p.processing draining queue t).Sound journal free filled out := by
  obtain ⟨ws, hf⟩ := h.faithful
  have hc := h.circulates
  have horder := hf.order
  have hcount := h.counted
  rw [hidle.2, List.append_nil] at horder
  rw [hidle.2] at hcount
  refine ⟨⟨hc.holdsFree, hc.holdsFilled, hc.perm, hc.flow⟩,
    ⟨ws, hf.clean, hf.written, hf.pushed, hf.kept, horder.append (List.Sublist.refl _), hf.actions⟩,
    ?_, ⟨q, hq⟩, fun hb => absurd rfl (hb draining), h.io⟩
  show UInt64.ofNat (p.writes ++ (p.hotPath.processMarketData t).1).length =
    UInt64.ofNat p.stages.kept.length + UInt64.ofNat (p.hotPath.processMarketData t).1.length +
      p.stages.ioEventsDropped
  rw [List.length_append, UInt64.ofNat_add, hcount, List.length_nil]
  grind

omit [Price P] in
/-- A step of the hot path accounts for each write. -/
theorem counted_hotMove {s s' : Stages P} {r : Option Bool} (hm : Stages.HotMove s r s') :
    UInt64.ofNat s'.kept.length + UInt64.ofNat s'.todo.length + s'.ioEventsDropped =
      UInt64.ofNat s.kept.length + UInt64.ofNat s.todo.length + s.ioEventsDropped := by
  cases hm with
  | rest => rfl
  | drop hh ht =>
      simp only [Stages.dropping, ht, List.length_cons, UInt64.ofNat_add]
      grind
  | take hh ht =>
      simp only [Stages.taking, ht, List.length_cons, List.length_append, List.length_nil,
        UInt64.ofNat_add]
      grind
  | fill hh => rfl
  | push hh => rfl

theorem Sound.hotMove (h : p.Sound journal free filled out) {d : Bool} (hc : p.consumer = .busy d)
    {s' : Stages P} {r : Option Bool} (hm : Stages.HotMove p.stages r s')
    {free' filled' : List Entry} (hs : s'.Circulates free' filled' out) :
    Sound journal { p with stages := s' } free' filled' out := by
  obtain ⟨ws, hf⟩ := h.faithful
  obtain ⟨ws', hf'⟩ := hf.hotMove hm
  have hio : s'.io = p.stages.io := by cases hm <;> rfl
  refine ⟨hs, ⟨ws', hf'⟩, h.counted.trans (counted_hotMove hm).symm, h.queue,
    fun hb => absurd hc (hb d), fun hb => hio.trans (h.io hb)⟩

theorem not_pushes_of_idle (hidle : p.stages.hot = .idle) : ¬ p.Pushes .consumer := by
  rw [Pushes, hidle]
  exact fun hne => hne rfl

/-- A pop of the consumer thread. -/
theorem Sound.consumerPop (h : p.Sound journal free filled out)
    (hidle : p.stages.hot = .idle ∧ p.stages.todo = []) (hx : p.consumer ≠ .exited)
    (draining : Bool) :
    ∃ p', p.consumerPop draining = some p' ∧ p'.Sound journal free filled out ∧
      p.Change .consumer filled p' filled ∧ p'.stop = p.stop ∧ p'.running = p.running := by
  obtain ⟨q, hq⟩ := h.queue
  have hpush := not_pushes_of_idle hidle.1
  cases q with
  | nil =>
      refine ⟨_, ?_, h.setConsumer hidle (if draining then .exited else .loop),
        Change.of_eq hpush rfl fun he => absurd he hx, rfl, rfl⟩
      simp only [EventPipeline.consumerPop, hq.pop_nil]
      rfl
  | cons t q =>
      obtain ⟨rb, hpop, hrb⟩ := hq.pop_cons
      refine ⟨_, ?_, h.processing hidle draining hrb t,
        Change.of_eq hpush rfl fun he => absurd he hx, rfl, rfl⟩
      simp only [EventPipeline.consumerPop, hpop]
      rfl

theorem consumerStep_busy {d : Bool} (hc : p.consumer = .busy d)
    (hmore : ¬ (p.stages.hot = .idle ∧ p.stages.todo = [])) {r : Option Bool} {s' : Stages P}
    (hstep : p.stages.hotStep = some (r, s')) :
    p.consumerStep = some { p with stages := s' } := by
  simp only [EventPipeline.consumerStep, hc, hstep]
  split
  · rename_i hhot htodo
    exact absurd ⟨hhot, htodo⟩ hmore
  · rfl

/-- A step within `process_market_data`. -/
theorem Sound.consumerBusy (h : p.Sound journal free filled out) {d : Bool}
    (hc : p.consumer = .busy d) (hmore : ¬ (p.stages.hot = .idle ∧ p.stages.todo = [])) :
    ∃ p' free' filled', p.consumerStep = some p' ∧ p'.Sound journal free' filled' out ∧
      p.Change .consumer filled p' filled' ∧ p'.stop = p.stop ∧ p'.running = p.running := by
  obtain ⟨r, s', free', hstep, hm, hs⟩ := h.circulates.hotStep
  refine ⟨{ p with stages := s' }, free', filled ++ p.stages.hot.handed,
    consumerStep_busy hc hmore hstep, h.hotMove hc hm hs,
    ⟨fun he => he, fun he => he, fun he => .inl he, fun _ hquiet => ?_, fun hpush hnil => ?_⟩,
    rfl, rfl⟩
  · rw [not_ne_iff.mp hquiet, List.append_nil]
  · exact hpush (List.append_eq_nil_iff.mp hnil).2

/-- **A step of the consumer thread.** -/
theorem Sound.consumerStep (h : p.Sound journal free filled out) :
    ∃ p' free' filled', p.consumerStep = some p' ∧ p'.Sound journal free' filled' out ∧
      p.Change .consumer filled p' filled' ∧ p'.stop = p.stop ∧ p'.running = p.running := by
  cases hc : p.consumer with
  | loop =>
      have hidle := h.hot fun d he => by cases hc.symm.trans he
      refine ⟨_, free, filled, by simp only [EventPipeline.consumerStep, hc],
        h.setConsumer hidle (if p.running then .pop else .drain),
        Change.of_eq (not_pushes_of_idle hidle.1) rfl fun he => ?_, rfl, rfl⟩
      cases hc.symm.trans he
  | pop =>
      have hidle := h.hot fun d he => by cases hc.symm.trans he
      obtain ⟨p', hpop, h'⟩ := h.consumerPop hidle (fun he => by cases hc.symm.trans he) false
      exact ⟨p', free, filled, by simp only [EventPipeline.consumerStep, hc, hpop], h'⟩
  | busy d =>
      by_cases hdone : p.stages.hot = .idle ∧ p.stages.todo = []
      · refine ⟨_, free, filled, by simp only [EventPipeline.consumerStep, hc, hdone.1, hdone.2],
          h.setConsumer hdone (if d then .drain else .loop),
          Change.of_eq (not_pushes_of_idle hdone.1) rfl fun he => ?_, rfl, rfl⟩
        cases hc.symm.trans he
      · exact h.consumerBusy hc hdone
  | drain =>
      have hidle := h.hot fun d he => by cases hc.symm.trans he
      obtain ⟨p', hpop, h'⟩ := h.consumerPop hidle (fun he => by cases hc.symm.trans he) true
      exact ⟨p', free, filled, by simp only [EventPipeline.consumerStep, hc, hpop], h'⟩
  | exited =>
      have hidle := h.hot fun d he => by cases hc.symm.trans he
      exact ⟨p, free, filled, by simp only [EventPipeline.consumerStep, hc], h,
        Change.of_eq (not_pushes_of_idle hidle.1) rfl fun he => he, rfl, rfl⟩

/-! ### The I/O thread -/

theorem Sound.setIo (h : p.Sound journal free filled out) (hidle : p.stages.io = .idle)
    (c : IoPhase) : Sound journal { p with io := c } free filled out :=
  ⟨h.circulates, h.faithful, h.counted, h.queue, h.hot, fun _ => hidle⟩

/-- The stages after a step of the I/O thread with an event. -/
theorem Sound.setStages (h : p.Sound journal free filled out) {c : IoPhase} {d : Bool}
    (hc : c = .busy d) {s' : Stages P}
    (hf : ∀ ws, p.stages.Faithful journal p.writes ws → s'.Faithful journal p.writes ws)
    (hkept : s'.kept = p.stages.kept) (htodo : s'.todo = p.stages.todo)
    (hdrop : s'.ioEventsDropped = p.stages.ioEventsDropped) (hhot : s'.hot = p.stages.hot)
    {free' filled' out' : List Entry} (hs : s'.Circulates free' filled' out') :
    Sound journal { p with stages := s', io := c } free' filled' out' := by
  obtain ⟨ws, hws⟩ := h.faithful
  refine ⟨hs, ⟨ws, hf ws hws⟩, ?_, h.queue, fun hb => ?_, fun hb => absurd hc (hb d)⟩
  · show _ = UInt64.ofNat s'.kept.length + UInt64.ofNat s'.todo.length + s'.ioEventsDropped
    rw [hkept, htodo, hdrop]
    exact h.counted
  · show s'.hot = .idle ∧ s'.todo = []
    rw [hhot, htodo]
    exact h.hot hb

omit [Price P] in
/-- An entry that is not given back leaves the circulation. -/
theorem retiring_circulates {s : Stages P} (h : s.Circulates free filled out) {e : Entry}
    (hio : s.io = .processed e) : s.retiring.Circulates free filled (e :: out) := by
  have hperm := h.perm
  have hflow := h.flow
  rw [hio] at hperm hflow
  refine ⟨h.holdsFree, h.holdsFilled, List.Perm.trans (List.perm_iff_count.mpr fun a => ?_) hperm,
    hflow⟩
  simp only [Stages.retiring, IoHand.entries, List.count_append, List.count_cons, List.count_nil]
  omega

theorem retiring_faithful {all ws : List (IoWrite P)} {s : Stages P}
    (h : s.Faithful journal all ws) : s.retiring.Faithful journal all ws :=
  ⟨h.clean, h.written, h.pushed, h.kept, h.order, h.actions⟩

/-- The I/O thread is not done after this step, or found the filled ring empty. -/
theorem Change.of_io (hx : p.io ≠ .exited) (hc : p'.consumer = p.consumer)
    (hexit : p'.io = .exited → filled' = []) : p.Change .io filled p' filled' where
  consumer he := hc.trans he
  io he := absurd he hx
  exits he := .inr (hexit he)
  quiet he := absurd he hx
  late he := he.elim

/-- A pop of the I/O thread. -/
theorem Sound.ioPop (h : p.Sound journal free filled out) (hb : ∀ d, p.io ≠ .busy d)
    (hx : p.io ≠ .exited) (draining : Bool) (next : IoPhase) :
    ∃ p' filled', p.ioPop draining next = some p' ∧ p'.Sound journal free filled' out ∧
      p.Change .io filled p' filled' ∧ p'.stop = p.stop ∧ p'.running = p.running := by
  have hidle := h.io hb
  rcases h.circulates.ioPop hidle with ⟨hnil, hpop⟩ | ⟨e, filled', rb, -, hpop, hs⟩
  · refine ⟨_, filled, ?_, h.setIo hidle next, Change.of_io hx rfl fun _ => hnil, rfl, rfl⟩
    simp only [EventPipeline.ioPop, hpop]
    rfl
  · refine ⟨_, filled', ?_,
      h.setStages (c := .busy draining) rfl (fun ws hf => hf.ioMove (.pop hidle)) rfl rfl rfl rfl hs,
      Change.of_io hx rfl fun he => (by cases he), rfl, rfl⟩
    simp only [EventPipeline.ioPop, hpop]
    rfl

/-- **A step of the I/O thread.** -/
theorem Sound.ioStep (h : p.Sound journal free filled out) :
    ∃ p' free' filled' out', p.ioStep journal = some p' ∧ p'.Sound journal free' filled' out' ∧
      p.Change .io filled p' filled' ∧ p'.stop = p.stop ∧ p'.running = p.running := by
  cases hc : p.io with
  | loop =>
      have hidle := h.io fun d he => by cases hc.symm.trans he
      refine ⟨_, free, filled, out, by simp only [EventPipeline.ioStep, hc],
        h.setIo hidle (if p.running then .pop else .drain),
        Change.of_io (fun he => by cases hc.symm.trans he) rfl fun he => ?_, rfl, rfl⟩
      cases hr : p.running <;> simp [hr] at he
  | pop =>
      obtain ⟨p', filled', hpop, h'⟩ := h.ioPop (fun d he => by cases hc.symm.trans he)
        (fun he => by cases hc.symm.trans he) false .loop
      exact ⟨p', free, filled', out, by simp only [EventPipeline.ioStep, hc, hpop], h'⟩
  | drain =>
      obtain ⟨p', filled', hpop, h'⟩ := h.ioPop (fun d he => by cases hc.symm.trans he)
        (fun he => by cases hc.symm.trans he) true .exited
      exact ⟨p', free, filled', out, by simp only [EventPipeline.ioStep, hc, hpop], h'⟩
  | exited =>
      exact ⟨p, free, filled, out, by simp only [EventPipeline.ioStep, hc], h,
        Change.of_eq id rfl fun he => he, rfl, rfl⟩
  | busy d =>
      have hx : p.io ≠ .exited := fun he => by cases hc.symm.trans he
      have hne : ∀ {filled' : List Entry}, p.io = .exited → filled' = [] := fun he => absurd he hx
      cases hio : p.stages.io with
      | idle =>
          refine ⟨_, free, filled, out, by simp only [EventPipeline.ioStep, hc, hio],
            h.setIo hio (if d then .drain else .loop), Change.of_io hx rfl fun he => ?_, rfl, rfl⟩
          cases d <;> simp at he
      | popped e =>
          exact ⟨_, free, filled, out, by simp only [EventPipeline.ioStep, hc, hio],
            h.setStages hc (fun ws hf => hf.ioMove (.process hio)) rfl rfl rfl rfl
              (h.circulates.ioProcess journal hio), Change.of_io hx rfl hne, rfl, rfl⟩
      | processed e =>
          cases d with
          | true =>
              exact ⟨_, free, filled, e :: out, by simp [EventPipeline.ioStep, hc, hio],
                h.setStages hc (fun ws hf => retiring_faithful hf) rfl rfl rfl rfl
                  (retiring_circulates h.circulates hio), Change.of_io hx rfl hne, rfl, rfl⟩
          | false =>
              obtain ⟨rb, hret, hs⟩ := h.circulates.ioReturn hio
              refine ⟨_, free ++ [e], filled, out, ?_,
                h.setStages hc (fun ws hf => hf.ioMove (.back hio)) rfl rfl rfl rfl hs,
                Change.of_io hx rfl hne, rfl, rfl⟩
              simp only [EventPipeline.ioStep, hc, hio, hret]
              rfl

/-! ### Whole runs -/

/-- `stop` touches the flags and its own phase only. -/
theorem stopStep_frame (p : EventPipeline P) :
    ∃ running feedRunning stop, p.stopStep =
      { p with running := running, feedRunning := feedRunning, stop := stop } := by
  unfold stopStep
  split
  · split <;> exact ⟨_, _, _, rfl⟩
  · split <;> exact ⟨_, _, _, rfl⟩
  · exact ⟨_, _, _, rfl⟩
  · split <;> exact ⟨_, _, _, rfl⟩
  · split <;> exact ⟨_, _, _, rfl⟩
  · exact ⟨_, _, _, rfl⟩

/-- A join is passed only by a thread that has exited. -/
theorem Phases.stopStep (h : p.Phases) : p.stopStep.Phases := by
  cases hs : p.stop with
  | serving =>
      simp only [EventPipeline.stopStep, hs, h.serving hs, if_true]
      exact ⟨fun he => (by cases he), fun he => (by cases he), fun he => (by cases he)⟩
  | joinConsumer =>
      simp only [EventPipeline.stopStep, hs]
      split
      · rename_i hc
        exact ⟨fun he => (by cases he), fun _ => hc, fun he => (by cases he)⟩
      · exact h
  | stopFeed =>
      have hc := h.joined (by rw [hs]; rfl)
      simp only [EventPipeline.stopStep, hs]
      exact ⟨fun he => (by cases he), fun _ => hc, fun he => (by cases he)⟩
  | joinFeed =>
      have hc := h.joined (by rw [hs]; rfl)
      simp only [EventPipeline.stopStep, hs]
      split
      · exact ⟨fun he => (by cases he), fun _ => hc, fun he => (by cases he)⟩
      · exact h
  | joinIo =>
      have hc := h.joined (by rw [hs]; rfl)
      simp only [EventPipeline.stopStep, hs]
      split
      · rename_i hio
        exact ⟨fun he => (by cases he), fun _ => hc, fun _ => hio⟩
      · exact h
  | returned =>
      simp only [EventPipeline.stopStep, hs]
      exact h

theorem Phases.change {t : Turn P} (h : p.Phases) (hc : p.Change t filled p' filled')
    (hstop : p'.stop = p.stop) (hrun : p'.running = p.running) : p'.Phases where
  serving he := hrun.trans (h.serving (hstop.symm.trans he))
  joined he := hc.consumer (h.joined (hstop ▸ he))
  returned he := hc.io (h.returned (hstop.symm.trans he))

/-- **A step of any thread** is defined, and keeps the invariant. -/
theorem Sound.step (h : p.Sound journal free filled out) (hp : p.Phases) (t : Turn P) :
    ∃ p' free' filled' out', p.step journal t = some ((), p') ∧
      p'.Sound journal free' filled' out' ∧ p'.Phases ∧ p.Change t filled p' filled' := by
  cases t with
  | feed msg =>
      obtain ⟨phase, queue, hstep, h'⟩ := h.feedStep msg
      have hc : p.Change (.feed msg) filled { p with feed := phase, outputQueue := queue } filled :=
        Change.of_eq id rfl id
      exact ⟨_, free, filled, out, by simp only [EventPipeline.step, hstep, Option.map_some], h',
        hp.change hc rfl rfl, hc⟩
  | consumer =>
      obtain ⟨p', free', filled', hstep, h', hc, hstop, hrun⟩ := h.consumerStep
      exact ⟨p', free', filled', out, by simp only [EventPipeline.step, hstep, Option.map_some], h',
        hp.change hc hstop hrun, hc⟩
  | io =>
      obtain ⟨p', free', filled', out', hstep, h', hc, hstop, hrun⟩ := h.ioStep
      exact ⟨p', free', filled', out', by simp only [EventPipeline.step, hstep, Option.map_some], h',
        hp.change hc hstop hrun, hc⟩
  | stop =>
      obtain ⟨running, feedRunning, stop, hstop⟩ := p.stopStep_frame
      refine ⟨p.stopStep, free, filled, out, rfl, ?_, hp.stopStep, ?_⟩
      · rw [hstop]
        exact ⟨h.circulates, h.faithful, h.counted, h.queue, h.hot, h.io⟩
      · rw [hstop]
        exact Change.of_eq id rfl id

/-- The step pushes an event that the I/O thread, which has exited, will not pop. -/
def LatePush (p : EventPipeline P) (t : Turn P) : Prop := p.io = .exited ∧ p.Pushes t

/-- Nothing is left behind by the I/O thread. -/
def Tidy (journal : Bool) (p : EventPipeline P) : Prop :=
  ∃ free filled out, p.Sound journal free filled out ∧ p.Phases ∧ (p.io = .exited → filled = [])

/-- Something is. -/
def Lost (journal : Bool) (p : EventPipeline P) : Prop :=
  ∃ free filled out, p.Sound journal free filled out ∧ p.Phases ∧ p.io = .exited ∧ filled ≠ []

theorem Tidy.step (h : p.Tidy journal) {t : Turn P} (ht : ¬ p.LatePush t) :
    ∃ r p', p.step journal t = some (r, p') ∧ p'.Tidy journal := by
  obtain ⟨free, filled, out, hs, hp, hnil⟩ := h
  obtain ⟨p', free', filled', out', hstep, hs', hp', hc⟩ := hs.step hp t
  refine ⟨(), p', hstep, free', filled', out', hs', hp', fun he => ?_⟩
  by_cases hx : p.io = .exited
  · rw [hc.quiet hx fun hpush => ht ⟨hx, hpush⟩]
    exact hnil hx
  · exact (hc.exits he).resolve_left hx

/-- A late push stays in the ring. -/
theorem Tidy.late (h : p.Tidy journal) {t : Turn P} (ht : p.LatePush t) :
    ∃ r p', p.step journal t = some (r, p') ∧ p'.Lost journal := by
  obtain ⟨free, filled, out, hs, hp, -⟩ := h
  obtain ⟨p', free', filled', out', hstep, hs', hp', hc⟩ := hs.step hp t
  exact ⟨(), p', hstep, free', filled', out', hs', hp', hc.io ht.1, hc.late ht.2⟩

theorem Lost.step (h : p.Lost journal) (t : Turn P) :
    ∃ r p', p.step journal t = some (r, p') ∧ p'.Lost journal := by
  obtain ⟨free, filled, out, hs, hp, hx, hne⟩ := h
  obtain ⟨p', free', filled', out', hstep, hs', hp', hc⟩ := hs.step hp t
  refine ⟨(), p', hstep, free', filled', out', hs', hp', hc.io hx, ?_⟩
  by_cases hpush : p.Pushes t
  · exact hc.late hpush
  · rw [hc.quiet hx hpush]
    exact hne

/-- **The pipeline after `start`.** -/
theorem start_eq (symbol : List UInt8) :
    ∃ (queue : RingBuffer (Tick P)) (s : Stages P), start symbol =
        some ⟨true, true, queue, .init symbol, s, .loop, .loop, .loop, .serving, []⟩ ∧
      queue.Holds 4096 [] ∧ s.Circulates circulating [] [] ∧ s.Fresh [] := by
  obtain ⟨queue, hinit, hqueue⟩ := @RingBuffer.init_holds (Tick P) 4096 12 (by decide) rfl (by decide)
  rw [show (2 : ℕ) ^ 12 = 4096 from rfl] at hqueue
  obtain ⟨s, hs, hc, hfresh⟩ := Stages.init_circulates ([] : List (IoWrite P))
  refine ⟨queue, s, ?_, hqueue, hc, hfresh⟩
  simp only [start, hinit, hs]
  rfl

theorem start_tidy (journal : Bool) (symbol : List UInt8) :
    ∃ p : EventPipeline P, start symbol = some p ∧ p.Tidy journal := by
  obtain ⟨queue, s, hstart, hqueue, hc, hfresh⟩ := start_eq (P := P) symbol
  refine ⟨_, hstart, circulating, [], [],
    ⟨hc, ⟨[], hfresh.faithful journal⟩, ?_, ⟨[], hqueue⟩, fun _ => ⟨hfresh.hot, hfresh.todo⟩,
      fun _ => hfresh.io⟩,
    ⟨fun _ => rfl, fun he => (by cases he), fun he => (by cases he)⟩, fun he => (by cases he)⟩
  show UInt64.ofNat 0 = _
  rw [hfresh.kept, hfresh.todo, hfresh.dropped]
  rfl

/-! ### What has been delivered -/

/-- Every event that the hot path pushed was passed to `process_io_event` once; these are the writes
that were not counted as dropped, in their order. -/
structure Delivered (journal : Bool) (p : EventPipeline P) : Prop where
  once : p.stages.passed.Perm p.stages.pushed
  kept : List.Forall₂ (fun w x => Carries w x.2) p.stages.kept p.stages.passed
  written : p.stages.kept.Sublist p.writes
  counted : UInt64.ofNat p.writes.length =
    UInt64.ofNat p.stages.kept.length + p.stages.ioEventsDropped
  actions : p.stages.actions = p.stages.passed.flatMap fun x => x.2.processIoEvent journal

theorem Tidy.delivered (h : p.Tidy journal) (hret : p.stop = .returned) : p.Delivered journal := by
  obtain ⟨free, filled, out, hs, hp, hnil⟩ := h
  have hio := hp.returned hret
  have hc := hp.joined (by rw [hret]; rfl)
  obtain ⟨hhot, htodo⟩ := hs.hot fun d he => by cases hc.symm.trans he
  have hidle := hs.io fun d he => by cases hio.symm.trans he
  obtain ⟨ws, hf⟩ := hs.faithful
  have hflow := hs.circulates.flow
  have hpushed := hf.pushed
  have hkept := hf.kept
  have horder := hf.order
  have hcount := hs.counted
  rw [hidle, hnil hio] at hflow
  rw [hhot, HotHand.pending, List.append_nil] at hkept
  rw [htodo, List.append_nil] at horder
  rw [htodo] at hcount
  have heq : p.stages.pushed = p.stages.passed := hflow.trans (List.append_nil _)
  rw [← hkept, heq] at hpushed
  refine ⟨by rw [heq], hpushed, horder, hcount.trans ?_, hf.actions⟩
  rw [List.length_nil]
  grind

omit [Price P] in
/-- What is in the filled ring has not been passed on. -/
theorem not_perm_of_filled {s : Stages P} (h : s.Circulates free filled out) (hne : filled ≠ []) :
    ¬ s.passed.Perm s.pushed := by
  intro hperm
  have hlen := hperm.length_eq
  rw [h.flow, List.length_append, List.length_map, List.length_append] at hlen
  have hpos := List.length_pos_of_ne_nil hne
  omega

theorem Lost.not_delivered (h : p.Lost journal) : ¬ p.Delivered journal := by
  obtain ⟨free, filled, out, hs, -, hio, hne⟩ := h
  exact fun hd => not_perm_of_filled hs.circulates hne hd.once

/-- **What is lost at shutdown.**  When `stop` has returned, every event pushed has been processed
once if and only if no event was pushed after the I/O thread had exited. -/
theorem stop_delivers_iff {symbol : List UInt8} {p p' : EventPipeline P} {ts : List (Turn P)}
    {rs : List Unit} (journal : Bool) (hstart : start symbol = some p)
    (hrun : Run.exec (step journal) p ts = some (rs, p')) (hret : p'.stop = .returned) :
    p'.Delivered journal ↔ Run.Along (step journal) (fun s t => ¬ s.LatePush t) p ts := by
  obtain ⟨p₀, hp₀, htidy⟩ := start_tidy (P := P) journal symbol
  obtain rfl : p₀ = p := Option.some.inj (hp₀.symm.trans hstart)
  constructor
  · intro hd
    by_contra hlate
    obtain ⟨rs₁, p₁, hrun₁, hlost⟩ := Run.exec_of_not_along (I := Tidy journal) (J := Lost journal)
      (fun s t hs ht => hs.step ht) (fun s t hs ht => hs.late (not_not.mp ht))
      (fun s t hs => hs.step t) htidy hlate
    obtain ⟨-, rfl⟩ := Prod.mk.inj (Option.some.inj (hrun₁.symm.trans hrun))
    exact hlost.not_delivered hd
  · intro hall
    obtain ⟨rs₁, p₁, hrun₁, htidy'⟩ := Run.exec_of_step (I := Tidy journal)
      (fun s t hs ht => hs.step ht) htidy hall
    obtain ⟨-, rfl⟩ := Prod.mk.inj (Option.some.inj (hrun₁.symm.trans hrun))
    exact htidy'.delivered hret

/-! ### Two ways to stop -/

section Runs

variable {e : Entry} {w : IoWrite P} {ws : List (IoWrite P)} {d : Bool}

/-- One write, from the free ring to the filled one. -/
theorem exec_handOver (journal : Bool) (hc : p.consumer = .busy d)
    (h : p.stages.Circulates (e :: free) filled out) (hh : p.stages.hot = .idle) (ht : p.stages.todo = w :: ws) :
    ∃ rs s', Run.exec (step journal) p [.consumer, .consumer, .consumer] =
        some (rs, { p with stages := s' }) ∧
      s'.Circulates free (filled ++ [e]) out ∧ s'.hot = .idle ∧ s'.todo = ws ∧
      s'.io = p.stages.io ∧ s'.ioEventsDropped = p.stages.ioEventsDropped := by
  obtain ⟨rb₁, h₁, c₁⟩ := h.take hh ht
  obtain ⟨rb₃, h₃, c₃⟩ := (c₁.fill rfl).push rfl
  have e₁ := consumerStep_busy hc (fun hd => by rw [ht] at hd; cases hd.2) h₁
  have e₂ := consumerStep_busy (p := { p with stages := p.stages.taking rb₁ e w ws }) hc
    (fun hd => by cases hd.1) rfl
  have e₃ := consumerStep_busy
    (p := { p with stages := (p.stages.taking rb₁ e w ws).filling e w }) hc
    (fun hd => by cases hd.1) h₃
  exact ⟨_, _, Run.exec_cons (congrArg _ e₁) (Run.exec_cons (congrArg _ e₂)
    (Run.exec_cons (congrArg _ e₃) rfl)), c₃, rfl, rfl, rfl, rfl⟩

/-- All the writes of a call, as long as entries are free. -/
theorem exec_handOvers (journal : Bool) (es : List Entry) :
    ∀ {p : EventPipeline P} {filled : List Entry}, p.consumer = .busy d →
      p.stages.Circulates (es ++ free) filled out → p.stages.hot = .idle →
      p.stages.todo.length = es.length →
      ∃ rs s', Run.exec (step journal) p (List.replicate (3 * es.length) .consumer) =
          some (rs, { p with stages := s' }) ∧
        s'.Circulates free (filled ++ es) out ∧ s'.hot = .idle ∧ s'.todo = [] ∧
        s'.io = p.stages.io ∧ s'.ioEventsDropped = p.stages.ioEventsDropped := by
  induction es with
  | nil =>
      intro p filled hc h hh ht
      refine ⟨[], p.stages, rfl, ?_, hh, List.length_eq_zero_iff.mp ht, rfl, rfl⟩
      rw [List.append_nil]
      exact h
  | cons e es ih =>
      intro p filled hc h hh ht
      obtain ⟨w, ws, hcons⟩ := List.exists_cons_of_length_eq_add_one ht
      obtain ⟨rs₁, s₁, h₁, c₁, hh₁, ht₁, hio₁, hdrop₁⟩ := exec_handOver journal hc h hh hcons
      rw [hcons, List.length_cons, List.length_cons, Nat.add_right_cancel_iff, ← ht₁] at ht
      obtain ⟨rs₂, s₂, h₂, c₂, hh₂, ht₂, hio₂, hdrop₂⟩ := ih (p := { p with stages := s₁ }) hc c₁ hh₁ ht
      refine ⟨rs₁ ++ rs₂, s₂, ?_, ?_, hh₂, ht₂, hio₂.trans hio₁, hdrop₂.trans hdrop₁⟩
      · rw [List.length_cons, Nat.mul_succ, Nat.add_comm, List.replicate_add]
        exact Run.exec_append h₁ h₂
      · rw [List.append_assoc] at c₂
        exact c₂

/-- The consumer thread leaves its loop, and drains a message. -/
theorem exec_consumerDrain (journal : Bool) {es : List Entry} {t : Tick P}
    (hr : p.running = false) (hc : p.consumer = .loop) (hq : p.outputQueue.Holds 4096 [t])
    (h : p.stages.Circulates (es ++ free) filled out) (hh : p.stages.hot = .idle)
    (hw : (p.hotPath.processMarketData t).1.length = es.length) :
    ∃ rs queue s', Run.exec (step journal) p (List.replicate (3 * es.length + 4) .consumer) =
        some (rs, { p with
          outputQueue := queue
          hotPath := (p.hotPath.processMarketData t).2
          stages := s'
          consumer := .exited
          writes := p.writes ++ (p.hotPath.processMarketData t).1 }) ∧
      s'.Circulates free (filled ++ es) out ∧ s'.io = p.stages.io ∧
      s'.ioEventsDropped = p.stages.ioEventsDropped := by
  obtain ⟨queue, hpop, hqueue⟩ := hq.pop_cons
  set loaded := EventPipeline.processing { p with consumer := .drain } true queue t with hloaded
  have h₁ : p.step journal .consumer = some ((), { p with consumer := .drain }) := by
    simp [step, consumerStep, hc, hr]
  have h₂ : EventPipeline.step journal { p with consumer := .drain } .consumer =
      some ((), loaded) := by
    simp only [step, consumerStep, consumerPop, hpop]
    rfl
  have c₂ : loaded.stages.Circulates (es ++ free) filled out :=
    ⟨h.holdsFree, h.holdsFilled, h.perm, h.flow⟩
  obtain ⟨rs₃, s₃, h₃, c₃, hh₃, ht₃, hio₃, hdrop₃⟩ := exec_handOvers journal es (p := loaded)
    (d := true) rfl c₂ hh hw
  have h₄ : EventPipeline.step journal { loaded with stages := s₃ } .consumer =
      some ((), { loaded with stages := s₃, consumer := .drain }) := by
    have hbusy : loaded.consumer = .busy true := rfl
    simp only [step, consumerStep, hbusy, hh₃, ht₃]
    rfl
  have h₅ : EventPipeline.step journal { loaded with stages := s₃, consumer := .drain } .consumer =
      some ((), { loaded with stages := s₃, consumer := .exited }) := by
    have hempty : loaded.outputQueue.pop = some (none, loaded.outputQueue) := hqueue.pop_nil
    simp only [step, consumerStep, consumerPop, hempty]
    rfl
  have hsplit : (List.replicate (3 * es.length + 4) .consumer : List (Turn P)) =
      [Turn.consumer, Turn.consumer] ++ (List.replicate (3 * es.length) Turn.consumer ++
        [Turn.consumer, Turn.consumer]) := by
    rw [show 3 * es.length + 4 = 2 + (3 * es.length + 2) by omega, List.replicate_add,
      List.replicate_add]
    rfl
  have henter : Run.exec (step journal) p [.consumer, .consumer] = some ([(), ()], loaded) :=
    Run.exec_cons h₁ (Run.exec_cons h₂ rfl)
  have hleave : Run.exec (step journal) { loaded with stages := s₃ } [.consumer, .consumer] =
      some ([(), ()], { loaded with stages := s₃, consumer := .exited }) :=
    Run.exec_cons h₄ (Run.exec_cons h₅ rfl)
  refine ⟨[(), ()] ++ (rs₃ ++ [(), ()]), queue, s₃, ?_, c₃, hio₃, hdrop₃⟩
  rw [hsplit]
  exact Run.exec_append henter (Run.exec_append h₃ hleave)

/-- The I/O thread drains an event. -/
theorem exec_ioDrain (journal : Bool) (hi : p.io = .drain) (hidle : p.stages.io = .idle)
    (h : p.stages.Circulates free (e :: filled) out) :
    ∃ rs s', Run.exec (step journal) p [.io, .io, .io, .io] =
        some (rs, { p with stages := s', io := .drain }) ∧
      s'.Circulates free filled (e :: out) ∧ s'.io = .idle ∧
      s'.ioEventsDropped = p.stages.ioEventsDropped := by
  rcases h.ioPop hidle with ⟨hnil, -⟩ | ⟨e', filled', rb, hcons, hpop, c₁⟩
  · cases hnil
  obtain ⟨rfl, rfl⟩ := List.cons.inj hcons
  have c₂ := retiring_circulates (c₁.ioProcess journal rfl) rfl
  have h₁ : p.step journal .io =
      some ((), { p with stages := p.stages.popping rb e, io := .busy true }) := by
    simp only [step, ioStep, ioPop, hi, hpop]
    rfl
  exact ⟨_, _, Run.exec_cons h₁ (Run.exec_cons rfl (Run.exec_cons rfl (Run.exec_cons rfl rfl))), c₂,
    rfl, rfl⟩

/-- The I/O thread drains the ring. -/
theorem exec_ioDrains (journal : Bool) (es : List Entry) :
    ∀ {p : EventPipeline P} {out : List Entry}, p.io = .drain → p.stages.io = .idle →
      p.stages.Circulates free es out →
      ∃ rs s' out', Run.exec (step journal) p (List.replicate (4 * es.length) .io) =
          some (rs, { p with stages := s', io := .drain }) ∧
        s'.Circulates free [] out' ∧ s'.io = .idle ∧
        s'.ioEventsDropped = p.stages.ioEventsDropped := by
  induction es with
  | nil =>
      intro p out hi hidle h
      refine ⟨[], p.stages, out, ?_, h, hidle, rfl⟩
      rw [← hi]
      rfl
  | cons e es ih =>
      intro p out hi hidle h
      obtain ⟨rs₁, s₁, h₁, c₁, hidle₁, hdrop₁⟩ := exec_ioDrain journal hi hidle h
      obtain ⟨rs₂, s₂, out', h₂, c₂, hidle₂, hdrop₂⟩ := ih
        (p := { p with stages := s₁, io := .drain }) rfl hidle₁ c₁
      refine ⟨rs₁ ++ rs₂, s₂, out', ?_, c₂, hidle₂, hdrop₂.trans hdrop₁⟩
      rw [List.length_cons, Nat.mul_succ, Nat.add_comm, List.replicate_add]
      exact Run.exec_append h₁ h₂

end Runs

theorem calmTick_length :
    ((HotPath.init (text "AAPL")).processMarketData calmTick).1.length = 2 := by decide +kernel

/-- The joins of `stop`, the feed leaving in between. -/
def joins : List (Turn ℚ) := [.stop, .stop, .feed none, .stop, .stop]

/-- A message arrives and `stop` is called.  The I/O thread drains an empty ring and leaves; then the
consumer drains the message. -/
def lateRun : List (Turn ℚ) :=
  [Turn.feed none, .feed (some calmTick), .stop] ++ ([Turn.io, .io] ++
    (List.replicate 10 Turn.consumer ++ joins))

/-- The same, but the consumer goes first. -/
def orderlyRun : List (Turn ℚ) :=
  [Turn.feed none, .feed (some calmTick), .stop] ++ (List.replicate 10 Turn.consumer ++
    ([Turn.io] ++ ([Turn.io, .io, .io, .io] ++ ([Turn.io, .io, .io, .io] ++ ([Turn.io] ++ joins)))))

theorem exists_circulating {n : ℕ} (hn : n ≤ 4095) :
    ∃ es rest, circulating = es ++ rest ∧ es.length = n := by
  refine ⟨circulating.take n, circulating.drop n, (List.take_append_drop n _).symm, ?_⟩
  rw [List.length_take, circulating_length]
  exact min_eq_left hn

/-- The pipeline when `stop` has cleared the flag with a message in the feed queue. -/
theorem exec_stopping (journal : Bool) (t : Tick ℚ) : ∃ (p : EventPipeline ℚ) (rs : List Unit)
    (queue : RingBuffer (Tick ℚ)) (s : Stages ℚ), start (text "AAPL") = some p ∧
    Run.exec (step journal) p [.feed none, .feed (some t), .stop] = some (rs,
      ⟨false, true, queue, .init (text "AAPL"), s, .loop, .loop, .loop, .joinConsumer, []⟩) ∧
    queue.Holds 4096 [t] ∧ s.Circulates circulating [] [] ∧ s.Fresh [] := by
  obtain ⟨queue, s, hstart, hqueue, hc, hfresh⟩ := start_eq (P := ℚ) (text "AAPL")
  obtain ⟨queue', hpush, hqueue'⟩ := hqueue.push (by decide) t
  have h₂ : EventPipeline.step journal
      ⟨true, true, queue, .init (text "AAPL"), s, .receiving, .loop, .loop, .serving, []⟩
      (.feed (some t)) =
      some ((), ⟨true, true, queue', .init (text "AAPL"), s, .loop, .loop, .loop, .serving, []⟩) := by
    simp only [step, feedStep, hpush]
    rfl
  exact ⟨_, _, queue', s, hstart, Run.exec_cons rfl (Run.exec_cons h₂ (Run.exec_cons rfl rfl)),
    hqueue', hc, hfresh⟩

/-- A message arrives and `stop` is called; the consumer drains the message, and then the I/O thread
the `n` events. -/
def drainRun (t : Tick ℚ) (n : ℕ) : List (Turn ℚ) :=
  [Turn.feed none, .feed (some t), .stop] ++ (List.replicate (3 * n + 4) Turn.consumer ++
    ([Turn.io] ++ List.replicate (4 * n) Turn.io))

theorem exec_drainRun (journal : Bool) (t : Tick ℚ) {n : ℕ} (hn : n ≤ 4095)
    (hw : ((HotPath.init (text "AAPL")).processMarketData t).1.length = n) :
    ∃ (p : EventPipeline ℚ) (rs : List Unit) (queue : RingBuffer (Tick ℚ)) (s : Stages ℚ)
      (free out : List Entry), start (text "AAPL") = some p ∧
      Run.exec (step journal) p (drainRun t n) = some (rs,
        ⟨false, true, queue, ((HotPath.init (text "AAPL")).processMarketData t).2, s, .loop, .exited,
          .drain, .joinConsumer, ((HotPath.init (text "AAPL")).processMarketData t).1⟩) ∧
      s.Circulates free [] out ∧ s.io = .idle ∧ s.ioEventsDropped = 0 := by
  obtain ⟨p, rs₁, queue, s, hstart, h₁, hqueue, hc, hfresh⟩ := exec_stopping journal t
  obtain ⟨es, rest, hrest, hes⟩ := exists_circulating hn
  rw [hrest] at hc
  generalize (HotPath.init (text "AAPL") : HotPath ℚ) = hot at h₁ hw ⊢
  obtain ⟨rs₂, queue', s₂, h₂, c₂, hio₂, hdrop₂⟩ := exec_consumerDrain journal
    (p := ⟨false, true, queue, hot, s, .loop, .loop, .loop, .joinConsumer, []⟩)
    rfl rfl hqueue hc hfresh.hot (hw.trans hes.symm)
  have hleave : Run.exec (step journal)
      ⟨false, true, queue', (hot.processMarketData t).2, s₂, .loop, .exited, .loop,
        .joinConsumer, (hot.processMarketData t).1⟩ [.io] =
      some ([()], ⟨false, true, queue', (hot.processMarketData t).2, s₂, .loop, .exited, .drain,
        .joinConsumer, (hot.processMarketData t).1⟩) := rfl
  obtain ⟨rs₃, s₃, out, h₃, c₃, hidle₃, hdrop₃⟩ := exec_ioDrains journal es
    (p := ⟨false, true, queue', (hot.processMarketData t).2, s₂, .loop, .exited, .drain,
      .joinConsumer, (hot.processMarketData t).1⟩) rfl (hio₂.trans hfresh.io) c₂
  rw [hes] at h₂ h₃
  exact ⟨p, _, queue', s₃, rest, out, hstart,
    Run.exec_append h₁ (Run.exec_append h₂ (Run.exec_append hleave h₃)), c₃, hidle₃,
    hdrop₃.trans (hdrop₂.trans hfresh.dropped)⟩

/-- The joins, when both threads have left. -/
theorem exec_joins (journal : Bool) {p : EventPipeline ℚ} (hf : p.feed = .loop)
    (hc : p.consumer = .exited) (hi : p.io = .exited) (hs : p.stop = .joinConsumer) :
    Run.exec (step journal) p joins = some ([(), (), (), (), ()],
      { p with feedRunning := false, feed := .exited, stop := .returned }) := by
  simp [joins, Run.exec, step, stopStep, feedStep, hf, hc, hi, hs]

/-- **Events are lost at shutdown.** -/
theorem stop_loses : ∃ (p p' : EventPipeline ℚ) (rs : List Unit), start (text "AAPL") = some p ∧
    Run.exec (step true) p lateRun = some (rs, p') ∧ p'.stop = .returned ∧
    ¬ p'.stages.passed.Perm p'.stages.pushed := by
  obtain ⟨p, rs₁, queue, s, hstart, h₁, hqueue, hc, hfresh⟩ := exec_stopping true calmTick
  have hw := calmTick_length
  obtain ⟨es, rest, hrest, hes⟩ := exists_circulating (n := 2) (by decide)
  rw [hrest] at hc
  generalize (HotPath.init (text "AAPL") : HotPath ℚ) = hot at h₁ hw
  rcases hc.ioPop hfresh.io with ⟨-, hpop⟩ | ⟨_, _, _, hnil, -⟩
  · have h₂ : Run.exec (step true)
        ⟨false, true, queue, hot, s, .loop, .loop, .loop, .joinConsumer, []⟩ [.io, .io] =
        some ([(), ()], ⟨false, true, queue, hot, s, .loop, .loop, .exited, .joinConsumer, []⟩) := by
      simp [Run.exec, step, ioStep, ioPop, hpop]
    obtain ⟨rs₃, queue', s', h₃, hc', -, -⟩ := exec_consumerDrain true
      (p := ⟨false, true, queue, hot, s, .loop, .loop, .exited, .joinConsumer, []⟩)
      rfl rfl hqueue hc hfresh.hot (hw.trans hes.symm)
    rw [hes] at h₃
    have h₄ := exec_joins true
      (p := ⟨false, true, queue', (hot.processMarketData calmTick).2, s', .loop, .exited, .exited,
        .joinConsumer, (hot.processMarketData calmTick).1⟩) rfl rfl rfl rfl
    have hne : ([] : List Entry) ++ es ≠ [] := List.ne_nil_of_length_eq_add_one hes
    exact ⟨p, _, _, hstart, Run.exec_append h₁ (Run.exec_append h₂ (Run.exec_append h₃ h₄)), rfl,
      not_perm_of_filled hc' hne⟩
  · cases hnil

/-- The orderly run returns, and the two events are passed on. -/
theorem stop_delivers_iff_orderlyRun : ∃ (p p' : EventPipeline ℚ) (rs : List Unit),
    start (text "AAPL") = some p ∧ Run.exec (step true) p orderlyRun = some (rs, p') ∧
    p'.stop = .returned ∧
    (p'.Delivered true ↔ Run.Along (step true) (fun s t => ¬ s.LatePush t) p orderlyRun) := by
  obtain ⟨p, rs₁, queue, s, free, out, hstart, h₁, hc, hidle, -⟩ :=
    exec_drainRun true calmTick (by decide) calmTick_length
  generalize ((HotPath.init (text "AAPL")).processMarketData calmTick).1 = ws at h₁
  generalize ((HotPath.init (text "AAPL")).processMarketData calmTick).2 = hot at h₁
  rcases hc.ioPop hidle with ⟨-, hpop⟩ | ⟨_, _, _, hnil, -⟩
  · have h₂ : Run.exec (step true)
        ⟨false, true, queue, hot, s, .loop, .exited, .drain, .joinConsumer, ws⟩ [.io] =
        some ([()], ⟨false, true, queue, hot, s, .loop, .exited, .exited, .joinConsumer, ws⟩) := by
      simp [Run.exec, step, ioStep, ioPop, hpop]
    have h₃ := exec_joins true
      (p := ⟨false, true, queue, hot, s, .loop, .exited, .exited, .joinConsumer, ws⟩) rfl rfl rfl rfl
    have hsplit : orderlyRun = drainRun calmTick 2 ++ ([Turn.io] ++ joins) := rfl
    have hrun := Run.exec_append h₁ (Run.exec_append h₂ h₃)
    rw [← hsplit] at hrun
    exact ⟨p, _, _, hstart, hrun, rfl, stop_delivers_iff true hstart hrun rfl⟩
  · cases hnil

end EventPipeline

end Aspira
