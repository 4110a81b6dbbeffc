import Aspira.Pipeline.Sequential
import Aspira.Support.Rounds

/-!
# Pipeline — progress

Whether `stop` returns.  It joins the consumer thread before it stops the feed, and the consumer
thread leaves when it finds its queue empty once.  So it depends on the feed:

* `stop_returns`: if nothing is pushed to the feed queue until the consumer thread has exited, `stop`
  returns after a number of rounds that does not depend on what the pipeline has done before.
* `stop_starves`: a feed that pushes a message in every round keeps `stop` waiting for ever, whatever
  the other threads do in between.

The first is a measure (`left`): each step of a thread that `stop` waits for makes it less.  A write
of the hot path is worth its three steps in the consumer thread and its four in the I/O thread, and a
message the four writes that it makes at most.
-/

namespace Aspira

variable {P : Type}

/-! ### What is left to do -/

/-- The steps of the consumer thread after `running_` was cleared, less those for what it has in its
hands and what is in the queue. -/
def ConsumerPhase.left : ConsumerPhase → ℕ
  | .pop | .busy false => 3
  | .loop | .busy true => 2
  | .drain => 1
  | .exited => 0

/-- The steps of the I/O thread, less those for events. -/
def IoPhase.left : IoPhase → ℕ
  | .pop | .busy false => 3
  | .loop | .busy true => 2
  | .drain => 1
  | .exited => 0

/-- The steps for the write in the hands of the hot path. -/
def HotHand.left : HotHand P → ℕ
  | .idle => 0
  | .taken _ _ => 7
  | .written _ _ => 6

/-- The steps for the event in the hands of the I/O thread. -/
def IoHand.left : IoHand → ℕ
  | .idle => 0
  | .popped _ => 2
  | .processed _ => 1

/-- The steps of the feed after it was stopped. -/
def FeedPhase.left : FeedPhase → ℕ
  | .receiving => 2
  | .loop => 1
  | .exited => 0

/-- The steps of `stop`. -/
def StopPhase.left : StopPhase → ℕ
  | .serving => 5
  | .joinConsumer => 4
  | .stopFeed => 3
  | .joinFeed => 2
  | .joinIo => 1
  | .returned => 0

/-- The feed has not been stopped. -/
def StopPhase.feeding : StopPhase → Bool
  | .serving | .joinConsumer | .stopFeed => true
  | .joinFeed | .joinIo | .returned => false

/-- The steps for the writes of the hot path and for the events. -/
def Stages.left (s : Stages P) : ℕ :=
  8 * s.todo.length + s.hot.left + 4 * s.filled.count.toNat + s.io.left

namespace EventPipeline

variable [Price P] {journal : Bool} {p p' : EventPipeline P} {free filled out : List Entry}
  {symbol : List UInt8}

/-- The steps for the messages; none once the consumer thread has exited. -/
def messagesLeft (p : EventPipeline P) : ℕ :=
  if p.consumer = .exited then 0 else 34 * p.outputQueue.count.toNat

/-- The steps that the threads have left, at most, until `stop` returns. -/
def left (p : EventPipeline P) : ℕ :=
  p.consumer.left + p.messagesLeft + p.stages.left + p.io.left +
    (if p.feedRunning then 2 else p.feed.left) + p.stop.left

/-- **A message makes four writes at most**: two orders, and a trade for each. -/
theorem Called.writes_le (h : p.Called symbol) (t : Tick P) :
    (p.hotPath.processMarketData t).1.length ≤ 4 := by
  obtain ⟨ts, hts⟩ := h
  have hlots := (lots_run ts (HotPath.lots_init (P := P) symbol)).1
  rw [hts] at hlots
  have htrades := (lots_run [t] hlots).2
  have hrun : (p.hotPath.run [t]).1 = (p.hotPath.processMarketData t).1 := List.append_nil _
  rw [hrun] at htrades
  have horders : (p.hotPath.processMarketData t).1.countP IoWrite.isResult +
      (p.hotPath.processMarketData t).1.countP IoWrite.isRejected = 2 := by
    set s := p.hotPath.countMsg.strategyOnMarketData t.msg
    have h₁ := (HotPath.processOrder_messages t.buy s.2.2 s.1).2
    have h₂ := (HotPath.processOrder_messages t.sell (s.2.2.processOrder t.buy s.1).2 s.2.1).2
    have hwrites : (p.hotPath.processMarketData t).1 = (s.2.2.processOrder t.buy s.1).1 ++
        ((s.2.2.processOrder t.buy s.1).2.processOrder t.sell s.2.1).1 := rfl
    rw [hwrites, List.countP_append, List.countP_append]
    omega
  have hkinds := IoWrite.countP_kinds (p.hotPath.processMarketData t).1
  omega

/-! ### The consumer thread -/

omit [Price P] in
/-- A step of the hot path with a write. -/
theorem hotMove_left {s s' : Stages P} {r : Option Bool} (hm : Stages.HotMove s r s')
    (hc : s.Circulates free filled out) {free' : List Entry}
    (hc' : s'.Circulates free' (filled ++ s.hot.handed) out)
    (hmore : ¬ (s.hot = .idle ∧ s.todo = [])) : s'.left < s.left := by
  have hcount := hc.holdsFilled.spans.count
  have hcount' := hc'.holdsFilled.spans.count
  unfold Stages.left
  rw [hcount, hcount', List.length_append]
  cases hm with
  | rest hh ht => exact absurd ⟨hh, ht⟩ hmore
  | drop hh ht =>
      simp only [Stages.dropping, hh, ht, HotHand.left, HotHand.handed, List.length_cons,
        List.length_nil]
      omega
  | take hh ht =>
      simp only [Stages.taking, hh, ht, HotHand.left, HotHand.handed, List.length_cons,
        List.length_nil]
      omega
  | fill hh =>
      simp only [Stages.filling, hh, HotHand.left, HotHand.handed, List.length_nil]
      omega
  | push hh =>
      simp only [Stages.pushing, hh, HotHand.left, HotHand.handed, List.length_cons,
        List.length_nil]
      omega

/-- A pop of the consumer thread. -/
theorem Sound.consumerPop_left (h : p.Sound journal free filled out) (hcalled : p.Called symbol)
    (draining : Bool) (hc : p.consumer = if draining then .drain else .pop)
    (hstep : p.consumerPop draining = some p') : p'.left < p.left := by
  have hidle := h.hot fun d he => by
    rw [hc] at he
    cases draining <;> cases he
  have hne : p.consumer ≠ .exited := by
    rw [hc]
    cases draining <;> exact fun he => by cases he
  have hleft : p.consumer.left = if draining then 1 else 3 := by
    rw [hc]
    cases draining <;> rfl
  obtain ⟨q, hq⟩ := h.queue
  cases q with
  | nil =>
      simp only [EventPipeline.consumerPop, hq.pop_nil, Option.bind_eq_bind, Option.bind_some] at hstep
      cases hstep
      have hcount := hq.spans.count
      simp only [left, messagesLeft, hleft, if_neg hne, hcount, List.length_nil]
      cases draining <;> simp [ConsumerPhase.left]
  | cons t q =>
      obtain ⟨rb, hpop, hrb⟩ := hq.pop_cons
      simp only [EventPipeline.consumerPop, hpop, Option.bind_eq_bind, Option.bind_some] at hstep
      cases hstep
      have hcount := hq.spans.count
      have hcount' := hrb.spans.count
      have hw := hcalled.writes_le t
      have hnew : (p.processing draining rb t).messagesLeft = 34 * q.length := by
        rw [messagesLeft, if_neg fun he => by cases he]
        exact congrArg _ hcount'
      have hstages : (p.processing draining rb t).stages.left =
          8 * (p.hotPath.processMarketData t).1.length + p.stages.left := by
        unfold Stages.left
        rw [hidle.2]
        show 8 * (p.hotPath.processMarketData t).1.length + p.stages.hot.left +
          4 * p.stages.filled.count.toNat + p.stages.io.left = _
        rw [List.length_nil]
        omega
      have hphase : (p.processing draining rb t).consumer.left = if draining then 2 else 3 := by
        cases draining <;> rfl
      have hold : p.messagesLeft = 34 * (q.length + 1) := by
        rw [messagesLeft, if_neg hne, hcount]
        rfl
      unfold left
      rw [hnew, hstages, hphase, hold, hleft]
      show _ + _ + _ + p.io.left + (if p.feedRunning then 2 else p.feed.left) + p.stop.left < _
      cases draining <;> simp <;> omega

/-- **A step of the consumer thread** after `running_` was cleared. -/
theorem Sound.consumer_left (h : p.Sound journal free filled out) (hcalled : p.Called symbol)
    (hrun : p.running = false) (hx : p.consumer ≠ .exited) (hstep : p.consumerStep = some p') :
    p'.left < p.left := by
  cases hc : p.consumer with
  | loop =>
      simp only [EventPipeline.consumerStep, hc, hrun, Option.some.injEq] at hstep
      rw [← hstep]
      simp [left, messagesLeft, hc, ConsumerPhase.left]
  | pop =>
      simp only [EventPipeline.consumerStep, hc] at hstep
      exact h.consumerPop_left hcalled false hc hstep
  | drain =>
      simp only [EventPipeline.consumerStep, hc] at hstep
      exact h.consumerPop_left hcalled true hc hstep
  | exited => exact absurd hc hx
  | busy d =>
      by_cases hdone : p.stages.hot = .idle ∧ p.stages.todo = []
      · simp only [EventPipeline.consumerStep, hc, hdone.1, hdone.2, Option.some.injEq] at hstep
        rw [← hstep]
        cases d <;> simp [left, messagesLeft, hc, ConsumerPhase.left]
      · obtain ⟨r, s', free', hhot, hm, hs⟩ := h.circulates.hotStep
        rw [consumerStep_busy hc hdone hhot, Option.some.injEq] at hstep
        have hlt := hotMove_left hm h.circulates hs hdone
        rw [← hstep]
        simp only [left, messagesLeft]
        omega

/-! ### The I/O thread -/

/-- A step of the I/O thread that makes less what is left for its events and its phase. -/
theorem left_lt_of_io {s' : Stages P} {i : IoPhase}
    (h : s'.left + i.left < p.stages.left + p.io.left) :
    left { p with stages := s', io := i } < p.left := by
  simp only [left, messagesLeft]
  omega

/-- A pop of the I/O thread; `draining`, it is the last loop. -/
theorem Sound.ioPop_left (h : p.Sound journal free filled out) (draining : Bool)
    (hi : p.io = if draining then .drain else .pop)
    (hstep : p.ioPop draining (if draining then .exited else .loop) = some p') :
    p'.left < p.left := by
  have hidle := h.io fun d he => by
    rw [hi] at he
    cases draining <;> cases he
  rcases h.circulates.ioPop hidle with ⟨-, hpop⟩ | ⟨e, filled', rb, hcons, hpop, hs⟩
  · simp only [EventPipeline.ioPop, hpop, Option.bind_eq_bind, Option.bind_some] at hstep
    cases hstep
    refine left_lt_of_io (Nat.add_lt_add_left ?_ _)
    rw [hi]
    cases draining <;> decide
  · simp only [EventPipeline.ioPop, hpop, Option.bind_eq_bind, Option.bind_some] at hstep
    cases hstep
    have hcount := h.circulates.holdsFilled.spans.count
    have hcount' := hs.holdsFilled.spans.count
    refine left_lt_of_io ?_
    simp only [Stages.popping] at hcount'
    simp only [Stages.left, Stages.popping, hcount, hcount', hcons, hidle, hi, IoHand.left,
      List.length_cons]
    cases draining <;> simp [IoPhase.left] <;> omega

/-- **A step of the I/O thread** after `running_` was cleared. -/
theorem Sound.io_left (h : p.Sound journal free filled out) (hrun : p.running = false)
    (hx : p.io ≠ .exited) (hstep : p.ioStep journal = some p') : p'.left < p.left := by
  cases hi : p.io with
  | loop =>
      simp only [EventPipeline.ioStep, hi, hrun, Option.some.injEq] at hstep
      rw [← hstep]
      refine left_lt_of_io (Nat.add_lt_add_left ?_ _)
      rw [hi]
      decide
  | pop =>
      simp only [EventPipeline.ioStep, hi] at hstep
      exact h.ioPop_left false hi hstep
  | drain =>
      simp only [EventPipeline.ioStep, hi] at hstep
      exact h.ioPop_left true hi hstep
  | exited => exact absurd hi hx
  | busy d =>
      cases hio : p.stages.io with
      | idle =>
          simp only [EventPipeline.ioStep, hi, hio, Option.some.injEq] at hstep
          rw [← hstep]
          refine left_lt_of_io (Nat.add_lt_add_left ?_ _)
          rw [hi]
          cases d <;> decide
      | popped e =>
          simp only [EventPipeline.ioStep, hi, hio, Option.some.injEq] at hstep
          rw [← hstep]
          refine left_lt_of_io ?_
          rw [hi]
          simp [Stages.left, Stages.ioProcess, hio, IoHand.left]
      | processed e =>
          cases d with
          | true =>
              simp only [EventPipeline.ioStep, hi, hio, if_true, Option.some.injEq] at hstep
              rw [← hstep]
              refine left_lt_of_io ?_
              rw [hi]
              simp [Stages.left, Stages.retiring, hio, IoHand.left]
          | false =>
              obtain ⟨rb, hret, -⟩ := h.circulates.ioReturn hio
              simp only [EventPipeline.ioStep, hi, hio, hret, Bool.false_eq_true, if_false,
                Option.bind_eq_bind, Option.bind_some] at hstep
              cases hstep
              refine left_lt_of_io ?_
              rw [hi]
              simp [Stages.left, Stages.returning, hio, IoHand.left]

/-! ### What `stop` waits for -/

/-- The feed queue is not pushed to while the consumer thread runs. -/
def Starved (p : EventPipeline P) (t : Turn P) : Prop :=
  p.consumer = .exited ∨ (p.passages t).filterMap Passage.fed = []

/-- `stop` waits for a step of this thread. -/
def Awaits (p : EventPipeline P) : Turn P → Prop
  | .consumer => p.consumer ≠ .exited
  | .feed _ => p.stop = .joinFeed ∧ p.feed ≠ .exited
  | .io => p.stop = .joinIo ∧ p.io ≠ .exited
  | .stop => p.consumer = .exited ∧ (p.stop = .joinConsumer ∨ p.stop = .stopFeed ∨
      p.stop = .joinFeed ∧ p.feed = .exited ∨ p.stop = .joinIo ∧ p.io = .exited)

/-- What every interleaving keeps. -/
structure Orderly (journal : Bool) (symbol : List UInt8) (p : EventPipeline P) : Prop where
  sound : ∃ free filled out, p.Sound journal free filled out
  phases : p.Phases
  called : p.Called symbol
  running : p.stop ≠ .serving → p.running = false
  feed : p.feedRunning = p.stop.feeding
  todo : p.stages.todo.length ≤ 4

/-- `stop` has been called. -/
structure Stopping (journal : Bool) (symbol : List UInt8) (p : EventPipeline P) : Prop extends
    Orderly journal symbol p where
  stop : p.stop ≠ .serving

/-- The step counts, or it is one that `stop` does not wait for and that changes nothing for it. -/
def Counts (p : EventPipeline P) (t : Turn P) (p' : EventPipeline P) : Prop :=
  p'.left < p.left ∨ p'.left = p.left ∧ ¬ p.Awaits t ∧ ∀ t', p.Awaits t' → p'.Awaits t'

theorem Counts.refl {t : Turn P} (h : ¬ p.Awaits t) : p.Counts t p := .inr ⟨rfl, h, fun _ => id⟩

/-- The feed gets on once it is stopped; until then `stop` does not wait for it. -/
theorem Stopping.counts_of_feed (h : p.Stopping journal symbol) (msg : Option (Tick P))
    {phase : FeedPhase} {queue : RingBuffer (Tick P)}
    (hm : p.consumer = .exited ∨ queue = p.outputQueue)
    (hdown : p.feedRunning = false → phase.left < p.feed.left) :
    p.Counts (.feed msg) { p with feed := phase, outputQueue := queue } := by
  have hmessages : messagesLeft { p with feed := phase, outputQueue := queue } = p.messagesLeft := by
    unfold messagesLeft
    rcases hm with hx | rfl
    · rw [if_pos hx, if_pos hx]
    · rfl
  have hleft : left { p with feed := phase, outputQueue := queue } =
      p.consumer.left + p.messagesLeft + p.stages.left + p.io.left +
        (if p.feedRunning then 2 else phase.left) + p.stop.left := by
    rw [left, hmessages]
  by_cases hr : p.feedRunning = true
  · have hstop : p.stop ≠ .joinFeed := fun he => by
      rw [h.feed, he] at hr
      cases hr
    refine .inr ⟨?_, fun ha => hstop ha.1, fun t' ha => ?_⟩
    · rw [hleft, left, if_pos hr, if_pos hr]
    · cases t' with
      | consumer => exact ha
      | feed msg' => exact absurd ha.1 hstop
      | io => exact ha
      | stop =>
          obtain ⟨hx, hc | hs | ⟨hj, -⟩ | hj⟩ := ha
          · exact ⟨hx, .inl hc⟩
          · exact ⟨hx, .inr (.inl hs)⟩
          · exact absurd hj hstop
          · exact ⟨hx, .inr (.inr (.inr hj))⟩
  · have hlt := hdown (Bool.not_eq_true _ ▸ hr)
    refine .inl ?_
    rw [hleft, left, if_neg hr, if_neg hr]
    omega

theorem Stopping.feed_counts (h : p.Stopping journal symbol) {msg : Option (Tick P)}
    (hC : p.Starved (.feed msg)) (hstep : p.feedStep msg = some p') :
    p.Counts (.feed msg) p' := by
  obtain ⟨free, filled, out, hs⟩ := h.sound
  obtain ⟨q, hq⟩ := hs.queue
  cases hf : p.feed with
  | loop =>
      simp only [EventPipeline.feedStep, hf, Option.some.injEq] at hstep
      rw [← hstep]
      refine h.counts_of_feed msg (.inr rfl) fun hr => ?_
      rw [hr, hf]
      decide
  | exited =>
      simp only [EventPipeline.feedStep, hf, Option.some.injEq] at hstep
      rw [← hstep]
      exact .refl fun ha => ha.2 hf
  | receiving =>
      have hdown : p.feedRunning = false → FeedPhase.loop.left < p.feed.left := fun _ => by
        rw [hf]
        decide
      cases msg with
      | none =>
          simp only [EventPipeline.feedStep, hf, Option.some.injEq] at hstep
          rw [← hstep]
          exact h.counts_of_feed none (.inr rfl) hdown
      | some t =>
          have hlt := hq.length_lt
          by_cases hfull : q.length + 1 = 4096
          · simp only [EventPipeline.feedStep, hf, hq.push_full hfull, Option.bind_eq_bind,
              Option.bind_some] at hstep
            cases hstep
            exact h.counts_of_feed (some t) (.inr rfl) hdown
          · -- the message is pushed, so the consumer thread has exited
            obtain ⟨rb, hpush, -⟩ := hq.push (lt_of_le_of_ne hlt hfull) t
            simp only [EventPipeline.feedStep, hf, hpush, Option.bind_eq_bind,
              Option.bind_some] at hstep
            cases hstep
            refine h.counts_of_feed (some t) (.inl (hC.resolve_right ?_)) hdown
            simp [passages, hf, hpush, Passage.fed]

theorem Stopping.stop_counts (h : p.Stopping journal symbol) : p.Counts .stop p.stopStep := by
  cases hs : p.stop with
  | serving => exact absurd hs h.stop
  | joinConsumer =>
      simp only [EventPipeline.stopStep, hs]
      split
      · refine .inl ?_
        simp [left, messagesLeft, hs, StopPhase.left]
      · rename_i hx
        exact .refl fun ha => hx ha.1
  | stopFeed =>
      simp only [EventPipeline.stopStep, hs]
      refine .inl ?_
      have hfeed : p.feed.left ≤ 2 := by
        cases p.feed <;> decide
      have hle : p.feed.left ≤ if p.feedRunning then 2 else p.feed.left := by
        split
        · exact hfeed
        · exact le_rfl
      simp only [left, messagesLeft, hs, StopPhase.left, Bool.false_eq_true, if_false]
      omega
  | joinFeed =>
      simp only [EventPipeline.stopStep, hs]
      split
      · refine .inl ?_
        simp [left, messagesLeft, hs, StopPhase.left]
      · rename_i hx
        refine .refl fun ha => ?_
        simp [Awaits, hs, hx] at ha
  | joinIo =>
      simp only [EventPipeline.stopStep, hs]
      split
      · refine .inl ?_
        simp [left, messagesLeft, hs, StopPhase.left]
      · rename_i hx
        refine .refl fun ha => ?_
        simp [Awaits, hs, hx] at ha
  | returned =>
      simp only [EventPipeline.stopStep, hs]
      refine .refl fun ha => ?_
      simp [Awaits, hs] at ha

/-- **A step of any thread counts**, or `stop` does not wait for it. -/
theorem Stopping.counts (h : p.Stopping journal symbol) {t : Turn P} (hC : p.Starved t) {r : Unit}
    (hstep : p.step journal t = some (r, p')) : p.Counts t p' := by
  obtain ⟨free, filled, out, hs⟩ := h.sound
  simp only [EventPipeline.step, Option.map_eq_some_iff, Prod.mk.injEq] at hstep
  obtain ⟨p₁, hstep, -, rfl⟩ := hstep
  cases t with
  | feed msg => exact h.feed_counts hC hstep
  | consumer =>
      by_cases hx : p.consumer = .exited
      · simp only [EventPipeline.consumerStep, hx, Option.some.injEq] at hstep
        rw [← hstep]
        exact .refl fun ha => ha hx
      · exact .inl (hs.consumer_left h.called (h.running h.stop) hx hstep)
  | io =>
      by_cases hx : p.io = .exited
      · simp only [EventPipeline.ioStep, hx, Option.some.injEq] at hstep
        rw [← hstep]
        exact .refl fun ha => ha.2 hx
      · exact .inl (hs.io_left (h.running h.stop) hx hstep)
  | stop =>
      rw [← Option.some.inj hstep]
      exact h.stop_counts

/-! ### Whole runs -/

/-- The hot path has the writes of one message to make. -/
theorem Sound.todo_le (h : p.Sound journal free filled out) (hcalled : p.Called symbol)
    (hle : p.stages.todo.length ≤ 4) (hstep : p.consumerStep = some p') :
    p'.stages.todo.length ≤ 4 := by
  have hpop : ∀ {draining : Bool}, p.consumerPop draining = some p' →
      p'.stages.todo.length ≤ 4 := by
    intro draining hstep
    simp only [EventPipeline.consumerPop, Option.bind_eq_bind, Option.bind_eq_some_iff] at hstep
    obtain ⟨r, -, hstep⟩ := hstep
    split at hstep
    · cases hstep
      exact hle
    · cases hstep
      exact hcalled.writes_le _
  unfold EventPipeline.consumerStep at hstep
  split at hstep
  · cases hstep
    exact hle
  · exact hpop hstep
  · split at hstep
    · cases hstep
      exact hle
    · obtain ⟨r, s', free', hhot, hm, -⟩ := h.circulates.hotStep
      simp only [hhot, Option.bind_eq_bind, Option.bind_some] at hstep
      cases hstep
      cases hm with
      | rest => exact hle
      | drop hh ht =>
          rw [ht] at hle
          exact (Nat.le_succ _).trans hle
      | take hh ht =>
          rw [ht] at hle
          exact (Nat.le_succ _).trans hle
      | fill => exact hle
      | push => exact hle
  · exact hpop hstep
  · cases hstep
    exact hle

/-- What a step does to the flags. -/
structure Flags (p p' : EventPipeline P) : Prop where
  running : p'.stop ≠ .serving → p'.running = false
  feed : p'.feedRunning = p'.stop.feeding
  todo : p'.stages.todo.length ≤ 4
  called : p.stop ≠ .serving → p'.stop ≠ .serving
  returned : p.stop = .returned → p'.stop = .returned

theorem Orderly.flags_of_eq (h : p.Orderly journal symbol) (hrun : p'.running = p.running)
    (hfeed : p'.feedRunning = p.feedRunning) (hstop : p'.stop = p.stop)
    (htodo : p'.stages.todo.length ≤ 4) : p.Flags p' where
  running hne := hrun.trans (h.running (hstop ▸ hne))
  feed := by rw [hfeed, hstop, h.feed]
  todo := htodo
  called hne := hstop ▸ hne
  returned he := hstop.trans he

/-- `stop` goes on to the next phase. -/
theorem Orderly.flags_of_stop (h : p.Orderly journal symbol) (hne : p.stop ≠ .serving)
    {phase : StopPhase} (hphase : phase ≠ .serving) (hfeed : phase.feeding = p.stop.feeding)
    (hret : p.stop ≠ .returned) : p.Flags { p with stop := phase } where
  running _ := h.running hne
  feed := h.feed.trans hfeed.symm
  todo := h.todo
  called _ := hphase
  returned he := absurd he hret

theorem Orderly.flags (h : p.Orderly journal symbol) {t : Turn P} {r : Unit}
    (hstep : p.step journal t = some (r, p')) : p.Flags p' := by
  obtain ⟨free, filled, out, hs⟩ := h.sound
  simp only [EventPipeline.step, Option.map_eq_some_iff, Prod.mk.injEq] at hstep
  obtain ⟨p₁, hstep, -, rfl⟩ := hstep
  cases t with
  | feed msg =>
      obtain ⟨phase, queue, hfeed, -⟩ := hs.feedStep msg
      obtain rfl := Option.some.inj (hfeed.symm.trans hstep)
      exact h.flags_of_eq rfl rfl rfl h.todo
  | consumer =>
      have htodo := hs.todo_le h.called h.todo hstep
      obtain ⟨_, _, _, _, _, rfl⟩ := consumerStep_frame hstep
      exact h.flags_of_eq rfl rfl rfl htodo
  | io =>
      obtain ⟨stages, io, rfl, htodo⟩ := ioStep_frame hstep
      exact h.flags_of_eq rfl rfl rfl (htodo ▸ h.todo)
  | stop =>
      obtain rfl := Option.some.inj hstep
      have hsame : p.Flags p := h.flags_of_eq rfl rfl rfl h.todo
      cases hstop : p.stop with
      | serving =>
          simp only [EventPipeline.stopStep, hstop, h.phases.serving hstop, if_true]
          exact ⟨fun _ => rfl, by rw [h.feed, hstop]; rfl, h.todo, fun _ he => (by cases he),
            fun he => by rw [hstop] at he; cases he⟩
      | joinConsumer =>
          simp only [EventPipeline.stopStep, hstop]
          split
          · exact h.flags_of_stop (by simp [hstop]) (by simp) (by rw [hstop]; rfl) (by simp [hstop])
          · exact hsame
      | stopFeed =>
          have hrun := h.running (by simp [hstop])
          simp only [EventPipeline.stopStep, hstop]
          exact ⟨fun _ => hrun, rfl, h.todo, fun _ he => (by cases he),
            fun he => by rw [hstop] at he; cases he⟩
      | joinFeed =>
          simp only [EventPipeline.stopStep, hstop]
          split
          · exact h.flags_of_stop (by simp [hstop]) (by simp) (by rw [hstop]; rfl) (by simp [hstop])
          · exact hsame
      | joinIo =>
          simp only [EventPipeline.stopStep, hstop]
          split
          · exact h.flags_of_stop (by simp [hstop]) (by simp) (by rw [hstop]; rfl) (by simp [hstop])
          · exact hsame
      | returned =>
          have hself : p.stopStep = p := by simp only [EventPipeline.stopStep, hstop]
          rw [hself]
          exact hsame

theorem Orderly.step (h : p.Orderly journal symbol) (t : Turn P) :
    ∃ p', p.step journal t = some ((), p') ∧ p'.Orderly journal symbol ∧ p.Flags p' := by
  obtain ⟨free, filled, out, hs⟩ := h.sound
  obtain ⟨p', free', filled', out', hstep, hs', hp', -⟩ := hs.step h.phases t
  have hflags := h.flags hstep
  exact ⟨p', hstep, ⟨⟨free', filled', out', hs'⟩, hp', h.called.step (step_calls hstep),
    hflags.running, hflags.feed, hflags.todo⟩, hflags⟩

theorem start_orderly (journal : Bool) (symbol : List UInt8) :
    ∃ p : EventPipeline P, start symbol = some p ∧ p.Orderly journal symbol := by
  obtain ⟨p, hstart, free, filled, out, hs, hp, -⟩ := start_tidy (P := P) journal symbol
  obtain ⟨queue, s, heq, -, -, hfresh⟩ := start_eq (P := P) symbol
  obtain rfl := Option.some.inj (hstart.symm.trans heq)
  refine ⟨_, hstart, ⟨free, filled, out, hs⟩, hp, ⟨[], rfl⟩, fun hne => absurd rfl hne,
    rfl, ?_⟩
  show s.todo.length ≤ 4
  rw [hfresh.todo]
  exact Nat.zero_le 4

theorem exec_orderly {ts : List (Turn P)} {rs : List Unit} (hstart : start symbol = some p)
    (hrun : Run.exec (EventPipeline.step journal) p ts = some (rs, p')) :
    p'.Orderly journal symbol := by
  obtain ⟨p₀, hstart₀, hp⟩ := start_orderly (P := P) journal symbol
  obtain rfl : p₀ = p := Option.some.inj (hstart₀.symm.trans hstart)
  refine Run.exec_invariant (I := Orderly journal symbol) (fun s t r s' _ hs hstep => ?_) hp hrun
  obtain ⟨s₁, hstep', hs', -⟩ := hs.step t
  obtain rfl : s₁ = s' := (Prod.mk.inj (Option.some.inj (hstep'.symm.trans hstep))).2
  exact hs'

/-! ### `stop` returns -/

/-- The most that can be left when `stop` is called. -/
def maxLeft : ℕ := 155663

theorem Stopping.left_le (h : p.Stopping journal symbol) : p.left ≤ maxLeft := by
  obtain ⟨free, filled, out, hs⟩ := h.sound
  obtain ⟨q, hq⟩ := hs.queue
  have hqueue := hq.length_lt
  have hlen := hs.circulates.length
  have htodo := h.todo
  have hconsumer : p.consumer.left ≤ 3 := by
    cases p.consumer with
    | busy d => cases d <;> decide
    | _ => decide
  have hio : p.io.left ≤ 3 := by
    cases p.io with
    | busy d => cases d <;> decide
    | _ => decide
  have hhot : p.stages.hot.left ≤ 7 := by
    cases p.stages.hot <;> simp [HotHand.left]
  have hhand : p.stages.io.left ≤ 2 := by
    cases p.stages.io <;> simp [IoHand.left]
  have hfeed : (if p.feedRunning then 2 else p.feed.left) ≤ 2 := by
    cases p.feed <;> split <;> simp [FeedPhase.left]
  have hstop : p.stop.left ≤ 4 := by
    cases hs : p.stop with
    | serving => exact absurd hs h.stop
    | _ => decide
  have hmessages : p.messagesLeft ≤ 34 * 4095 := by
    unfold messagesLeft
    rw [hq.spans.count]
    split <;> omega
  have hstages : p.stages.left ≤ 8 * 4 + 7 + 4 * 4095 + 2 := by
    unfold Stages.left
    rw [hs.circulates.holdsFilled.spans.count]
    omega
  unfold left maxLeft
  omega

/-- Every thread has a turn. -/
def Round (ts : List (Turn P)) : Prop :=
  Turn.consumer ∈ ts ∧ Turn.io ∈ ts ∧ Turn.stop ∈ ts ∧ ∃ msg, Turn.feed msg ∈ ts

/-- `stop` waits for some thread until it returns. -/
theorem Stopping.exists_awaited (h : p.Stopping journal symbol) (hne : p.stop ≠ .returned)
    {ts : List (Turn P)} (hts : Round ts) : ∃ t ∈ ts, p.Awaits t := by
  obtain ⟨hconsumer, hio, hstop, msg, hfeed⟩ := hts
  by_cases hx : p.consumer = .exited
  · cases hs : p.stop with
    | serving => exact absurd hs h.stop
    | joinConsumer => exact ⟨.stop, hstop, hx, .inl hs⟩
    | stopFeed => exact ⟨.stop, hstop, hx, .inr (.inl hs)⟩
    | joinFeed =>
        by_cases hf : p.feed = .exited
        · exact ⟨.stop, hstop, hx, .inr (.inr (.inl ⟨hs, hf⟩))⟩
        · exact ⟨.feed msg, hfeed, hs, hf⟩
    | joinIo =>
        by_cases hi : p.io = .exited
        · exact ⟨.stop, hstop, hx, .inr (.inr (.inr ⟨hs, hi⟩))⟩
        · exact ⟨.io, hio, hs, hi⟩
    | returned => exact absurd hs hne
  · exact ⟨.consumer, hconsumer, hx⟩

theorem stopping_advances (journal : Bool) (symbol : List UInt8) :
    Run.Advances (EventPipeline.step (P := P) journal) Starved Awaits
      (fun p n => p.Stopping journal symbol ∧ p.left = n) := by
  rintro p t n ⟨h, rfl⟩ hC
  obtain ⟨p', hstep, hp', hflags⟩ := h.toOrderly.step t
  exact ⟨(), p', p'.left, hstep, ⟨⟨hp', hflags.called h.stop⟩, rfl⟩, h.counts hC hstep⟩

/-- **`stop` returns.**  From the moment it is called, `maxLeft` rounds of the threads are enough,
whatever the pipeline has in its queues and whatever the order of the turns in a round, if nothing is
pushed to the feed queue before the consumer thread has exited. -/
theorem stop_returns {ts : List (Turn P)} {rs : List Unit} {rounds : List (List (Turn P))}
    (hstart : start symbol = some p)
    (hrun : Run.exec (EventPipeline.step journal) p ts = some (rs, p'))
    (hcalled : p'.stop ≠ .serving) (hrounds : ∀ ts ∈ rounds, Round ts)
    (hlen : maxLeft ≤ rounds.length)
    (hfeed : Run.Along (EventPipeline.step journal) Starved p' rounds.flatten) :
    ∃ rs' p'', Run.exec (EventPipeline.step journal) p' rounds.flatten = some (rs', p'') ∧
      p''.stop = .returned := by
  have hp' : p'.Stopping journal symbol := ⟨exec_orderly hstart hrun, hcalled⟩
  have hfair : ∀ (s : EventPipeline P) n, s.Stopping journal symbol ∧ s.left = n →
      ¬ s.stop = .returned → 0 < n ∧ ∀ ts, Round ts → ∃ t ∈ ts, s.Awaits t := by
    rintro s n ⟨hs, rfl⟩ hne
    refine ⟨?_, fun ts hts => hs.exists_awaited hne hts⟩
    have hpos : 0 < s.stop.left := by
      cases hstop : s.stop with
      | returned => exact absurd hstop hne
      | _ => decide
    unfold left
    omega
  obtain ⟨rs', p'', n, hexec, -, hret⟩ := Run.exec_rounds (stopping_advances journal symbol) hfair
    (fun s n t r s' hs hret hstep => (hs.1.toOrderly.flags hstep).returned hret) rounds ⟨hp', rfl⟩
    (hp'.left_le.trans hlen) hrounds hfeed
  exact ⟨rs', p'', hexec, hret⟩

/-- A feed that brings nothing. -/
theorem along_starved {ts : List (Turn P)} (hts : ∀ msg, Turn.feed (some msg) ∉ ts) :
    ∀ p : EventPipeline P, Run.Along (EventPipeline.step journal) Starved p ts := by
  induction ts with
  | nil => exact fun p => trivial
  | cons t ts ih =>
      intro p
      refine ⟨.inr (passages_of_quiet fun msg he => hts msg (he ▸ List.mem_cons_self ..)).1, ?_⟩
      cases p.step journal t with
      | none => trivial
      | some r => exact ih (fun msg hmem => hts msg (List.mem_cons_of_mem t hmem)) r.2

/-- A turn for each thread, the feed with nothing. -/
def evenRound : List (Turn ℚ) := [.consumer, .io, .stop, .feed none]

/-- `stop` called at once. -/
theorem stop_returns_evenRound : ∃ (p p' p'' : EventPipeline ℚ) (rs rs' : List Unit),
    start (text "AAPL") = some p ∧
    Run.exec (EventPipeline.step true) p [.stop] = some (rs, p') ∧ p'.stop = .joinConsumer ∧
    Run.exec (EventPipeline.step true) p' (List.replicate maxLeft evenRound).flatten =
      some (rs', p'') ∧ p''.stop = .returned := by
  obtain ⟨queue, s, hstart, -⟩ := start_eq (P := ℚ) (text "AAPL")
  have hrun : Run.exec (EventPipeline.step true)
      (⟨true, true, queue, .init (text "AAPL"), s, .loop, .loop, .loop, .serving, []⟩ :
        EventPipeline ℚ) [.stop] =
      some ([()], ⟨false, true, queue, .init (text "AAPL"), s, .loop, .loop, .loop, .joinConsumer,
        []⟩) := rfl
  have hrounds : ∀ ts ∈ List.replicate maxLeft evenRound, Round ts := by
    intro ts hts
    rw [List.eq_of_mem_replicate hts]
    exact ⟨by simp [evenRound], by simp [evenRound], by simp [evenRound], none, by simp [evenRound]⟩
  have hquiet : ∀ msg, Turn.feed (some msg) ∉ (List.replicate maxLeft evenRound).flatten := by
    intro msg hmem
    obtain ⟨ts, hts, hmem⟩ := List.mem_flatten.mp hmem
    rw [List.eq_of_mem_replicate hts] at hmem
    simp [evenRound] at hmem
  obtain ⟨rs', p'', hexec, hret⟩ := stop_returns hstart hrun (fun he => by cases he) hrounds
    (List.length_replicate ..).ge (along_starved hquiet _)
  exact ⟨_, _, p'', _, rs', hstart, hrun, rfl, hexec, hret⟩

/-! ### `stop` starves -/

/-- `stop` waits for the consumer thread, and the feed goes on. -/
structure Waiting (journal : Bool) (symbol : List UInt8) (p : EventPipeline P) : Prop extends
    Orderly journal symbol p where
  stop : p.stop = .joinConsumer
  consumer : p.consumer ≠ .exited

/-- The other threads do not let `stop` go on. -/
theorem Waiting.others (h : p.Waiting journal symbol) {us : List (Turn P)}
    (hus : ∀ u ∈ us, u = .io ∨ u = .stop) :
    ∃ rs p', Run.exec (EventPipeline.step journal) p us = some (rs, p') ∧
      p'.Waiting journal symbol ∧ p'.outputQueue = p.outputQueue ∧ p'.feed = p.feed := by
  induction us generalizing p with
  | nil => exact ⟨[], p, rfl, h, rfl, rfl⟩
  | cons u us ih =>
      obtain ⟨p₁, hstep, hp₁, -⟩ := h.toOrderly.step u
      have hframe : p₁.Waiting journal symbol ∧ p₁.outputQueue = p.outputQueue ∧
          p₁.feed = p.feed := by
        rcases hus u (List.mem_cons_self ..) with rfl | rfl
        · simp only [EventPipeline.step, Option.map_eq_some_iff, Prod.mk.injEq] at hstep
          obtain ⟨p₂, hstep, -, rfl⟩ := hstep
          obtain ⟨stages, io, rfl, -⟩ := ioStep_frame hstep
          exact ⟨⟨hp₁, h.stop, h.consumer⟩, rfl, rfl⟩
        · have hself : p.step journal .stop = some ((), p) := by
            simp [EventPipeline.step, EventPipeline.stopStep, h.stop, h.consumer]
          obtain rfl := (Prod.mk.inj (Option.some.inj (hself.symm.trans hstep))).2
          exact ⟨h, rfl, rfl⟩
      obtain ⟨rs, p', hexec, hp', hqueue, hfeed⟩ :=
        ih hframe.1 fun u hu => hus u (List.mem_cons_of_mem _ hu)
      exact ⟨() :: rs, p', Run.exec_cons hstep hexec, hp', hqueue.trans hframe.2.1,
        hfeed.trans hframe.2.2⟩

/-- The feed has a message for its queue, which is not empty afterwards. -/
theorem Waiting.feeds (h : p.Waiting journal symbol) (hf : p.feed = .loop) (t : Tick P) :
    ∃ rs p' q, Run.exec (EventPipeline.step journal) p [.feed none, .feed (some t)] = some (rs, p') ∧
      p'.Waiting journal symbol ∧ p'.feed = .loop ∧ p'.outputQueue.Holds 4096 q ∧ q ≠ [] := by
  obtain ⟨p₁, h₁, hp₁, -⟩ := h.toOrderly.step (.feed none)
  have hfeeding : p.feedRunning = true := by
    rw [h.feed, h.stop]
    rfl
  obtain rfl : { p with feed := .receiving } = p₁ := by
    simp only [EventPipeline.step, EventPipeline.feedStep, hf, if_pos hfeeding, Option.map_some,
      Option.some.injEq, Prod.mk.injEq, true_and] at h₁
    exact h₁
  obtain ⟨free, filled, out, hs⟩ := h.sound
  obtain ⟨q, hq⟩ := hs.queue
  obtain ⟨p₂, h₂, hp₂, -⟩ := hp₁.step (.feed (some t))
  have hexec : Run.exec (EventPipeline.step journal) p [.feed none, .feed (some t)] =
      some ([(), ()], p₂) := Run.exec_cons h₁ (Run.exec_cons h₂ rfl)
  have hlt := hq.length_lt
  by_cases hfull : q.length + 1 = 4096
  · simp only [EventPipeline.step, EventPipeline.feedStep, hq.push_full hfull, Option.bind_eq_bind,
      Option.bind_some] at h₂
    cases h₂
    refine ⟨_, _, q, hexec, ⟨hp₂, h.stop, h.consumer⟩, rfl, hq, ?_⟩
    rintro rfl
    cases hfull
  · obtain ⟨rb, hpush, hrb⟩ := hq.push (lt_of_le_of_ne hlt hfull) t
    simp only [EventPipeline.step, EventPipeline.feedStep, hpush, Option.bind_eq_bind,
      Option.bind_some] at h₂
    cases h₂
    exact ⟨_, _, q ++ [t], hexec, ⟨hp₂, h.stop, h.consumer⟩, rfl, hrb, by simp⟩

/-- The consumer thread does not leave a queue that is not empty. -/
theorem Waiting.consumes (h : p.Waiting journal symbol) {q : List (Tick P)}
    (hq : p.outputQueue.Holds 4096 q) (hne : q ≠ []) :
    ∃ p', p.step journal .consumer = some ((), p') ∧ p'.Waiting journal symbol ∧
      p'.feed = p.feed := by
  obtain ⟨p₁, hstep, hp₁, -⟩ := h.toOrderly.step .consumer
  have hpasses := step_passes hq hstep
  have hconsumer : p₁.consumer ≠ .exited := by
    intro hx
    generalize p.passages .consumer = new at hpasses
    cases hpasses with
    | rest _ _ _ exits => exact hne ((exits.mp hx).resolve_left h.consumer).2
    | push _ _ _ _ exits => exact h.consumer (exits ▸ hx)
    | pop _ _ _ _ _ after => exact after hx
  refine ⟨p₁, hstep, ?_⟩
  simp only [EventPipeline.step, Option.map_eq_some_iff, Prod.mk.injEq] at hstep
  obtain ⟨p₂, hstep, -, rfl⟩ := hstep
  obtain ⟨_, _, _, _, _, rfl⟩ := consumerStep_frame hstep
  exact ⟨⟨hp₁, h.stop, hconsumer⟩, rfl⟩

/-- A round in which the feed brings a message before the consumer thread has its turn. -/
def busyRound (r : Tick P × List (Turn P)) : List (Turn P) :=
  [Turn.feed none, .feed (some r.1)] ++ (r.2 ++ [Turn.consumer])

theorem Waiting.round (h : p.Waiting journal symbol) (hf : p.feed = .loop)
    {r : Tick P × List (Turn P)} (hus : ∀ u ∈ r.2, u = .io ∨ u = .stop) :
    ∃ rs p', Run.exec (EventPipeline.step journal) p (busyRound r) = some (rs, p') ∧
      p'.Waiting journal symbol ∧ p'.feed = .loop := by
  obtain ⟨rs₁, p₁, q, h₁, hp₁, hf₁, hq, hne⟩ := h.feeds hf r.1
  obtain ⟨rs₂, p₂, h₂, hp₂, hqueue, hf₂⟩ := hp₁.others hus
  rw [← hqueue] at hq
  obtain ⟨p₃, h₃, hp₃, hf₃⟩ := hp₂.consumes hq hne
  exact ⟨rs₁ ++ (rs₂ ++ [()]), p₃, Run.exec_append h₁ (Run.exec_append h₂ (Run.exec_cons h₃ rfl)),
    hp₃, hf₃.trans (hf₂.trans hf₁)⟩

/-- The feed leaves only when it is stopped. -/
theorem step_live {t : Turn P} {r : Unit} (hstep : p.step journal t = some (r, p'))
    (h : p.feed = .exited → p.feedRunning = false) : p'.feed = .exited → p'.feedRunning = false := by
  simp only [EventPipeline.step, Option.map_eq_some_iff, Prod.mk.injEq] at hstep
  obtain ⟨p₁, hstep, -, rfl⟩ := hstep
  cases t with
  | feed msg =>
      cases hf : p.feed with
      | loop =>
          simp only [EventPipeline.feedStep, hf, Option.some.injEq] at hstep
          subst hstep
          intro hx
          by_contra hr
          rw [if_pos (Bool.eq_true_of_not_eq_false hr)] at hx
          cases hx
      | receiving =>
          intro hx
          simp only [EventPipeline.feedStep, hf] at hstep
          cases msg with
          | none =>
              cases hstep
              cases hx
          | some t =>
              obtain ⟨_, -, heq⟩ := Option.bind_eq_some_iff.mp hstep
              cases heq
              cases hx
      | exited =>
          simp only [EventPipeline.feedStep, hf] at hstep
          cases hstep
          exact h
  | consumer =>
      obtain ⟨_, _, _, _, _, rfl⟩ := consumerStep_frame hstep
      exact h
  | io =>
      obtain ⟨_, _, rfl, -⟩ := ioStep_frame hstep
      exact h
  | stop =>
      obtain rfl := Option.some.inj hstep
      unfold EventPipeline.stopStep
      split
      case h_3 => exact fun _ => rfl
      case h_6 => exact h
      all_goals
        split
        · exact h
        · exact h

/-- The turn of the feed that ends the receive it is in, if it is in one. -/
def endReceive (p : EventPipeline P) : List (Turn P) :=
  match p.feed with
  | .receiving => [.feed none]
  | .loop | .exited => []

/-- While `stop` waits for the consumer thread the feed is in its loop, or about to be. -/
theorem Waiting.endReceive (h : p.Waiting journal symbol)
    (hlive : p.feed = .exited → p.feedRunning = false) :
    ∃ rs p', Run.exec (EventPipeline.step journal) p p.endReceive = some (rs, p') ∧
      p'.Waiting journal symbol ∧ p'.feed = .loop := by
  cases hf : p.feed with
  | loop => exact ⟨[], p, by rw [EventPipeline.endReceive, hf]; rfl, h, hf⟩
  | receiving =>
      obtain ⟨p₁, hstep, hp₁, -⟩ := h.toOrderly.step (.feed none)
      have hself : p.step journal (.feed none) = some ((), { p with feed := .loop }) := by
        simp [EventPipeline.step, EventPipeline.feedStep, hf]
      obtain rfl := (Prod.mk.inj (Option.some.inj (hself.symm.trans hstep))).2
      refine ⟨[()], _, ?_, ⟨hp₁, h.stop, h.consumer⟩, rfl⟩
      rw [EventPipeline.endReceive, hf]
      exact Run.exec_cons hstep rfl
  | exited =>
      have hrun := hlive hf
      rw [h.feed, h.stop] at hrun
      cases hrun

/-- **`stop` can wait for ever.**  While it waits for the consumer thread, a feed that has a message
for each turn of that thread, once the receive it is in is over, keeps it waiting, for any number of
rounds and whatever the turns of the I/O thread and of `stop` in between. -/
theorem stop_starves {ts : List (Turn P)} {rs : List Unit} {rounds : List (Tick P × List (Turn P))}
    (hstart : start symbol = some p)
    (hrun : Run.exec (EventPipeline.step journal) p ts = some (rs, p'))
    (hstop : p'.stop = .joinConsumer) (hconsumer : p'.consumer ≠ .exited)
    (hus : ∀ r ∈ rounds, ∀ u ∈ r.2, u = .io ∨ u = .stop) :
    ∃ rs' p'', Run.exec (EventPipeline.step journal) p' (p'.endReceive ++ rounds.flatMap busyRound) =
        some (rs', p'') ∧ p''.stop = .joinConsumer ∧ p''.feed = .loop := by
  have hp' : p'.Waiting journal symbol := ⟨exec_orderly hstart hrun, hstop, hconsumer⟩
  have hlive : p'.feed = .exited → p'.feedRunning = false := by
    refine Run.exec_invariant (fun _ _ _ _ _ h hstep => step_live hstep h) ?_ hrun
    obtain ⟨queue, s, heq, -⟩ := start_eq (P := P) symbol
    obtain rfl := Option.some.inj (hstart.symm.trans heq)
    exact fun hx => by cases hx
  obtain ⟨rs₀, p₀, h₀, hp₀, hf₀⟩ := hp'.endReceive hlive
  suffices hrounds : ∃ rs' p'', Run.exec (EventPipeline.step journal) p₀ (rounds.flatMap busyRound) =
      some (rs', p'') ∧ p''.stop = .joinConsumer ∧ p''.feed = .loop by
    obtain ⟨rs', p'', h', h''⟩ := hrounds
    exact ⟨rs₀ ++ rs', p'', Run.exec_append h₀ h', h''⟩
  clear h₀
  induction rounds generalizing p₀ with
  | nil => exact ⟨[], p₀, rfl, hp₀.stop, hf₀⟩
  | cons r rounds ih =>
      obtain ⟨rs₁, p₁, h₁, hp₁, hf₁⟩ := hp₀.round hf₀ (hus r (List.mem_cons_self ..))
      obtain ⟨rs₂, p'', h₂, h''⟩ :=
        ih (fun r' hr' => hus r' (List.mem_cons_of_mem r hr')) p₁ hp₁ hf₁
      exact ⟨rs₁ ++ rs₂, p'', Run.exec_append h₁ h₂, h''⟩

/-- `stop` called at once, and ten messages. -/
theorem stop_starves_calmTick : ∃ (p p' p'' : EventPipeline ℚ) (rs rs' : List Unit),
    start (text "AAPL") = some p ∧ Run.exec (EventPipeline.step true) p [.stop] = some (rs, p') ∧
    Run.exec (EventPipeline.step true) p'
      ((List.replicate 10 (calmTick, [Turn.io, .stop])).flatMap busyRound) = some (rs', p'') ∧
    p''.stop = .joinConsumer := by
  obtain ⟨queue, s, hstart, -⟩ := start_eq (P := ℚ) (text "AAPL")
  have hrun : Run.exec (EventPipeline.step true)
      (⟨true, true, queue, .init (text "AAPL"), s, .loop, .loop, .loop, .serving, []⟩ :
        EventPipeline ℚ) [.stop] =
      some ([()], ⟨false, true, queue, .init (text "AAPL"), s, .loop, .loop, .loop, .joinConsumer,
        []⟩) := rfl
  have hus : ∀ r ∈ List.replicate 10 (calmTick, [(Turn.io : Turn ℚ), .stop]),
      ∀ u ∈ r.2, u = .io ∨ u = .stop := by
    intro r hr u hu
    rw [List.eq_of_mem_replicate hr] at hu
    simpa using hu
  obtain ⟨rs', p'', hexec, hstop, -⟩ := stop_starves hstart hrun rfl (fun he => by cases he) hus
  exact ⟨_, _, p'', _, rs', hstart, hrun, hexec, hstop⟩

end EventPipeline

end Aspira
