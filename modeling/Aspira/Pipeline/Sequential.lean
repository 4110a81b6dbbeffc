import Aspira.Pipeline.Replay

/-!
# Pipeline — one program

The three threads against a program that has only one.  `Flows` says what holds in every
interleaving: the messages that the feed has pushed are those that the consumer has popped and those
in the queue, in order, and the hot path is where `process_market_data`, called on the popped ones
one after the other, leaves it (`pipeline_flows`).  What is left in the queue by the consumer is what
the feed pushed after the consumer had exited.

`stop_sequential` is the whole program: an orderly stop has done what one thread would have done that
calls `process_market_data` and `process_io_event` in turn.
-/

namespace Aspira

variable {P : Type}

/-- What passes the feed queue. -/
inductive Passage (P : Type) where
  /-- A message is pushed; `late`, the consumer thread has exited. -/
  | pushed (late : Bool) (t : Tick P)
  | popped (t : Tick P)

namespace Passage

/-- A message that the feed pushed. -/
def fed : Passage P → Option (Tick P)
  | .pushed _ t => some t
  | .popped _ => none

/-- A message that the feed pushed after the consumer thread had exited. -/
def late : Passage P → Option (Tick P)
  | .pushed true t => some t
  | .pushed false _ | .popped _ => none

/-- A message that the consumer popped. -/
def taken : Passage P → Option (Tick P)
  | .pushed _ _ => none
  | .popped t => some t

end Passage

namespace EventPipeline

variable [Price P] {journal : Bool} {p p' : EventPipeline P} {q : List (Tick P)}

/-- What passes the feed queue in a step. -/
def passages (p : EventPipeline P) : Turn P → List (Passage P)
  | .feed (some t) =>
      match p.feed, p.outputQueue.push t with
      | .receiving, some (true, _) => [.pushed (decide (p.consumer = .exited)) t]
      | _, _ => []
  | .consumer =>
      match p.consumer, p.outputQueue.pop with
      | .pop, some (some t, _) | .drain, some (some t, _) => [.popped t]
      | _, _ => []
  | _ => []

/-- The messages so far.  `q` is what is in the queue. -/
structure Flows (symbol : List UInt8) (past : List (Passage P)) (p : EventPipeline P)
    (q : List (Tick P)) : Prop where
  holds : p.outputQueue.Holds 4096 q
  fed : past.filterMap Passage.fed = past.filterMap Passage.taken ++ q
  late : past.filterMap Passage.late = if p.consumer = .exited then q else []
  path : (HotPath.init symbol : HotPath P).run (past.filterMap Passage.taken) =
    (p.writes, p.hotPath)

/-! ### One step -/

/-- What a step does to the feed queue and the hot path. -/
inductive Passes (p p' : EventPipeline P) (q : List (Tick P)) : List (Passage P) → Prop where
  /-- Nothing; the consumer thread exits only when the queue is empty. -/
  | rest (queue : p'.outputQueue = p.outputQueue) (path : p'.hotPath = p.hotPath)
      (writes : p'.writes = p.writes)
      (exits : p'.consumer = .exited ↔ p.consumer = .exited ∨ p'.consumer = .exited ∧ q = []) :
      Passes p p' q []
  | push (t : Tick P) (queue : p'.outputQueue.Holds 4096 (q ++ [t])) (path : p'.hotPath = p.hotPath)
      (writes : p'.writes = p.writes) (exits : p'.consumer = p.consumer) :
      Passes p p' q [.pushed (decide (p.consumer = .exited)) t]
  | pop {t : Tick P} {q' : List (Tick P)} (first : q = t :: q')
      (queue : p'.outputQueue.Holds 4096 q')
      (path : p'.hotPath = (p.hotPath.processMarketData t).2)
      (writes : p'.writes = p.writes ++ (p.hotPath.processMarketData t).1)
      (before : p.consumer ≠ .exited) (after : p'.consumer ≠ .exited) :
      Passes p p' q [.popped t]

theorem Passes.of_frame (queue : p'.outputQueue = p.outputQueue) (path : p'.hotPath = p.hotPath)
    (writes : p'.writes = p.writes) (exits : p'.consumer = .exited ↔ p.consumer = .exited) :
    Passes p p' q [] :=
  .rest queue path writes (by rw [exits]; tauto)

theorem feedStep_passes (hq : p.outputQueue.Holds 4096 q) {msg : Option (Tick P)}
    (h : p.feedStep msg = some p') : Passes p p' q (p.passages (.feed msg)) := by
  cases hf : p.feed with
  | loop =>
      simp only [feedStep, hf, Option.some.injEq] at h
      have hnone : p.passages (.feed msg) = [] := by
        cases msg with
        | none => rfl
        | some t => simp only [passages, hf]
      rw [hnone, ← h]
      exact .of_frame rfl rfl rfl Iff.rfl
  | exited =>
      simp only [feedStep, hf, Option.some.injEq] at h
      have hnone : p.passages (.feed msg) = [] := by
        cases msg with
        | none => rfl
        | some t => simp only [passages, hf]
      rw [hnone, ← h]
      exact .of_frame rfl rfl rfl Iff.rfl
  | receiving =>
      cases msg with
      | none =>
          simp only [feedStep, hf, Option.some.injEq] at h
          rw [← h]
          exact .of_frame rfl rfl rfl Iff.rfl
      | some t =>
          have hlt := hq.length_lt
          by_cases hfull : q.length + 1 = 4096
          · simp only [feedStep, hf, hq.push_full hfull, Option.bind_eq_bind, Option.bind_some] at h
            simp only [passages, hf, hq.push_full hfull]
            cases h
            exact .of_frame rfl rfl rfl Iff.rfl
          · obtain ⟨rb, hpush, hrb⟩ := hq.push (lt_of_le_of_ne hlt hfull) t
            simp only [feedStep, hf, hpush, Option.bind_eq_bind, Option.bind_some] at h
            simp only [passages, hf, hpush]
            cases h
            exact .push t hrb rfl rfl rfl

theorem consumerPop_passes (hq : p.outputQueue.Holds 4096 q) (draining : Bool)
    (hc : p.consumer = if draining then .drain else .pop)
    (h : p.consumerPop draining = some p') : Passes p p' q (p.passages .consumer) := by
  have hne : p.consumer ≠ .exited := by
    rw [hc]
    cases draining <;> exact fun he => by cases he
  cases q with
  | nil =>
      have hnone : p.passages .consumer = [] := by
        cases draining <;> simp_all [passages, hq.pop_nil]
      rw [hnone]
      simp only [consumerPop, hq.pop_nil, Option.bind_eq_bind, Option.bind_some] at h
      cases h
      exact .rest rfl rfl rfl (by simp [hne])
  | cons t q =>
      obtain ⟨rb, hpop, hrb⟩ := hq.pop_cons
      have hone : p.passages .consumer = [.popped t] := by
        cases draining <;> simp_all [passages]
      rw [hone]
      simp only [consumerPop, hpop, Option.bind_eq_bind, Option.bind_some] at h
      cases h
      exact .pop rfl hrb rfl rfl hne fun he => by cases he

theorem consumerStep_passes (hq : p.outputQueue.Holds 4096 q) (h : p.consumerStep = some p') :
    Passes p p' q (p.passages .consumer) := by
  cases hc : p.consumer with
  | loop =>
      simp only [consumerStep, hc, Option.some.injEq] at h
      have hnone : p.passages .consumer = [] := by simp only [passages, hc]
      rw [hnone, ← h]
      refine .of_frame rfl rfl rfl ?_
      rw [hc]
      cases p.running <;> simp
  | pop =>
      simp only [consumerStep, hc] at h
      exact consumerPop_passes hq false hc h
  | drain =>
      simp only [consumerStep, hc] at h
      exact consumerPop_passes hq true hc h
  | exited =>
      simp only [consumerStep, hc, Option.some.injEq] at h
      have hnone : p.passages .consumer = [] := by simp only [passages, hc]
      rw [hnone, ← h]
      exact .of_frame rfl rfl rfl Iff.rfl
  | busy d =>
      have hnone : p.passages .consumer = [] := by simp only [passages, hc]
      rw [hnone]
      simp only [consumerStep, hc] at h
      split at h
      · cases h
        refine .of_frame rfl rfl rfl ?_
        rw [hc]
        cases d <;> simp
      · simp only [Option.bind_eq_bind, Option.bind_eq_some_iff] at h
        obtain ⟨r, -, h⟩ := h
        cases h
        exact .of_frame rfl rfl rfl (by rw [hc])

/-- The I/O thread touches its own side of the stages and its own phase only. -/
theorem ioStep_frame (h : p.ioStep journal = some p') :
    ∃ stages io, p' = { p with stages := stages, io := io } ∧ stages.todo = p.stages.todo := by
  have hpop : ∀ {draining : Bool} {next : IoPhase}, p.ioPop draining next = some p' →
      ∃ stages io, p' = { p with stages := stages, io := io } ∧ stages.todo = p.stages.todo := by
    intro draining next h
    simp only [ioPop, Stages.ioPop, Option.bind_eq_bind, Option.bind_eq_some_iff] at h
    obtain ⟨r, ⟨r', -, hr⟩, h⟩ := h
    split at h
    · cases h
      exact ⟨_, _, rfl, rfl⟩
    · cases h
      refine ⟨_, _, rfl, ?_⟩
      split at hr
      · cases hr
        rfl
      · cases hr
        rfl
  unfold ioStep at h
  split at h
  · cases h
    exact ⟨_, _, rfl, rfl⟩
  · exact hpop h
  · split at h
    · cases h
      exact ⟨_, _, rfl, rfl⟩
    · cases h
      exact ⟨_, _, rfl, rfl⟩
    · split at h
      · cases h
        exact ⟨_, _, rfl, rfl⟩
      · simp only [Stages.ioReturn, Option.bind_eq_bind, Option.bind_eq_some_iff] at h
        obtain ⟨r, ⟨r', -, hr⟩, h⟩ := h
        cases hr
        cases h
        exact ⟨_, _, rfl, rfl⟩
  · exact hpop h
  · cases h
    exact ⟨_, _, rfl, rfl⟩

/-- The consumer thread leaves the flags and the other threads' phases alone. -/
theorem consumerStep_frame (h : p.consumerStep = some p') :
    ∃ queue path stages consumer writes, p' = { p with
      outputQueue := queue, hotPath := path, stages := stages, consumer := consumer,
      writes := writes } := by
  have hpop : ∀ {draining : Bool}, p.consumerPop draining = some p' →
      ∃ queue path stages consumer writes, p' = { p with
        outputQueue := queue, hotPath := path, stages := stages, consumer := consumer,
        writes := writes } := by
    intro draining h
    simp only [consumerPop, Option.bind_eq_bind, Option.bind_eq_some_iff] at h
    obtain ⟨r, -, h⟩ := h
    split at h
    · cases h
      exact ⟨_, _, _, _, _, rfl⟩
    · cases h
      exact ⟨_, _, _, _, _, rfl⟩
  unfold consumerStep at h
  split at h
  · cases h
    exact ⟨_, _, _, _, _, rfl⟩
  · exact hpop h
  · split at h
    · cases h
      exact ⟨_, _, _, _, _, rfl⟩
    · simp only [Option.bind_eq_bind, Option.bind_eq_some_iff] at h
      obtain ⟨r, -, h⟩ := h
      cases h
      exact ⟨_, _, _, _, _, rfl⟩
  · exact hpop h
  · cases h
    exact ⟨_, _, _, _, _, rfl⟩

/-- **What a step does to the feed queue.** -/
theorem step_passes (hq : p.outputQueue.Holds 4096 q) {t : Turn P} {r : Unit}
    (h : p.step journal t = some (r, p')) : Passes p p' q (p.passages t) := by
  simp only [step, Option.map_eq_some_iff, Prod.mk.injEq] at h
  obtain ⟨p₁, h, -, rfl⟩ := h
  cases t with
  | feed msg => exact feedStep_passes hq h
  | consumer => exact consumerStep_passes hq h
  | io =>
      obtain ⟨stages, io, rfl, -⟩ := ioStep_frame h
      exact .of_frame rfl rfl rfl Iff.rfl
  | stop =>
      obtain ⟨running, feedRunning, stop, hstop⟩ := p.stopStep_frame
      rw [← Option.some.inj h, hstop]
      exact .of_frame rfl rfl rfl Iff.rfl

/-- **The flow of messages is kept.** -/
theorem Flows.passes {symbol : List UInt8} {past new : List (Passage P)}
    (h : p.Flows symbol past q) (hp : Passes p p' q new) :
    ∃ q', p'.Flows symbol (past ++ new) q' := by
  have hfed := h.fed
  have hlate := h.late
  cases hp with
  | rest queue path writes exits =>
      refine ⟨q, queue ▸ h.holds, by rw [List.append_nil]; exact hfed, ?_, ?_⟩
      · rw [List.append_nil, hlate]
        by_cases hx : p.consumer = .exited
        · rw [if_pos hx, if_pos (exits.mpr (.inl hx))]
        · rw [if_neg hx]
          split
          · rename_i hx'
            exact ((exits.mp hx').resolve_left hx).2.symm
          · rfl
      · rw [List.append_nil, path, writes]
        exact h.path
  | push t queue path writes exits =>
      refine ⟨q ++ [t], queue, ?_, ?_, ?_⟩
      · rw [List.filterMap_append, List.filterMap_append, hfed, List.append_assoc, List.append_assoc]
        rfl
      · rw [List.filterMap_append, hlate, exits]
        by_cases hx : p.consumer = .exited
        · simp [hx, Passage.late]
        · simp [hx, Passage.late]
      · rw [List.filterMap_append, path, writes, ← h.path]
        exact congrArg _ (List.append_nil _)
  | @pop t q' first queue path writes before after =>
      refine ⟨q', queue, ?_, ?_, ?_⟩
      · rw [List.filterMap_append, List.filterMap_append, hfed, first]
        simp [Passage.fed, Passage.taken]
      · rw [List.filterMap_append, hlate, if_neg before, if_neg after]
        rfl
      · have hone : [Passage.popped t].filterMap Passage.taken = [t] := rfl
        rw [List.filterMap_append, hone, HotPath.run_append, h.path, path, writes]
        simp only [HotPath.run, List.append_nil]

/-! ### Whole runs -/

/-- What an interleaving keeps. -/
structure Steady (journal : Bool) (symbol : List UInt8) (past : List (Passage P))
    (p : EventPipeline P) : Prop where
  sound : ∃ free filled out, p.Sound journal free filled out
  phases : p.Phases
  flows : ∃ q, p.Flows symbol past q

theorem Steady.step {symbol : List UInt8} {past : List (Passage P)}
    (h : p.Steady journal symbol past) (t : Turn P) :
    ∃ r p', p.step journal t = some (r, p') ∧ p'.Steady journal symbol (past ++ p.passages t) := by
  obtain ⟨⟨free, filled, out, hs⟩, hp, q, hflows⟩ := h
  obtain ⟨p', free', filled', out', hstep, hs', hp', -⟩ := hs.step hp t
  exact ⟨(), p', hstep, ⟨free', filled', out', hs'⟩, hp', hflows.passes (step_passes hflows.holds hstep)⟩

theorem start_steady (journal : Bool) (symbol : List UInt8) :
    ∃ p : EventPipeline P, start symbol = some p ∧ p.Steady journal symbol [] := by
  obtain ⟨p, hstart, free, filled, out, hs, hp, -⟩ := start_tidy (P := P) journal symbol
  obtain ⟨queue, s, heq, hqueue, -⟩ := start_eq (P := P) symbol
  refine ⟨p, hstart, ⟨free, filled, out, hs⟩, hp, [], ?_⟩
  rw [Option.some.inj (hstart.symm.trans heq)]
  exact ⟨hqueue, rfl, rfl, rfl⟩

/-- Every interleaving is defined, and keeps what `Steady` says. -/
theorem exec_steady (journal : Bool) (symbol : List UInt8) (ts : List (Turn P)) :
    ∃ (p : EventPipeline P) (rs : List Unit) (p' : EventPipeline P), start symbol = some p ∧
      Run.exec (step journal) p ts = some (rs, p') ∧
      p'.Steady journal symbol (Run.trace (step journal) passages p ts) := by
  obtain ⟨p, hstart, hp⟩ := start_steady (P := P) journal symbol
  obtain ⟨rs, p', hrun, hp'⟩ := Run.exec_trace (f := passages) (H := Steady journal symbol)
    (fun past q t hq => hq.step t) ts hp
  exact ⟨p, rs, p', hstart, hrun, hp'⟩

/-- **The messages of a run.**  In every interleaving of the threads, the messages fed are those
processed and those in the queue, in order, and the hot path is where the processed ones, one after
the other, leave it.  Once the consumer thread has exited, the queue holds the messages fed since. -/
theorem pipeline_flows (journal : Bool) (symbol : List UInt8) (ts : List (Turn P)) :
    ∃ (p : EventPipeline P) (rs : List Unit) (p' : EventPipeline P) (q : List (Tick P)),
      start symbol = some p ∧ Run.exec (step journal) p ts = some (rs, p') ∧
      p'.Flows symbol (Run.trace (step journal) passages p ts) q := by
  obtain ⟨p, rs, p', hstart, hrun, hp'⟩ := exec_steady (P := P) journal symbol ts
  obtain ⟨q, hflows⟩ := hp'.flows
  exact ⟨p, rs, p', q, hstart, hrun, hflows⟩

/-! ### An orderly stop -/

/-- All that was written has been passed on, when nothing was dropped and all that was pushed has been
processed. -/
theorem Sound.carried {free filled out : List Entry} (h : p.Sound journal free filled out)
    (hidle : p.stages.hot = .idle ∧ p.stages.todo = []) (hlen : p.writes.length < 2 ^ 64)
    (hdropped : p.stages.ioEventsDropped = 0) (hpassed : p.stages.passed = p.stages.pushed) :
    List.Forall₂ (fun w e => Carries w e.2) p.writes p.stages.passed ∧
      p.stages.actions = p.stages.passed.flatMap fun e => e.2.processIoEvent journal := by
  obtain ⟨ws, hf⟩ := h.faithful
  have hcount := h.events hidle hlen
  have hkept := hf.kept
  have horder := hf.order
  rw [hdropped] at hcount
  rw [hidle.1, HotHand.pending, List.append_nil] at hkept
  rw [hidle.2, List.append_nil, hkept] at horder
  obtain rfl : ws = p.writes := horder.eq_of_length (hf.pushed.length_eq.trans hcount)
  exact ⟨hpassed ▸ hf.pushed, hf.actions⟩

/-- **What has been done** then. -/
theorem Sound.actions {free filled out : List Entry} (h : p.Sound journal free filled out)
    (hidle : p.stages.hot = .idle ∧ p.stages.todo = []) (hlen : p.writes.length < 2 ^ 64)
    (hdropped : p.stages.ioEventsDropped = 0) (hpassed : p.stages.passed = p.stages.pushed)
    (hterm : ∀ w ∈ p.writes, w.Terminated) :
    p.stages.actions = p.writes.flatMap (synchronous journal) := by
  obtain ⟨hcarried, hactions⟩ := h.carried hidle hlen hdropped hpassed
  rw [hactions]
  exact processed_carried journal hcarried hterm

/-- What the I/O thread leaves in the filled ring, when `stop` has returned. -/
theorem Tidy.passed_eq (h : p.Tidy journal) (hret : p.stop = .returned) :
    p.stages.passed = p.stages.pushed := by
  obtain ⟨free, filled, out, hs, hp, hnil⟩ := h
  have hio := hp.returned hret
  have hidle := hs.io fun d he => by cases hio.symm.trans he
  have hflow := hs.circulates.flow
  rw [hidle, hnil hio] at hflow
  exact (hflow.trans (List.append_nil _)).symm

/-- **The pipeline is one program.**  When `stop` has returned, the I/O thread was the last to leave
its queue, no event was dropped and no message was fed after the consumer thread had exited: the
logger, the journal and the gateway have been called as by one thread that takes the messages in the
order fed, and calls `process_io_event` at once for each event of `process_market_data`. -/
theorem stop_sequential {symbol : List UInt8} {ts : List (Turn P)} {rs : List Unit}
    (hsym : (cstr symbol).length ≤ 15) (hstart : start symbol = some p)
    (hrun : Run.exec (step journal) p ts = some (rs, p')) (hret : p'.stop = .returned)
    (hshort : p'.Short) (hdropped : p'.stages.ioEventsDropped = 0)
    (hlast : Run.Along (step journal) (fun s t => ¬ s.LatePush t) p ts)
    (hlate : (Run.trace (step journal) passages p ts).filterMap Passage.late = []) :
    let fed := (Run.trace (step journal) passages p ts).filterMap Passage.fed
    p'.stages.actions =
        ((HotPath.init symbol : HotPath P).run fed).1.flatMap (synchronous journal) ∧
      p'.hotPath = ((HotPath.init symbol : HotPath P).run fed).2 := by
  intro fed
  obtain ⟨p₀, rs₀, p₁, hstart₀, hrun₀, hp'⟩ := exec_steady (P := P) journal symbol ts
  obtain rfl : p₀ = p := Option.some.inj (hstart₀.symm.trans hstart)
  obtain rfl : p₁ = p' := (Prod.mk.inj (Option.some.inj (hrun₀.symm.trans hrun))).2
  obtain ⟨p₂, hstart₂, htidy⟩ := start_tidy (P := P) journal symbol
  obtain rfl : p₂ = p₀ := Option.some.inj (hstart₂.symm.trans hstart)
  obtain ⟨rs₂, p₃, hrun₂, htidy'⟩ := Run.exec_of_step (I := Tidy journal)
    (fun s t hs ht => hs.step ht) htidy hlast
  obtain rfl : p₃ = p₁ := (Prod.mk.inj (Option.some.inj (hrun₂.symm.trans hrun))).2
  obtain ⟨⟨free, filled, out, hs⟩, hp, q, hflows⟩ := hp'
  have hc := hp.joined (by rw [hret]; rfl)
  have hidle := hs.hot fun d he => by cases hc.symm.trans he
  -- the queue is empty, so all that was fed was taken
  have hq : q = [] := by
    have h := hflows.late
    rw [hlate, if_pos hc] at h
    exact h.symm
  have hfed : fed = (Run.trace (step journal) passages p₂ ts).filterMap Passage.taken := by
    have h := hflows.fed
    rw [hq, List.append_nil] at h
    exact h
  have hpath := hflows.path
  rw [← hfed] at hpath
  have hterm := run_terminated (P := P) hsym fed
  have hcalled : p₃.Called symbol := ⟨fed, hpath⟩
  rw [hpath] at hterm ⊢
  exact ⟨hs.actions hidle (hcalled.length_lt hshort) hdropped (htidy'.passed_eq hret) hterm, rfl⟩

/-- Only the consumer thread pushes. -/
theorem along_others {ts : List (Turn P)} (hts : Turn.consumer ∉ ts) (p : EventPipeline P) :
    Run.Along (step journal) (fun s t => ¬ s.LatePush t) p ts := by
  induction ts generalizing p with
  | nil => trivial
  | cons t ts ih =>
      refine ⟨fun hpush => ?_, ?_⟩
      · cases t with
        | consumer => exact hts (List.mem_cons_self ..)
        | feed msg => exact hpush.2
        | io => exact hpush.2
        | stop => exact hpush.2
      · cases p.step journal t with
        | none => trivial
        | some r => exact ih (fun hmem => hts (List.mem_cons_of_mem t hmem)) r.2

/-- While the I/O thread runs, no push is late. -/
theorem along_consumers (n : ℕ) : ∀ {p : EventPipeline P}, p.io ≠ .exited →
    Run.Along (step journal) (fun s t => ¬ s.LatePush t) p (List.replicate n .consumer) := by
  induction n with
  | zero => exact fun _ => trivial
  | succ n ih =>
      intro p hio
      refine ⟨fun hpush => hio hpush.1, ?_⟩
      cases hstep : p.step journal .consumer with
      | none => trivial
      | some r =>
          refine ih fun hx => hio ?_
          simp only [step, Option.map_eq_some_iff] at hstep
          obtain ⟨p₁, hstep, rfl⟩ := hstep
          obtain ⟨_, _, _, _, _, rfl⟩ := consumerStep_frame hstep
          exact hx

/-- Only the feed pushes to its queue. -/
theorem passages_of_quiet {t : Turn P} (ht : ∀ msg, t ≠ .feed (some msg)) :
    (p.passages t).filterMap Passage.fed = [] ∧ (p.passages t).filterMap Passage.late = [] := by
  cases t with
  | feed msg =>
      cases msg with
      | none => exact ⟨rfl, rfl⟩
      | some msg => exact absurd rfl (ht msg)
  | consumer =>
      simp only [passages]
      split
      · exact ⟨rfl, rfl⟩
      · exact ⟨rfl, rfl⟩
      · exact ⟨rfl, rfl⟩
  | io => exact ⟨rfl, rfl⟩
  | stop => exact ⟨rfl, rfl⟩

/-- A run to which the feed brings nothing. -/
theorem late_of_quiet {ts : List (Turn P)} (hts : ∀ msg, Turn.feed (some msg) ∉ ts) :
    ∀ p : EventPipeline P,
      (Run.trace (step journal) passages p ts).filterMap Passage.late = [] := by
  induction ts with
  | nil => exact fun p => rfl
  | cons t ts ih =>
      intro p
      have hrest := ih fun msg hmem => hts msg (List.mem_cons_of_mem t hmem)
      have hone := (passages_of_quiet (p := p) fun msg he => hts msg (he ▸ List.mem_cons_self ..)).2
      rw [Run.trace, List.filterMap_append, hone, List.nil_append]
      cases p.step journal t with
      | none => rfl
      | some r => exact hrest r.2

/-- The message of the orderly run, taken by one thread. -/
theorem stop_sequential_orderlyRun : ∃ (p p' : EventPipeline ℚ) (rs : List Unit),
    start (text "AAPL") = some p ∧ Run.exec (step true) p orderlyRun = some (rs, p') ∧
    p'.stages.actions = ((HotPath.init (text "AAPL")).run
      ((Run.trace (step true) passages p orderlyRun).filterMap Passage.fed)).1.flatMap
        (synchronous true) ∧
    p'.hotPath = ((HotPath.init (text "AAPL")).run
      ((Run.trace (step true) passages p orderlyRun).filterMap Passage.fed)).2 := by
  obtain ⟨p, rs₁, queue, s, hstart, h₁, -⟩ := exec_stopping true calmTick
  obtain ⟨p₁, rs₂, queue', s', free, out, hstart', h₂, hc', hidle, hdropped⟩ :=
    exec_drainRun true calmTick (by decide) calmTick_length
  obtain rfl : p₁ = p := Option.some.inj (hstart'.symm.trans hstart)
  have hlen := calmTick_length
  generalize ((HotPath.init (text "AAPL")).processMarketData calmTick).1 = ws at h₂ hlen
  generalize ((HotPath.init (text "AAPL")).processMarketData calmTick).2 = hot at h₂
  rcases hc'.ioPop hidle with ⟨-, hpop⟩ | ⟨_, _, _, hnil, -⟩
  · have h₃ : Run.exec (step true)
        ⟨false, true, queue', hot, s', .loop, .exited, .drain, .joinConsumer, ws⟩ [.io] =
        some ([()], ⟨false, true, queue', hot, s', .loop, .exited, .exited, .joinConsumer, ws⟩) := by
      simp [Run.exec, step, ioStep, ioPop, hpop]
    have h₄ := exec_joins true
      (p := ⟨false, true, queue', hot, s', .loop, .exited, .exited, .joinConsumer, ws⟩) rfl rfl rfl rfl
    have hsplit : orderlyRun = drainRun calmTick 2 ++ ([Turn.io] ++ joins) := rfl
    have hrun := Run.exec_append h₂ (Run.exec_append h₃ h₄)
    rw [← hsplit] at hrun
    have hshort : Short (⟨false, false, queue', hot, s', .exited, .exited, .exited, .returned, ws⟩ :
        EventPipeline ℚ) := by
      have hkinds := IoWrite.countP_kinds ws
      show ws.countP IoWrite.isResult + ws.countP IoWrite.isRejected < 2 * 2 ^ 30
      omega
    -- the run in three parts: only in the second the consumer moves, only in the first the feed
    have hparts : orderlyRun = [Turn.feed none, .feed (some calmTick), .stop] ++
        (List.replicate 10 Turn.consumer ++ (List.replicate 10 Turn.io ++ joins)) := rfl
    obtain ⟨p₂, rs₃, p₃, hstart₂, hA, hsteady⟩ := exec_steady (P := ℚ) true (text "AAPL")
      [Turn.feed none, .feed (some calmTick), .stop]
    obtain rfl : p₂ = p₁ := Option.some.inj (hstart₂.symm.trans hstart)
    obtain rfl := (Prod.mk.inj (Option.some.inj (hA.symm.trans h₁))).2
    obtain ⟨p₄, rs₄, p₅, hstart₄, hB, -⟩ := exec_steady (P := ℚ) true (text "AAPL")
      ([Turn.feed none, .feed (some calmTick), .stop] ++ List.replicate 10 Turn.consumer)
    obtain rfl : p₄ = p₂ := Option.some.inj (hstart₄.symm.trans hstart)
    have hlast : Run.Along (step true) (fun s t => ¬ s.LatePush t) p₄ orderlyRun := by
      rw [hparts, ← List.append_assoc]
      refine Run.along_append (Run.along_append (along_others (by simp) p₄) h₁
        (along_consumers 10 fun hx => by cases hx)) hB (along_others ?_ p₅)
      simp [joins]
    have hlate : (Run.trace (step true) passages p₄ orderlyRun).filterMap Passage.late = [] := by
      obtain ⟨q, hflows⟩ := hsteady.flows
      rw [hparts, Run.trace_append h₁, List.filterMap_append, hflows.late,
        late_of_quiet (by simp [joins])]
      rfl
    exact ⟨p₄, _, _, hstart, hrun, stop_sequential (by decide) hstart hrun rfl hshort hdropped hlast
      hlate⟩
  · cases hnil

end EventPipeline

end Aspira
