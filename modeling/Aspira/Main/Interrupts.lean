import Aspira.Main.Graceful

/-!
# Main — Interrupts

The converse of `Main/Graceful.lean`: where `MainAt.Calm` fails a signal does harm.  The handler
runs `stop` to its end while `main` is in the middle of it, and `main` goes on to join what was joined;
or it joins threads that `start` has not created; or it closes the journal under the I/O thread, or
under a `main` that has closed it.  And where something fails after the logger was created, `main`
destroys the pipeline without `stop`, which would have joined the logger.

Each time the harm is a run to a step that is not defined (`Run.Fails`).
-/

namespace Aspira

namespace Process

variable {p : Process} {endless : Bool}

/-- A step of `main`, or of its handler, on the way to a step that is not defined. -/
theorem fails_main (ok : Bool) (p' : Process) (hgood : p.Good (.main ok))
    (hstep : p.mainTurn endless ok = some p') (h : Run.Fails (step endless) Good p') :
    Run.Fails (step endless) Good p :=
  .of_step (e := .main ok) hgood (by simp only [step, hstep]; rfl) h

/-- A turn of a thread on the way to a step that is not defined. -/
theorem fails_turn (t : ProcessTurn) (threads : Threads) (hgood : p.Good t)
    (hstep : p.step endless t = some ((), { p with threads := threads }))
    (h : Run.Fails (step endless) Good { p with threads := threads }) :
    Run.Fails (step endless) Good p := .of_step hgood hstep h

/-- A turn of the I/O thread on the way to a step that is not defined. -/
theorem fails_io {t : Threads} (hd : p.destroyed = false) (hn : ¬ p.Dangles)
    (ht : p.threads.ioTurn = t) (h : Run.Fails (step endless) Good { p with threads := t }) :
    Run.Fails (step endless) Good p := by
  subst ht
  refine fails_turn .io p.threads.ioTurn trivial ?_ h
  simp [step, hn, turn, hd]

/-- **The I/O thread writes to a journal that was closed**, as soon as there is an event. -/
theorem fails_of_dangling (hd : p.destroyed = false) (ha : p.attached = true)
    (hj : p.journal ≠ .opened) (hio : p.threads.io = .alive)
    (hmore : p.threads.consumer = .alive ∨ p.threads.filled ≠ 0 ∨ p.threads.hand = true) :
    Run.Fails (step endless) Good p := by
  -- with an event in its hand, with one in the queue, and with one to come
  have hhand : ∀ p : Process, p.destroyed = false → p.attached = true → p.journal ≠ .opened →
      p.threads.io = .alive → p.threads.hand = true → Run.Fails (step endless) Good p := by
    intro p hd ha hj hio hhand
    have hdangles : p.Dangles := ⟨hio, hhand, ha, hj⟩
    exact .of_none (e := .io) trivial (by simp only [step, if_pos hdangles]; rfl)
  have hfilled : ∀ p : Process, p.destroyed = false → p.attached = true → p.journal ≠ .opened →
      p.threads.io = .alive → p.threads.filled ≠ 0 → Run.Fails (step endless) Good p := by
    intro p hd ha hj hio hfilled
    by_cases hh : p.threads.hand = true
    · exact hhand p hd ha hj hio hh
    · refine fails_io hd (fun hn => hh hn.2.1) ?_
        (hhand { p with threads := { p.threads with filled := p.threads.filled - 1, hand := true } }
          hd ha hj hio rfl)
      simp [Threads.ioTurn, hio, hh, Nat.pos_of_ne_zero hfilled]
  rcases hmore with hc | hf | hh
  · refine fails_turn (.consumer true) { p.threads with filled := p.threads.filled + 1 } trivial ?_
      (hfilled _ hd ha hj hio (Nat.succ_ne_zero _))
    simp [step, turn, hd, Threads.consumerTurn, hc]
  · exact hfilled p hd ha hj hio hf
  · exact hhand p hd ha hj hio hh

/-- The I/O thread works its queue off and leaves. -/
theorem fails_of_drain (hd : p.destroyed = false) (hr : p.threads.running = false)
    (hio : p.threads.io = .alive) (hj : p.attached = true → p.journal = .opened)
    (h : Run.Fails (step endless) Good
      { p with threads := { p.threads with io := .exited, filled := 0, hand := false } }) :
    Run.Fails (step endless) Good p := by
  have hdangles : ∀ t : Threads, ¬ Dangles { p with threads := t } :=
    fun t hn => hn.2.2.2 (hj hn.2.2.1)
  -- by induction on the queue, with and without an event in its hand
  have hqueue : ∀ n, ∀ hand : Bool, Run.Fails (step endless) Good
      { p with threads := { p.threads with filled := n, hand := hand } } := by
    intro n
    induction n with
    | zero =>
        have hleaves : Run.Fails (step endless) Good
            { p with threads := { p.threads with filled := 0, hand := false } } := by
          refine fails_io hd (hdangles _) ?_ h
          simp [Threads.ioTurn, hio, hr]
        intro hand
        cases hand with
        | false => exact hleaves
        | true =>
            refine fails_io hd (hdangles _) ?_ hleaves
            simp [Threads.ioTurn, hio]
    | succ n ih =>
        have hpops : Run.Fails (step endless) Good
            { p with threads := { p.threads with filled := n + 1, hand := false } } := by
          refine fails_io hd (hdangles _) ?_ (ih true)
          simp [Threads.ioTurn, hio]
        intro hand
        cases hand with
        | false => exact hpops
        | true =>
            refine fails_io hd (hdangles _) ?_ hpops
            simp [Threads.ioTurn, hio]
  exact hqueue p.threads.filled p.threads.hand

section At

variable {m : MainAt} {h : Option FinishAt} {g gj a : Bool} {j : HandleAt} {t : Threads}

/-- A step of `stop` in the handler, on the way to a step that is not defined. -/
theorem fails_stop {c : StopAt} (next : Option StopAt) (t' : Threads)
    (hstep : t.stopStep c = some (next, t'))
    (hfails : Run.Fails (step endless) Good
      ⟨m, some (next.elim (.close .test) .stop), g, gj, j, a, false, t'⟩) :
    Run.Fails (step endless) Good ⟨m, some (.stop c), g, gj, j, a, false, t⟩ := by
  refine fails_main true _ (fun hn => by cases hn) ?_ hfails
  simp only [mainTurn, finishStep, stopStep, hstep]
  rfl

/-- The handler closes the journal, and `main` goes on. -/
theorem fails_close (hj : gj = true → j = .opened)
    (hfails : ∀ gj j, Run.Fails (step endless) Good ⟨m, none, g, gj, j, a, false, t⟩) :
    Run.Fails (step endless) Good ⟨m, some (.close .test), g, gj, j, a, false, t⟩ := by
  cases gj with
  | false => exact fails_main true _ (fun hn => by cases hn) rfl (hfails false j)
  | true =>
      obtain rfl := hj rfl
      refine fails_main true ⟨m, some (.close .close), g, true, .opened, a, false, t⟩
        (fun hn => by cases hn) rfl ?_
      refine fails_main true ⟨m, some (.close .null), g, true, .closed, a, false, t⟩
        (fun hn => by cases hn) rfl ?_
      exact fails_main true _ (fun hn => by cases hn) rfl (hfails false .closed)

/-- A turn of a thread that is not the I/O thread. -/
theorem fails_thread (e : ProcessTurn) (t' : Threads)
    (hgood : Good ⟨m, h, g, gj, j, a, false, t⟩ e)
    (hstep : step endless ⟨m, h, g, gj, j, a, false, t⟩ e =
      some ((), ⟨m, h, g, gj, j, a, false, t'⟩))
    (hfails : Run.Fails (step endless) Good ⟨m, h, g, gj, j, a, false, t'⟩) :
    Run.Fails (step endless) Good ⟨m, h, g, gj, j, a, false, t⟩ := .of_step hgood hstep hfails

/-- **A signal while `stop` is about to clear `running_`**: the handler runs `stop` to its end, and
`main` joins the consumer once more. -/
theorem fails_of_clear (ht : t.Stopping 0) (ha : a = true → j = .opened)
    (hj : gj = true → j = .opened) :
    Run.Fails (step endless) Good
      ⟨.finish (.stop .clear), some (.stop .test), g, gj, j, a, false, t⟩ := by
  obtain ⟨running, feedRunning, loggerRunning, feed, consumer, io, logger, filled, hand⟩ := t
  obtain rfl : running = true := ht.running
  obtain rfl : feedRunning = true := ht.feedRunning
  obtain rfl : loggerRunning = true := ht.loggerRunning
  obtain rfl : consumer = .alive := ht.consumer.alive (by decide)
  obtain rfl : feed = .alive := ht.feed.alive (by decide)
  obtain rfl : io = .alive := ht.io.alive (by decide)
  obtain rfl : logger = .alive := ht.logger.alive (by decide)
  refine fails_stop (some .clear) ⟨true, true, true, .alive, .alive, .alive, .alive, filled, hand⟩
    rfl ?_
  refine fails_stop (some .joinConsumer)
    ⟨false, true, true, .alive, .alive, .alive, .alive, filled, hand⟩ rfl ?_
  refine fails_thread (.consumer false)
    ⟨false, true, true, .alive, .exited, .alive, .alive, filled, hand⟩ trivial rfl ?_
  refine fails_stop (some .clearFeed)
    ⟨false, true, true, .alive, .joined, .alive, .alive, filled, hand⟩ rfl ?_
  refine fails_stop (some .joinFeed)
    ⟨false, false, true, .alive, .joined, .alive, .alive, filled, hand⟩ rfl ?_
  refine fails_thread .feed
    ⟨false, false, true, .exited, .joined, .alive, .alive, filled, hand⟩ trivial rfl ?_
  refine fails_stop (some .joinIo)
    ⟨false, false, true, .joined, .joined, .alive, .alive, filled, hand⟩ rfl ?_
  refine fails_of_drain rfl rfl rfl ha ?_
  show Run.Fails (step endless) Good ⟨.finish (.stop .clear), some (.stop .joinIo), g, gj, j, a, false,
    ⟨false, false, true, .joined, .joined, .exited, .alive, 0, false⟩⟩
  refine fails_stop (some .clearLogger)
    ⟨false, false, true, .joined, .joined, .joined, .alive, 0, false⟩ rfl ?_
  refine fails_stop (some .joinLogger)
    ⟨false, false, false, .joined, .joined, .joined, .alive, 0, false⟩ rfl ?_
  refine fails_thread .logger
    ⟨false, false, false, .joined, .joined, .joined, .exited, 0, false⟩ trivial rfl ?_
  refine fails_stop none ⟨false, false, false, .joined, .joined, .joined, .joined, 0, false⟩ rfl ?_
  refine fails_close hj fun gj j => ?_
  -- `main` goes on
  refine fails_main true ⟨.finish (.stop .joinConsumer), none, g, gj, j, a, false,
    ⟨false, false, false, .joined, .joined, .joined, .joined, 0, false⟩⟩
    (fun _ hn => by cases hn) rfl ?_
  exact .of_none (e := .main true) (fun _ hn => by cases hn) rfl

/-- The handler has closed the journal. -/
theorem fails_of_closed (hr : t.running = false)
    (hfails : Run.Fails (step endless) Good ⟨m, some (.close .null), g, true, .closed, a, false, t⟩) :
    Run.Fails (step endless) Good ⟨m, some (.stop .test), g, true, .opened, a, false, t⟩ := by
  refine fails_stop none t (by rw [Threads.stopStep, if_neg (by simp [hr])]) ?_
  refine fails_main true ⟨m, some (.close .close), g, true, .opened, a, false, t⟩
    (fun hn => by cases hn) rfl ?_
  exact fails_main true _ (fun hn => by cases hn) rfl hfails

/-- **A signal after `set_journal`, before the threads run**: the handler closes the journal, and the
pipeline goes on with it.  `create` says that `feed_start` is still to come. -/
theorem fails_of_attached (create : Bool) (ht : t.Starting true (if create then 0 else 1)) :
    Run.Fails (step endless) Good
      ⟨if create then .startFeed else .setRunning, some (.stop .test), g, true, .opened, true, false,
        t⟩ := by
  have hset : Run.Fails (step endless) Good ⟨.setRunning, none, g, false, .closed, true, false,
      ⟨false, true, true, .alive, .absent, .absent, .alive, 0, false⟩⟩ := by
    refine fails_main true ⟨.createIo, none, g, false, .closed, true, false,
      ⟨true, true, true, .alive, .absent, .absent, .alive, 0, false⟩⟩ (fun _ _ => rfl) rfl ?_
    refine fails_main true ⟨.createConsumer, none, g, false, .closed, true, false,
      ⟨true, true, true, .alive, .absent, .alive, .alive, 0, false⟩⟩ (fun _ _ => rfl) rfl ?_
    refine fails_main true ⟨.serving, none, g, false, .closed, true, false,
      ⟨true, true, true, .alive, .alive, .alive, .alive, 0, false⟩⟩ (fun _ _ => rfl) rfl ?_
    exact fails_of_dangling rfl rfl HandleAt.noConfusion rfl (.inl rfl)
  subst ht
  refine fails_of_closed (by cases create <;> rfl) ?_
  cases create with
  | false => exact fails_main true _ (fun hn => by cases hn) rfl hset
  | true =>
      refine fails_main true ⟨.startFeed, none, g, false, .closed, true, false,
        ⟨false, false, true, .absent, .absent, .absent, .alive, 0, false⟩⟩
        (fun hn => by cases hn) rfl ?_
      exact fails_main true _ (fun _ _ => rfl) rfl hset

/-- **A signal while `start` creates the threads**: the handler joins the consumer, which is not
there. -/
theorem fails_of_running (hr : t.running = true) (hc : t.consumer = .absent) :
    Run.Fails (step endless) Good ⟨m, some (.stop .test), g, gj, j, a, false, t⟩ := by
  refine fails_stop (some .clear) t (by rw [Threads.stopStep, if_pos hr]) ?_
  refine fails_stop (some .joinConsumer) { t with running := false } rfl ?_
  refine .of_none (e := .main true) (fun hn => by cases hn) ?_
  simp [step, mainTurn, finishStep, stopStep, Threads.stopStep, hc, ThreadAt.join]

/-- **A signal between `journal_close` and the reset of `g_journal`**: the handler closes the journal
once more. -/
theorem fails_of_null (hr : t.running = false) (hj : j ≠ .opened) :
    Run.Fails (step endless) Good ⟨m, some (.stop .test), g, true, j, a, false, t⟩ := by
  refine fails_stop none t (by rw [Threads.stopStep, if_neg (by simp [hr])]) ?_
  refine fails_main true ⟨m, some (.close .close), g, true, j, a, false, t⟩
    (fun hn => by cases hn) rfl ?_
  refine .of_none (e := .main true) (fun hn => by cases hn) ?_
  simp [step, mainTurn, finishStep, closeStep, hj]

/-- **The pipeline is destroyed, and its logger is not stopped.** -/
theorem fails_of_logger (hr : t.running = false) (hl : t.logger = .alive)
    (hj : gj = true → j = .opened) :
    Run.Fails (step endless) Good ⟨.finish (.close .test), none, g, gj, j, a, false, t⟩ := by
  have hleave : ∀ gj j, Run.Fails (step endless) Good ⟨.leave .test, none, g, gj, j, a, false, t⟩ := by
    intro gj j
    refine fails_main true ⟨.destroy, none, g, gj, j, a, false, t⟩ (fun _ hn => by cases hn) ?_ ?_
    · simp [mainTurn, Process.mainStep, stopStep, Threads.stopStep, hr]
    · refine fails_main true ⟨.ended, none, g, gj, j, a, true, t⟩ (fun _ hn => by cases hn) rfl ?_
      exact .of_none (e := .logger) trivial (by simp [step, turn, hl])
  cases gj with
  | false => exact fails_main true _ (fun _ hn => by cases hn) rfl (hleave false j)
  | true =>
      obtain rfl := hj rfl
      refine fails_main true ⟨.finish (.close .close), none, g, true, .opened, a, false, t⟩
        (fun _ hn => by cases hn) rfl ?_
      refine fails_main true ⟨.finish (.close .null), none, g, true, .closed, a, false, t⟩
        (fun _ hn => by cases hn) rfl ?_
      exact fails_main true _ (fun _ hn => by cases hn) rfl (hleave false .closed)

/-- `start` joins the feed and fails. -/
theorem fails_of_unwind (hj : gj = true → j = .opened) {io : ThreadAt} (filled : ℕ) (hand : Bool) :
    Run.Fails (step endless) Good ⟨.unwind .clearFeed, none, g, gj, j, a, false,
      ⟨false, true, true, .alive, .absent, io, .alive, filled, hand⟩⟩ := by
  refine fails_main true ⟨.unwind .joinFeed, none, g, gj, j, a, false,
    ⟨false, false, true, .alive, .absent, io, .alive, filled, hand⟩⟩ (fun _ hn => by cases hn) rfl ?_
  refine fails_thread .feed ⟨false, false, true, .exited, .absent, io, .alive, filled, hand⟩ trivial
    rfl ?_
  refine fails_main true ⟨.finish (.close .test), none, g, gj, j, a, false,
    ⟨false, false, true, .joined, .absent, io, .alive, filled, hand⟩⟩ (fun _ hn => by cases hn) rfl ?_
  exact fails_of_logger rfl rfl hj

end At

end Process

/-- While `stop` is under way, either the I/O thread is done with the journal or it may need it. -/
theorem Threads.Stopping.needs {t : Threads} {n : ℕ} (h : t.Stopping n) (hn : ¬ t.Drained) :
    t.io = .alive ∧ (t.consumer = .alive ∨ t.filled ≠ 0 ∨ t.hand = true) := by
  have hlive : ∀ {up till : ℕ} {x : ThreadAt}, x.Fits up till n → x.returned ≠ true → x = .alive := by
    intro up till x hx hr
    rcases lt_or_ge n till with hlt | hge
    · refine (hx.waits hlt).resolve_right fun he => hr ?_
      rw [he]
      rfl
    · refine absurd ?_ hr
      rw [hx.joined hge]
      rfl
  simp only [Threads.Drained, not_or, not_and] at hn
  refine ⟨hlive h.io hn.1, ?_⟩
  by_cases hc : t.consumer.returned = true
  · by_cases hf : t.filled = 0
    · exact .inr (.inr (Bool.eq_true_of_not_eq_false (hn.2 hc hf)))
    · exact .inr (.inl hf)
  · exact .inl (hlive h.consumer hc)

namespace Process

variable {p : Process} {endless : Bool}

/-! ### Where a signal does harm -/

/-- **A signal that comes where `MainAt.Calm` fails** is on the way to a step that is not defined. -/
theorem fails_of_signal (h : p.Sound) (hh : p.handler = none) (hcalm : ¬ p.main.Calm p) :
    Run.Fails (step endless) Good p.interrupted := by
  have hp := h.placed
  simp only [Placed, hh] at hp
  have hg : p.gPipeline = true := by
    refine h.registered.resolve_right ?_
    rintro (hmain | hmain) <;> rw [hmain] at hcalm <;> exact hcalm trivial
  have hattaches := h.attaches
  have hclosing := h.closing
  have hopened := h.opened
  have hdrained := h.attached
  have hdestroyed := h.destroyed
  obtain ⟨m, handler, g, gj, j, a, d, t⟩ := p
  simp only at hh hg hp hattaches hopened hdrained hdestroyed
  subst hh hg
  have hd : m ≠ .ended → d = false := fun hne => Bool.eq_false_of_not_eq_true (mt hdestroyed.mp hne)
  have hopen : m ≠ .finish (.close .null) → gj = true → j = .opened := fun hne hj =>
    (hopened hj).resolve_right (by simp [Closing, hne])
  cases m with
  | startFeed =>
      have hj : gj = true := Bool.eq_true_of_not_eq_false hcalm
      obtain rfl := hd (by simp)
      obtain rfl := hopen (by simp) hj
      obtain rfl := hattaches rfl hj
      subst hj
      exact fails_of_attached true hp.1
  | setRunning =>
      have hj : gj = true := Bool.eq_true_of_not_eq_false hcalm
      obtain rfl := hd (by simp)
      obtain rfl := hopen (by simp) hj
      obtain rfl := hattaches rfl hj
      subst hj
      exact fails_of_attached false hp.1
  | createIo =>
      obtain rfl := hd (by simp)
      have hs : t.Starting true 2 := hp
      exact fails_of_running (by rw [hs]; rfl) (by rw [hs]; rfl)
  | createConsumer =>
      obtain rfl := hd (by simp)
      have hs : t.Starting true 3 := hp
      exact fails_of_running (by rw [hs]; rfl) (by rw [hs]; rfl)
  | unwind c => exact hp.elim
  | finish c =>
      obtain rfl := hd (by simp)
      cases c with
      | close c =>
          cases c with
          | null =>
              have hj : gj = true := Bool.eq_true_of_not_eq_false hcalm
              subst hj
              exact fails_of_null (Process.Quiet.running hp) (hclosing (.inr ⟨rfl, rfl⟩))
          | _ => exact absurd trivial hcalm
      | stop c =>
          cases c with
          | test => exact absurd trivial hcalm
          | clear =>
              have hs : t.Stopping 0 := hp
              have hnot : ¬ t.Drained := by
                rintro (hr | ⟨hr, -⟩)
                · rw [hs.io.alive (by decide)] at hr
                  cases hr
                · rw [hs.consumer.alive (by decide)] at hr
                  cases hr
              exact fails_of_clear hs (fun ha => (hdrained ha).resolve_right hnot) (hopen (by simp))
          | _ =>
              -- the I/O thread still needs the journal
              have hs : t.Stopping _ := hp
              obtain ⟨hj, hnot⟩ := Classical.not_imp.mp hcalm
              obtain rfl := hopen (by simp) hj
              obtain rfl := hattaches rfl hj
              subst hj
              have hrun : t.running = false := hs.running
              obtain ⟨hio, hmore⟩ := hs.needs hnot
              exact fails_of_closed hrun (fails_of_dangling rfl rfl HandleAt.noConfusion hio hmore)
  | leave c =>
      obtain ⟨rfl, -⟩ := hp
      exact absurd trivial hcalm
  | ended =>
      obtain rfl := hdestroyed.mpr rfl
      exact .of_none (e := .main true) (fun hn => by cases hn) rfl
  | openJournal => exact absurd trivial hcalm
  | construct => exact absurd trivial hcalm
  | initLogger => exact absurd trivial hcalm
  | initRest => exact absurd trivial hcalm
  | testJournal => exact absurd trivial hcalm
  | attach => exact absurd trivial hcalm
  | serving => exact absurd trivial hcalm
  | destroy => exact absurd trivial hcalm

/-- **A failure where `main` cannot take back what it has done** is on the way to a step that is not
defined. -/
theorem fails_of_failure (h : p.Sound) (hh : p.handler = none) (hc : p.main.creates = true) :
    ∃ p', p.mainStep endless false = some p' ∧ Run.Fails (step endless) Good p' := by
  have hp := h.placed
  simp only [Placed, hh] at hp
  have hopened := h.opened
  have hdestroyed := h.destroyed
  obtain ⟨m, handler, g, gj, j, a, d, t⟩ := p
  simp only at hh hp hopened hdestroyed hc
  subst hh
  have hopen : gj = true → j = .opened := fun hj =>
    (hopened hj).resolve_right fun hn => by
      rcases hn with hn | ⟨-, hn⟩
      · cases hn
      · rw [show m = .finish (.close .null) from hn] at hc
        cases hc
  obtain rfl : d = false := Bool.eq_false_of_not_eq_true fun hd => by
    rw [hdestroyed.mp hd] at hc
    cases hc
  cases m with
  | initRest =>
      obtain ⟨rfl, -⟩ := hp
      exact ⟨_, rfl, fails_of_logger rfl rfl hopen⟩
  | startFeed =>
      obtain ⟨rfl, -⟩ := hp
      exact ⟨_, rfl, fails_of_logger rfl rfl hopen⟩
  | createIo =>
      obtain rfl : t = _ := hp
      refine ⟨_, rfl, ?_⟩
      refine fails_main true ⟨.unwind .clearFeed, none, g, gj, j, a, false,
        ⟨false, true, true, .alive, .absent, .absent, .alive, 0, false⟩⟩
        (fun _ hn => by cases hn) rfl ?_
      exact fails_of_unwind hopen 0 false
  | createConsumer =>
      obtain rfl : t = _ := hp
      refine ⟨_, rfl, ?_⟩
      refine fails_main true ⟨.unwind .joinIo, none, g, gj, j, a, false,
        ⟨false, true, true, .alive, .absent, .alive, .alive, 0, false⟩⟩ (fun _ hn => by cases hn) rfl ?_
      refine fails_io rfl (fun hn => by cases hn.2.1) rfl ?_
      refine fails_main true ⟨.unwind .clearFeed, none, g, gj, j, a, false,
        ⟨false, true, true, .alive, .absent, .joined, .alive, 0, false⟩⟩
        (fun _ hn => by cases hn) rfl ?_
      exact fails_of_unwind hopen 0 false
  | _ => cases hc

/-- **The steps that do no harm are exactly the good ones.**  After any run of good steps, every step
is defined; and from there a run of good steps can come to one that is not if, and only if, the step
was a signal that came where `MainAt.Calm` fails, or a failure after the logger was created. -/
theorem good_iff (endless : Bool) {es : List ProcessTurn}
    (h : Run.Along (step endless) Good start es) (t : ProcessTurn) :
    ∃ rs p r p', Run.exec (step endless) start es = some (rs, p) ∧
      step endless p t = some (r, p') ∧ (p.Good t ↔ ¬ Run.Fails (step endless) Good p') := by
  have hkeep := fun s e (hs : Sound s) hg => Sound.step hs endless (t := e) hg
  obtain ⟨rs, p, hexec, hp⟩ := Run.exec_of_step hkeep sound_start h
  by_cases hgood : p.Good t
  · obtain ⟨r, p', hstep, hp'⟩ := hp.step endless hgood
    exact ⟨rs, p, r, p', hexec, hstep, iff_of_true hgood (Run.not_fails hkeep hp')⟩
  · have hfails : ∃ r p', step endless p t = some (r, p') ∧ Run.Fails (step endless) Good p' := by
      cases t with
      | main ok =>
          simp only [Good, Classical.not_imp] at hgood
          obtain ⟨hh, hc, hok⟩ := hgood
          obtain rfl := Bool.eq_false_of_not_eq_true hok
          obtain ⟨p', hstep, hfails⟩ := fails_of_failure (p := p) hp hh hc
          refine ⟨(), p', ?_, hfails⟩
          simp only [step, mainTurn, hh, hstep]
          rfl
      | signal =>
          obtain ⟨hh, hcalm⟩ := Classical.not_imp.mp hgood
          exact ⟨(), _, rfl, fails_of_signal hp hh hcalm⟩
      | _ => exact absurd trivial hgood
    obtain ⟨r, p', hstep, hf⟩ := hfails
    exact ⟨rs, p, r, p', hexec, hstep, iff_of_false hgood (not_not_intro hf)⟩

/-- A signal while the duration is over and `stop` is about to clear the flag. -/
theorem good_iff_finishing :
    Run.Along (step false) Good start
      (List.replicate 10 (.main true) ++ List.replicate 2 (.main false)) ∧
    ∃ rs p r p', Run.exec (step false) start
        (List.replicate 10 (.main true) ++ List.replicate 2 (.main false)) = some (rs, p) ∧
      step false p .signal = some (r, p') ∧
      (p.Good .signal ↔ ¬ Run.Fails (step false) Good p') :=
  ⟨by decide, good_iff false (by decide) .signal⟩

end Process

end Aspira
