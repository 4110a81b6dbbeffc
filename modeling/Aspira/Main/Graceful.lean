import Aspira.Main.Process

/-!
# Main — Graceful

The runs of the process whose signals do no harm.  `Sound` holds all along them: the turns of the
threads keep it (`Sound.turned`), and so do a signal (`Sound.interrupted`), the steps of the handler
(`Sound.handlerStep`) and those of `main` (`Sound.mainStep`).
-/

namespace Aspira

variable {p : Process}

theorem MainAt.Fits.turned {c : MainAt} (h : c.Fits p) {t : Threads} (ht : p.threads.Turned t) :
    c.Fits { p with threads := t } := by
  have hsame : ∀ l n, p.threads.Starting l n → c.Fits { p with threads := t } := by
    intro l n hl
    obtain rfl := ht.starting l n hl
    exact h
  have hsettled : p.threads.Settled → t.Settled := Or.imp (ht.stopping 0) (ht.stopping 7)
  have hquiet : p.Quiet → Process.Quiet { p with threads := t } := by
    refine Or.imp (fun hq => ⟨?_, hq.2⟩) (ht.stopping 7)
    exact (ht.starting false 0 hq.1).trans hq.1
  cases c with
  | openJournal => exact hsame false 0 h.1
  | construct => exact hsame false 0 h.1
  | initLogger => exact hsame false 0 h.1
  | initRest => exact hsame true 0 h.1
  | testJournal => exact hsame true 0 h.1
  | attach => exact hsame true 0 h.1
  | startFeed => exact hsame true 0 h.1
  | setRunning => exact hsame true 1 h.1
  | createIo => exact hsame true 2 h
  | createConsumer => exact hsame true 3 h
  | unwind c => exact h
  | serving => exact hsettled h
  | finish c =>
      cases c with
      | stop c =>
          cases c with
          | test => exact hsettled h
          | _ => exact ht.stopping _ h
      | close c => exact hquiet h
  | leave c => exact ⟨h.1, hquiet h.2.1, h.2.2⟩
  | destroy => exact ⟨hquiet h.1, h.2⟩
  | ended => exact ⟨hquiet h.1, h.2⟩

/-- Nothing that a signal must not do becomes possible. -/
theorem MainAt.Calm.mono {c : MainAt} {p' : Process} (h : c.Calm p)
    (hnull : p'.gJournal = true → p.gJournal = true)
    (hdrained : p.threads.Drained → p'.threads.Drained) : c.Calm p' := by
  have hgone : p.gJournal = false → p'.gJournal = false := by
    simpa only [← Bool.not_eq_true, not_imp_not] using hnull
  have hstop : ∀ c : StopAt, c.Calm p → c.Calm p' := by
    intro c hc
    cases c with
    | test => trivial
    | clear => exact hc
    | _ => exact fun hj => hdrained (hc (hnull hj))
  cases c with
  | startFeed => exact hgone h
  | setRunning => exact hgone h
  | finish c =>
      cases c with
      | stop c => exact hstop c h
      | close c =>
          cases c with
          | null => exact hgone h
          | _ => trivial
  | leave c => exact hstop c h
  | _ => exact h

namespace Process

theorem Sound.turned (h : p.Sound) {t : Threads} (ht : p.threads.Turned t) :
    Sound { p with threads := t } where
  placed := by
    have hp := h.placed
    unfold Placed at hp ⊢
    match hh : p.handler with
    | none => simp only [hh] at hp ⊢; exact hp.turned ht
    | some (.stop c) =>
        cases c with
        | test => simp only [hh] at hp ⊢; exact hp.turned ht
        | _ => simp only [hh] at hp ⊢; exact ⟨ht.stopping _ hp.1, hp.2⟩
    | some (.close c) => simp only [hh] at hp ⊢; exact ⟨hp.1.turned ht, ht.running.trans hp.2⟩
  calm hh := (h.calm hh).mono id ht.drained
  opened := h.opened
  known := h.known
  closing := h.closing
  attached ha := (h.attached ha).imp_right ht.drained
  attaches := h.attaches
  destroyed := h.destroyed
  registered := h.registered

/-- When the pipeline is gone no thread is alive. -/
theorem Sound.not_alive (h : p.Sound) (hd : p.destroyed = true) :
    p.threads.feed ≠ .alive ∧ p.threads.consumer ≠ .alive ∧ p.threads.io ≠ .alive ∧
      p.threads.logger ≠ .alive := by
  have hmain := h.destroyed.mp hd
  have hnone : p.handler = none := by
    by_contra hne
    have hcalm := h.calm hne
    rw [hmain] at hcalm
    exact hcalm
  have hp := h.placed
  rw [Placed, hnone, hmain] at hp
  rcases hp.1 with ⟨hinit, -⟩ | hstop
  · rw [hinit]
    decide
  · have hseven := And.intro (hstop.feed.joined (by decide)) (hstop.consumer.joined (by decide))
    simp [hseven, hstop.io.joined (by decide), hstop.logger.joined (by decide)]

/-- **A turn of a thread.** -/
theorem Sound.turn (h : p.Sound) {thread : ThreadAt} {t : Threads}
    (hthread : p.destroyed = true → thread ≠ .alive) (ht : p.threads.Turned t) :
    ∃ p', p.turn thread t = some p' ∧ p'.Sound :=
  ⟨_, if_neg fun hn => hthread hn.2 hn.1, h.turned ht⟩

/-- The journal is there as long as the I/O thread writes to it. -/
theorem Sound.not_dangles (h : p.Sound) : ¬ p.Dangles := by
  rintro ⟨hio, hhand, ha, hopened⟩
  rcases h.attached ha with ho | hd | ⟨-, -, hd⟩
  · exact hopened ho
  · rw [hio] at hd
    cases hd
  · rw [hhand] at hd
    cases hd

end Process

/-! ### The handler -/

theorem Threads.Settled.running {t : Threads} (h : t.Settled) (hr : t.running = true) :
    t.Stopping 0 := by
  refine h.resolve_right fun h => ?_
  rw [h.running] at hr
  cases hr

theorem Threads.Settled.stopped {t : Threads} (h : t.Settled) (hr : t.running = false) :
    t.Stopping 7 := by
  refine h.resolve_left fun h => ?_
  rw [h.running] at hr
  cases hr

theorem Process.Quiet.running (h : p.Quiet) : p.threads.running = false := by
  rcases h with ⟨h, -⟩ | h
  · rw [h]
    rfl
  · exact h.running

theorem Process.Quiet.drained (h : p.Quiet) (ha : p.attached = true) : p.threads.Drained := by
  rcases h with ⟨-, h⟩ | h
  · rw [ha] at h
    cases h
  · refine .inl ?_
    rw [h.io.joined (by decide)]
    rfl

/-- **Where a signal finds the threads running**, and does no harm. -/
theorem MainAt.Fits.serving {c : MainAt} (h : c.Fits p) (hcalm : c.Calm p)
    (hr : p.threads.running = true) :
    p.threads.Stopping 0 ∧ (c = .serving ∨ c = .finish (.stop .test)) := by
  have hno : ∀ l n, n ≤ 1 → ¬ p.threads.Starting l n := by
    intro l n hn hl
    rw [hl, decide_eq_true_eq] at hr
    omega
  have hquiet : ¬ p.Quiet := fun hq => by
    rw [hq.running] at hr
    cases hr
  cases c with
  | openJournal => exact absurd h.1 (hno false 0 (by decide))
  | construct => exact absurd h.1 (hno false 0 (by decide))
  | initLogger => exact absurd h.1 (hno false 0 (by decide))
  | initRest => exact absurd h.1 (hno true 0 (by decide))
  | testJournal => exact absurd h.1 (hno true 0 (by decide))
  | attach => exact absurd h.1 (hno true 0 (by decide))
  | startFeed => exact absurd h.1 (hno true 0 (by decide))
  | setRunning => exact absurd h.1 (hno true 1 (by decide))
  | createIo => exact hcalm.elim
  | createConsumer => exact hcalm.elim
  | unwind c => exact h.elim
  | serving => exact ⟨Threads.Settled.running h hr, .inl rfl⟩
  | finish c =>
      cases c with
      | stop c =>
          cases c with
          | test => exact ⟨Threads.Settled.running h hr, .inr rfl⟩
          | clear => exact hcalm.elim
          | _ =>
              have hrun := Threads.Stopping.running h
              rw [hr] at hrun
              cases hrun
      | close c => exact absurd h hquiet
  | leave c => exact absurd h.2.1 hquiet
  | destroy => exact absurd h.1 hquiet
  | ended => exact hcalm.elim

/-- **Where a signal finds the threads not running**, and does no harm, nobody needs the journal. -/
theorem MainAt.Fits.drained {c : MainAt} (h : c.Fits p) (hcalm : c.Calm p)
    (hr : p.threads.running = false) (hj : p.gJournal = true) (ha : p.attached = true) :
    p.threads.Drained := by
  have hno : p.attached ≠ false := fun hn => by
    rw [ha] at hn
    cases hn
  have hnull : p.gJournal ≠ false := fun hn => by
    rw [hj] at hn
    cases hn
  have hstopped : ∀ n, 5 ≤ n → p.threads.Stopping n → p.threads.Drained := by
    intro n hn hs
    refine .inl ?_
    rw [hs.io.joined hn]
    rfl
  cases c with
  | openJournal => exact absurd h.2.1 hno
  | construct => exact absurd h.2 hno
  | initLogger => exact absurd h.2 hno
  | initRest => exact absurd h.2 hno
  | testJournal => exact absurd h.2 hno
  | attach => exact absurd h.2 hno
  | startFeed => exact absurd hcalm hnull
  | setRunning => exact absurd hcalm hnull
  | createIo => exact hcalm.elim
  | createConsumer => exact hcalm.elim
  | unwind c => exact h.elim
  | serving => exact hstopped 7 (by decide) (Threads.Settled.stopped h hr)
  | finish c =>
      cases c with
      | stop c =>
          cases c with
          | test => exact hstopped 7 (by decide) (Threads.Settled.stopped h hr)
          | clear => exact hcalm.elim
          | _ => exact hcalm hj
      | close c => exact Process.Quiet.drained h ha
  | leave c => exact h.2.1.drained ha
  | destroy => exact h.1.drained ha
  | ended => exact hcalm.elim

/-- The handler closes the journal and resets `g_journal`, under a `main` that it does no harm to. -/
theorem MainAt.Fits.closed {c : MainAt} {p' : Process} (h : c.Fits p) (hcalm : c.Calm p)
    (ht : p'.threads = p.threads) (ha : p'.attached = p.attached)
    (hj : p'.gJournal = true → p.gJournal = true) : c.Fits p' := by
  have hgone : p.gJournal = false → p'.gJournal = false := by
    simpa only [← Bool.not_eq_true, not_imp_not] using hj
  have hno : p.gJournal = false → (p.attached = true → p.gJournal = true) →
      p'.attached = true → p'.gJournal = true := by
    intro hnull himp hatt
    rw [himp (ha ▸ hatt)] at hnull
    cases hnull
  have hquiet : p.Quiet → p'.Quiet := by
    unfold Process.Quiet
    rw [ht, ha]
    exact id
  have hsettled : p.threads.Settled → p'.threads.Settled := by
    rw [ht]
    exact id
  have hstopping : ∀ n, p.threads.Stopping n → p'.threads.Stopping n := by
    rw [ht]
    exact fun _ => id
  cases c with
  | openJournal => exact ⟨ht ▸ h.1, ha ▸ h.2.1, hgone h.2.2⟩
  | construct => exact ⟨ht ▸ h.1, ha ▸ h.2⟩
  | initLogger => exact ⟨ht ▸ h.1, ha ▸ h.2⟩
  | initRest => exact ⟨ht ▸ h.1, ha ▸ h.2⟩
  | testJournal => exact ⟨ht ▸ h.1, ha ▸ h.2⟩
  | attach => exact ⟨ht ▸ h.1, ha ▸ h.2⟩
  | startFeed => exact ⟨ht ▸ h.1, hno hcalm h.2⟩
  | setRunning => exact ⟨ht ▸ h.1, hno hcalm h.2⟩
  | createIo => exact hcalm.elim
  | createConsumer => exact hcalm.elim
  | unwind c => exact h.elim
  | serving => exact hsettled h
  | finish c =>
      cases c with
      | stop c =>
          cases c with
          | test => exact hsettled h
          | clear => exact hcalm.elim
          | _ => exact hstopping _ h
      | close c => exact hquiet h
  | leave c => exact ⟨h.1, hquiet h.2.1, hgone h.2.2⟩
  | destroy => exact ⟨hquiet h.1, hgone h.2⟩
  | ended => exact hcalm.elim

namespace Process

/-- **A signal**, where it does no harm. -/
theorem Sound.interrupted (h : p.Sound) (hcalm : p.handler = none → p.main.Calm p) :
    p.interrupted.Sound := by
  unfold Process.interrupted
  cases hh : p.handler with
  | some c => exact h
  | none =>
      have hp := h.placed
      rw [Placed, hh] at hp
      have hopen : p.gJournal = true → p.journal = .opened := by
        intro hj
        refine (h.opened hj).resolve_right ?_
        rintro (hn | ⟨-, hmain⟩)
        · rw [hh] at hn
          cases hn
        · have hnull := hcalm hh
          rw [hmain] at hnull
          exact absurd hj (ne_of_eq_of_ne hnull Bool.false_ne_true)
      refine ⟨?_, fun _ => hcalm hh, fun hj => .inl (hopen hj), h.known, ?_, h.attached, h.attaches,
        h.destroyed, h.registered⟩
      · by_cases hg : p.gPipeline = true
        · simp only [Placed, hg, if_true]
          exact hp
        · simp only [Placed, hg]
          refine ⟨hp, ?_⟩
          rcases h.registered.resolve_left hg with hmain | hmain
          · rw [hmain] at hp
            exact congrArg Threads.running hp.1
          · rw [hmain] at hp
            exact congrArg Threads.running hp.1
      · rintro (hn | ⟨hn, -⟩)
        · cases hg : p.gPipeline <;> simp [hg] at hn
        · cases hn

theorem stopStep_of (hd : p.destroyed = false) (c : StopAt) :
    p.stopStep c = (p.threads.stopStep c).map fun r => (r.1, { p with threads := r.2 }) := by
  rw [stopStep, if_neg (ne_of_eq_of_ne hd Bool.false_ne_true)]

theorem stopStep_test (hd : p.destroyed = false) :
    p.stopStep .test = some (if p.threads.running then some .clear else none, p) := by
  rw [stopStep_of hd]
  rfl

/-- A handler is about to close the journal, or to reset `g_journal`: what it does to the rest. -/
theorem Sound.handlerClose (h : p.Sound) {c : CloseAt} (hh : p.handler = some (.close c)) :
    ∃ next p', p.closeStep c = some (next, p') ∧ Sound { p' with handler := next } := by
  have hp := h.placed
  simp only [Placed, hh] at hp
  have hcalm := h.calm (by rw [hh]; exact Option.some_ne_none _)
  cases c with
  | test =>
      by_cases hj : p.gJournal = true
      · have hopen := (h.opened hj).resolve_right (by simp [Closing, hh])
        refine ⟨some (.close .close), p, by rw [closeStep, if_pos hj], ?_⟩
        exact ⟨hp, fun _ => hcalm, fun _ => .inl hopen, h.known, by simp [Closing], h.attached,
          h.attaches, h.destroyed, h.registered⟩
      · refine ⟨none, p, by rw [closeStep, if_neg hj], ?_⟩
        exact ⟨hp.1, fun hn => absurd rfl hn, fun hj' => absurd hj' hj, h.known,
          fun _ ho => hj (h.known ho), h.attached, h.attaches, h.destroyed, h.registered⟩
  | close =>
      by_cases hj : p.gJournal = true
      · have hopen := (h.opened hj).resolve_right (by simp [Closing, hh])
        refine ⟨some (.close .null), { p with journal := .closed }, ?_, ?_⟩
        · rw [closeStep, if_pos hj, if_pos hopen]
        · exact ⟨⟨hp.1.closed hcalm rfl rfl id, hp.2⟩, fun _ => hcalm, fun _ => .inr (.inl rfl),
            fun ho => (by cases ho), fun _ ho => (by cases ho),
            fun ha => .inr (hp.1.drained hcalm hp.2 hj ha), h.attaches, h.destroyed, h.registered⟩
      · refine ⟨some (.close .null), p, by rw [closeStep, if_neg hj], ?_⟩
        exact ⟨hp, fun _ => hcalm, fun _ => .inr (.inl rfl), h.known, fun _ ho => hj (h.known ho),
          h.attached, h.attaches, h.destroyed, h.registered⟩
  | null =>
      have hclosed := h.closing (.inl hh)
      refine ⟨_, _, rfl, ?_⟩
      exact ⟨hp.1.closed hcalm rfl rfl (fun hj => by cases hj), fun hn => absurd rfl hn,
        fun hj => (by cases hj), fun ho => absurd ho hclosed, fun _ => hclosed, h.attached,
        fun _ hj => (by cases hj), h.destroyed, h.registered⟩

/-- **A step of the handler.** -/
theorem Sound.handlerStep (h : p.Sound) {c : FinishAt} (hh : p.handler = some c) :
    ∃ next p', p.finishStep c = some (next, p') ∧ Sound { p' with handler := next } := by
  have hp := h.placed
  simp only [Placed, hh] at hp
  have hcalm := h.calm (by rw [hh]; exact Option.some_ne_none _)
  have hdestroyed : p.destroyed = false := by
    rw [← Bool.not_eq_true, h.destroyed]
    intro hmain
    rw [hmain] at hcalm
    exact hcalm
  cases c with
  | close c => exact h.handlerClose hh
  | stop c =>
      have hopen : p.gJournal = true → p.journal = .opened :=
        fun hj => (h.opened hj).resolve_right (by simp [Closing, hh])
      by_cases hc : c = .test
      · subst hc
        by_cases hr : p.threads.running = true
        · refine ⟨some (.stop .clear), p, ?_, ?_⟩
          · rw [finishStep, stopStep_test hdestroyed, if_pos hr]
            rfl
          · exact ⟨hp.serving hcalm hr, fun _ => hcalm, fun hj => .inl (hopen hj), h.known,
              by simp [Closing], h.attached, h.attaches, h.destroyed, h.registered⟩
        · refine ⟨some (.close .test), p, ?_, ?_⟩
          · rw [finishStep, stopStep_test hdestroyed, if_neg hr]
            rfl
          · exact ⟨⟨hp, Bool.eq_false_of_not_eq_true hr⟩, fun _ => hcalm, fun hj => .inl (hopen hj),
              h.known, by simp [Closing], h.attached, h.attaches, h.destroyed, h.registered⟩
      · have hp' : p.threads.Stopping c.rank ∧
            (p.main = .serving ∨ p.main = .finish (.stop .test)) := by
          cases c with
          | test => exact absurd rfl hc
          | _ => exact hp
        obtain ⟨next, t, hstep, hreached, hdrained⟩ := hp'.1.stopStep hc
        have hcalm' : ∀ p' : Process, p.main.Calm p' := by
          intro p'
          rcases hp'.2 with hmain | hmain <;> rw [hmain] <;> trivial
        refine ⟨some (next.elim (.close .test) .stop), { p with threads := t }, ?_, ?_⟩
        · rw [finishStep, stopStep_of hdestroyed, hstep]
          rfl
        · cases next with
          | none =>
              refine ⟨⟨?_, hreached.running⟩, fun _ => hcalm' _, fun hj => .inl (hopen hj), h.known,
                by simp [Closing], fun ha => (h.attached ha).imp_right hdrained, h.attaches,
                h.destroyed, h.registered⟩
              rcases hp'.2 with hmain | hmain <;> simp only [hmain] <;> exact .inr hreached
          | some c' =>
              refine ⟨?_, fun _ => hcalm' _, fun hj => .inl (hopen hj), h.known,
                by simp [Closing], fun ha => (h.attached ha).imp_right hdrained, h.attaches,
                h.destroyed, h.registered⟩
              cases c' with
              | test => exact absurd rfl hreached.1
              | _ => exact ⟨hreached.2, hp'.2⟩

/-! ### `main` -/

/-- `main` goes on to `c`, with nothing but the threads changed. -/
theorem Sound.goesOn (h : p.Sound) (hh : p.handler = none) {c : MainAt} {t : Threads}
    (hmain : p.main ∉ [.openJournal, .construct, .finish (.close .null), .ended])
    (hc : c ≠ .finish (.close .null) ∧ c ≠ .ended)
    (hattaches : c.attaches = true → p.main.attaches = true ∨ p.gJournal = false)
    (hfits : c.Fits { p with threads := t, main := c })
    (hdrained : p.attached = true → p.threads.Drained → t.Drained) :
    Sound { p with threads := t, main := c } := by
  simp only [List.mem_cons, List.not_mem_nil, or_false, not_or] at hmain
  refine ⟨?_, fun hn => absurd hh hn, fun hj => ?_, h.known, ?_, ?_, fun hm hj => ?_, ?_, ?_⟩
  · simp only [Placed, hh]
    exact hfits
  · exact .inl ((h.opened hj).resolve_right (by simp [Closing, hh, hmain]))
  · simp [Closing, hh, hc]
  · exact fun ha => (h.attached ha).imp_right (hdrained ha)
  · refine h.attaches ((hattaches hm).resolve_right fun hn => ?_) hj
    rw [hn] at hj
    cases hj
  · exact iff_of_false (mt h.destroyed.mp hmain.2.2.2) hc.2
  · exact .inl (h.registered.resolve_right (by simp [hmain]))

/-- **`main`, after `stop`**: it closes the journal. -/
theorem Sound.mainClose (h : p.Sound) (hh : p.handler = none) {c : CloseAt}
    (hmain : p.main = .finish (.close c)) :
    ∃ next p', p.closeStep c = some (next, p') ∧
      Sound { p' with main := next.elim (.leave .test) .finish } := by
  have hp := h.placed
  simp only [Placed, hh, hmain] at hp
  have hq : p.Quiet := hp
  have hdestroyed : p.destroyed = true → False := fun hd => by
    have he := h.destroyed.mp hd
    rw [hmain] at he
    cases he
  have hregistered : p.gPipeline = true := h.registered.resolve_right (by simp [hmain])
  cases c with
  | test =>
      by_cases hj : p.gJournal = true
      · refine ⟨some (.close .close), p, by rw [closeStep, if_pos hj], ?_⟩
        exact h.goesOn (t := p.threads) hh (by simp [hmain]) (by simp)
            (by simp [hmain, MainAt.attaches]) hq (fun _ => id)
      · refine ⟨none, p, by rw [closeStep, if_neg hj], ?_⟩
        exact h.goesOn (t := p.threads) hh (by simp [hmain]) (by simp)
            (by simp [hmain, MainAt.attaches])
          ⟨rfl, hq, Bool.eq_false_of_not_eq_true hj⟩ (fun _ => id)
  | close =>
      by_cases hj : p.gJournal = true
      · have hopen := (h.opened hj).resolve_right (by simp [Closing, hh, hmain])
        refine ⟨some (.close .null), { p with journal := .closed }, ?_, ?_⟩
        · rw [closeStep, if_pos hj, if_pos hopen]
        · refine ⟨?_, fun hn => absurd hh hn, fun _ => .inr (.inr ⟨hh, rfl⟩), fun ho => (by cases ho),
            fun _ ho => (by cases ho), fun ha => .inr (hq.drained ha), fun hm => (by cases hm),
            iff_of_false hdestroyed MainAt.noConfusion, .inl hregistered⟩
          simp only [Placed, hh]
          exact hq
      · refine ⟨some (.close .null), p, by rw [closeStep, if_neg hj], ?_⟩
        refine ⟨?_, fun hn => absurd hh hn, fun hj' => absurd hj' hj, h.known,
          fun _ ho => hj (h.known ho), h.attached, fun hm => (by cases hm),
          iff_of_false hdestroyed MainAt.noConfusion, .inl hregistered⟩
        simp only [Placed, hh]
        exact hq
  | null =>
      have hclosed := h.closing (.inr ⟨hh, hmain⟩)
      refine ⟨none, { p with gJournal := false }, rfl, ?_⟩
      refine ⟨?_, fun hn => absurd hh hn, fun hj => (by cases hj), fun ho => absurd ho hclosed,
        fun _ => hclosed, h.attached, fun hm => (by cases hm),
        iff_of_false hdestroyed MainAt.noConfusion, .inl hregistered⟩
      simp only [Placed, hh]
      exact ⟨rfl, hq, rfl⟩

/-- **A step of `main`** that does not fail where `main` cannot take back what it has done. -/
theorem Sound.mainStep (h : p.Sound) (hh : p.handler = none) (endless : Bool) {ok : Bool}
    (hok : p.main.creates = true → ok = true) :
    ∃ p', p.mainStep endless ok = some p' ∧ p'.Sound := by
  have hp := h.placed
  simp only [Placed, hh] at hp
  have hgo := fun c t => h.goesOn (c := c) (t := t) hh
  have hdestroyed : p.main ≠ .ended → p.destroyed = false := by
    intro hne
    rw [← Bool.not_eq_true, h.destroyed]
    exact hne
  unfold Process.mainStep
  cases hmain : p.main with
  | openJournal =>
      rw [hmain] at hp
      refine ⟨_, rfl, ?_, fun hn => absurd hh hn, fun hj => .inl (if_pos hj), fun ho => ?_, ?_,
        fun ha => ?_, fun hm => (by cases hm), iff_of_false ?_ MainAt.noConfusion, .inr (.inr rfl)⟩
      · simp only [Placed, hh]
        exact ⟨hp.1, hp.2.1⟩
      · by_contra hok
        simp [hok] at ho
      · simp [Closing, hh]
      · rw [hp.2.1] at ha
        cases ha
      · simp [hdestroyed (by simp [hmain])]
  | construct =>
      rw [hmain] at hp
      refine ⟨_, rfl, ?_, fun hn => absurd hh hn, fun hj => ?_, h.known, ?_, h.attached,
        fun hm => (by cases hm), iff_of_false ?_ MainAt.noConfusion, .inl rfl⟩
      · simp only [Placed, hh]
        exact hp
      · exact .inl ((h.opened hj).resolve_right (by simp [Closing, hh, hmain]))
      · simp [Closing, hh]
      · simp [hdestroyed (by simp [hmain])]
  | initLogger =>
      rw [hmain] at hp
      cases ok with
      | true =>
          refine ⟨_, if_pos rfl, hgo _ _ (by simp [hmain]) (by simp)
              (by simp [hmain, MainAt.attaches]) ⟨?_, hp.2⟩ fun _ hd => ?_⟩
          · rw [hp.1]
            rfl
          · exact absurd hd (Threads.Starting.not_drained (l := false) (n := 0) hp.1)
      | false =>
          exact ⟨_, if_neg Bool.false_ne_true,
            hgo _ p.threads (by simp [hmain]) (by simp)
                (by simp [hmain, MainAt.attaches]) (.inl hp) fun _ => id⟩
  | initRest =>
      obtain rfl := hok (by rw [hmain]; rfl)
      rw [hmain] at hp
      exact ⟨_, rfl, hgo _ p.threads (by simp [hmain]) (by simp)
          (by simp [hmain, MainAt.attaches]) hp fun _ => id⟩
  | testJournal =>
      rw [hmain] at hp
      by_cases hj : p.gJournal = true
      · refine ⟨{ p with main := .attach }, by rw [if_pos hj], ?_⟩
        exact hgo _ p.threads (by simp [hmain]) (by simp) (by simp [MainAt.attaches]) hp fun _ => id
      · refine ⟨{ p with main := .startFeed }, by rw [if_neg hj], ?_⟩
        refine hgo _ p.threads (by simp [hmain]) (by simp)
          (fun _ => .inr (Bool.eq_false_of_not_eq_true hj)) ⟨hp.1, fun ha => ?_⟩ fun _ => id
        rw [hp.2] at ha
        cases ha
  | attach =>
      rw [hmain] at hp
      have hopen : p.gJournal = true → p.journal = .opened :=
        fun hj => (h.opened hj).resolve_right (by simp [Closing, hh, hmain])
      refine ⟨_, rfl, ?_, fun hn => absurd hh hn, fun hj => .inl (hopen hj), h.known, ?_,
        fun ha => .inl (hopen ha), fun _ => id, iff_of_false ?_ MainAt.noConfusion, ?_⟩
      · simp only [Placed, hh]
        exact ⟨hp.1, id⟩
      · simp [Closing, hh]
      · simp [hdestroyed (by simp [hmain])]
      · exact .inl (h.registered.resolve_right (by simp [hmain]))
  | startFeed =>
      obtain rfl := hok (by rw [hmain]; rfl)
      rw [hmain] at hp
      refine ⟨_, rfl, hgo _ _ (by simp [hmain]) (by simp)
          (by simp [hmain, MainAt.attaches]) ⟨?_, hp.2⟩ fun _ hd => ?_⟩
      · rw [hp.1]
        rfl
      · exact absurd hd hp.1.not_drained
  | setRunning =>
      rw [hmain] at hp
      refine ⟨_, rfl, hgo .createIo _ (by simp [hmain]) (by simp)
          (by simp [hmain, MainAt.attaches]) ?_ fun _ hd => ?_⟩
      · rw [hp.1]
        rfl
      · exact absurd hd hp.1.not_drained
  | createIo =>
      obtain rfl := hok (by rw [hmain]; rfl)
      rw [hmain] at hp
      have hs : p.threads.Starting true 2 := hp
      refine ⟨_, rfl, hgo .createConsumer _ (by simp [hmain]) (by simp)
          (by simp [hmain, MainAt.attaches]) ?_ fun _ hd => ?_⟩
      · rw [hs]
        rfl
      · exact absurd hd hs.not_drained
  | createConsumer =>
      obtain rfl := hok (by rw [hmain]; rfl)
      rw [hmain] at hp
      have hs : p.threads.Starting true 3 := hp
      refine ⟨_, rfl, hgo .serving _ (by simp [hmain]) (by simp)
          (by simp [hmain, MainAt.attaches]) (.inl ?_) fun _ hd => ?_⟩
      · rw [hs]
        exact ⟨rfl, rfl, rfl, ThreadAt.fits_alive (by decide) (by decide),
          ThreadAt.fits_alive (by decide) (by decide), ThreadAt.fits_alive (by decide) (by decide),
          ThreadAt.fits_alive (by decide) (by decide)⟩
      · exact absurd hd hs.not_drained
  | unwind c =>
      rw [hmain] at hp
      exact hp.elim
  | serving =>
      rw [hmain] at hp
      by_cases hgoes : (ok || endless) = true
      · exact ⟨p, by rw [if_pos hgoes], h⟩
      · refine ⟨{ p with main := .finish (.stop .test) }, by rw [if_neg hgoes], ?_⟩
        exact hgo _ p.threads (by simp [hmain]) (by simp)
            (by simp [hmain, MainAt.attaches]) hp fun _ => id
  | finish c =>
      rw [hmain] at hp
      have hd := hdestroyed (by simp [hmain])
      cases c with
      | close c =>
          obtain ⟨next, p', hstep, hs⟩ := h.mainClose hh hmain
          refine ⟨_, ?_, hs⟩
          simp only [finishStep, hstep]
          rfl
      | stop c =>
          by_cases hc : c = .test
          · subst hc
            have hs : p.threads.Settled := hp
            by_cases hr : p.threads.running = true
            · refine ⟨{ p with main := .finish (.stop .clear) }, ?_, ?_⟩
              · simp only [finishStep, stopStep_test hd, if_pos hr]
                rfl
              · exact hgo _ p.threads (by simp [hmain]) (by simp)
                    (by simp [hmain, MainAt.attaches]) (hs.running hr) fun _ => id
            · refine ⟨{ p with main := .finish (.close .test) }, ?_, ?_⟩
              · simp only [finishStep, stopStep_test hd, if_neg hr]
                rfl
              · exact hgo _ p.threads (by simp [hmain]) (by simp) (by simp [hmain, MainAt.attaches])
                  (.inr (hs.stopped (Bool.eq_false_of_not_eq_true hr))) fun _ => id
          · have hs : p.threads.Stopping c.rank := by
              cases c with
              | test => exact absurd rfl hc
              | _ => exact hp
            obtain ⟨next, t, hstep, hreached, hdrained⟩ := hs.stopStep hc
            refine ⟨{ p with
              threads := t
              main := .finish (next.elim (.close .test) .stop) }, ?_, ?_⟩
            · simp only [finishStep, stopStep_of hd, hstep]
              rfl
            · refine hgo _ t (by simp [hmain]) (by cases next <;> simp)
                (by simp [hmain, MainAt.attaches]) ?_ fun _ => hdrained
              cases next with
              | none => exact .inr hreached
              | some c' =>
                  cases c' with
                  | test => exact absurd rfl hreached.1
                  | _ => exact hreached.2
  | leave c =>
      rw [hmain] at hp
      obtain ⟨rfl, hq, hj⟩ := hp
      refine ⟨{ p with main := .destroy }, ?_, ?_⟩
      · simp only [stopStep_test (hdestroyed (by simp [hmain])), hq.running]
        rfl
      · exact hgo _ p.threads (by simp [hmain]) (by simp)
            (by simp [hmain, MainAt.attaches]) ⟨hq, hj⟩ fun _ => id
  | destroy =>
      rw [hmain] at hp
      have hopen : p.journal ≠ .opened := fun ho => by
        have hj := h.known ho
        rw [hp.2] at hj
        cases hj
      refine ⟨_, rfl, ?_, fun hn => absurd hh hn, fun hj => ?_, h.known, fun _ => hopen, h.attached,
        fun hm => (by cases hm), iff_of_true rfl rfl,
        .inl (h.registered.resolve_right (by simp [hmain]))⟩
      · simp only [Placed, hh]
        exact hp
      · exact .inl ((h.opened hj).resolve_right (by simp [Closing, hh, hmain]))
  | ended => exact ⟨p, rfl, h⟩

/-! ### Runs -/

/-- **A step.** -/
theorem Sound.step (h : p.Sound) (endless : Bool) {t : ProcessTurn} (hgood : p.Good t) :
    ∃ r p', p.step endless t = some (r, p') ∧ p'.Sound := by
  have hdead := h.not_alive
  have hsome : ∀ {o : Option Process}, (∃ p', o = some p' ∧ p'.Sound) →
      ∃ r p', Option.map (fun p' => ((), p')) o = some (r, p') ∧ p'.Sound := by
    rintro o ⟨p', rfl, hp'⟩
    exact ⟨(), p', rfl, hp'⟩
  cases t with
  | main ok =>
      refine hsome ?_
      cases hh : p.handler with
      | none =>
          obtain ⟨p', hstep, hp'⟩ := h.mainStep hh endless (hgood hh)
          refine ⟨p', ?_, hp'⟩
          simp only [mainTurn, hh]
          exact hstep
      | some c =>
          obtain ⟨next, p', hstep, hp'⟩ := h.handlerStep hh
          refine ⟨_, ?_, hp'⟩
          simp only [mainTurn, hh, hstep]
          rfl
  | signal => exact hsome ⟨_, rfl, h.interrupted hgood⟩
  | feed => exact hsome (h.turn (fun hd => (hdead hd).1) p.threads.turned_feedTurn)
  | consumer event =>
      exact hsome (h.turn (fun hd => (hdead hd).2.1) (p.threads.turned_consumerTurn event))
  | io =>
      refine hsome ?_
      rw [if_neg h.not_dangles]
      exact h.turn (fun hd => (hdead hd).2.2.1) p.threads.turned_ioTurn
  | logger => exact hsome (h.turn (fun hd => (hdead hd).2.2.2) p.threads.turned_loggerTurn)

theorem sound_start : start.Sound where
  placed := ⟨rfl, rfl, rfl⟩
  calm hn := absurd rfl hn
  opened hj := by cases hj
  known ho := by cases ho
  closing hc := by simp [Closing, start] at hc
  attached ha := by cases ha
  attaches hm := by cases hm
  destroyed := iff_of_false Bool.false_ne_true MainAt.noConfusion
  registered := .inr (.inl rfl)

/-- What `stop` and the closing of the journal leave to `main`. -/
theorem finishStep_main {c : FinishAt} {next : Option FinishAt} {p' : Process}
    (h : p.finishStep c = some (next, p')) : p'.main = p.main := by
  cases c with
  | stop c =>
      obtain ⟨r, hr, heq⟩ := Option.map_eq_some_iff.mp h
      unfold stopStep at hr
      split at hr
      · cases hr
      · obtain ⟨r', -, rfl⟩ := Option.map_eq_some_iff.mp hr
        cases heq
        rfl
  | close c =>
      cases c with
      | test => cases h; rfl
      | close =>
          simp only [finishStep, closeStep] at h
          split_ifs at h <;> cases h <;> rfl
      | null => cases h; rfl

/-- `logger_init` does not fail. -/
def Logs (p : Process) (t : ProcessTurn) : Prop :=
  p.handler = none → p.main = .initLogger → t ≠ .main false

instance (p : Process) (t : ProcessTurn) : Decidable (p.Logs t) :=
  inferInstanceAs (Decidable (_ → _ → _))

/-- Without a duration, `main` does not leave its loop, if nothing fails from `logger_init` on. -/
theorem early_of_step {t : ProcessTurn} {r : Unit} {p' : Process} (hearly : p.main.early = true)
    (hgood : p.Good t) (hlogs : p.Logs t) (hstep : p.step true t = some (r, p')) :
    p'.main.early = true := by
  have hturn : ∀ {thread : ThreadAt} {t' : Threads}, p.turn thread t' = some p' →
      p'.main.early = true := by
    intro thread t' h
    unfold Process.turn at h
    split at h
    · cases h
    · cases h
      exact hearly
  obtain ⟨p'', hp, heq⟩ := Option.map_eq_some_iff.mp hstep
  cases heq
  cases t with
  | main ok =>
      cases hh : p.handler with
      | none =>
          have hcreates : p.main.creates = true → ok = true := hgood hh
          have hinit : p.main = .initLogger → ok = true := fun hmain =>
            Bool.eq_true_of_not_eq_false fun hok => hlogs hh hmain (by rw [hok])
          simp only [mainTurn, hh, Process.mainStep] at hp
          cases hmain : p.main <;> rw [hmain] at hearly hcreates <;> simp only [hmain] at hp
          case initLogger =>
            obtain rfl := hinit hmain
            cases hp
            rfl
          case initRest | startFeed | createIo | createConsumer =>
            obtain rfl := hcreates rfl
            cases hp
            rfl
          case testJournal =>
            cases hp
            simp only
            split <;> rfl
          case serving =>
            rw [Bool.or_true, if_pos rfl] at hp
            obtain rfl : p = p' := Option.some.inj hp
            rw [hmain]
            rfl
          all_goals first
            | (cases hp; rfl)
            | cases hearly
      | some c =>
          simp only [mainTurn, hh, Option.bind_eq_bind, Option.bind_eq_some_iff] at hp
          obtain ⟨r, hr, hp⟩ := hp
          cases hp
          rw [finishStep_main hr]
          exact hearly
  | signal =>
      cases hp
      unfold Process.interrupted
      split <;> exact hearly
  | feed => exact hturn hp
  | consumer event => exact hturn hp
  | io =>
      simp only at hp
      split at hp
      · cases hp
      · exact hturn hp
  | logger => exact hturn hp

/-- Every thread that was created is joined, and no journal is open. -/
structure Over (p : Process) : Prop where
  feed : p.threads.feed = .absent ∨ p.threads.feed = .joined
  consumer : p.threads.consumer = .absent ∨ p.threads.consumer = .joined
  io : p.threads.io = .absent ∨ p.threads.io = .joined
  logger : p.threads.logger = .absent ∨ p.threads.logger = .joined
  journal : p.journal ≠ .opened

theorem Sound.over (h : p.Sound) (hmain : p.main = .ended) : p.Over := by
  have hnone : p.handler = none := by
    by_contra hne
    have hcalm := h.calm hne
    rw [hmain] at hcalm
    exact hcalm
  have hp := h.placed
  simp only [Placed, hnone, hmain] at hp
  have hjournal : p.journal ≠ .opened := fun ho => by
    have hj := h.known ho
    rw [hp.2] at hj
    cases hj
  rcases hp.1 with ⟨hinit, -⟩ | hstop
  · exact ⟨.inl (congrArg Threads.feed hinit), .inl (congrArg Threads.consumer hinit),
      .inl (congrArg Threads.io hinit), .inl (congrArg Threads.logger hinit), hjournal⟩
  · exact ⟨.inr (hstop.feed.joined (by decide)), .inr (hstop.consumer.joined (by decide)),
      .inr (hstop.io.joined (by decide)), .inr (hstop.logger.joined (by decide)), hjournal⟩

/-- **The engine shuts down**, in every run whose signals come where they do no harm and in which
nothing fails that `main` cannot take back.  No step of such a run is undefined: no thread is joined
twice, no journal is closed twice or written to when it is closed.  When `main` has ended, the threads
are joined and the journal is closed.  But without a duration it does not end, unless `logger_init`
fails, whatever signals come: the handler stops the pipeline and returns to the main loop. -/
theorem shuts_down (endless : Bool) {es : List ProcessTurn}
    (h : Run.Along (step endless) Good start es) :
    ∃ rs p, Run.exec (step endless) start es = some (rs, p) ∧
      (p.main = .ended → p.Over) ∧
      (endless = true → Run.Along (step endless) Logs start es → p.main ≠ .ended) := by
  obtain ⟨rs, p, hexec, hp⟩ :=
    Run.exec_of_step (fun _ _ hs hg => Sound.step hs endless hg) sound_start h
  refine ⟨rs, p, hexec, hp.over, ?_⟩
  rintro rfl hlogs hended
  have hkeep : ∀ p t, (Sound p ∧ p.main.early = true) → (p.Good t ∧ p.Logs t) →
      ∃ r p', step true p t = some (r, p') ∧ Sound p' ∧ p'.main.early = true := by
    intro p t hp ht
    obtain ⟨r, p', hstep, hp'⟩ := hp.1.step true ht.1
    exact ⟨r, p', hstep, hp', early_of_step hp.2 ht.1 ht.2 hstep⟩
  obtain ⟨rs', p', hexec', -, hearly⟩ := Run.exec_of_step hkeep ⟨sound_start, rfl⟩ (h.and hlogs)
  obtain ⟨-, rfl⟩ := Prod.mk.inj (Option.some.inj (hexec.symm.trans hexec'))
  rw [hended] at hearly
  cases hearly

/-- The engine is started, and a signal stops it; then the duration is over, if there is one. -/
def signalled : List ProcessTurn :=
  List.replicate 10 (.main true) ++
    [.consumer true, .signal, .main true, .main true, .consumer false, .main true, .main true, .feed,
      .main true, .io, .io, .io, .main true, .main true, .logger] ++
    List.replicate 4 (.main true) ++ List.replicate 5 (.main false)

/-- With a duration it ends, and without one it does not. -/
theorem shuts_down_signalled :
    (∃ rs p, Run.exec (step false) start signalled = some (rs, p) ∧ p.main = .ended ∧ p.Over) ∧
    ∃ rs p, Run.exec (step true) start signalled = some (rs, p) ∧ p.main ≠ .ended := by
  obtain ⟨rs, p, hexec, hover, -⟩ := @shuts_down false signalled (by decide)
  obtain ⟨rs', p', hexec', -, hmain⟩ := @shuts_down true signalled (by decide)
  have hended : (Run.exec (step false) start signalled).map (fun r => r.2.main) = some .ended := by
    decide
  rw [hexec] at hended
  have hp : p.main = .ended := Option.some.inj hended
  exact ⟨⟨rs, p, hexec, hp, hover hp⟩, rs', p', hexec', hmain rfl (by decide)⟩

end Process

end Aspira
