import Aspira.Pipeline.Limits
import Aspira.Pipeline.Shutdown

/-!
# Pipeline — accounting

What `PipelineStats` counts.  The counters of the hot path are bumped on separate branches; each of
them is the number of writes of one kind (`Tally`), whatever becomes of the writes.  The rings
account for the writes: each is pushed to the filled ring or counted as dropped.  Together they
balance whenever `process_market_data` is not running (`accounting`).

The consumer thread is the only one that touches the hot path, so what holds of every sequence of
calls holds in every interleaving (`Called`).
-/

namespace Aspira

variable {P : Type}

namespace IoWrite

/-- An event for a rejected order. -/
def isRejected : IoWrite P → Bool
  | .rejected .. => true
  | _ => false

/-- An event for an accepted order. -/
def isResult : IoWrite P → Bool
  | .result .. => true
  | _ => false

/-- An event for a trade. -/
def isTrade : IoWrite P → Bool
  | .trade _ => true
  | _ => false

/-- Every event is of one of the three kinds. -/
theorem countP_kinds (ws : List (IoWrite P)) :
    ws.countP isResult + ws.countP isRejected + ws.countP isTrade = ws.length := by
  induction ws with
  | nil => rfl
  | cons w ws ih =>
      cases w with
      | rejected =>
          simp only [List.countP_cons, isResult, isRejected, isTrade, List.length_cons] at ih ⊢
          simp
          omega
      | result =>
          simp only [List.countP_cons, isResult, isRejected, isTrade, List.length_cons] at ih ⊢
          simp
          omega
      | trade =>
          simp only [List.countP_cons, isResult, isRejected, isTrade, List.length_cons] at ih ⊢
          simp
          omega

/-- The events of an accepted order and its trades. -/
theorem countP_submission (w : IoWrite P) (hw : w.isResult = true) (trades : List (Trade P)) :
    (w :: trades.map IoWrite.trade).countP isResult = 1 ∧
    (w :: trades.map IoWrite.trade).countP isRejected = 0 ∧
    (w :: trades.map IoWrite.trade).countP isTrade = trades.length := by
  cases w with
  | rejected => cases hw
  | trade => cases hw
  | result o gw =>
      have hres : (trades.map IoWrite.trade).countP isResult = 0 := by
        simp [List.countP_eq_zero, isResult]
      have hrej : (trades.map IoWrite.trade).countP isRejected = 0 := by
        simp [List.countP_eq_zero, isRejected]
      have htr : (trades.map IoWrite.trade).countP isTrade = trades.length := by
        rw [List.countP_map]
        exact List.countP_eq_length.mpr fun _ _ => rfl
      refine ⟨?_, ?_, ?_⟩
      · rw [List.countP_cons_of_pos rfl, hres]
      · rw [List.countP_cons_of_neg Bool.false_ne_true, hrej]
      · rw [List.countP_cons_of_neg Bool.false_ne_true, htr]

end IoWrite

namespace HotPath

variable [Price P]

/-! ### The counters of the hot path -/

/-- The counters, as numbers of the writes of each kind.  Counters wrap around; `executed` of the
accepted orders were serialised. -/
structure Tally (h : HotPath P) (ws : List (IoWrite P)) : Prop where
  clear : Arrival.Clear h.orderBook
  created : h.stats.ordersCreated =
    UInt64.ofNat (ws.countP IoWrite.isResult + ws.countP IoWrite.isRejected)
  accepted : h.stats.ordersAccepted = UInt64.ofNat (ws.countP IoWrite.isResult)
  rejected : h.stats.ordersRejected = UInt64.ofNat (ws.countP IoWrite.isRejected)
  trades : h.stats.tradesGenerated = UInt64.ofNat (ws.countP IoWrite.isTrade)
  tradeIds : h.orderBook.nextTradeId = 1 + Int32.ofNat (ws.countP IoWrite.isTrade)
  executed : ∃ n ≤ ws.countP IoWrite.isResult, h.stats.ordersExecuted = UInt64.ofNat n

/-- The trade ids of a submission go on from those of the book. -/
theorem Arrival.nextTradeId {a : Arrival P} (hb : Clear a.path.orderBook) (ho : Quote a.order) :
    a.submission.after.nextTradeId =
      a.path.orderBook.nextTradeId + Int32.ofNat a.submission.after.trades.length := by
  have hadd : OrderBook.Added a.amb.stamps a.order a.path.orderBook a.submission.result
      a.submission.after := OrderBook.addOrder_added a.amb.stamps hb.placed ho.filledQty
  have hswept : ∀ {m' : Matching P} {b' : OrderBook P},
      OrderBook.Swept a.amb.stamps a.order a.path.orderBook m' b' →
      b'.nextTradeId = a.path.orderBook.nextTradeId + Int32.ofNat b'.trades.length := by
    intro m' b' h
    obtain ⟨new, htr, hid⟩ := h.sweep.tradeIds
    have hnew : b'.trades = new := by
      rw [h.trades, htr]
      show a.path.orderBook.trades ++ new = new
      rw [hb.drained, List.nil_append]
    rw [h.nextTradeId, hid, hnew]
    rfl
  generalize a.submission.after = b' at hadd
  generalize a.submission.result = o' at hadd
  cases hadd with
  | done h => exact hswept h
  | rests h _ _ hr =>
      rw [hr.nextTradeId, hr.trades]
      exact hswept h

/-- The counters after a rejected order. -/
theorem processOrder_eq_of_rejected {a : Arrival P} (hv : a.accepted = false) :
    ∃ reason, (a.path.processOrder a.amb a.order).1 = [.rejected a.order reason] ∧
      a.next.orderBook = a.path.orderBook ∧
      a.next.stats = { a.path.stats with
        ordersCreated := a.path.stats.ordersCreated + 1
        ordersRejected := a.path.stats.ordersRejected + 1 } := by
  have hrej : ¬ (a.path.riskEngine.validate a.amb.nowSec a.order a.path.orderBook.midPrice).1 :=
    fun hacc => absurd (hv.symm.trans hacc) Bool.noConfusion
  rw [Arrival.next, HotPath.processOrder, if_neg hrej]
  exact ⟨_, rfl, rfl, rfl⟩

/-- The counters after an accepted order. -/
theorem processOrder_eq_of_accepted {a : Arrival P} (hv : a.accepted = true) :
    ∃ gw, ∃ sent : Bool, (a.path.processOrder a.amb a.order).1 =
        .result a.submission.result gw :: a.submission.after.trades.map .trade ∧
      a.next.orderBook = a.submission.after.drainTrades.2 ∧
      a.next.stats = { a.path.stats with
        ordersCreated := a.path.stats.ordersCreated + 1
        ordersAccepted := a.path.stats.ordersAccepted + 1
        ordersExecuted := a.path.stats.ordersExecuted + if sent then 1 else 0
        tradesGenerated := a.path.stats.tradesGenerated +
          UInt64.ofNat a.submission.after.trades.length } := by
  have hacc : (a.path.riskEngine.validate a.amb.nowSec a.order a.path.orderBook.midPrice).1 := hv
  have hadd : a.path.orderBook.addOrder a.amb.stamps a.order =
      (a.submission.result, a.submission.after) := Prod.mk.eta.symm
  rw [Arrival.next, HotPath.processOrder, if_pos hacc, hadd]
  generalize a.submission.result = o'
  generalize a.submission.after = b'
  exact ⟨_, o'.sendToGw && (gwSerializeOrder a.amb.pastSymbol o').1, rfl, rfl, rfl⟩

/-- **One order.**  Each branch bumps the counters of the writes it makes. -/
theorem Tally.processOrder {a : Arrival P} {ws : List (IoWrite P)} (h : Tally a.path ws)
    (ho : Quote a.order) :
    Tally a.next (ws ++ (a.path.processOrder a.amb a.order).1) := by
  have hclear := h.clear.next ho
  obtain ⟨n, hn, hexec⟩ := h.executed
  cases hv : a.accepted with
  | false =>
      obtain ⟨reason, hwrites, hbook, hstats⟩ := processOrder_eq_of_rejected hv
      have hres : [(.rejected a.order reason : IoWrite P)].countP IoWrite.isResult = 0 := rfl
      have hrej : [(.rejected a.order reason : IoWrite P)].countP IoWrite.isRejected = 1 := rfl
      have htr : [(.rejected a.order reason : IoWrite P)].countP IoWrite.isTrade = 0 := rfl
      rw [hwrites]
      refine ⟨hclear, ?_, ?_, ?_, ?_, ?_, n, ?_, ?_⟩
      · rw [hstats, List.countP_append, List.countP_append, hres, hrej, add_zero,
          ← add_assoc, UInt64.ofNat_add, ← h.created]
        rfl
      · rw [hstats, List.countP_append, hres, add_zero, ← h.accepted]
      · rw [hstats, List.countP_append, hrej, UInt64.ofNat_add, ← h.rejected]
        rfl
      · rw [hstats, List.countP_append, htr, add_zero, ← h.trades]
      · rw [hbook, List.countP_append, htr, add_zero, ← h.tradeIds]
      · rw [List.countP_append, hres, add_zero]
        exact hn
      · rw [hstats, ← hexec]
  | true =>
      obtain ⟨gw, sent, hwrites, hbook, hstats⟩ := processOrder_eq_of_accepted hv
      obtain ⟨hres, hrej, htr⟩ :=
        IoWrite.countP_submission (.result a.submission.result gw) rfl a.submission.after.trades
      rw [hwrites]
      refine ⟨hclear, ?_, ?_, ?_, ?_, ?_, n + if sent then 1 else 0, ?_, ?_⟩
      · rw [hstats, List.countP_append, List.countP_append, hres, hrej, add_zero,
          add_right_comm, UInt64.ofNat_add, ← h.created]
        rfl
      · rw [hstats, List.countP_append, hres, UInt64.ofNat_add, ← h.accepted]
        rfl
      · rw [hstats, List.countP_append, hrej, add_zero, ← h.rejected]
      · rw [hstats, List.countP_append, htr, UInt64.ofNat_add, ← h.trades]
      · rw [hbook, OrderBook.drainTrades_nextTradeId, List.countP_append, htr, Int32.ofNat_add,
          ← Int32.add_assoc, ← h.tradeIds]
        exact Arrival.nextTradeId h.clear ho
      · rw [List.countP_append, hres]
        split <;> omega
      · rw [hstats, UInt64.ofNat_add, ← hexec]
        cases sent with
        | true => rfl
        | false => rfl

/-- A sequence of `n` calls: two orders each. -/
structure Accounted (h : HotPath P) (ws : List (IoWrite P)) (n : ℕ) : Prop where
  tally : Tally h ws
  messages : h.stats.marketDataMsgs = UInt64.ofNat n
  orders : ws.countP IoWrite.isResult + ws.countP IoWrite.isRejected = 2 * n

theorem processOrder_messages (amb : Ambient) (h : HotPath P) (o : Order P) :
    (h.processOrder amb o).2.stats.marketDataMsgs = h.stats.marketDataMsgs ∧
    (h.processOrder amb o).1.countP IoWrite.isResult +
      (h.processOrder amb o).1.countP IoWrite.isRejected = 1 := by
  cases hv : (⟨h, amb, o⟩ : Arrival P).accepted with
  | false =>
      obtain ⟨reason, hwrites, -, hstats⟩ := processOrder_eq_of_rejected hv
      refine ⟨?_, by rw [hwrites]; rfl⟩
      show (⟨h, amb, o⟩ : Arrival P).next.stats.marketDataMsgs = _
      rw [hstats]
  | true =>
      obtain ⟨gw, sent, hwrites, -, hstats⟩ := processOrder_eq_of_accepted hv
      obtain ⟨hres, hrej, -⟩ := IoWrite.countP_submission (.result _ gw) rfl _
      refine ⟨?_, by rw [hwrites, hres, hrej]⟩
      show (⟨h, amb, o⟩ : Arrival P).next.stats.marketDataMsgs = _
      rw [hstats]

/-- **One call.** -/
theorem Accounted.processMarketData {h : HotPath P} {ws : List (IoWrite P)} {n : ℕ}
    (ha : Accounted h ws n) (t : Tick P) :
    Accounted (h.processMarketData t).2 (ws ++ (h.processMarketData t).1) (n + 1) := by
  set s := h.countMsg.strategyOnMarketData t.msg
  have h₀ : Tally s.2.2 ws := ⟨ha.tally.clear, ha.tally.created, ha.tally.accepted,
    ha.tally.rejected, ha.tally.trades, ha.tally.tradeIds, ha.tally.executed⟩
  have h₁ := Tally.processOrder (a := ⟨s.2.2, t.buy, s.1⟩) h₀
    (strategyOrder_quote t.msg h.nextOrderId .buy)
  have h₂ := Tally.processOrder (a := ⟨_, t.sell, s.2.1⟩) h₁
    (strategyOrder_quote t.msg (h.nextOrderId + 1) .sell)
  obtain ⟨hm₁, hc₁⟩ := processOrder_messages t.buy s.2.2 s.1
  obtain ⟨hm₂, hc₂⟩ := processOrder_messages t.sell (s.2.2.processOrder t.buy s.1).2 s.2.1
  refine ⟨?_, ?_, ?_⟩
  · rw [List.append_assoc] at h₂
    exact h₂
  · have hmsg : (h.processMarketData t).2.stats.marketDataMsgs = h.stats.marketDataMsgs + 1 :=
      hm₂.trans hm₁
    rw [hmsg, ha.messages, UInt64.ofNat_add]
    rfl
  · have hwrites : (h.processMarketData t).1 = (s.2.2.processOrder t.buy s.1).1 ++
        ((s.2.2.processOrder t.buy s.1).2.processOrder t.sell s.2.1).1 := rfl
    have horders := ha.orders
    rw [hwrites]
    simp only [List.countP_append]
    omega

/-- **A run.** -/
theorem Accounted.run (ts : List (Tick P)) :
    ∀ {h : HotPath P} {ws : List (IoWrite P)} {n : ℕ}, Accounted h ws n →
      Accounted (h.run ts).2 (ws ++ (h.run ts).1) (n + ts.length) := by
  induction ts with
  | nil =>
      intro h ws n ha
      show Accounted h (ws ++ []) (n + 0)
      rw [List.append_nil]
      exact ha
  | cons t ts ih =>
      intro h ws n ha
      have hrest := ih (ha.processMarketData t)
      rw [List.append_assoc, add_right_comm] at hrest
      exact hrest

theorem run_accounted (symbol : List UInt8) (ts : List (Tick P)) :
    Accounted ((HotPath.init symbol : HotPath P).run ts).2 ((HotPath.init symbol : HotPath P).run ts).1
      ts.length := by
  have hinit : Accounted (HotPath.init symbol : HotPath P) [] 0 :=
    ⟨⟨⟨OrderBook.init_placed symbol, rfl⟩, rfl, rfl, rfl, rfl, rfl, 0, le_rfl, rfl⟩, rfl, rfl⟩
  have hrun := hinit.run ts
  rw [List.nil_append, zero_add] at hrun
  exact hrun

end HotPath

/-! ### The calls of the consumer thread -/

namespace EventPipeline

variable [Price P] {journal : Bool} {p p' : EventPipeline P}

/-- The hot path is where a sequence of calls leaves it, and `writes` are their writes. -/
def Called (symbol : List UInt8) (p : EventPipeline P) : Prop :=
  ∃ ts, (HotPath.init symbol : HotPath P).run ts = (p.writes, p.hotPath)

/-- A step that leaves the hot path alone, or the call of `process_market_data`. -/
def Calls (p p' : EventPipeline P) : Prop :=
  p'.hotPath = p.hotPath ∧ p'.writes = p.writes ∨
    ∃ t, p'.hotPath = (p.hotPath.processMarketData t).2 ∧
      p'.writes = p.writes ++ (p.hotPath.processMarketData t).1

theorem consumerPop_calls {draining : Bool} (h : p.consumerPop draining = some p') : p.Calls p' := by
  simp only [consumerPop, Option.bind_eq_bind, Option.bind_eq_some_iff] at h
  obtain ⟨r, -, h⟩ := h
  split at h
  · cases h
    exact .inl ⟨rfl, rfl⟩
  · cases h
    exact .inr ⟨_, rfl, rfl⟩

theorem consumerStep_calls (h : p.consumerStep = some p') : p.Calls p' := by
  unfold consumerStep at h
  split at h
  · cases h
    exact .inl ⟨rfl, rfl⟩
  · exact consumerPop_calls h
  · split at h
    · cases h
      exact .inl ⟨rfl, rfl⟩
    · simp only [Option.bind_eq_bind, Option.bind_eq_some_iff] at h
      obtain ⟨r, -, h⟩ := h
      cases h
      exact .inl ⟨rfl, rfl⟩
  · exact consumerPop_calls h
  · cases h
    exact .inl ⟨rfl, rfl⟩

theorem feedStep_calls {msg : Option (Tick P)} (h : p.feedStep msg = some p') : p.Calls p' := by
  unfold feedStep at h
  split at h
  · cases h
    exact .inl ⟨rfl, rfl⟩
  · split at h
    · cases h
      exact .inl ⟨rfl, rfl⟩
    · simp only [Option.bind_eq_bind, Option.bind_eq_some_iff] at h
      obtain ⟨r, -, h⟩ := h
      cases h
      exact .inl ⟨rfl, rfl⟩
  · cases h
    exact .inl ⟨rfl, rfl⟩

theorem ioPop_calls {draining : Bool} {next : IoPhase} (h : p.ioPop draining next = some p') :
    p.Calls p' := by
  simp only [ioPop, Option.bind_eq_bind, Option.bind_eq_some_iff] at h
  obtain ⟨r, -, h⟩ := h
  split at h
  · cases h
    exact .inl ⟨rfl, rfl⟩
  · cases h
    exact .inl ⟨rfl, rfl⟩

theorem ioStep_calls (h : p.ioStep journal = some p') : p.Calls p' := by
  unfold ioStep at h
  split at h
  · cases h
    exact .inl ⟨rfl, rfl⟩
  · exact ioPop_calls h
  · split at h
    · cases h
      exact .inl ⟨rfl, rfl⟩
    · cases h
      exact .inl ⟨rfl, rfl⟩
    · split at h
      · cases h
        exact .inl ⟨rfl, rfl⟩
      · simp only [Option.bind_eq_bind, Option.bind_eq_some_iff] at h
        obtain ⟨r, -, h⟩ := h
        cases h
        exact .inl ⟨rfl, rfl⟩
  · exact ioPop_calls h
  · cases h
    exact .inl ⟨rfl, rfl⟩

/-- **Only the consumer thread touches the hot path.** -/
theorem step_calls {t : Turn P} {r : Unit} (h : p.step journal t = some (r, p')) : p.Calls p' := by
  simp only [step, Option.map_eq_some_iff, Prod.mk.injEq] at h
  obtain ⟨q, h, -, rfl⟩ := h
  cases t with
  | feed msg => exact feedStep_calls h
  | consumer => exact consumerStep_calls h
  | io => exact ioStep_calls h
  | stop =>
      obtain ⟨running, feedRunning, stop, hstop⟩ := p.stopStep_frame
      rw [← Option.some.inj h, hstop]
      exact .inl ⟨rfl, rfl⟩

theorem Called.step {symbol : List UInt8} (h : p.Called symbol) (hc : p.Calls p') :
    p'.Called symbol := by
  obtain ⟨ts, hts⟩ := h
  rcases hc with ⟨hpath, hwrites⟩ | ⟨t, hpath, hwrites⟩
  · exact ⟨ts, by rw [hts, hpath, hwrites]⟩
  · refine ⟨ts ++ [t], ?_⟩
    rw [HotPath.run_append, hts, hpath, hwrites]
    simp only [HotPath.run, List.append_nil]

/-! ### The balance -/

/-- The counters of the pipeline and what they count: the messages, the orders, the events pushed to
the filled ring, and the trade ids that the book has given out. -/
structure Balanced (p : EventPipeline P) : Prop where
  created : p.hotPath.stats.ordersCreated.toNat = 2 * p.hotPath.stats.marketDataMsgs.toNat
  decided : p.hotPath.stats.ordersCreated.toNat =
    p.hotPath.stats.ordersAccepted.toNat + p.hotPath.stats.ordersRejected.toNat
  events : p.stages.pushed.length + p.stages.ioEventsDropped.toNat =
    p.hotPath.stats.ordersCreated.toNat + p.hotPath.stats.tradesGenerated.toNat
  trades : (p.hotPath.orderBook.nextTradeId - 1).toInt = p.hotPath.stats.tradesGenerated.toNat
  drained : p.hotPath.orderBook.trades = []
  executed : p.hotPath.stats.ordersExecuted.toNat ≤ p.hotPath.stats.ordersAccepted.toNat

/-- The run so far has fewer than 2³¹ orders and fewer than 2³¹ trades. -/
def Countable (p : EventPipeline P) : Prop :=
  p.writes.countP IoWrite.isResult + p.writes.countP IoWrite.isRejected < 2 ^ 31 ∧
    p.writes.countP IoWrite.isTrade < 2 ^ 31

/-- What the rings account for, when the hot path has nothing in its hands. -/
theorem Sound.events {free filled out : List Entry} (h : p.Sound journal free filled out)
    (hidle : p.stages.hot = .idle ∧ p.stages.todo = []) (hlen : p.writes.length < 2 ^ 64) :
    p.stages.pushed.length + p.stages.ioEventsDropped.toNat = p.writes.length := by
  obtain ⟨ws, hf⟩ := h.faithful
  have hpushed := hf.pushed.length_eq
  have hkept := hf.kept
  have horder := hf.order.length_le
  have hcount := h.counted
  rw [hidle.1, HotHand.pending, List.append_nil] at hkept
  rw [hidle.2, List.append_nil] at horder
  rw [hidle.2, List.length_nil] at hcount
  have hdropped : p.stages.ioEventsDropped =
      UInt64.ofNat (p.writes.length - p.stages.kept.length) := by
    have hsplit : p.writes.length =
        p.stages.kept.length + (p.writes.length - p.stages.kept.length) := by omega
    rw [hsplit, UInt64.ofNat_add] at hcount
    grind
  rw [hdropped, UInt64.toNat_ofNat_of_lt' (by show _ < 2 ^ 64; omega), ← hpushed, ← hkept]
  omega

/-- **The balance**, whenever no call is running. -/
theorem Sound.balanced {symbol : List UInt8} {free filled out : List Entry}
    (h : p.Sound journal free filled out) (hcalled : p.Called symbol)
    (hidle : ∀ d, p.consumer ≠ .busy d) (hsmall : p.Countable) : p.Balanced := by
  obtain ⟨ts, hts⟩ := hcalled
  have hacc := HotPath.run_accounted (P := P) symbol ts
  rw [hts] at hacc
  obtain ⟨horders, htrades⟩ := hsmall
  obtain ⟨n, hn, hexec⟩ := hacc.tally.executed
  have hkinds := IoWrite.countP_kinds p.writes
  have hlen : p.writes.length < 2 ^ 64 := by omega
  have hword : ∀ k < 2 ^ 64, (UInt64.ofNat k).toNat = k := fun k hk => UInt64.toNat_ofNat_of_lt' hk
  have hcreated := congrArg UInt64.toNat hacc.tally.created
  have haccepted := congrArg UInt64.toNat hacc.tally.accepted
  have hrejected := congrArg UInt64.toNat hacc.tally.rejected
  have hgenerated := congrArg UInt64.toNat hacc.tally.trades
  have hmessages := congrArg UInt64.toNat hacc.messages
  have hexecuted := congrArg UInt64.toNat hexec
  have htwo := hacc.orders
  dsimp only at hcreated haccepted hrejected hgenerated hmessages hexecuted htwo hn
  rw [hword _ (by omega)] at hcreated haccepted hrejected hgenerated hmessages hexecuted
  refine ⟨?_, ?_, ?_, ?_, hacc.tally.clear.drained, ?_⟩
  · omega
  · omega
  · rw [h.events (h.hot hidle) hlen]
    omega
  · have hid := hacc.tally.tradeIds
    dsimp only at hid
    rw [hid, hgenerated, Int32.add_comm, Int32.add_sub_cancel]
    exact Int32.toInt_ofNat_of_lt htrades
  · omega

/-- **The invariant of every interleaving.** -/
theorem exec_called (journal : Bool) (symbol : List UInt8) (ts : List (Turn P)) :
    ∃ (p : EventPipeline P) (rs : List Unit) (p' : EventPipeline P), start symbol = some p ∧
      Run.exec (step journal) p ts = some (rs, p') ∧
      (∃ free filled out, p'.Sound journal free filled out) ∧ p'.Called symbol := by
  obtain ⟨p, hstart, free, filled, out, hs, hp, -⟩ := start_tidy (P := P) journal symbol
  have hcalled : p.Called symbol := by
    obtain ⟨queue, s, heq, -⟩ := start_eq (P := P) symbol
    rw [Option.some.inj (hstart.symm.trans heq)]
    exact ⟨[], rfl⟩
  obtain ⟨rs, p', hrun, ⟨free', filled', out', hs', -⟩, hcalled'⟩ := Run.exec_of_step
    (I := fun p : EventPipeline P =>
      (∃ free filled out, p.Sound journal free filled out ∧ p.Phases) ∧ p.Called symbol)
    (C := fun _ _ => True)
    (fun q t hI _ => by
      obtain ⟨⟨free, filled, out, hs, hp⟩, hc⟩ := hI
      obtain ⟨q', free', filled', out', hstep, hs', hp', -⟩ := hs.step hp t
      exact ⟨(), q', hstep, ⟨free', filled', out', hs', hp'⟩, hc.step (step_calls hstep)⟩)
    ⟨⟨free, filled, out, hs, hp⟩, hcalled⟩ (Run.along_of_forall (fun _ _ => trivial) p)
  exact ⟨p, rs, p', hstart, hrun, ⟨free', filled', out', hs'⟩, hcalled'⟩

/-- **The accounts of the pipeline balance** in every interleaving, whenever no call of
`process_market_data` is running. -/
theorem accounting (journal : Bool) (symbol : List UInt8) (ts : List (Turn P)) :
    ∃ (p : EventPipeline P) (rs : List Unit) (p' : EventPipeline P), start symbol = some p ∧
      Run.exec (step journal) p ts = some (rs, p') ∧
      ((∀ d, p'.consumer ≠ .busy d) → p'.Countable → p'.Balanced) := by
  obtain ⟨p, rs, p', hstart, hrun, ⟨free, filled, out, hs⟩, hcalled⟩ :=
    exec_called (P := P) journal symbol ts
  exact ⟨p, rs, p', hstart, hrun, fun hidle hsmall => hs.balanced hcalled hidle hsmall⟩

/-- The message of the orderly run: two orders, no trade. -/
theorem accounting_orderlyRun : ∃ (p : EventPipeline ℚ) (rs : List Unit) (p' : EventPipeline ℚ),
    start (text "AAPL") = some p ∧
    Run.exec (step true) p ([.feed none, .feed (some calmTick), .stop] ++
      List.replicate 10 .consumer) = some (rs, p') ∧
    p'.hotPath = ((HotPath.init (text "AAPL")).processMarketData calmTick).2 ∧ p'.Balanced := by
  obtain ⟨p, rs₁, queue, s, hstart, h₁, hqueue, hc, hfresh⟩ := exec_stopping true calmTick
  obtain ⟨es, rest, hrest, hes⟩ := exists_circulating (n := 2) (by decide)
  rw [hrest] at hc
  obtain ⟨rs₂, queue', s₂, h₂, -, -⟩ := exec_consumerDrain true
    (p := ⟨false, true, queue, .init (text "AAPL"), s, .loop, .loop, .loop, .joinConsumer, []⟩)
    rfl rfl hqueue hc hfresh.hot (calmTick_length.trans hes.symm)
  rw [hes] at h₂
  have hrun := Run.exec_append h₁ h₂
  obtain ⟨p₀, rs, p', hstart', hrun', hbal⟩ := accounting true (text "AAPL")
    ([Turn.feed none, .feed (some calmTick), .stop] ++ List.replicate 10 Turn.consumer)
  obtain rfl := Option.some.inj (hstart.symm.trans hstart')
  have heq := Prod.mk.inj (Option.some.inj (hrun'.symm.trans hrun))
  refine ⟨p, rs, p', hstart, hrun', by rw [heq.2], hbal (fun d hd => ?_) ?_⟩
  · rw [heq.2] at hd
    cases hd
  · have hlen : p'.writes.length = 2 := by
      rw [heq.2]
      exact calmTick_length
    have hkinds := IoWrite.countP_kinds p'.writes
    exact ⟨by omega, by omega⟩

end EventPipeline

end Aspira
