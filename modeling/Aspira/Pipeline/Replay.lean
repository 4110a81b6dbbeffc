import Aspira.Book.Seen
import Aspira.Pipeline.Accounting
import Aspira.Pipeline.Gateway

/-!
# Pipeline — replay

"Recovery: replay the journal from the beginning" (`include/journal.h`).  The records of the orders
that were accepted, submitted in file order to an empty book, give the pipeline's book and its
trades (`journal_rebuilds`).

A record is written after its order was matched, but it carries all of the order that matching
reads: what a match changes of an order, its fill and its status, is not read from the record, and
the timestamp and the symbol are not read by the book (`View.bare`).  The trade records of an order
come right after it, so wherever the next record is one of an order, the trades so far are those of
the orders so far (`Retraced`).
-/

namespace Aspira

variable {P : Type}

/-! ### Records -/

/-- The side that a code stands for. -/
def Side.ofCode (c : UInt8) : Side := if c = 0 then .buy else .sell

/-- The order type that a code stands for. -/
def OrderType.ofCode (c : UInt8) : OrderType := if c = 0 then .limit else .market

theorem Side.ofCode_code (s : Side) : ofCode s.code = s := by
  cases s with
  | buy => rfl
  | sell => rfl

theorem OrderType.ofCode_code (t : OrderType) : ofCode t.code = t := by
  cases t with
  | limit => rfl
  | market => rfl

/-- The order with these fields, the rest as `Order()` leaves it. -/
def Order.fresh [Zero P] (id accountId : Int32) (side : Side) (type : OrderType) (price : P)
    (quantity : Int32) : Order P :=
  { (Order.blank : Order P) with
    id := id
    accountId := accountId
    side := side
    type := type
    price := price
    quantity := quantity }

/-- The order as it was submitted. -/
def Order.submitted [Zero P] (o : Order P) : Order P :=
  .fresh o.id o.accountId o.side o.type o.price o.quantity

namespace Action

/-- A call of the journal. -/
def isRecord : Action P → Bool
  | .journalOrder .. | .journalTrade .. => true
  | .log .. | .send .. => false

/-- A record of an order. -/
def isOrder : Action P → Bool
  | .journalOrder .. => true
  | _ => false

/-- The order that a record `JRNL_ORDER_NEW` or `JRNL_ORDER_FILLED` is replayed as. -/
def rebuilt [Zero P] : Action P → Option (Order P)
  | .journalOrder type orderId accountId price quantity _ _ side orderType _ _ =>
      if type = .orderNew ∨ type = .orderFilled then
        some (.fresh orderId accountId (.ofCode side) (.ofCode orderType) price quantity)
      else none
  | _ => none

/-- Id, parties, quantity and price of a record `JRNL_TRADE`. -/
def terms : Action P → Option (Int32 × Int32 × Int32 × Int32 × P)
  | .journalTrade tradeId buyOrderId sellOrderId price quantity _ _ =>
      some (tradeId, buyOrderId, sellOrderId, quantity, price)
  | _ => none

end Action

/-- The journal: the records, in file order. -/
def journal (actions : List (Action P)) : List (Action P) := actions.filter Action.isRecord

namespace IoWrite

/-- The record of an event. -/
def record : IoWrite P → Action P
  | .rejected o _ =>
      .journalOrder .orderReject o.id o.accountId o.price o.quantity 0 o.timestampNs o.side.code
        o.type.code OrderStatus.rejected.code ((cstr o.symbol.toList).take 15)
  | .result o _ =>
      .journalOrder (if 0 < o.filledQty then .orderFilled else .orderNew) o.id o.accountId o.price
        o.quantity o.filledQty o.timestampNs o.side.code o.type.code o.status.code
        ((cstr o.symbol.toList).take 15)
  | .trade t =>
      .journalTrade t.tradeId t.buyOrderId t.sellOrderId t.price t.quantity t.timestampNs
        ((cstr t.symbol.toList).take 15)

theorem journal_dispatch (e : IoEvent P) : journal e.dispatch = [] := by
  unfold IoEvent.dispatch
  split
  · rfl
  · rfl

/-- **Every event is journaled once**, whatever its entry was last used for: unlike the log line, the
record of a trade has no more than 15 characters of the symbol. -/
theorem journal_processIoEvent [Price P] (w : IoWrite P) (e : IoEvent P) :
    journal ((w.fill e).processIoEvent true) = [w.record] := by
  cases w with
  | rejected o reason => rfl
  | result o gwMsg =>
      have hsend := journal_dispatch ((IoWrite.result o gwMsg).fill e)
      unfold journal at hsend ⊢
      by_cases hpos : 0 < o.filledQty
      · simp only [IoEvent.processIoEvent, fill, if_pos hpos, record, IoEvent.journalOrder,
          List.filter_cons, List.filter_append] at hsend ⊢
        rw [hsend]
        rfl
      · simp only [IoEvent.processIoEvent, fill, if_neg hpos, record, IoEvent.journalOrder,
          List.filter_append] at hsend ⊢
        rw [hsend]
        rfl
  | trade t =>
      have hsym : (cstr ((IoWrite.trade t).fill e).tradeSymbolMem).take 15 =
          (cstr t.symbol.toList).take 15 := by
        rw [IoEvent.tradeSymbolMem, List.append_assoc]
        exact take_cstr_append (by rw [Vector.length_toList]; decide) _
      rw [processIoEvent_trade, tradeActions, hsym]
      rfl

theorem rebuilt_result [Zero P] (o : Order P) (gwMsg : Option (List UInt8)) :
    (IoWrite.result o gwMsg).record.rebuilt = some o.submitted := by
  have htype : (if 0 < o.filledQty then RecordType.orderFilled else .orderNew) = .orderNew ∨
      (if 0 < o.filledQty then RecordType.orderFilled else .orderNew) = .orderFilled := by
    split
    · exact .inr rfl
    · exact .inl rfl
  rw [record, Action.rebuilt, if_pos htype, Side.ofCode_code, OrderType.ofCode_code]
  rfl

/-- Trades are not replayed. -/
theorem filterMap_rebuilt_trades [Zero P] (ts : List (Trade P)) :
    ((ts.map IoWrite.trade).map record).filterMap Action.rebuilt = [] := by
  simp [record, Action.rebuilt, Function.comp_def]

theorem filterMap_terms_trades (ts : List (Trade P)) :
    ((ts.map IoWrite.trade).map record).filterMap Action.terms = ts.map Trade.terms := by
  simp [record, Action.terms, Function.comp_def, Trade.terms]

end IoWrite

/-! ### Replay -/

section Replay

variable [LinearOrder P]

/-- Orders submitted one after the other; `clock n` is what the `n`th finds. -/
def replay (clock : ℕ → Env) : ℕ → OrderBook P → List (Order P) → OrderBook P
  | _, b, [] => b
  | n, b, o :: os => replay clock (n + 1) (b.addOrder (clock n) o).2 os

theorem replay_append (clock : ℕ → Env) (os os' : List (Order P)) : ∀ (n : ℕ) (b : OrderBook P),
    replay clock n b (os ++ os') = replay clock (n + os.length) (replay clock n b os) os' := by
  induction os with
  | nil => exact fun n b => rfl
  | cons o os ih =>
      intro n b
      rw [List.cons_append, replay, ih, List.length_cons, Nat.add_right_comm]
      rfl

variable [Zero P]

/-- The book that the records are replayed to, on an empty book. -/
def rebuiltBook (clock : ℕ → Env) (symbol : List UInt8) (records : List (Action P)) : OrderBook P :=
  replay clock 0 (.init symbol) (records.filterMap Action.rebuilt)

/-- The order with the timestamp and the symbol that `Order()` gives it. -/
def Order.bare (o : Order P) : Order P :=
  { o with timestampNs := 0, symbol := Vector.replicate 16 0 }

/-- **The records rebuild the book.**  Replayed, they give its levels, its queues and its index, the
orders bare.  Where the next record is one of an order, and at the end, the trade records so far are
the trades so far of the replay. -/
structure Rebuilds (clock : ℕ → Env) (symbol : List UInt8) (records : List (Action P))
    (b : OrderBook P) : Prop where
  levels : ∀ s, ((rebuiltBook clock symbol records).levels s).entries =
    (b.levels s).entries.map fun e => (e.1, e.2.map fun n => ⟨n.addr, n.order.bare⟩)
  lookup : ∀ id, (rebuiltBook clock symbol records).orderIndex.lookup id = b.orderIndex.lookup id
  trades : ∀ front back, records = front ++ back → (∀ a ∈ back.head?, a.isOrder = true) →
    (rebuiltBook clock symbol front).trades.map Trade.terms = front.filterMap Action.terms

/-- What matching reads of an order. -/
def View.bare : View where
  addr := some
  stamp := fun _ => 0
  label := fun _ => Vector.replicate 16 0
  addr_inj := some_addr_inj
  stamp_zero := rfl
  label_blank := rfl

/-- What holds between the writes so far and the book. -/
structure Retraced (clock : ℕ → Env) (symbol : List UInt8) (ws : List (IoWrite P))
    (b : OrderBook P) : Prop where
  drained : b.trades = []
  seen : OrderBook.Seen View.bare ∅ b (rebuiltBook clock symbol (ws.map IoWrite.record))
  trades : ∀ front back, ws.map IoWrite.record = front ++ back →
    (∀ a ∈ back.head?, a.isOrder = true) →
    (rebuiltBook clock symbol front).trades.map Trade.terms = front.filterMap Action.terms

theorem Retraced.rebuilds {clock : ℕ → Env} {symbol : List UInt8} {ws : List (IoWrite P)}
    {b : OrderBook P} (h : Retraced clock symbol ws b) :
    Rebuilds clock symbol (ws.map IoWrite.record) b where
  levels := by
    intro s
    rw [h.seen.levels]
    exact OrderBook.entries_side (h.seen.marked.nonempty s) fun e he n hn => Option.some_ne_none _
  lookup := by
    intro id
    rw [h.seen.lookup]
    exact Option.bind_fun_some _
  trades := h.trades

/-- The beginnings of a list with a block put to its end, of which only the first may be a head. -/
theorem forall_front_append {α : Type} {head : α → Prop} {F : List α → Prop} {old block : List α}
    (hold : ∀ front back, old = front ++ back → (∀ a ∈ back.head?, head a) → F front)
    (hblock : ∀ a ∈ block.tail, ¬ head a) (hnew : F (old ++ block)) (front back : List α)
    (heq : old ++ block = front ++ back) (hhead : ∀ a ∈ back.head?, head a) : F front := by
  rcases List.append_eq_append_iff.mp heq with ⟨mid, rfl, hmid⟩ | ⟨mid, rfl, rfl⟩
  · -- the cut is in the block
    cases mid with
    | nil =>
        rw [List.append_nil]
        exact hold old [] (List.append_nil old).symm fun a ha => nomatch ha
    | cons m mid =>
        cases back with
        | nil =>
            rw [hmid, List.append_nil] at hnew
            exact hnew
        | cons a back =>
            refine absurd (hhead a rfl) (hblock a ?_)
            rw [hmid]
            exact List.mem_append_right mid (List.mem_cons_self ..)
  · -- the cut is before it
    cases mid with
    | nil => exact hold front [] rfl fun a ha => nomatch ha
    | cons m mid => exact hold front (m :: mid) rfl hhead

variable {clock : ℕ → Env} {symbol : List UInt8}

theorem rebuiltBook_of_nil {front block : List (Action P)}
    (h : block.filterMap Action.rebuilt = []) :
    rebuiltBook clock symbol (front ++ block) = rebuiltBook clock symbol front := by
  rw [rebuiltBook, List.filterMap_append, h, List.append_nil]
  rfl

/-- The replay of one more order. -/
theorem rebuiltBook_of_order (clock : ℕ → Env) (symbol : List UInt8) (front : List (Action P))
    {block : List (Action P)} {o : Order P} (h : block.filterMap Action.rebuilt = [o]) :
    ∃ env, rebuiltBook clock symbol (front ++ block) =
      ((rebuiltBook clock symbol front).addOrder env o).2 := by
  refine ⟨clock (0 + (front.filterMap Action.rebuilt).length), ?_⟩
  rw [rebuiltBook, List.filterMap_append, h, replay_append]
  rfl

theorem retraced_init (symbol' : List UInt8) :
    Retraced clock symbol [] (OrderBook.init symbol' : OrderBook P) where
  drained := rfl
  seen := ⟨fun s => by cases s <;> rfl, OrderBook.init_marked _ _ _, fun _ => rfl, rfl, fun _ => rfl⟩
  trades := by
    intro front back heq _
    obtain ⟨rfl, rfl⟩ := List.append_eq_nil_iff.mp heq.symm
    rfl

variable {ws : List (IoWrite P)} {b : OrderBook P}

/-- A rejected order is journaled, and not replayed. -/
theorem Retraced.rejected (h : Retraced clock symbol ws b) (o : Order P) (reason : List UInt8) :
    Retraced clock symbol (ws ++ [.rejected o reason]) b := by
  have hsame : rebuiltBook clock symbol (ws.map IoWrite.record ++
      [(IoWrite.rejected o reason).record]) = rebuiltBook clock symbol (ws.map IoWrite.record) :=
    rebuiltBook_of_nil rfl
  refine ⟨h.drained, ?_, ?_⟩
  · rw [List.map_append, List.map_singleton, hsame]
    exact h.seen
  · rw [List.map_append, List.map_singleton]
    refine forall_front_append h.trades (fun a ha => nomatch ha) ?_
    rw [hsame, List.filterMap_append, h.trades _ [] (List.append_nil _).symm fun a ha => nomatch ha]
    exact (List.append_nil _).symm

/-- **An accepted order is replayed** as it was submitted, and its trades come after it. -/
theorem Retraced.accepted (h : Retraced clock symbol ws b) (env : Env) {o : Order P}
    (ho : View.bare.order o = o.submitted) (gwMsg : Option (List UInt8)) :
    Retraced clock symbol (ws ++ .result (b.addOrder env o).1 gwMsg ::
      (b.addOrder env o).2.trades.map .trade) (b.addOrder env o).2.drainTrades.2 := by
  obtain ⟨f, st, hr⟩ := OrderBook.addOrder_settled env b o
  have hblock : (((IoWrite.result (b.addOrder env o).1 gwMsg ::
      (b.addOrder env o).2.trades.map .trade).map IoWrite.record).filterMap Action.rebuilt) =
      [o.submitted] := by
    rw [List.map_cons, List.filterMap_cons_some (IoWrite.rebuilt_result _ _),
      IoWrite.filterMap_rebuilt_trades, hr]
    rfl
  obtain ⟨env', hbook⟩ := rebuiltBook_of_order clock symbol (ws.map IoWrite.record) hblock
  obtain ⟨-, hseen, new, new', htr, htr', hterms⟩ :=
    h.seen.addOrder env env' (Set.notMem_empty o.id) (clean_empty _)
  rw [ho, ← hbook] at hseen htr'
  rw [h.drained, List.nil_append] at htr
  refine ⟨OrderBook.drainTrades_trades _, ?_, ?_⟩
  · rw [List.map_append]
    exact hseen.drain
  · rw [List.map_append]
    refine forall_front_append h.trades (fun a ha => ?_) ?_
    · obtain ⟨w, hw, rfl⟩ := List.mem_map.mp ha
      obtain ⟨t, -, rfl⟩ := List.mem_map.mp hw
      exact Bool.noConfusion
    · have hnone : (IoWrite.result (b.addOrder env o).1 gwMsg).record.terms = none := rfl
      rw [htr', List.map_append, List.filterMap_append,
        h.trades _ [] (List.append_nil _).symm (fun a ha => nomatch ha), List.map_cons,
        List.filterMap_cons_none hnone, IoWrite.filterMap_terms_trades, htr, hterms]

end Replay

section Runs

variable [Price P]

/-- **A run is retraced by its records.** -/
theorem run_retraced (clock : ℕ → Env) (symbol symbol' : List UInt8) (ts : List (Tick P)) :
    Retraced clock symbol' ((HotPath.init symbol : HotPath P).run ts).1
      ((HotPath.init symbol : HotPath P).run ts).2.orderBook := by
  have hrun := HotPath.run_writes (I := fun b ws => Retraced clock symbol' ws b)
    (Q := fun o : Order P => View.bare.order o = o.submitted) (fun _ _ _ => rfl)
    (fun a ws ho h => ?_) ts (h := (HotPath.init symbol : HotPath P)) (retraced_init symbol)
  · rw [List.nil_append] at hrun
    exact hrun
  · cases hv : a.accepted with
    | false =>
        obtain ⟨reason, hwrites, hbook, -⟩ := HotPath.processOrder_eq_of_rejected hv
        rw [hwrites, hbook]
        exact h.rejected a.order reason
    | true =>
        obtain ⟨gw, -, hwrites, hbook, -⟩ := HotPath.processOrder_eq_of_accepted hv
        rw [hwrites, hbook]
        exact h.accepted a.amb.stamps ho gw

/-- **Every order makes one trade at most**, on a book of whole orders. -/
theorem lots_run (ts : List (Tick P)) {h : HotPath P} (hb : Lots h.orderBook) :
    Lots (h.run ts).2.orderBook ∧
      (h.run ts).1.countP IoWrite.isTrade ≤ (h.run ts).1.countP IoWrite.isResult := by
  have hinit : Lots h.orderBook ∧ ([] : List (IoWrite P)).countP IoWrite.isTrade ≤
      ([] : List (IoWrite P)).countP IoWrite.isResult := ⟨hb, le_rfl⟩
  have hrun := HotPath.run_writes (Q := NewLot)
    (I := fun b ws => Lots b ∧ ws.countP IoWrite.isTrade ≤ ws.countP IoWrite.isResult)
    HotPath.strategyOrder_newLot (fun a ws ho h => ?_) ts hinit
  · rw [List.nil_append] at hrun
    exact hrun
  · obtain ⟨hb, hle⟩ := h
    refine ⟨HotPath.lots_next hb ho, ?_⟩
    rw [List.countP_append, List.countP_append]
    refine Nat.add_le_add hle ?_
    cases hv : a.accepted with
    | false =>
        obtain ⟨reason, hwrites, -, -⟩ := HotPath.processOrder_eq_of_rejected hv
        rw [hwrites]
        exact Nat.le_refl 0
    | true =>
        obtain ⟨gw, -, hwrites, -, -⟩ := HotPath.processOrder_eq_of_accepted hv
        obtain ⟨hres, -, htr⟩ :=
          IoWrite.countP_submission (.result a.submission.result gw) rfl a.submission.after.trades
        rw [hwrites, hres, htr]
        exact (Lots.submitted (s := a.submission) hb ho).2.2

theorem run_trades_le (symbol : List UInt8) (ts : List (Tick P)) :
    ((HotPath.init symbol : HotPath P).run ts).1.countP IoWrite.isTrade ≤
      ((HotPath.init symbol : HotPath P).run ts).1.countP IoWrite.isResult :=
  (lots_run ts (HotPath.lots_init symbol)).2

namespace EventPipeline

variable {p p' : EventPipeline P}

/-- Fewer than 2³⁰ messages were processed: each makes two orders, and each order one event. -/
def Short (p : EventPipeline P) : Prop :=
  p.writes.countP IoWrite.isResult + p.writes.countP IoWrite.isRejected < 2 * 2 ^ 30

/-- The number of events is a 64-bit word. -/
theorem Called.length_lt {symbol : List UInt8} (h : p.Called symbol) (hshort : p.Short) :
    p.writes.length < 2 ^ 64 := by
  obtain ⟨ts, hts⟩ := h
  have hle := run_trades_le (P := P) symbol ts
  have hkinds := IoWrite.countP_kinds p.writes
  rw [hts] at hle
  dsimp only at hle
  unfold Short at hshort
  omega

/-- The records of events that hold what was written to them. -/
theorem journal_carried {ws : List (IoWrite P)} {ps : List (Entry × IoEvent P)}
    (h : List.Forall₂ (fun w p => Carries w p.2) ws ps) :
    journal (ps.flatMap fun p => p.2.processIoEvent true) = ws.map IoWrite.record := by
  induction h with
  | nil => rfl
  | @cons w p ws ps hwp _ ih =>
      obtain ⟨e₀, -, heq⟩ := hwp
      have hone := w.journal_processIoEvent e₀
      unfold journal at hone ih ⊢
      rw [List.flatMap_cons, List.filter_append, ih, heq, hone]
      rfl

/-- **The journal**, when all that was written has been processed. -/
theorem Sound.journal {free filled out : List Entry} (h : p.Sound true free filled out)
    (hidle : p.stages.hot = .idle ∧ p.stages.todo = []) (hlen : p.writes.length < 2 ^ 64)
    (hdropped : p.stages.ioEventsDropped = 0) (hpassed : p.stages.passed = p.stages.pushed) :
    Aspira.journal p.stages.actions = p.writes.map IoWrite.record := by
  obtain ⟨ws, hf⟩ := h.faithful
  have hcount := h.events hidle hlen
  have hkept := hf.kept
  have horder := hf.order
  have hpushed := hf.pushed.length_eq
  rw [hdropped] at hcount
  rw [hidle.1, HotHand.pending, List.append_nil] at hkept
  rw [hidle.2, List.append_nil, hkept] at horder
  obtain rfl : ws = p.writes := horder.eq_of_length (hpushed.trans hcount)
  rw [hf.actions, hpassed]
  exact journal_carried hf.pushed

/-- **The journal determines the book.**  In every interleaving, when no call of
`process_market_data` is running, no event was dropped and every event pushed was processed: the
records, replayed on an empty book of whatever symbol, at whatever time, rebuild the book of the
pipeline and its trades. -/
theorem journal_rebuilds {symbol symbol' : List UInt8} {ts : List (Turn P)} {rs : List Unit}
    (clock : ℕ → Env) (hstart : start symbol = some p)
    (hrun : Run.exec (step true) p ts = some (rs, p')) (hidle : ∀ d, p'.consumer ≠ .busy d)
    (hshort : p'.Short) (hdropped : p'.stages.ioEventsDropped = 0)
    (hpassed : p'.stages.passed = p'.stages.pushed) :
    Rebuilds clock symbol' (journal p'.stages.actions) p'.hotPath.orderBook := by
  obtain ⟨p₀, rs₀, p₁, hstart₀, hrun₀, ⟨free, filled, out, hs⟩, hcalled⟩ :=
    exec_called (P := P) true symbol ts
  obtain rfl : p₀ = p := Option.some.inj (hstart₀.symm.trans hstart)
  obtain rfl : p₁ = p' := (Prod.mk.inj (Option.some.inj (hrun₀.symm.trans hrun))).2
  rw [hs.journal (hs.hot hidle) (hcalled.length_lt hshort) hdropped hpassed]
  obtain ⟨ticks, hticks⟩ := hcalled
  have hretraced := run_retraced (P := P) clock symbol symbol' ticks
  rw [hticks] at hretraced
  exact hretraced.rebuilds

/-- A crossed message for `AAPL`: its sell order takes its buy order. -/
def crossedTick : Tick ℚ :=
  ⟨⟨0, 101, 99, aapl⟩, .still, .still⟩

theorem crossedTick_length :
    ((HotPath.init (text "AAPL")).processMarketData crossedTick).1.length = 3 := by decide +kernel

theorem crossedTick_trades : ((HotPath.init (text "AAPL")).processMarketData crossedTick).1.countP
    IoWrite.isTrade = 1 := by decide +kernel

theorem journal_rebuilds_crossedTick : ∃ (p p' : EventPipeline ℚ) (rs : List Unit),
    start (text "AAPL") = some p ∧ Run.exec (step true) p (drainRun crossedTick 3) = some (rs, p') ∧
    p'.writes.countP IoWrite.isTrade = 1 ∧
    Rebuilds (fun _ => .still) [] (journal p'.stages.actions) p'.hotPath.orderBook := by
  obtain ⟨p, rs, queue, s, free, out, hstart, hrun, hc, hidle, hdropped⟩ :=
    exec_drainRun true crossedTick (by decide) crossedTick_length
  have htrades := crossedTick_trades
  have hlen := crossedTick_length
  generalize ((HotPath.init (text "AAPL")).processMarketData crossedTick).1 = ws
    at hrun htrades hlen
  generalize ((HotPath.init (text "AAPL")).processMarketData crossedTick).2 = hot at hrun
  have hflow := hc.flow
  rw [hidle, IoHand.unread, List.append_nil, List.map_nil, List.append_nil] at hflow
  have hshort : Short (⟨false, true, queue, hot, s, .loop, .exited, .drain, .joinConsumer, ws⟩ :
      EventPipeline ℚ) := by
    have hkinds := IoWrite.countP_kinds ws
    show ws.countP IoWrite.isResult + ws.countP IoWrite.isRejected < 2 * 2 ^ 30
    omega
  exact ⟨p, _, rs, hstart, hrun, htrades, journal_rebuilds _ hstart hrun
    (fun d he => by cases he) hshort hdropped hflow.symm⟩

end EventPipeline

end Runs

end Aspira
