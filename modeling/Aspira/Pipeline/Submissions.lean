import Aspira.Book.Strike
import Aspira.Book.Invariant
import Aspira.Pipeline.HotPath

/-!
# Pipeline — submissions

Every order that the risk engine accepts is submitted to the book.  A `Submission` is such an order
together with the book it finds, and `HotPath.submissions` lists those of a run.

The trades of a submission carry ids only.  `Submission.executions` puts each of them beside the two
orders it is between, the one submitted and the resting one it struck: `executions_trade` and
`executions_id` say that these are all the trades, and the orders they name.

`run_submissions` is the rule by which what one order keeps is kept by a whole run;
`arrivals_keep` is the same rule for what each order finds.
-/

namespace Aspira

/-- An accepted order, and the book it is submitted to. -/
structure Submission (P : Type) [LinearOrder P] where
  book : OrderBook P
  order : Order P
  stamps : Env

/-- A trade, and the two orders it is between. -/
structure Execution (P : Type) where
  trade : Trade P
  incoming : Order P
  resting : Order P

namespace Execution

variable {P : Type}

/-- The buy order of the trade. -/
def buy (e : Execution P) : Order P := if e.incoming.side = .buy then e.incoming else e.resting

/-- The sell order of the trade. -/
def sell (e : Execution P) : Order P := if e.incoming.side = .buy then e.resting else e.incoming

/-- The two orders of a trade, as the one submitted and the one hit. -/
theorem sides (e : Execution P) :
    e.buy = e.incoming ∧ e.sell = e.resting ∨ e.buy = e.resting ∧ e.sell = e.incoming := by
  unfold buy sell
  split
  · exact .inl ⟨rfl, rfl⟩
  · exact .inr ⟨rfl, rfl⟩

end Execution

namespace Submission

variable {P : Type} [LinearOrder P]

/-- What `add_order` returns. -/
def result (s : Submission P) : Order P := (s.book.addOrder s.stamps s.order).1

/-- The book after it. -/
def after (s : Submission P) : OrderBook P := (s.book.addOrder s.stamps s.order).2

/-- The resting orders that the submitted one reaches, read off the book before it. -/
def hits (s : Submission P) : OrderList P :=
  struck s.order.side.opposite s.order s.order.quantity.toInt (s.book.queue s.order.side.opposite)

/-- The trades, each with its two orders. -/
def executions (s : Submission P) : List (Execution P) :=
  List.zipWith (fun t n => ⟨t, s.order, n.order⟩) s.after.trades s.hits

/-- What a submission returns and leaves. -/
structure Outcome (s : Submission P) (result : Order P) (after : OrderBook P) : Prop where
  between : List.Forall₂ (Trade.Between s.book.symbol s.order) after.trades s.hits
  settled : ∃ f st, result = { s.order with filledQty := f, status := st }
  filled : result.filledQty.toInt = volume after.trades
  filled_le : result.filledQty.toInt ≤ max 0 s.order.quantity.toInt
  opposite : ∃ front rest, s.book.queue s.order.side.opposite = s.hits ++ rest ∧
    after.queue s.order.side.opposite = front ++ rest ∧ ∀ n' ∈ front, ∃ n ∈ s.hits, n.Same n'
  own : ∃ A new B, s.book.queue s.order.side = A ++ B ∧
    after.queue s.order.side = A ++ new ++ B ∧ ∀ n ∈ new, n.order.symbol = s.order.symbol
  placed : after.Placed
  symbol : after.symbol = s.book.symbol

/-- What the sweep of a submission does, in terms of the orders hit. -/
theorem struck_of_swept {s : Submission P} {m' : Matching P} {b' : OrderBook P}
    (h : OrderBook.Swept s.stamps s.order s.book m' b') (hb : s.book.Placed)
    (htr : s.book.trades = []) (ho : s.order.filledQty = 0) :
    Struck s.book.symbol s.order s.hits b'.trades (s.book.queue s.order.side.opposite)
      (s.book.matching s.order) (b'.queue s.order.side.opposite) m' := by
  obtain ⟨new, hnew⟩ := h.sweep.strike (Order.inRange_of_unfilled ho) fun n hn => hb.resting hn
  have hall : (s.book.matching s.order).order.quantity.toInt -
      (s.book.matching s.order).order.filledQty.toInt = s.order.quantity.toInt := by
    show s.order.quantity.toInt - s.order.filledQty.toInt = _
    rw [ho]
    exact sub_zero _
  have hbuf : b'.trades = new := by
    rw [h.trades, hnew.trades]
    show s.book.trades ++ new = new
    rw [htr, List.nil_append]
  rw [hall] at hnew
  rw [hbuf]
  exact hnew

/-- The outcome of the sweep alone. -/
theorem outcome_of_swept {s : Submission P} {m' : Matching P} {b' : OrderBook P}
    (h : OrderBook.Swept s.stamps s.order s.book m' b') (hb : s.book.Placed)
    (htr : s.book.trades = []) (ho : s.order.filledQty = 0) :
    s.Outcome (settle m'.order) b' := by
  have hst := struck_of_swept h hb htr ho
  obtain ⟨st, hsettle⟩ := h.settled
  have hin := (h.sweep.resting (Order.inRange_of_unfilled ho) fun n hn => hb.resting hn).1
  obtain ⟨f, hf⟩ := h.sweep.order
  refine ⟨hst.between, ⟨_, st, hsettle⟩, ?_, ?_, hst.rest, ⟨s.book.queue s.order.side, [], [], ?_⟩,
    h.placed, h.symbol⟩
  · rw [settle_filledQty, hst.filled]
    show s.order.filledQty.toInt + _ = _
    rw [ho]
    exact zero_add _
  · have hle := hin.2
    rw [hf] at hle
    rw [settle_filledQty, hf]
    exact hle
  · simp [h.own]

/-- **A submission trades with the orders it reaches.**  Each trade is between the submitted order
and one of those, in their order; the submitted order is filled by the total of the trades; nothing
else of the book changes but that the rest of the order may join its own side. -/
theorem outcome {s : Submission P} (hb : s.book.Placed) (htr : s.book.trades = [])
    (ho : s.order.filledQty = 0) : s.Outcome s.result s.after := by
  have hadd : OrderBook.Added s.stamps s.order s.book s.result s.after :=
    OrderBook.addOrder_added s.stamps hb ho
  generalize s.result = o' at hadd
  generalize s.after = b' at hadd
  cases hadd with
  | done h => exact outcome_of_swept h hb htr ho
  | @rests m' b₁ _ h _ _ hr =>
      have out := outcome_of_swept h hb htr ho
      obtain ⟨st, hsettle⟩ := h.settled
      have hside : (settle m'.order).side = s.order.side := by rw [hsettle]
      have hsym : (settle m'.order).symbol = s.order.symbol := by rw [hsettle]
      obtain ⟨A, B, hA, hB, -, -⟩ := hr.own
      have hopp := hr.opposite
      rw [hside] at hA hB hopp
      rw [h.own] at hA
      refine ⟨?_, ?_, ?_, ?_, ?_, ⟨A, [⟨b₁.nextNode, (settle m'.order).entry⟩], B, hA, ?_, ?_⟩,
        hr.placed, hr.symbol.trans h.symbol⟩
      · rw [hr.trades]
        exact out.between
      · split
        · exact ⟨m'.order.filledQty, .partFilled, by rw [hsettle]⟩
        · exact out.settled
      · rw [hr.trades, ← out.filled]
        split <;> rfl
      · refine le_trans (le_of_eq ?_) out.filled_le
        split <;> rfl
      · rw [hopp]
        exact out.opposite
      · rw [hB, List.append_assoc]
        rfl
      · intro n hn
        rw [List.mem_singleton.mp hn]
        exact ((settle m'.order).entry_same b₁.nextNode).symbol.trans hsym

/-! ### The trades of a submission -/

/-- Every trade is in the list once, in order. -/
theorem Outcome.executions_trade {s : Submission P} (out : s.Outcome s.result s.after) :
    s.executions.map Execution.trade = s.after.trades := by
  have hb := out.between
  rw [executions]
  generalize s.after.trades = ts at hb ⊢
  generalize s.hits = hits at hb ⊢
  induction hb with
  | nil => rfl
  | cons _ _ ih => rw [List.zipWith_cons_cons, List.map_cons, ih]

/-- A trade is with an order that was hit. -/
theorem Outcome.mem_executions {s : Submission P} (out : s.Outcome s.result s.after)
    {e : Execution P} (he : e ∈ s.executions) :
    ∃ n ∈ s.hits, e.incoming = s.order ∧ e.resting = n.order ∧
      e.trade.Between s.book.symbol s.order n := by
  have hb := out.between
  rw [executions] at he
  generalize s.after.trades = ts at hb he
  generalize s.hits = hits at hb he
  induction hb with
  | nil => exact absurd he List.not_mem_nil
  | @cons t n ts hits ht _ ih =>
      rw [List.zipWith_cons_cons] at he
      rcases List.mem_cons.mp he with rfl | he
      · exact ⟨n, List.mem_cons_self .., rfl, rfl, ht⟩
      · obtain ⟨n', hn', h⟩ := ih he
        exact ⟨n', List.mem_cons_of_mem n hn', h⟩

/-- Every order hit is in a trade. -/
theorem Outcome.exists_execution {s : Submission P} (out : s.Outcome s.result s.after) {n : Node P}
    (hn : n ∈ s.hits) :
    ∃ e ∈ s.executions, e.incoming = s.order ∧ e.resting = n.order ∧
      e.trade.Between s.book.symbol s.order n := by
  have hb := out.between
  rw [executions]
  generalize s.after.trades = ts at hb
  generalize s.hits = hits at hb hn
  induction hb with
  | nil => exact absurd hn List.not_mem_nil
  | @cons t a ts hits ht _ ih =>
      rw [List.zipWith_cons_cons]
      rcases List.mem_cons.mp hn with rfl | hn
      · exact ⟨_, List.mem_cons_self .., rfl, rfl, ht⟩
      · obtain ⟨e, he, h⟩ := ih hn
        exact ⟨e, List.mem_cons_of_mem _ he, h⟩

/-- **The two orders put beside a trade are those it names.** -/
theorem Outcome.executions_id {s : Submission P} (out : s.Outcome s.result s.after)
    {e : Execution P} (he : e ∈ s.executions) :
    e.trade.buyOrderId = e.buy.id ∧ e.trade.sellOrderId = e.sell.id := by
  obtain ⟨n, -, hin, hres, hbet⟩ := out.mem_executions he
  rw [hbet.buyOrderId, hbet.sellOrderId, Execution.buy, Execution.sell, hin, hres]
  split
  · exact ⟨rfl, rfl⟩
  · exact ⟨rfl, rfl⟩

end Submission

namespace HotPath

variable {P : Type} [Price P]

/-! ### The submissions of a run -/

/-- The submission of one order, if it is accepted. -/
def submitted (amb : Ambient) (h : HotPath P) (order : Order P) : List (Submission P) :=
  if (h.riskEngine.validate amb.nowSec order h.orderBook.midPrice).1 then
    [⟨h.orderBook, order, amb.stamps⟩]
  else []

/-- The submissions of a sequence of calls. -/
def submissions (h : HotPath P) : List (Tick P) → List (Submission P)
  | [] => []
  | t :: ts =>
      let s := h.countMsg.strategyOnMarketData t.msg
      let r := s.2.2.processOrder t.buy s.1
      s.2.2.submitted t.buy s.1 ++ r.2.submitted t.sell s.2.1 ++
        (h.processMarketData t).2.submissions ts

/-- What the strategy fixes of its orders. -/
structure Quote (o : Order P) : Prop where
  filledQty : o.filledQty = 0
  quantity : o.quantity = 100
  type : o.type = .limit

theorem strategyOrder_quote (msg : FeedMsg P) (id : Int32) (side : Side) :
    Quote (strategyOrder msg id side) := ⟨rfl, rfl, rfl⟩

theorem processOrder_accepted {amb : Ambient} {h : HotPath P} {o : Order P}
    (hv : (h.riskEngine.validate amb.nowSec o h.orderBook.midPrice).1 = true) :
    (h.processOrder amb o).2.orderBook =
      (Submission.after ⟨h.orderBook, o, amb.stamps⟩).drainTrades.2 ∧
    (h.processOrder amb o).2.riskEngine =
      reportFill (h.riskEngine.validate amb.nowSec o h.orderBook.midPrice).2
        (Submission.result ⟨h.orderBook, o, amb.stamps⟩) h.orderBook.midPrice ∧
    h.submitted amb o = [⟨h.orderBook, o, amb.stamps⟩] := by
  simp only [processOrder, submitted, hv, if_true]
  exact ⟨rfl, rfl, trivial⟩

theorem processOrder_writes {amb : Ambient} {h : HotPath P} {o : Order P}
    (hv : (h.riskEngine.validate amb.nowSec o h.orderBook.midPrice).1 = true)
    {s : Submission P} (hs : s = ⟨h.orderBook, o, amb.stamps⟩) :
    (h.processOrder amb o).1 =
      .result s.result (if s.result.sendToGw then some (gwMsgBytes amb.pastSymbol s.result) else none) ::
        s.after.trades.map .trade := by
  rw [hs]
  simp only [processOrder, hv, if_true]
  rfl

theorem processOrder_rejected {amb : Ambient} {h : HotPath P} {o : Order P}
    (hv : (h.riskEngine.validate amb.nowSec o h.orderBook.midPrice).1 = false) :
    (h.processOrder amb o).2.orderBook = h.orderBook ∧
    (h.processOrder amb o).2.riskEngine =
      (h.riskEngine.validate amb.nowSec o h.orderBook.midPrice).2 ∧
    h.submitted amb o = [] := by
  simp [processOrder, submitted, hv]

/-- What a run with these submissions writes. -/
inductive Wrote (subs : List (Submission P)) : IoWrite P → Prop where
  | rejected (o : Order P) (reason : List UInt8) : Wrote subs (.rejected o reason)
  | result {s : Submission P} (hs : s ∈ subs) (past : List UInt8) :
      Wrote subs (.result s.result
        (if s.result.sendToGw then some (gwMsgBytes past s.result) else none))
  | trade {s : Submission P} (hs : s ∈ subs) {t : Trade P} (ht : t ∈ s.after.trades) :
      Wrote subs (.trade t)

theorem Wrote.mono {subs subs' : List (Submission P)} (hsub : subs ⊆ subs') {w : IoWrite P}
    (h : Wrote subs w) : Wrote subs' w := by
  cases h with
  | rejected o reason => exact .rejected o reason
  | result hs past => exact .result (hsub hs) past
  | trade hs ht => exact .trade (hsub hs) ht

theorem processOrder_wrote (amb : Ambient) (h : HotPath P) (o : Order P) {w : IoWrite P}
    (hw : w ∈ (h.processOrder amb o).1) : Wrote (h.submitted amb o) w := by
  cases hv : (h.riskEngine.validate amb.nowSec o h.orderBook.midPrice).1 with
  | true =>
      rw [(processOrder_accepted hv).2.2]
      rw [processOrder_writes hv rfl] at hw
      have hself := List.mem_singleton_self (⟨h.orderBook, o, amb.stamps⟩ : Submission P)
      rcases List.mem_cons.mp hw with rfl | hw
      · exact .result hself amb.pastSymbol
      · obtain ⟨t, ht, rfl⟩ := List.mem_map.mp hw
        exact .trade hself ht
  | false =>
      simp only [processOrder, hv, Bool.false_eq_true, if_false, List.mem_singleton] at hw
      rw [hw]
      exact .rejected _ _

/-- **The writes of a run** are those of its rejections, submissions and trades. -/
theorem run_wrote (ts : List (Tick P)) :
    ∀ {h : HotPath P} {w : IoWrite P}, w ∈ (h.run ts).1 → Wrote (h.submissions ts) w := by
  induction ts with
  | nil =>
      intro h w hw
      exact absurd hw List.not_mem_nil
  | cons t ts ih =>
      intro h w hw
      rw [submissions]
      rcases List.mem_append.mp hw with hw | hw
      · rcases List.mem_append.mp hw with hw | hw
        · refine (processOrder_wrote _ _ _ hw).mono fun s hs => ?_
          exact List.mem_append_left _ (List.mem_append_left _ hs)
        · refine (processOrder_wrote _ _ _ hw).mono fun s hs => ?_
          exact List.mem_append_left _ (List.mem_append_right _ hs)
      · exact (ih hw).mono fun s hs => List.mem_append_right _ hs

section Rule

variable {I : OrderBook P → RiskEngine P → List (Submission P) → Prop}
  (reject : ∀ b r subs (amb : Ambient) o, Quote o → I b r subs →
    (r.validate amb.nowSec o b.midPrice).1 = false → I b (r.validate amb.nowSec o b.midPrice).2 subs)
  (accept : ∀ b r subs (amb : Ambient) o, Quote o → I b r subs →
    (r.validate amb.nowSec o b.midPrice).1 = true →
    I (Submission.after ⟨b, o, amb.stamps⟩).drainTrades.2
      (reportFill (r.validate amb.nowSec o b.midPrice).2 (Submission.result ⟨b, o, amb.stamps⟩)
        b.midPrice)
      (subs ++ [⟨b, o, amb.stamps⟩]))

include reject accept

/-- One order. -/
theorem processOrder_submitted (amb : Ambient) {h : HotPath P} {o : Order P}
    {subs : List (Submission P)} (ho : Quote o) (hI : I h.orderBook h.riskEngine subs) :
    I (h.processOrder amb o).2.orderBook (h.processOrder amb o).2.riskEngine
      (subs ++ h.submitted amb o) := by
  cases hv : (h.riskEngine.validate amb.nowSec o h.orderBook.midPrice).1 with
  | true =>
      obtain ⟨hb, hr, hs⟩ := processOrder_accepted hv
      rw [hb, hr, hs]
      exact accept _ _ _ amb o ho hI hv
  | false =>
      obtain ⟨hb, hr, hs⟩ := processOrder_rejected hv
      rw [hb, hr, hs, List.append_nil]
      exact reject _ _ _ amb o ho hI hv

/-- **What every order keeps, a run keeps.** -/
theorem run_submissions (ts : List (Tick P)) :
    ∀ (h : HotPath P) (subs : List (Submission P)), I h.orderBook h.riskEngine subs →
      I (h.run ts).2.orderBook (h.run ts).2.riskEngine (subs ++ h.submissions ts) := by
  induction ts with
  | nil =>
      intro h subs hI
      rw [submissions, List.append_nil]
      exact hI
  | cons t ts ih =>
      intro h subs hI
      have h₁ := processOrder_submitted reject accept t.buy
        (h := (h.countMsg.strategyOnMarketData t.msg).2.2)
        (strategyOrder_quote t.msg h.nextOrderId .buy) hI
      have h₂ := processOrder_submitted reject accept t.sell
        (strategyOrder_quote t.msg (h.nextOrderId + 1) .sell) h₁
      have h₃ := ih (h.processMarketData t).2 _ h₂
      rw [submissions, ← List.append_assoc, ← List.append_assoc]
      exact h₃

end Rule

/-! ### The orders of a run -/

/-- An order, and what it finds: the state of the consumer thread and what is outside. -/
structure Arrival (P : Type) [LinearOrder P] where
  path : HotPath P
  amb : Ambient
  order : Order P

namespace Arrival

/-- Whether the risk engine accepts it. -/
def accepted (a : Arrival P) : Bool :=
  (a.path.riskEngine.validate a.amb.nowSec a.order a.path.orderBook.midPrice).1

/-- What is submitted if it does. -/
def submission (a : Arrival P) : Submission P := ⟨a.path.orderBook, a.order, a.amb.stamps⟩

/-- The state after it. -/
def next (a : Arrival P) : HotPath P := (a.path.processOrder a.amb a.order).2

end Arrival

/-- The orders of a sequence of calls. -/
def arrivals (h : HotPath P) : List (Tick P) → List (Arrival P)
  | [] => []
  | t :: ts =>
      let s := h.countMsg.strategyOnMarketData t.msg
      let r := s.2.2.processOrder t.buy s.1
      ⟨s.2.2, t.buy, s.1⟩ :: ⟨r.2, t.sell, s.2.1⟩ :: (h.processMarketData t).2.arrivals ts

/-- **What every order keeps holds when each arrives**, and after the run. -/
theorem arrivals_keep {I : OrderBook P → RiskEngine P → Prop} {Q : Order P → Prop}
    (step : ∀ a : Arrival P, Q a.order → I a.path.orderBook a.path.riskEngine →
      I a.next.orderBook a.next.riskEngine) (ts : List (Tick P)) :
    ∀ {h : HotPath P}, (∀ t ∈ ts, ∀ id side, Q (strategyOrder t.msg id side)) →
      I h.orderBook h.riskEngine →
      (∀ a ∈ h.arrivals ts, Q a.order ∧ I a.path.orderBook a.path.riskEngine) ∧
        I (h.run ts).2.orderBook (h.run ts).2.riskEngine := by
  induction ts with
  | nil => exact fun _ hI => ⟨fun a ha => absurd ha List.not_mem_nil, hI⟩
  | cons t ts ih =>
      intro h hQ hI
      set s := h.countMsg.strategyOnMarketData t.msg with hs
      have hbuy : Q s.1 := hQ t (List.mem_cons_self ..) h.nextOrderId .buy
      have hsell : Q s.2.1 := hQ t (List.mem_cons_self ..) (h.nextOrderId + 1) .sell
      have h₁ := step ⟨s.2.2, t.buy, s.1⟩ hbuy hI
      have h₂ := step ⟨(s.2.2.processOrder t.buy s.1).2, t.sell, s.2.1⟩ hsell h₁
      obtain ⟨hrest, hend⟩ := ih (h := (h.processMarketData t).2)
        (fun t' ht' => hQ t' (List.mem_cons_of_mem t ht')) h₂
      refine ⟨fun a ha => ?_, hend⟩
      rcases List.mem_cons.mp ha with rfl | ha
      · exact ⟨hbuy, hI⟩
      · rcases List.mem_cons.mp ha with rfl | ha
        · exact ⟨hsell, h₁⟩
        · exact hrest a ha

/-- **What every order keeps of the book and the writes, a run keeps.** -/
theorem run_writes {I : OrderBook P → List (IoWrite P) → Prop} {Q : Order P → Prop}
    (hQ : ∀ msg id side, Q (strategyOrder msg id side))
    (step : ∀ (a : Arrival P) ws, Q a.order → I a.path.orderBook ws →
      I a.next.orderBook (ws ++ (a.path.processOrder a.amb a.order).1)) (ts : List (Tick P)) :
    ∀ {h : HotPath P} {ws : List (IoWrite P)}, I h.orderBook ws →
      I (h.run ts).2.orderBook (ws ++ (h.run ts).1) := by
  induction ts with
  | nil =>
      intro h ws hI
      rw [run, List.append_nil]
      exact hI
  | cons t ts ih =>
      intro h ws hI
      set s := h.countMsg.strategyOnMarketData t.msg
      have h₁ := step ⟨s.2.2, t.buy, s.1⟩ ws (hQ t.msg h.nextOrderId .buy) hI
      have h₂ := step ⟨(s.2.2.processOrder t.buy s.1).2, t.sell, s.2.1⟩ _
        (hQ t.msg (h.nextOrderId + 1) .sell) h₁
      have h₃ := ih h₂
      rw [List.append_assoc, List.append_assoc, ← List.append_assoc _ _ (HotPath.run _ ts).1] at h₃
      exact h₃

end HotPath

/-! ### The book of a run -/

section Booked

variable {P : Type} [Price P] {symbol : List UInt8} {b : OrderBook P} {subs : List (Submission P)}

/-- What holds between the book and the submissions so far. -/
structure Booked (symbol : List UInt8) (b : OrderBook P) (subs : List (Submission P)) : Prop where
  placed : b.Placed
  drained : b.trades = []
  labelled : b.symbol = symbol
  outcome : ∀ s ∈ subs, s.book.symbol = symbol ∧ s.Outcome s.result s.after

theorem booked_init (symbol : List UInt8) :
    Booked symbol (HotPath.init symbol : HotPath P).orderBook [] :=
  ⟨OrderBook.init_placed symbol, rfl, rfl, fun _ hs => absurd hs List.not_mem_nil⟩

theorem drainTrades_placed (h : b.Placed) : b.drainTrades.2.Placed := h.congr rfl rfl

theorem Booked.accept (h : Booked symbol b subs) (amb : Ambient) {o : Order P}
    (ho : HotPath.Quote o) :
    Booked symbol (Submission.after ⟨b, o, amb.stamps⟩).drainTrades.2
      (subs ++ [⟨b, o, amb.stamps⟩]) := by
  set s : Submission P := ⟨b, o, amb.stamps⟩
  have out : s.Outcome s.result s.after := Submission.outcome h.placed h.drained ho.filledQty
  refine ⟨drainTrades_placed out.placed, OrderBook.drainTrades_trades s.after,
    (OrderBook.drainTrades_symbol s.after).trans (out.symbol.trans h.labelled), ?_⟩
  intro s' hs'
  rcases List.mem_append.mp hs' with hs' | hs'
  · exact h.outcome s' hs'
  · rw [List.mem_singleton.mp hs']
    exact ⟨h.labelled, out⟩

/-- **The book and the submissions of every run from `init`.** -/
theorem run_booked (symbol : List UInt8) (ts : List (Tick P)) :
    Booked symbol ((HotPath.init symbol : HotPath P).run ts).2.orderBook
      ((HotPath.init symbol).submissions ts) :=
  HotPath.run_submissions (I := fun b _ subs => Booked symbol b subs) (fun _ _ _ _ _ _ h _ => h)
    (fun _ _ _ amb _ ho h _ => h.accept amb ho) ts (HotPath.init symbol) [] (booked_init symbol)

end Booked

end Aspira
