import Aspira.Book.OrderBook
import Aspira.Risk.RiskEngine

/-!
# Pipeline — the hot path

The consumer thread's half of `src/event_pipeline.cpp`: `strategy_on_market_data` and
`process_market_data`, with the book and the risk engine they drive.

What `process_market_data` writes to an `IOEvent` is an `IoWrite`; the writes of a call come back as
a list, in the order in which it asks for free entries.  Whether an entry is free is no business of
the book or the risk engine; `Stages.lean` puts the writes through the rings.  So `io_events_dropped`
is not among the statistics here, and `avg_latency_us` belongs to a build with
`TRADING_MEASURE_LATENCY`.

From outside come the clock of the risk engine, the stamps of the trades, and the memory after the
symbol of the order that is serialised, where `%s` goes on reading if the symbol has no terminator
(`Ambient`).
-/

namespace Aspira

variable {P : Type}

/-- The fields of `feed_msg_t` that the pipeline reads. -/
structure FeedMsg (P : Type) where
  timestampNs : UInt64
  bidPrice : P
  askPrice : P
  symbol : Symbol

/-- What one order finds outside the pipeline. -/
structure Ambient where
  nowSec : UInt64
  stamps : Env
  pastSymbol : List UInt8

/-- A stopped clock over clean memory. -/
def Ambient.still : Ambient := ⟨0, .still, [0]⟩

/-- A message, with what its two orders find outside. -/
structure Tick (P : Type) where
  msg : FeedMsg P
  buy : Ambient
  sell : Ambient

/-- What is written to an `IOEvent`. -/
inductive IoWrite (P : Type) where
  /-- `ORDER_REJECTED`: the order and `last_reject_reason()`. -/
  | rejected (order : Order P) (reason : List UInt8)
  /-- `ORDER_ACCEPTED` or `ORDER_FILLED`: the result, and if it is to be sent the bytes copied to
  `gw_msg`. -/
  | result (order : Order P) (gwMsg : Option (List UInt8))
  /-- `TRADE`. -/
  | trade (t : Trade P)

/-- `struct PipelineStats`, less the two fields named above. -/
structure PipelineStats where
  marketDataMsgs : UInt64
  ordersCreated : UInt64
  ordersAccepted : UInt64
  ordersRejected : UInt64
  tradesGenerated : UInt64
  ordersExecuted : UInt64

/-- The state of the consumer thread. -/
structure HotPath (P : Type) [LinearOrder P] where
  orderBook : OrderBook P
  riskEngine : RiskEngine P
  nextOrderId : Int32
  stats : PipelineStats

variable [Price P]

/-- `mid_price`. -/
def OrderBook.midPrice (b : OrderBook P) : P :=
  if b.bestBid = 0 ∨ b.bestAsk = 0 then 0 else (b.bestBid + b.bestAsk) / Price.lit 2

/-- The limits that `EventPipeline::init` sets. -/
def pipelineLimits : RiskLimits P where
  maxOrderQty := 10000
  maxPosition := 10000000
  maxExposure := 50000000
  maxNotional := Price.lit 500000000
  priceBandPct := Price.lit 10
  maxOrdersPerSec := 50000
  enabled := true

/-- `GW_MAX_MSG_SIZE`. -/
def gwMaxMsgSize : ℕ := 512

/-- `gw_serialize_order` into a buffer of `GW_MAX_MSG_SIZE` bytes, on the fields of an order that
`process_market_data` passes: whether it returns 0, and the bytes of the buffer up to the
terminator. -/
def gwSerializeOrder (pastSymbol : List UInt8) (o : Order P) : Bool × List UInt8 :=
  let printed := text "ORDER|" ++ showInt o.id.toInt ++ text "|" ++
    cstr (o.symbol.toList ++ pastSymbol) ++ text "|" ++
    (if o.isBuy then text "BUY" else text "SELL") ++ text "|" ++
    (if o.type = .limit then text "LIMIT" else text "MARKET") ++ text "|" ++
    Price.fixed 4 o.price ++ text "|" ++ showInt o.quantity.toInt ++ text "|" ++
    decimal o.timestampNs.toNat
  (decide (0 < printed.length ∧ printed.length < gwMaxMsgSize),
    printed.take (gwMaxMsgSize - 1) ++ [0])

/-- `send_to_gw`. -/
def Order.sendToGw (o : Order P) : Bool := decide (o.status = .new ∨ o.status = .partFilled)

/-- The `gw_msg_len + 1` bytes that are copied to `IOEvent::gw_msg`: the message and its terminator,
or one byte if the serialisation failed. -/
def gwMsgBytes (pastSymbol : List UInt8) (o : Order P) : List UInt8 :=
  let gw := gwSerializeOrder pastSymbol o
  let gwMsgLen := if gw.1 then (cstr gw.2).length else 0
  gw.2.take (gwMsgLen + 1)

namespace HotPath

/-- The consumer thread's part of `EventPipeline::init`. -/
def init (symbol : List UInt8) : HotPath P where
  orderBook := .init symbol
  riskEngine := RiskEngine.init.setLimits pipelineLimits
  nextOrderId := 1
  stats := ⟨0, 0, 0, 0, 0, 0⟩

/-- The order of the strategy on one side: `mid` less or plus a tenth of the spread. -/
def strategyOrder (msg : FeedMsg P) (id : Int32) (side : Side) : Order P :=
  let mid := (msg.bidPrice + msg.askPrice) / Price.lit 2
  let spread := msg.askPrice - msg.bidPrice
  { (Order.blank : Order P) with
    id := id
    accountId := 1
    price := match side with
      | .buy => mid - spread * Price.lit (1 / 10)
      | .sell => mid + spread * Price.lit (1 / 10)
    quantity := 100
    side := side
    type := .limit
    timestampNs := msg.timestampNs
    symbol := msg.symbol }

/-- `strategy_on_market_data`: the buy order, then the sell order. -/
def strategyOnMarketData (h : HotPath P) (msg : FeedMsg P) : Order P × Order P × HotPath P :=
  (strategyOrder msg h.nextOrderId .buy, strategyOrder msg (h.nextOrderId + 1) .sell,
    { h with nextOrderId := h.nextOrderId + 2 })

/-- The fills reported to the risk engine. -/
def reportFill (r : RiskEngine P) (result : Order P) (mid : P) : RiskEngine P :=
  if 0 < result.filledQty then
    r.onOrderExecuted result result.filledQty (if 0 < result.price then result.price else mid)
  else r

/-- The body of the loop of `process_market_data`. -/
def processOrder (amb : Ambient) (h : HotPath P) (order : Order P) : List (IoWrite P) × HotPath P :=
  let mid := h.orderBook.midPrice
  let v := h.riskEngine.validate amb.nowSec order mid
  let created := { h.stats with ordersCreated := h.stats.ordersCreated + 1 }
  if v.1 then
    let r := h.orderBook.addOrder amb.stamps order
    let send := r.1.sendToGw
    let sent := send && (gwSerializeOrder amb.pastSymbol r.1).1
    let d := r.2.drainTrades
    (.result r.1 (if send then some (gwMsgBytes amb.pastSymbol r.1) else none) :: d.1.map .trade,
      { h with
        orderBook := d.2
        riskEngine := reportFill v.2 r.1 mid
        stats := { created with
          ordersAccepted := created.ordersAccepted + 1
          ordersExecuted := created.ordersExecuted + if sent then 1 else 0
          tradesGenerated := created.tradesGenerated + UInt64.ofNat d.1.length } })
  else
    ([.rejected order v.2.lastReject],
      { h with
        riskEngine := v.2
        stats := { created with ordersRejected := created.ordersRejected + 1 } })

/-- The count of the message. -/
def countMsg (h : HotPath P) : HotPath P :=
  { h with stats := { h.stats with marketDataMsgs := h.stats.marketDataMsgs + 1 } }

/-- `process_market_data`. -/
def processMarketData (h : HotPath P) (tick : Tick P) : List (IoWrite P) × HotPath P :=
  let s := h.countMsg.strategyOnMarketData tick.msg
  let r₁ := s.2.2.processOrder tick.buy s.1
  let r₂ := r₁.2.processOrder tick.sell s.2.1
  (r₁.1 ++ r₂.1, r₂.2)

/-- A sequence of calls: all their writes, and the state after them. -/
def run (h : HotPath P) : List (Tick P) → List (IoWrite P) × HotPath P
  | [] => ([], h)
  | t :: ts =>
      let r := h.processMarketData t
      let rest := r.2.run ts
      (r.1 ++ rest.1, rest.2)

theorem run_append (ts ts' : List (Tick P)) : ∀ h : HotPath P,
    h.run (ts ++ ts') = ((h.run ts).1 ++ ((h.run ts).2.run ts').1, ((h.run ts).2.run ts').2) := by
  induction ts with
  | nil => exact fun h => rfl
  | cons t ts ih =>
      intro h
      rw [List.cons_append, run, ih]
      exact Prod.ext (List.append_assoc ..).symm rfl

end HotPath

/-- The symbol `AAPL`. -/
def aapl : Symbol := #v[65, 65, 80, 76, 0, 0, 0, 0, 0, 0, 0, 0, 0, 0, 0, 0]

end Aspira
