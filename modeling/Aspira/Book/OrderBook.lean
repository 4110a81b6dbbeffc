import Aspira.Support.OrdMap
import Aspira.Support.Run
import Aspira.Book.Order

/-!
# Book — OrderBook

`src/order_book.cpp`, operation by operation.  A price level is a `std::list`: its nodes carry the
address that `order_index_` stores as an iterator, so that a stale iterator can be told from a live
one.  Reading or erasing through an iterator that designates no live node is undefined in the
source; here the operation has no result (`none`).

The two branches of `match_limit_order` are one loop over the levels of the side opposite to the
incoming order (`matchLevels`), and its inner loop over one level's queue is `matchLevel`.

Outside the book, `generate_trade` reads the wall clock, and leaves in the trade's symbol what the
stack held past the terminator.  Both come from `Env`, indexed by the number of trades already in
the buffer.
-/

namespace Aspira

/-- What `generate_trade` finds outside the book: the clock, and the stack slot of `t.symbol`. -/
structure Stamp where
  now : UInt64
  stack : Symbol

/-- The stamps of one call's trades, by the length of the trade buffer. -/
abbrev Env := Nat → Stamp

/-- A stopped clock over a clean stack. -/
def Env.still : Env := fun _ => ⟨0, Vector.replicate 16 0⟩

/-- A node of a `std::list<OrderEntry>`. -/
structure Node (P : Type) where
  addr : Nat
  order : Order P
  deriving DecidableEq, Repr

/-- `OrderList`. -/
abbrev OrderList (P : Type) := List (Node P)

/-- `BidMap` and `AskMap`: the price levels of side `s`, best first. -/
abbrev LevelMap (P : Type) [LinearOrder P] (s : Side) :=
  OrdMap P (OrderList P) (s.Better (P := P))

/-- `order_index_`: order id to list iterator. -/
abbrev OrderIndex := AList (fun _ : Int32 => Nat)

/-- `class OrderBook`. -/
structure OrderBook (P : Type) [LinearOrder P] where
  symbol : List UInt8
  bids : LevelMap P .buy
  asks : LevelMap P .sell
  tradesBufA : List (Trade P)
  tradesBufB : List (Trade P)
  /-- `active_trades_ == &trades_buf_a_`. -/
  activeA : Bool
  orderIndex : OrderIndex
  nextTradeId : Int32
  /-- The address the next list node gets. -/
  nextNode : Nat

/-- What the matching loops update besides the levels. -/
structure Matching (P : Type) where
  order : Order P
  orderIndex : OrderIndex
  trades : List (Trade P)
  nextTradeId : Int32

/-! ### The matching loops -/

section Matching

variable {P : Type} (symbol : List UInt8) (env : Env)

/-- `t.symbol` as `generate_trade` leaves it: the book's symbol, its terminator if it has room, and
then what was there. -/
def tradeSymbol (stack : Symbol) : Symbol :=
  Vector.ofFn fun i => if i.val = symbol.length then 0 else symbol.getD i (stack.get i)

/-- `generate_trade`. -/
def generateTrade (m : Matching P) (buy sell : Order P) (qty : Int32) (price : P) : Matching P :=
  let stamp := env m.trades.length
  let t : Trade P :=
    { tradeId := m.nextTradeId
      buyOrderId := buy.id
      sellOrderId := sell.id
      quantity := qty
      timestampNs := stamp.now
      price := price
      symbol := tradeSymbol symbol stamp.stack }
  { m with trades := m.trades ++ [t], nextTradeId := m.nextTradeId + 1 }

/-- The body of the inner loop: the resting order after the trade, and the rest of the state.  The
resting order is the seller when the incoming order is a buy. -/
def matchEntry (price : P) (m : Matching P) (resting : Order P) : Order P × Matching P :=
  let matchQty := stdMin m.order.remaining resting.remaining
  let resting := { resting with filledQty := resting.filledQty + matchQty }
  let order := { m.order with filledQty := m.order.filledQty + matchQty }
  let m := { m with order := order }
  (resting,
    if order.isBuy then generateTrade symbol env m order resting matchQty price
    else generateTrade symbol env m resting order matchQty price)

/-- The inner loop of `match_limit_order`, over the queue of one price level. -/
def matchLevel (price : P) : OrderList P → Matching P → OrderList P × Matching P
  | [], m => ([], m)
  | n :: rest, m =>
      if 0 < m.order.remaining then
        let r := matchEntry symbol env price m n.order
        if r.1.isFilled then
          matchLevel price rest { r.2 with orderIndex := r.2.orderIndex.erase r.1.id }
        else
          let t := matchLevel price rest r.2
          ({ n with order := { r.1 with status := .partFilled } } :: t.1, t.2)
      else (n :: rest, m)

/-- The outer loop of `match_limit_order`, over the price levels of side `s`.  A limit order stops
at the first level whose price it does not reach. -/
def matchLevels [LinearOrder P] (s : Side) :
    List (P × OrderList P) → Matching P → List (P × OrderList P) × Matching P
  | [], m => ([], m)
  | e :: rest, m =>
      if 0 < m.order.remaining then
        if m.order.type = .limit ∧ s.Better m.order.price e.1 then (e :: rest, m)
        else
          let r := matchLevel symbol env e.1 e.2 m
          let t := matchLevels s rest r.2
          if r.1.isEmpty then t else ((e.1, r.1) :: t.1, t.2)
      else (e :: rest, m)

theorem matchLevels_keys [LinearOrder P] (s : Side) :
    ∀ (l : List (P × OrderList P)) (m : Matching P),
      ((matchLevels symbol env s l m).1.map Prod.fst).Sublist (l.map Prod.fst)
  | [], _ => .slnil
  | e :: rest, m => by
      rw [matchLevels]
      split
      · split
        · exact .refl _
        · dsimp only
          split
          · exact (matchLevels_keys s rest _).cons _
          · exact (matchLevels_keys s rest _).cons_cons _
      · exact .refl _

/-- The status `match_limit_order` returns the order with. -/
def settle (o : Order P) : Order P :=
  if o.isFilled then { o with status := .filled }
  else if 0 < o.filledQty then { o with status := .partFilled }
  else o

/-- The copy of the order that `add_order` puts in the book. -/
def Order.entry (o : Order P) : Order P :=
  if 0 < o.filledQty then { o with status := .partFilled } else { o with status := .new }

/-- The order `add_market_order` and `match_market_order` match. -/
def Order.asMarket [Zero P] (o : Order P) : Order P := { o with type := .market, price := 0 }

end Matching

namespace OrderBook

variable {P : Type} [LinearOrder P]

/-! ### The state -/

/-- `OrderBook(symbol)`. -/
def init (symbol : List UInt8) : OrderBook P where
  symbol := symbol
  bids := .empty
  asks := .empty
  tradesBufA := []
  tradesBufB := []
  activeA := true
  orderIndex := ∅
  nextTradeId := 1
  nextNode := 0

/-- The levels of side `s`. -/
def levels (b : OrderBook P) : (s : Side) → LevelMap P s
  | .buy => b.bids
  | .sell => b.asks

/-- The book with other levels on side `s`. -/
def setLevels (b : OrderBook P) (s : Side) (m : LevelMap P s) : OrderBook P :=
  { b with
    bids := match s, m with
      | .buy, m => m
      | .sell, _ => b.bids
    asks := match s, m with
      | .buy, _ => b.asks
      | .sell, m => m }

/-- The orders of side `s` in the order the levels and their queues are walked. -/
def queue (b : OrderBook P) (s : Side) : OrderList P := (b.levels s).entries.flatMap Prod.snd

/-- Every list node of the book. -/
def nodes (b : OrderBook P) : OrderList P := b.queue .buy ++ b.queue .sell

/-- `trades()`: the active buffer. -/
def trades (b : OrderBook P) : List (Trade P) := if b.activeA then b.tradesBufA else b.tradesBufB

/-- The active buffer replaced. -/
def setTrades (b : OrderBook P) (ts : List (Trade P)) : OrderBook P :=
  { b with
    tradesBufA := if b.activeA then ts else b.tradesBufA
    tradesBufB := if b.activeA then b.tradesBufB else ts }

/-- The book with another index. -/
def setIndex (b : OrderBook P) (ix : OrderIndex) : OrderBook P := { b with orderIndex := ix }

/-- The level at `k` of side `s` cut down to `rest`; an empty level leaves the map. -/
def cutLevel (b : OrderBook P) (s : Side) (k : P) (rest : OrderList P) : OrderBook P :=
  b.setLevels s ((b.levels s).alter k fun _ => if rest.isEmpty then none else some rest)

/-- `*it`: the order of the live node at an address. -/
def deref (b : OrderBook P) (it : Nat) : Option (Order P) :=
  (b.nodes.find? (fun n => n.addr = it)).map Node.order

/-- A write through an iterator. -/
def updateNode (b : OrderBook P) (it : Nat) (f : Order P → Order P) : OrderBook P :=
  let put (n : Node P) : Node P := if n.addr = it then { n with order := f n.order } else n
  let side (s : Side) : LevelMap P s :=
    ⟨(b.levels s).entries.map (fun e => (e.1, e.2.map put)),
      List.pairwise_map.mpr (b.levels s).sorted⟩
  { b with bids := side .buy, asks := side .sell }

/-! ### Operations -/

/-- What the matching loops start from. -/
def matching (b : OrderBook P) (order : Order P) : Matching P :=
  ⟨order, b.orderIndex, b.trades, b.nextTradeId⟩

/-- `match_limit_order`: a buy order against the asks, a sell order against the bids. -/
def matchLimitOrder (env : Env) (b : OrderBook P) (order : Order P) : Order P × OrderBook P :=
  let s := order.side.opposite
  let r := matchLevels b.symbol env s (b.levels s).entries (b.matching order)
  let side := (b.levels s).ofSublist r.1 (matchLevels_keys b.symbol env s _ _)
  let b' := (b.setLevels s side).setTrades r.2.trades
  (settle r.2.order, { b' with orderIndex := r.2.orderIndex, nextTradeId := r.2.nextTradeId })

/-- The second half of `add_order`: what is left of a limit order joins the end of its level. -/
def rest (b : OrderBook P) (result : Order P) : Order P × OrderBook P :=
  let level := (b.levels result.side).alter result.price
    fun l => some (l.getD [] ++ [⟨b.nextNode, result.entry⟩])
  (if 0 < result.filledQty then { result with status := .partFilled } else result,
    { b.setLevels result.side level with
      orderIndex := b.orderIndex.insert result.id b.nextNode
      nextNode := b.nextNode + 1 })

/-- `add_order`. -/
def addOrder (env : Env) (b : OrderBook P) (order : Order P) : Order P × OrderBook P :=
  let r := b.matchLimitOrder env order
  if r.1.isFilled = false ∧ r.1.type = .limit then r.2.rest r.1 else r

/-- `add_market_order` and `match_market_order`. -/
def addMarketOrder [Zero P] (env : Env) (b : OrderBook P) (order : Order P) :
    Order P × OrderBook P :=
  b.matchLimitOrder env order.asMarket

/-- `cancel_order`; `none` if an iterator does not designate a node of the level it is used on. -/
def cancelOrder (b : OrderBook P) (orderId : Int32) : Option (Bool × OrderBook P) :=
  match b.orderIndex.lookup orderId with
  | none => some (false, b)
  | some it =>
      match b.deref it with
      | none => none
      | some o =>
          match (b.levels o.side).find o.price with
          | none =>
              -- the level is not found: the node stays, marked
              let b' := b.updateNode it fun o => { o with status := .cancelled }
              some (true, b'.setIndex (b.orderIndex.erase orderId))
          | some level =>
              if level.any (fun n => n.addr = it) then
                let b' := b.cutLevel o.side o.price (level.filter fun n => n.addr ≠ it)
                some (true, b'.setIndex (b.orderIndex.erase orderId))
              else none

/-- `modify_order`. -/
def modifyOrder [Zero P] (env : Env) (b : OrderBook P) (orderId : Int32) (newPrice : P)
    (newQty : Int32) : Option (Order P × OrderBook P) :=
  match b.orderIndex.lookup orderId with
  | none => some ({ Order.blank with id := invalidOrderId, status := .rejected }, b)
  | some it => do
      let o ← b.deref it
      let c ← b.cancelOrder orderId
      return c.2.addOrder env
        { o with price := newPrice, quantity := newQty, filledQty := 0, status := .new }

/-- `update_level`: size zero removes the level, any other size does nothing. -/
def updateLevel (b : OrderBook P) (side : Side) (price : P) (size : Int32) : OrderBook P :=
  if size = 0 then
    match (b.levels side).find price with
    | none => b
    | some level =>
        (b.cutLevel side price []).setIndex
          (level.foldl (fun ix n => ix.erase n.order.id) b.orderIndex)
  else b

/-- `drain_trades`: the active buffer's contents; the other buffer becomes the active one. -/
def drainTrades (b : OrderBook P) : List (Trade P) × OrderBook P :=
  (b.trades, { b with tradesBufA := [], tradesBufB := [], activeA := !b.activeA })

/-! ### Queries -/

/-- The price of the first level of side `s`, 0 if there is none. -/
def best [Zero P] (b : OrderBook P) (s : Side) : P :=
  match (b.levels s).entries with
  | [] => 0
  | e :: _ => e.1

/-- `best_bid()`. -/
def bestBid [Zero P] (b : OrderBook P) : P := b.best .buy

/-- `best_ask()`. -/
def bestAsk [Zero P] (b : OrderBook P) : P := b.best .sell

/-- `order_count()`. -/
def orderCount (b : OrderBook P) : Nat := b.orderIndex.keys.length

end OrderBook

/-! ### Runs -/

/-- A call on the book. -/
inductive BookOp (P : Type) where
  | add (env : Env) (order : Order P)
  | addMarket (env : Env) (order : Order P)
  | cancel (orderId : Int32)
  | modify (env : Env) (orderId : Int32) (newPrice : P) (newQty : Int32)
  | updateLevel (side : Side) (price : P) (size : Int32)

/-- What a call returns. -/
inductive BookResult (P : Type) where
  | order (o : Order P)
  | flag (b : Bool)
  | done

namespace OrderBook

variable {P : Type} [LinearOrder P] [Zero P]

/-- One call. -/
def step (b : OrderBook P) : BookOp P → Option (BookResult P × OrderBook P)
  | .add env o => some ((b.addOrder env o).map .order id)
  | .addMarket env o => some ((b.addMarketOrder env o).map .order id)
  | .cancel i => (b.cancelOrder i).map (·.map .flag id)
  | .modify env i p q => (b.modifyOrder env i p q).map (·.map .order id)
  | .updateLevel s p n => some (.done, b.updateLevel s p n)

theorem step_add (b : OrderBook P) (env : Env) (o : Order P) :
    b.step (.add env o) = some (.order (b.addOrder env o).1, (b.addOrder env o).2) := by
  rw [step, Prod.map_def]
  rfl

theorem step_addMarket (b : OrderBook P) (env : Env) (o : Order P) :
    b.step (.addMarket env o) =
      some (.order (b.addMarketOrder env o).1, (b.addMarketOrder env o).2) := by
  rw [step, Prod.map_def]
  rfl

/-- A sequence of calls: their results in order, and the book after them. -/
def run (b : OrderBook P) (ops : List (BookOp P)) : Option (List (BookResult P) × OrderBook P) :=
  Run.exec step b ops

end OrderBook

end Aspira
