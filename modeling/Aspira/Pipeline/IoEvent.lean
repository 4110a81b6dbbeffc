import Aspira.Journal.Journal
import Aspira.Pipeline.HotPath

/-!
# Pipeline — I/O events

`struct IOEvent`, what the hot path writes to one (`IoWrite.fill`) and what the I/O thread does with
it (`processIoEvent`).  Entries are recycled, and each kind of event writes only some of the fields;
`processIoEvent_fill` says when what is left of the entry's last use is not read.

A `%s` reads on to the first NUL.  `reject_reason` always has one, its last byte, which nothing
writes.  `trade_symbol` has one only if the book's symbol is short enough; otherwise the read goes on
into `send_to_gateway` and `gw_msg`, which follow it in the record.
-/

namespace Aspira

variable {P : Type}

/-- `enum class IOEventType`. -/
inductive IoEventType where
  | orderAccepted
  | orderRejected
  | orderFilled
  | trade
  deriving DecidableEq, Repr

/-- `struct IOEvent`. -/
structure IoEvent (P : Type) where
  type : IoEventType
  orderId : Int32
  accountId : Int32
  price : P
  quantity : Int32
  filledQty : Int32
  timestampNs : UInt64
  side : UInt8
  orderType : UInt8
  status : UInt8
  symbol : Symbol
  rejectReason : Vector UInt8 256
  tradeId : Int32
  buyOrderId : Int32
  sellOrderId : Int32
  tradePrice : P
  tradeQty : Int32
  tradeTsNs : UInt64
  tradeSymbol : Symbol
  sendToGateway : Bool
  gwMsg : Vector UInt8 512
  gwMsgLen : UInt32

/-- An entry as `calloc` leaves it. -/
def IoEvent.zeroed [Zero P] : IoEvent P where
  type := .orderAccepted
  orderId := 0
  accountId := 0
  price := 0
  quantity := 0
  filledQty := 0
  timestampNs := 0
  side := 0
  orderType := 0
  status := 0
  symbol := Vector.replicate 16 0
  rejectReason := Vector.replicate 256 0
  tradeId := 0
  buyOrderId := 0
  sellOrderId := 0
  tradePrice := 0
  tradeQty := 0
  tradeTsNs := 0
  tradeSymbol := Vector.replicate 16 0
  sendToGateway := false
  gwMsg := Vector.replicate 512 0
  gwMsgLen := 0

/-! ### Writing -/

/-- The value of the enumerator. -/
def Side.code : Side → UInt8
  | .buy => 0
  | .sell => 1

/-- The value of the enumerator. -/
def OrderType.code : OrderType → UInt8
  | .limit => 0
  | .market => 1

/-- The value of the enumerator. -/
def OrderStatus.code : OrderStatus → UInt8
  | .new => 0
  | .partFilled => 1
  | .filled => 2
  | .cancelled => 3
  | .rejected => 4

/-- The fields that the hot path writes to an entry. -/
def IoWrite.fill (w : IoWrite P) (e : IoEvent P) : IoEvent P :=
  match w with
  | .rejected order reason =>
      { e with
        type := .orderRejected
        orderId := order.id
        accountId := order.accountId
        price := order.price
        quantity := order.quantity
        filledQty := 0
        timestampNs := order.timestampNs
        side := order.side.code
        orderType := order.type.code
        status := OrderStatus.rejected.code
        symbol := order.symbol
        rejectReason := memcpy e.rejectReason (strncpyBytes 255 reason)
        sendToGateway := false }
  | .result order gwMsg =>
      { e with
        type := if 0 < order.filledQty then .orderFilled else .orderAccepted
        orderId := order.id
        accountId := order.accountId
        price := order.price
        quantity := order.quantity
        filledQty := order.filledQty
        timestampNs := order.timestampNs
        side := order.side.code
        orderType := order.type.code
        status := order.status.code
        symbol := order.symbol
        sendToGateway := gwMsg.isSome
        gwMsg := match gwMsg with
          | some bytes => memcpy e.gwMsg bytes
          | none => e.gwMsg
        gwMsgLen := match gwMsg with
          | some bytes => UInt32.ofNat (bytes.length - 1)
          | none => e.gwMsgLen }
  | .trade t =>
      { e with
        type := .trade
        tradeId := t.tradeId
        buyOrderId := t.buyOrderId
        sellOrderId := t.sellOrderId
        tradePrice := t.price
        tradeQty := t.quantity
        tradeTsNs := t.timestampNs
        tradeSymbol := t.symbol }

/-! ### Processing -/

/-- The levels `process_io_event` logs at. -/
inductive LogLevel where
  | info
  | warn
  deriving DecidableEq, Repr

/-- What the I/O thread does to the outside: a call of the logger, with the text formatted, of the
journal, with the part of the symbol it copies, or of the gateway. -/
inductive Action (P : Type) where
  | log (level : LogLevel) (message : List UInt8)
  | journalOrder (type : RecordType) (orderId accountId : Int32) (price : P)
      (quantity filledQty : Int32) (orderTsNs : UInt64) (side orderType status : UInt8)
      (symbol : List UInt8)
  | journalTrade (tradeId buyOrderId sellOrderId : Int32) (price : P) (quantity : Int32)
      (tradeTsNs : UInt64) (symbol : List UInt8)
  | send (msg : List UInt8) (orderId : Int32)

namespace IoEvent

/-- `journal_log_order`, if there is a journal. -/
def journalOrder (journal : Bool) (e : IoEvent P) (type : RecordType) (filledQty : Int32)
    (status : UInt8) : List (Action P) :=
  if journal then
    [.journalOrder type e.orderId e.accountId e.price e.quantity filledQty e.timestampNs e.side
      e.orderType status ((cstr e.symbol.toList).take 15)]
  else []

/-- `gw_send_order`, if the event asks for it; an empty message is refused. -/
def dispatch (e : IoEvent P) : List (Action P) :=
  if e.sendToGateway ∧ e.gwMsgLen ≠ 0 then [.send (cstr e.gwMsg.toList) e.orderId] else []

/-- The memory from `trade_symbol` on. -/
def tradeSymbolMem (e : IoEvent P) : List UInt8 :=
  e.tradeSymbol.toList ++ [if e.sendToGateway then 1 else 0] ++ e.gwMsg.toList

variable [Price P]

/-- `process_io_event`. -/
def processIoEvent (journal : Bool) (e : IoEvent P) : List (Action P) :=
  match e.type with
  | .orderRejected =>
      .log .warn (text "Order " ++ showInt e.orderId.toInt ++ text " REJECTED: " ++
        cstr e.rejectReason.toList) ::
      e.journalOrder journal .orderReject 0 OrderStatus.rejected.code
  | .orderAccepted => e.journalOrder journal .orderNew e.filledQty e.status ++ e.dispatch
  | .orderFilled =>
      .log .info (text "Order " ++ showInt e.orderId.toInt ++ text " FILLED: " ++
        (if e.side = 0 then text "BUY" else text "SELL") ++ text " " ++
        showInt e.filledQty.toInt ++ text "@" ++ Price.fixed 2 e.price ++ text " status=" ++
        decimal e.status.toNat) ::
      (e.journalOrder journal .orderFilled e.filledQty e.status ++ e.dispatch)
  | .trade =>
      .log .info (text "TRADE id=" ++ showInt e.tradeId.toInt ++ text " " ++
        cstr e.tradeSymbolMem ++ text " " ++ showInt e.tradeQty.toInt ++ text "@" ++
        Price.fixed 2 e.tradePrice ++ text " (buy=" ++ showInt e.buyOrderId.toInt ++
        text ", sell=" ++ showInt e.sellOrderId.toInt ++ text ")") ::
      if journal then
        [.journalTrade e.tradeId e.buyOrderId e.sellOrderId e.tradePrice e.tradeQty e.tradeTsNs
          ((cstr e.tradeSymbolMem).take 15)]
      else []

end IoEvent

/-- What `process_io_event` does, called at once on a freshly zeroed entry. -/
def synchronous [Price P] (journal : Bool) (w : IoWrite P) : List (Action P) :=
  (w.fill .zeroed).processIoEvent journal

/-- What processing a trade does, given the string found at its symbol. -/
def tradeActions [Price P] (journal : Bool) (t : Trade P) (name : List UInt8) : List (Action P) :=
  .log .info (text "TRADE id=" ++ showInt t.tradeId.toInt ++ text " " ++ name ++ text " " ++
    showInt t.quantity.toInt ++ text "@" ++ Price.fixed 2 t.price ++ text " (buy=" ++
    showInt t.buyOrderId.toInt ++ text ", sell=" ++ showInt t.sellOrderId.toInt ++ text ")") ::
  if journal then
    [.journalTrade t.tradeId t.buyOrderId t.sellOrderId t.price t.quantity t.timestampNs
      (name.take 15)]
  else []

theorem processIoEvent_trade [Price P] (journal : Bool) (t : Trade P) (e : IoEvent P) :
    ((IoWrite.trade t).fill e).processIoEvent journal =
      tradeActions journal t (cstr ((IoWrite.trade t).fill e).tradeSymbolMem) := rfl

/-- The log line shows how long the string is. -/
theorem length_of_tradeActions_eq [Price P] {journal : Bool} {t : Trade P} {n n' : List UInt8}
    (h : tradeActions journal t n = tradeActions journal t n') : n.length = n'.length := by
  simp only [tradeActions, List.cons.injEq, Action.log.injEq, true_and] at h
  have hlen := congrArg List.length h.1
  simp only [List.length_append] at hlen
  omega

theorem length_tradeActions [Price P] (journal : Bool) (t : Trade P) (n n' : List UInt8) :
    (tradeActions journal t n).length = (tradeActions journal t n').length := by
  cases journal <;> simp [tradeActions]

/-! ### What is left of the last use -/

/-- The last byte of `reject_reason` is the NUL it was allocated with. -/
def IoEvent.Clean (e : IoEvent P) : Prop := e.rejectReason.get (Fin.last 255) = 0

theorem zeroed_clean [Zero P] : (IoEvent.zeroed : IoEvent P).Clean := by
  simp [IoEvent.Clean, IoEvent.zeroed, Vector.get]

theorem IoWrite.fill_clean (w : IoWrite P) {e : IoEvent P} (h : e.Clean) : (w.fill e).Clean := by
  cases w with
  | rejected order reason =>
      show (memcpy e.rejectReason (strncpyBytes 255 reason)).get 255 = 0
      have hlast : (strncpyBytes 255 reason).getD 255 (e.rejectReason.get 255) = 0 := by
        rw [List.getD_eq_default _ _ (strncpyBytes_length 255 reason).le]
        exact h
      rw [memcpy, Vector.get_ofFn]
      exact hlast
  | result order gwMsg => exact h
  | trade t => exact h

/-- The strings that the write leaves in the entry have their terminators: a message to be sent
(or it is empty), and the symbol of a trade. -/
def IoWrite.Terminated : IoWrite P → Prop
  | .rejected _ _ => True
  | .result _ none => True
  | .result _ (some bytes) => bytes.length ≤ 512 ∧ (bytes.length = 1 ∨ 0 ∈ bytes)
  | .trade t => 0 ∈ t.symbol.toList

theorem dispatch_fill (e e' : IoEvent P) {order : Order P} {gwMsg : Option (List UInt8)}
    (hw : (IoWrite.result order gwMsg).Terminated) :
    ((IoWrite.result order gwMsg).fill e).dispatch =
      ((IoWrite.result order gwMsg).fill e').dispatch := by
  cases gwMsg with
  | none => rfl
  | some bytes =>
      obtain ⟨hlen, hone | hnul⟩ := hw
      · -- nothing to send
        simp [IoEvent.dispatch, IoWrite.fill, hone]
      · simp only [IoEvent.dispatch, IoWrite.fill, cstr_memcpy hlen hnul]

/-- **No stale field is read**: an entry last used for whatever event does what a zeroed one does. -/
theorem processIoEvent_fill [Price P] (journal : Bool) {w : IoWrite P} (hw : w.Terminated)
    {e : IoEvent P} (he : e.Clean) :
    (w.fill e).processIoEvent journal = synchronous journal w := by
  cases w with
  | rejected order reason =>
      have hreason : memcpy e.rejectReason (strncpyBytes 255 reason) =
          memcpy (IoEvent.zeroed : IoEvent P).rejectReason (strncpyBytes 255 reason) := by
        refine memcpy_congr fun i hi => ?_
        rw [strncpyBytes_length] at hi
        have hlast : i = 255 := Fin.ext (by have := i.isLt; omega)
        rw [hlast]
        exact he.trans zeroed_clean.symm
      simp only [synchronous, IoEvent.processIoEvent, IoWrite.fill, hreason]
      rfl
  | result order gwMsg =>
      have hsend := dispatch_fill e .zeroed hw
      by_cases hpos : 0 < order.filledQty
      · simp only [synchronous, IoEvent.processIoEvent, IoWrite.fill, if_pos hpos] at hsend ⊢
        rw [hsend]
        rfl
      · simp only [synchronous, IoEvent.processIoEvent, IoWrite.fill, if_neg hpos] at hsend ⊢
        rw [hsend]
        rfl
  | trade t =>
      have hsym : ∀ e : IoEvent P, cstr ((IoWrite.trade t).fill e).tradeSymbolMem =
          cstr t.symbol.toList := by
        intro e
        rw [IoEvent.tradeSymbolMem, List.append_assoc]
        exact cstr_append_of_mem hw _
      rw [synchronous, processIoEvent_trade, processIoEvent_trade, hsym, hsym]

end Aspira
