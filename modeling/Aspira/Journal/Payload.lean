import Aspira.Support.Text
import Aspira.Book.Order
import Aspira.Journal.Decode

/-!
# Journal — Payload

`journal_log_order` and `journal_log_trade`: the packed payloads they hand to `journal_append`, and
what a reader finds in them at the offsets of the two records.

A payload keeps every field of what was logged but the symbol, of which it keeps the first 15
characters: `strncpy` copies 15 bytes, and the last one of the array is its terminator.  The symbol
arrays of orders and trades hold 16 characters, so a payload is read back as it was logged exactly
when the symbol leaves room for a terminator (`payloads_kept_iff`).

A price is the 64 bits of its `double`.
-/

namespace Aspira

/-! ### What is logged -/

/-- The arguments of `journal_log_order` that go into the payload, less the symbol. -/
structure OrderFields where
  orderId : Int32
  accountId : Int32
  price : UInt64
  quantity : Int32
  filledQty : Int32
  orderTsNs : UInt64
  side : UInt8
  orderType : UInt8
  status : UInt8
  deriving DecidableEq

/-- The arguments of `journal_log_trade`, less the symbol. -/
structure TradeFields where
  tradeId : Int32
  buyOrderId : Int32
  sellOrderId : Int32
  price : UInt64
  quantity : Int32
  tradeTsNs : UInt64
  deriving DecidableEq

/-- A signed word in memory. -/
def bytesInt32 (x : Int32) : List UInt8 := bytes32 x.toUInt32

/-- `payload.symbol`.  `symbol` is the memory at the pointer, `none` for `NULL`; `stack` is what the
array held before. -/
def payloadSymbol (stack : Symbol) : Option (List UInt8) → Symbol
  | some mem => memcpy stack (strncpyBytes 15 mem ++ [0])
  | none => stack.set 0 0 Symbol.size_pos

/-- `journal_order_payload_t`, packed. -/
def OrderFields.payload (f : OrderFields) (symbol : Symbol) : List UInt8 :=
  bytesInt32 f.orderId ++ bytesInt32 f.accountId ++ bytes64 f.price ++ bytesInt32 f.quantity ++
    bytesInt32 f.filledQty ++ bytes64 f.orderTsNs ++ [f.side, f.orderType, f.status, 0] ++
    symbol.toList

/-- `journal_trade_payload_t`, packed. -/
def TradeFields.payload (f : TradeFields) (symbol : Symbol) : List UInt8 :=
  bytesInt32 f.tradeId ++ bytesInt32 f.buyOrderId ++ bytesInt32 f.sellOrderId ++ bytes64 f.price ++
    bytesInt32 f.quantity ++ bytes64 f.tradeTsNs ++ symbol.toList ++ [0, 0, 0, 0]

/-- `journal_log_order`: the call of `journal_append` that it makes. -/
def journalLogOrder (stack : Symbol) (type : RecordType) (f : OrderFields)
    (symbol : Option (List UInt8)) (now : UInt64) : AppendArgs where
  type := type
  payload := some (f.payload (payloadSymbol stack symbol))
  payloadSize := 52
  now := now

/-- `journal_log_trade`: the call of `journal_append` that it makes. -/
def journalLogTrade (stack : Symbol) (f : TradeFields) (symbol : Option (List UInt8))
    (now : UInt64) : AppendArgs where
  type := .trade
  payload := some (f.payload (payloadSymbol stack symbol))
  payloadSize := 52
  now := now

/-! ### Reading -/

/-- The signed word at an offset. -/
def readInt32 (bytes : List UInt8) (offset : ℕ) : Int32 :=
  ⟨UInt32.ofNat (readLE ((bytes.drop offset).take 4))⟩

/-- The 64-bit word at an offset. -/
def readUInt64 (bytes : List UInt8) (offset : ℕ) : UInt64 :=
  UInt64.ofNat (readLE ((bytes.drop offset).take 8))

/-- The string in the 16 bytes at an offset. -/
def readSymbol (bytes : List UInt8) (offset : ℕ) : List UInt8 :=
  cstr ((bytes.drop offset).take 16)

/-- An order's payload, read at the offsets of `journal_order_payload_t`. -/
def readOrder (bytes : List UInt8) : OrderFields × List UInt8 :=
  ({ orderId := readInt32 bytes 0
     accountId := readInt32 bytes 4
     price := readUInt64 bytes 8
     quantity := readInt32 bytes 16
     filledQty := readInt32 bytes 20
     orderTsNs := readUInt64 bytes 24
     side := bytes.getD 32 0
     orderType := bytes.getD 33 0
     status := bytes.getD 34 0 }, readSymbol bytes 36)

/-- A trade's payload, read at the offsets of `journal_trade_payload_t`. -/
def readTrade (bytes : List UInt8) : TradeFields × List UInt8 :=
  ({ tradeId := readInt32 bytes 0
     buyOrderId := readInt32 bytes 4
     sellOrderId := readInt32 bytes 8
     price := readUInt64 bytes 12
     quantity := readInt32 bytes 20
     tradeTsNs := readUInt64 bytes 24 }, readSymbol bytes 32)

theorem readLE_bytesInt32 (x : Int32) : (⟨UInt32.ofNat (readLE (bytesInt32 x))⟩ : Int32) = x := by
  rw [bytesInt32, readLE_bytes32, UInt32.ofNat_toNat]

theorem readLE_bytes64_ofNat (x : UInt64) : UInt64.ofNat (readLE (bytes64 x)) = x := by
  rw [readLE_bytes64, UInt64.ofNat_toNat]

/-- **An order's payload is read back**: the fields as they were, and the string in its array. -/
theorem readOrder_payload (f : OrderFields) (symbol : Symbol) :
    readOrder (f.payload symbol) = (f, cstr symbol.toList) := by
  have hlen : symbol.toList.length = 16 := Vector.length_toList
  have hsym : ((f.payload symbol).drop 36).take 16 = symbol.toList := by
    show symbol.toList.take 16 = symbol.toList
    exact List.take_of_length_le hlen.le
  have h0 : ((f.payload symbol).drop 0).take 4 = bytesInt32 f.orderId := rfl
  have h4 : ((f.payload symbol).drop 4).take 4 = bytesInt32 f.accountId := rfl
  have h8 : ((f.payload symbol).drop 8).take 8 = bytes64 f.price := rfl
  have h16 : ((f.payload symbol).drop 16).take 4 = bytesInt32 f.quantity := rfl
  have h20 : ((f.payload symbol).drop 20).take 4 = bytesInt32 f.filledQty := rfl
  have h24 : ((f.payload symbol).drop 24).take 8 = bytes64 f.orderTsNs := rfl
  have h32 : (f.payload symbol).getD 32 0 = f.side := rfl
  have h33 : (f.payload symbol).getD 33 0 = f.orderType := rfl
  have h34 : (f.payload symbol).getD 34 0 = f.status := rfl
  simp only [readOrder, readInt32, readUInt64, readSymbol, hsym, h0, h4, h8, h16, h20, h24, h32, h33,
    h34, readLE_bytesInt32, readLE_bytes64_ofNat]

/-- **A trade's payload is read back.** -/
theorem readTrade_payload (f : TradeFields) (symbol : Symbol) :
    readTrade (f.payload symbol) = (f, cstr symbol.toList) := by
  have hlen : symbol.toList.length = 16 := Vector.length_toList
  have hsym : ((f.payload symbol).drop 32).take 16 = symbol.toList := by
    show (symbol.toList ++ [0, 0, 0, 0]).take 16 = symbol.toList
    exact List.take_left' hlen
  have h0 : ((f.payload symbol).drop 0).take 4 = bytesInt32 f.tradeId := rfl
  have h4 : ((f.payload symbol).drop 4).take 4 = bytesInt32 f.buyOrderId := rfl
  have h8 : ((f.payload symbol).drop 8).take 4 = bytesInt32 f.sellOrderId := rfl
  have h12 : ((f.payload symbol).drop 12).take 8 = bytes64 f.price := rfl
  have h20 : ((f.payload symbol).drop 20).take 4 = bytesInt32 f.quantity := rfl
  have h24 : ((f.payload symbol).drop 24).take 8 = bytes64 f.tradeTsNs := rfl
  simp only [readTrade, readInt32, readUInt64, readSymbol, hsym, h0, h4, h8, h12, h20, h24,
    readLE_bytesInt32, readLE_bytes64_ofNat]

/-! ### Symbols -/

theorem toList_payloadSymbol (stack : Symbol) (mem : List UInt8) :
    (payloadSymbol stack (some mem)).toList = strncpyBytes 15 mem ++ [0] :=
  toList_memcpy (by rw [List.length_append, strncpyBytes_length]; rfl)

/-- The string in a payload: the first 15 characters of what was logged. -/
theorem cstr_payloadSymbol (stack symbol : Symbol) (past : List UInt8) :
    cstr (payloadSymbol stack (some (symbol.toList ++ past))).toList =
      (cstr symbol.toList).take 15 := by
  have hlen : 15 ≤ symbol.toList.length := by
    rw [Vector.length_toList]
    decide
  rw [toList_payloadSymbol, cstr_append_zero, cstr_strncpyBytes, take_cstr_append hlen]

/-- The array in a payload depends on these characters alone. -/
theorem payloadSymbol_congr (stack stack' : Symbol) {mem mem' : List UInt8}
    (h : (cstr mem).take 15 = (cstr mem').take 15) :
    (payloadSymbol stack (some mem)).toList = (payloadSymbol stack' (some mem')).toList := by
  rw [toList_payloadSymbol, toList_payloadSymbol, strncpyBytes_eq, strncpyBytes_eq, h]

/-- What a record is logged with besides its fields: the symbol array and the memory after it, the
clock, and what the stack held. -/
structure LogContext where
  stack : Symbol
  symbol : Symbol
  past : List UInt8
  now : UInt64

/-- The string passed to the journal. -/
def LogContext.name (c : LogContext) : List UInt8 := cstr c.symbol.toList

/-- The payload `journal_log_order` writes. -/
def orderPayload (type : RecordType) (f : OrderFields) (c : LogContext) : List UInt8 :=
  (journalLogOrder c.stack type f (some (c.symbol.toList ++ c.past)) c.now).data

/-- The payload `journal_log_trade` writes. -/
def tradePayload (f : TradeFields) (c : LogContext) : List UInt8 :=
  (journalLogTrade c.stack f (some (c.symbol.toList ++ c.past)) c.now).data

theorem OrderFields.payload_length (f : OrderFields) (symbol : Symbol) :
    (f.payload symbol).length = 52 := by
  simp only [OrderFields.payload, bytesInt32, List.length_append, bytes32_length, bytes64_length,
    Vector.length_toList]
  rfl

theorem TradeFields.payload_length (f : TradeFields) (symbol : Symbol) :
    (f.payload symbol).length = 52 := by
  simp only [TradeFields.payload, bytesInt32, List.length_append, bytes32_length, bytes64_length,
    Vector.length_toList]
  rfl

theorem orderPayload_eq (type : RecordType) (f : OrderFields) (c : LogContext) :
    orderPayload type f c =
      f.payload (payloadSymbol c.stack (some (c.symbol.toList ++ c.past))) :=
  List.take_of_length_le (f.payload_length _).le

theorem tradePayload_eq (f : TradeFields) (c : LogContext) :
    tradePayload f c = f.payload (payloadSymbol c.stack (some (c.symbol.toList ++ c.past))) :=
  List.take_of_length_le (f.payload_length _).le

theorem readOrder_orderPayload (type : RecordType) (f : OrderFields) (c : LogContext) :
    readOrder (orderPayload type f c) = (f, c.name.take 15) := by
  rw [orderPayload_eq, readOrder_payload, cstr_payloadSymbol]
  rfl

theorem readTrade_tradePayload (f : TradeFields) (c : LogContext) :
    readTrade (tradePayload f c) = (f, c.name.take 15) := by
  rw [tradePayload_eq, readTrade_payload, cstr_payloadSymbol]
  rfl

/-- **When a payload keeps every field.**  Exactly when the symbol has at most 15 characters; and two
payloads are the same exactly when all their fields and the first 15 characters of their symbols
are. -/
theorem payloads_kept_iff (type type' : RecordType) (f f' : OrderFields) (g g' : TradeFields)
    (c c' : LogContext) :
    (readOrder (orderPayload type f c) = (f, c.name) ↔ c.name.length ≤ 15) ∧
    (readTrade (tradePayload g c) = (g, c.name) ↔ c.name.length ≤ 15) ∧
    (orderPayload type f c = orderPayload type' f' c' ↔
      f = f' ∧ c.name.take 15 = c'.name.take 15) ∧
    (tradePayload g c = tradePayload g' c' ↔ g = g' ∧ c.name.take 15 = c'.name.take 15) := by
  have hmem : c.name.take 15 = c'.name.take 15 →
      (payloadSymbol c.stack (some (c.symbol.toList ++ c.past))).toList =
        (payloadSymbol c'.stack (some (c'.symbol.toList ++ c'.past))).toList := by
    intro h
    have hlen : ∀ s : Symbol, 15 ≤ s.toList.length := fun s => by
      rw [Vector.length_toList]
      decide
    refine payloadSymbol_congr _ _ ?_
    rw [take_cstr_append (hlen _), take_cstr_append (hlen _)]
    exact h
  refine ⟨?_, ?_, ⟨fun h => ?_, ?_⟩, ⟨fun h => ?_, ?_⟩⟩
  · rw [readOrder_orderPayload, Prod.mk.injEq, List.take_eq_self_iff]
    exact and_iff_right rfl
  · rw [readTrade_tradePayload, Prod.mk.injEq, List.take_eq_self_iff]
    exact and_iff_right rfl
  · have hread := congrArg readOrder h
    rw [readOrder_orderPayload, readOrder_orderPayload] at hread
    exact Prod.mk.inj hread
  · rintro ⟨rfl, h⟩
    rw [orderPayload_eq, orderPayload_eq, OrderFields.payload, OrderFields.payload, hmem h]
  · have hread := congrArg readTrade h
    rw [readTrade_tradePayload, readTrade_tradePayload] at hread
    exact Prod.mk.inj hread
  · rintro ⟨rfl, h⟩
    rw [tradePayload_eq, tradePayload_eq, TradeFields.payload, TradeFields.payload, hmem h]

/-- The array of a symbol of 16 characters: the alphabet up to `o`, and then `last`. -/
def alphabetSymbol (last : UInt8) : Symbol :=
  #v[97, 98, 99, 100, 101, 102, 103, 104, 105, 106, 107, 108, 109, 110, 111, last]

/-- Two trades that differ in the last character of their symbols are logged alike, and read back
without it. -/
theorem payload_drops_character :
    let f : TradeFields := ⟨1, 2, 3, 0, 100, 0⟩
    let c (last : UInt8) : LogContext := ⟨Vector.replicate 16 0, alphabetSymbol last, [], 0⟩
    (c 112).name ≠ (c 113).name ∧ tradePayload f (c 112) = tradePayload f (c 113) ∧
      readTrade (tradePayload f (c 112)) ≠ (f, (c 112).name) := by
  decide

end Aspira
