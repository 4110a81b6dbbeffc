import Aspira.Journal.Payload
import Aspira.Pipeline.Replay

/-!
# Pipeline — recovery

From the bytes of a journal to the book.  The I/O thread's calls of the journal are calls of
`journal_append` (`Action.append`), whose bytes a reader decodes to records, whose payloads it reads
at the offsets of the two records (`readRecord`).  What it finds are the calls that were made
(`map_readRecord`), so the bytes of a session rebuild the book of the pipeline
(`bytes_rebuild`), in both ways of writing.

A price is stored as the 64 bits of its `double`; `bits` and `value` are the two directions, and a
price is kept if it is one of these 2⁶⁴ values.
-/

namespace Aspira

variable {P : Type}

/-! ### The calls -/

/-- The enumerator with a value. -/
def RecordType.ofCode (c : UInt32) : Option RecordType :=
  if c = 1 then some .orderNew
  else if c = 2 then some .orderFilled
  else if c = 3 then some .orderCancel
  else if c = 4 then some .orderReject
  else if c = 5 then some .trade
  else if c = 99 then some .snapshot
  else none

theorem RecordType.ofCode_code (t : RecordType) : ofCode t.code = some t := by
  cases t <;> decide

/-- What a call of the journal finds: the clock, and what its stack held. -/
structure CallContext where
  now : UInt64
  stack : Symbol

namespace Action

/-- The call of `journal_append` that a call of the journal makes.  The journal reads of the symbol
what the action holds (`payloadSymbol_congr`). -/
def append (bits : P → UInt64) (c : CallContext) : Action P → Option AppendArgs
  | .journalOrder type orderId accountId price quantity filledQty orderTsNs side orderType status
      symbol =>
      some (journalLogOrder c.stack type
        ⟨orderId, accountId, bits price, quantity, filledQty, orderTsNs, side, orderType, status⟩
        (some (symbol ++ [0])) c.now)
  | .journalTrade tradeId buyOrderId sellOrderId price quantity tradeTsNs symbol =>
      some (journalLogTrade c.stack
        ⟨tradeId, buyOrderId, sellOrderId, bits price, quantity, tradeTsNs⟩ (some (symbol ++ [0]))
        c.now)
  | .log .. | .send .. => none

/-- A call whose price is kept by its bits and whose symbol is a string of at most 15 characters; the
record of an order is not of the type of trades. -/
def Storable (bits : P → UInt64) (value : UInt64 → P) : Action P → Prop
  | .journalOrder type _ _ price _ _ _ _ _ _ symbol =>
      type ≠ .trade ∧ value (bits price) = price ∧ symbol.length ≤ 15 ∧ 0 ∉ symbol
  | .journalTrade _ _ _ price _ _ symbol =>
      value (bits price) = price ∧ symbol.length ≤ 15 ∧ 0 ∉ symbol
  | .log .. | .send .. => True

end Action

/-- The appends that some calls make; `context n` is what the `n`th finds. -/
def appends (bits : P → UInt64) (context : ℕ → CallContext) : ℕ → List (Action P) → List AppendArgs
  | _, [] => []
  | n, a :: as => (a.append bits (context n)).toList ++ appends bits context (n + 1) as

/-! ### Reading -/

/-- The call that left a record. -/
def readRecord (value : UInt64 → P) (r : JournalHeader × List UInt8) : Option (Action P) := do
  let type ← RecordType.ofCode r.1.recordType
  if type = .trade then
    let t := readTrade r.2
    return .journalTrade t.1.tradeId t.1.buyOrderId t.1.sellOrderId (value t.1.price) t.1.quantity
      t.1.tradeTsNs t.2
  else
    let o := readOrder r.2
    return .journalOrder type o.1.orderId o.1.accountId (value o.1.price) o.1.quantity o.1.filledQty
      o.1.orderTsNs o.1.side o.1.orderType o.1.status o.2

variable {bits : P → UInt64} {value : UInt64 → P}

/-- The string in a payload, when it fits. -/
theorem cstr_payloadSymbol_of_short (stack : Symbol) {s : List UInt8} (hlen : s.length ≤ 15)
    (hnul : 0 ∉ s) : cstr (payloadSymbol stack (some (s ++ [0]))).toList = s := by
  rw [toList_payloadSymbol, cstr_append_zero, cstr_strncpyBytes, cstr_append_zero,
    cstr_of_notMem hnul, List.take_of_length_le hlen]

/-- A header and 52 bytes are less than the mapping. -/
theorem record_fits : 32 + (52 : UInt32).toNat ≤ defaultMmapSize := by decide

/-- **A record is read back as the call that left it.** -/
theorem readRecord_append (c : CallContext) (sequence : UInt64) {a : Action P}
    (ha : a.Storable bits value) {args : AppendArgs} (hargs : a.append bits c = some args) :
    args.Proper ∧ readRecord value (args.header sequence, args.data) = some a := by
  cases a with
  | log => cases hargs
  | send => cases hargs
  | journalOrder type orderId accountId price quantity filledQty orderTsNs side orderType status
      symbol =>
      obtain ⟨htype, hprice, hlen, hnul⟩ := ha
      obtain rfl := Option.some.inj hargs
      set f : OrderFields :=
        ⟨orderId, accountId, bits price, quantity, filledQty, orderTsNs, side, orderType, status⟩
      have hsize := f.payload_length (payloadSymbol c.stack (some (symbol ++ [0])))
      have hdata : (journalLogOrder c.stack type f (some (symbol ++ [0])) c.now).data =
          f.payload (payloadSymbol c.stack (some (symbol ++ [0]))) :=
        List.take_of_length_le hsize.le
      refine ⟨⟨.inr ⟨_, rfl, hsize.ge⟩, record_fits⟩, ?_⟩
      have hcode : RecordType.ofCode ((journalLogOrder c.stack type f (some (symbol ++ [0]))
          c.now).header sequence).recordType = some type := RecordType.ofCode_code type
      simp only [readRecord, hcode, hdata, readOrder_payload,
        cstr_payloadSymbol_of_short c.stack hlen hnul, Option.bind_eq_bind, Option.bind_some,
        if_neg htype]
      rw [show f.price = bits price from rfl, hprice]
      rfl
  | journalTrade tradeId buyOrderId sellOrderId price quantity tradeTsNs symbol =>
      obtain ⟨hprice, hlen, hnul⟩ := ha
      obtain rfl := Option.some.inj hargs
      set f : TradeFields := ⟨tradeId, buyOrderId, sellOrderId, bits price, quantity, tradeTsNs⟩
      have hsize := f.payload_length (payloadSymbol c.stack (some (symbol ++ [0])))
      have hdata : (journalLogTrade c.stack f (some (symbol ++ [0])) c.now).data =
          f.payload (payloadSymbol c.stack (some (symbol ++ [0]))) :=
        List.take_of_length_le hsize.le
      refine ⟨⟨.inr ⟨_, rfl, hsize.ge⟩, record_fits⟩, ?_⟩
      have hcode : RecordType.ofCode ((journalLogTrade c.stack f (some (symbol ++ [0]))
          c.now).header sequence).recordType = some .trade := rfl
      simp only [readRecord, hcode, hdata, readTrade_payload,
        cstr_payloadSymbol_of_short c.stack hlen hnul, Option.bind_eq_bind, Option.bind_some,
        if_true]
      rw [show f.price = bits price from rfl, hprice]
      rfl

/-- **The records of some calls are read back as these calls.** -/
theorem map_readRecord (context : ℕ → CallContext) {as : List (Action P)}
    (has : ∀ a ∈ as, a.Storable bits value) (n : ℕ) (sequence : UInt64) :
    (∀ args ∈ appends bits context n as, args.Proper) ∧
      (readBack sequence (appends bits context n as)).map (readRecord value) =
        (journal as).map some := by
  induction as generalizing n sequence with
  | nil => exact ⟨fun args h => absurd h List.not_mem_nil, rfl⟩
  | cons a as ih =>
      have ha := has a (List.mem_cons_self ..)
      have hrest := fun m seq => ih (fun b hb => has b (List.mem_cons_of_mem a hb)) m seq
      cases hargs : a.append bits (context n) with
      | none =>
          have hno : a.isRecord = false := by
            cases a with
            | log => rfl
            | send => rfl
            | journalOrder => cases hargs
            | journalTrade => cases hargs
          have hskip : journal (a :: as) = journal as := by
            rw [journal, List.filter_cons_of_neg (by rw [hno]; exact Bool.false_ne_true)]
            rfl
          rw [appends, hargs, hskip]
          exact hrest (n + 1) sequence
      | some args =>
          obtain ⟨hproper, hread⟩ := readRecord_append (context n) sequence ha hargs
          have hyes : a.isRecord = true := by
            cases a with
            | log => cases hargs
            | send => cases hargs
            | journalOrder => rfl
            | journalTrade => rfl
          obtain ⟨hall, hmap⟩ := hrest (n + 1) (sequence + 1)
          rw [appends, hargs]
          refine ⟨fun args' h => ?_, ?_⟩
          · rcases List.mem_cons.mp h with rfl | h
            · exact hproper
            · exact hall args' h
          · have hkeep : journal (a :: as) = a :: journal as := by
              rw [journal, List.filter_cons_of_pos hyes]
              rfl
            rw [hkeep, List.map_cons, ← hmap, ← hread]
            rfl

/-! ### The book -/

/-- The price in the record of an event. -/
def IoWrite.price : IoWrite P → P
  | .rejected o _ => o.price
  | .result o _ => o.price
  | .trade t => t.price

theorem record_storable {w : IoWrite P} (hw : value (bits w.price) = w.price) :
    w.record.Storable bits value := by
  have hsym : ∀ mem : List UInt8, ((cstr mem).take 15).length ≤ 15 ∧ 0 ∉ (cstr mem).take 15 :=
    fun mem => ⟨List.length_take_le _ _, fun h => notMem_cstr mem (List.mem_of_mem_take h)⟩
  cases w with
  | rejected o reason => exact ⟨by decide, hw, hsym _⟩
  | result o gwMsg =>
      refine ⟨?_, hw, hsym _⟩
      split
      · decide
      · decide
  | trade t => exact ⟨hw, hsym _⟩

namespace EventPipeline

variable [Price P] {p p' : EventPipeline P}

/-- **The bytes of the journal determine the book.**  In every interleaving, when no call of
`process_market_data` is running, no event was dropped and every event pushed was processed: the
bytes that the I/O thread's calls write, in either mode and to whatever file, are decoded, record by
record, to these calls, and replayed to the book of the pipeline and its trades. -/
theorem bytes_rebuild {symbol symbol' : List UInt8} {ts : List (Turn P)} {rs : List Unit}
    (clock : ℕ → Env) (context : ℕ → CallContext) (hstart : start symbol = some p)
    (hrun : Run.exec (step true) p ts = some (rs, p')) (hidle : ∀ d, p'.consumer ≠ .busy d)
    (hlen : p'.writes.length < 2 ^ 64) (hdropped : p'.stages.ioEventsDropped = 0)
    (hpassed : p'.stages.passed = p'.stages.pushed)
    (hprice : ∀ w ∈ p'.writes, value (bits w.price) = w.price) :
    ∃ bytes records, (∀ (useMmap : Bool) (file : List UInt8),
        (⟨useMmap, appends bits context 0 p'.stages.actions⟩ : Session).bytes file = some bytes) ∧
      decode bytes = some records ∧
      records.map (readRecord value) = (journal p'.stages.actions).map some ∧
      Rebuilds clock symbol' (records.filterMap (readRecord value)) p'.hotPath.orderBook := by
  obtain ⟨p₀, rs₀, p₁, hstart₀, hrun₀, ⟨free, filled, out, hs⟩, hcalled⟩ :=
    exec_called (P := P) true symbol ts
  obtain rfl : p₀ = p := Option.some.inj (hstart₀.symm.trans hstart)
  obtain rfl : p₁ = p' := (Prod.mk.inj (Option.some.inj (hrun₀.symm.trans hrun))).2
  have hjournal := hs.journal (hs.hot hidle) hlen hdropped hpassed
  have hstorable : ∀ a ∈ p₁.stages.actions, a.Storable bits value := by
    intro a ha
    cases hrec : a.isRecord with
    | false =>
        cases a with
        | log => trivial
        | send => trivial
        | journalOrder => cases hrec
        | journalTrade => cases hrec
    | true =>
        have hmem : a ∈ journal p₁.stages.actions := List.mem_filter.mpr ⟨ha, hrec⟩
        rw [hjournal] at hmem
        obtain ⟨w, hw, rfl⟩ := List.mem_map.mp hmem
        exact record_storable (hprice w hw)
  obtain ⟨hproper, hread⟩ := map_readRecord context hstorable 0 0
  refine ⟨_, _, fun useMmap file => sessionBytes_spec file hproper, decode_records hproper 0, hread, ?_⟩
  set records := readBack 0 (appends bits context 0 p₁.stages.actions)
  have hall : records.filterMap (readRecord value) = journal p₁.stages.actions :=
    calc records.filterMap (readRecord value)
        = (records.map (readRecord value)).filterMap id := by
          rw [List.filterMap_map, Function.id_comp]
      _ = (journal p₁.stages.actions).filterMap some := by
          rw [hread, List.filterMap_map]
          rfl
      _ = journal p₁.stages.actions := List.filterMap_some
  rw [hall, hjournal]
  obtain ⟨ticks, hticks⟩ := hcalled
  have hretraced := run_retraced (P := P) clock symbol symbol' ticks
  rw [hticks] at hretraced
  exact hretraced.rebuilds

/-- Prices in thousandths. -/
def milli (x : ℚ) : UInt64 := UInt64.ofNat (x * 1000).num.toNat

theorem crossedTick_prices :
    ∀ w ∈ ((HotPath.init (text "AAPL")).processMarketData crossedTick).1,
      ((milli w.price).toNat : ℚ) / 1000 = w.price := by
  decide +kernel

/-- The journal of a crossed message: two orders and a trade. -/
theorem bytes_rebuild_crossedTick : ∃ (p p' : EventPipeline ℚ) (rs : List Unit),
    start (text "AAPL") = some p ∧ Run.exec (step true) p (drainRun crossedTick 3) = some (rs, p') ∧
    ∃ bytes records, (∀ (useMmap : Bool) (file : List UInt8),
        (⟨useMmap, appends milli (fun _ => ⟨0, aapl⟩) 0 p'.stages.actions⟩ : Session).bytes file =
          some bytes) ∧
      decode bytes = some records ∧
      records.map (readRecord fun n => (n.toNat : ℚ) / 1000) = (journal p'.stages.actions).map some ∧
      Rebuilds (fun _ => .still) [] (records.filterMap (readRecord fun n => (n.toNat : ℚ) / 1000))
        p'.hotPath.orderBook := by
  obtain ⟨p, rs, queue, s, free, out, hstart, hrun, hc, hidle, hdropped⟩ :=
    exec_drainRun true crossedTick (by decide) crossedTick_length
  have hprices := crossedTick_prices
  have hlen := crossedTick_length
  generalize ((HotPath.init (text "AAPL")).processMarketData crossedTick).1 = ws
    at hrun hprices hlen
  generalize ((HotPath.init (text "AAPL")).processMarketData crossedTick).2 = hot at hrun
  have hflow := hc.flow
  rw [hidle, IoHand.unread, List.append_nil, List.map_nil, List.append_nil] at hflow
  exact ⟨p, _, rs, hstart, hrun, bytes_rebuild _ _ hstart hrun (fun d he => by cases he)
    (by show ws.length < 2 ^ 64; omega) hdropped hflow.symm hprices⟩

end EventPipeline

end Aspira
