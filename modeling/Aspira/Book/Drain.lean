import Aspira.Book.Live

/-!
# Book — draining

`drain_trades` swaps the two trade buffers and hands out the one that was filled.  What this comes to
is a list of all trades that only grows, and a mark up to which it has been handed out: `TradeLog`, a
book that is never drained.

`drain_run` says that the book and the log give the same results, whatever calls are made and drains
put between them, so that no trade is lost or handed out twice; and what the two buffers hold.
-/

namespace Aspira

variable {P : Type}

/-- `env`, for a buffer that is longer by `k`. -/
def Env.after (k : ℕ) (env : Env) : Env := fun i => env (i - k)

/-- The call on a book whose buffer is longer by `k`. -/
def BookOp.after (k : ℕ) : BookOp P → BookOp P
  | .add env o => .add (env.after k) o
  | .addMarket env o => .addMarket (env.after k) o
  | .modify env id p q => .modify (env.after k) id p q
  | .cancel id => .cancel id
  | .updateLevel s p n => .updateLevel s p n

/-- The state of the loops with `ts` before its trades. -/
def Matching.after (ts : List (Trade P)) (m : Matching P) : Matching P :=
  { m with trades := ts ++ m.trades }

/-! ### The loops -/

section Loops

variable (symbol : List UInt8) (env : Env) (ts : List (Trade P))

theorem hit_after (price : P) (m : Matching P) (o : Order P) :
    (m.after ts).hit symbol (env.after ts.length) price o = (m.hit symbol env price o).after ts := by
  have hstamp : (env.after ts.length) (m.after ts).trades.length = env m.trades.length := by
    show env ((ts ++ m.trades).length - ts.length) = _
    rw [List.length_append, Nat.add_sub_cancel_left]
  have hdeal : (m.after ts).deal symbol (env.after ts.length) price o = m.deal symbol env price o := by
    simp only [Matching.deal, hstamp]
    rfl
  have htrades : (ts ++ m.trades) ++ [m.deal symbol env price o] =
      ts ++ (m.trades ++ [m.deal symbol env price o]) := List.append_assoc ..
  rw [Matching.hit, hdeal]
  show (⟨_, _, (ts ++ m.trades) ++ [m.deal symbol env price o], _⟩ : Matching P) = _
  rw [htrades]
  rfl

theorem matchLevel_after (price : P) : ∀ (q : OrderList P) (m : Matching P),
    matchLevel symbol (env.after ts.length) price q (m.after ts) =
      ((matchLevel symbol env price q m).1, (matchLevel symbol env price q m).2.after ts)
  | [], _ => rfl
  | n :: q, m => by
      have hqty : (m.after ts).qty n.order = m.qty n.order := rfl
      rw [matchLevel, matchLevel]
      simp only [matchEntry_eq, hit_after, hqty]
      show (if 0 < m.order.remaining then _ else _) = _
      split
      · split
        · exact matchLevel_after price q ((m.hit symbol env price n.order).unindex n.order.id)
        · rw [matchLevel_after price q (m.hit symbol env price n.order)]
      · rfl

theorem matchLevels_after [LinearOrder P] (s : Side) : ∀ (l : List (P × OrderList P)) (m : Matching P),
    matchLevels symbol (env.after ts.length) s l (m.after ts) =
      ((matchLevels symbol env s l m).1, (matchLevels symbol env s l m).2.after ts)
  | [], _ => rfl
  | e :: l, m => by
      rw [matchLevels, matchLevels]
      show (if 0 < m.order.remaining then
        if m.order.type = .limit ∧ s.Better m.order.price e.1 then _ else _ else _) = _
      split
      · split
        · rfl
        · simp only [matchLevel_after, matchLevels_after s l]
          split
          · rfl
          · rfl
      · rfl

end Loops

/-- The trades are numbered from 1 on, and the next one gets the number `next`. -/
def NumberedTo (ts : List (Trade P)) (next : Int32) : Prop :=
  ts.map Trade.tradeId = (List.range ts.length).map (fun i => 1 + Int32.ofNat i) ∧
    next = 1 + Int32.ofNat ts.length

theorem NumberedTo.hit {m : Matching P} (h : NumberedTo m.trades m.nextTradeId)
    (symbol : List UInt8) (env : Env) (price : P) (o : Order P) :
    NumberedTo (m.hit symbol env price o).trades (m.hit symbol env price o).nextTradeId := by
  have hdeal : (m.deal symbol env price o).tradeId = 1 + Int32.ofNat m.trades.length := h.2
  constructor
  · show (m.trades ++ [m.deal symbol env price o]).map Trade.tradeId = _
    rw [Matching.hit, List.length_append, List.length_singleton, List.range_succ, List.map_append,
      List.map_append, h.1, List.map_singleton, List.map_singleton, hdeal]
  · show m.nextTradeId + 1 = 1 + Int32.ofNat (m.trades ++ [_]).length
    rw [h.2, List.length_append, List.length_singleton, Int32.ofNat_add, Int32.add_assoc]
    rfl

/-- As long as they fit in an `int32_t`, the ids are 1, 2, 3 and so on. -/
theorem NumberedTo.toInt {ts : List (Trade P)} {next : Int32} (h : NumberedTo ts next)
    (hlt : ts.length < 2 ^ 31 - 1) :
    ts.map (fun t => t.tradeId.toInt) = (List.range ts.length).map fun i : ℕ => (i : ℤ) + 1 := by
  have hids := congrArg (List.map Int32.toInt) h.1
  rw [List.map_map, List.map_map] at hids
  refine hids.trans (List.map_congr_left fun i hi => ?_)
  have hi' : i < 2 ^ 31 - 1 := (List.mem_range.mp hi).trans hlt
  have hnat : (Int32.ofNat i).toInt = i := Int32.toInt_ofNat_of_lt (by omega)
  have hone : (1 : Int32).toInt = 1 := rfl
  show (1 + Int32.ofNat i).toInt = _
  rw [Int32.toInt_add_exact (by omega) (by omega), hnat, hone]
  exact add_comm _ _

attribute [ext] OrderBook

namespace OrderBook

variable [LinearOrder P] {b b' : OrderBook P} {ts : List (Trade P)}

/-! ### A book that is never drained -/

/-- The book with `ts` before its trades, all in one buffer. -/
def logged (ts : List (Trade P)) (b : OrderBook P) : OrderBook P :=
  { b with tradesBufA := ts ++ b.trades, tradesBufB := [], activeA := true }

/-- The buffer that is not the active one. -/
def inactive (b : OrderBook P) : List (Trade P) := if b.activeA then b.tradesBufB else b.tradesBufA

/-- `trade_count()`. -/
def tradeCount (b : OrderBook P) : ℕ := b.trades.length

@[simp] theorem trades_logged (ts : List (Trade P)) (b : OrderBook P) :
    (b.logged ts).trades = ts ++ b.trades := rfl

@[simp] theorem levels_logged (ts : List (Trade P)) (b : OrderBook P) (s : Side) :
    (b.logged ts).levels s = b.levels s := by cases s <;> rfl

theorem matchLimitOrder_logged (env : Env) (ts : List (Trade P)) (b : OrderBook P) (o : Order P) :
    (b.logged ts).matchLimitOrder (env.after ts.length) o =
      ((b.matchLimitOrder env o).1, (b.matchLimitOrder env o).2.logged ts) := by
  obtain ⟨l', m', hc⟩ := matchLimitOrder_crossed env b o
  obtain ⟨l'', m'', hc'⟩ := matchLimitOrder_crossed (env.after ts.length) (b.logged ts) o
  have hloop := hc'.loop
  rw [levels_logged] at hloop
  have hafter := matchLevels_after b.symbol env ts o.side.opposite
    (b.levels o.side.opposite).entries (b.matching o)
  rw [hc.loop] at hafter
  obtain ⟨rfl, rfl⟩ := Prod.mk.inj (hloop.symm.trans hafter)
  have hlevels : ∀ s, ((b.logged ts).matchLimitOrder (env.after ts.length) o).2.levels s =
      ((b.matchLimitOrder env o).2.logged ts).levels s := by
    intro s
    rw [levels_logged]
    rcases s.eq_or_eq_opposite o.side with rfl | rfl
    · rw [hc'.own, hc.own, levels_logged]
    · exact OrdMap.ext (hc'.opposite.trans hc.opposite.symm)
  have htrades : ((b.logged ts).matchLimitOrder (env.after ts.length) o).2.tradesBufA =
      ts ++ (b.matchLimitOrder env o).2.trades := by
    rw [hc.trades]
    exact hc'.trades
  refine Prod.ext (hc'.order.trans hc.order.symm) ?_
  exact OrderBook.ext rfl (hlevels .buy) (hlevels .sell) htrades rfl rfl
    (hc'.orderIndex.trans hc.orderIndex.symm) (hc'.nextTradeId.trans hc.nextTradeId.symm) rfl

/-! ### The calls -/

theorem rest_logged (ts : List (Trade P)) (b : OrderBook P) (o : Order P) :
    (b.logged ts).rest o = ((b.rest o).1, (b.rest o).2.logged ts) := by
  obtain ⟨_, _, _, _, _, _, side, _, _, _⟩ := o
  cases side <;> rfl

theorem addOrder_logged (env : Env) (ts : List (Trade P)) (b : OrderBook P) (o : Order P) :
    (b.logged ts).addOrder (env.after ts.length) o =
      ((b.addOrder env o).1, (b.addOrder env o).2.logged ts) := by
  unfold OrderBook.addOrder
  rw [matchLimitOrder_logged]
  dsimp only
  split
  · exact rest_logged ..
  · rfl

theorem cutLevel_logged (ts : List (Trade P)) (b : OrderBook P) (s : Side) (k : P)
    (rest : OrderList P) : (b.logged ts).cutLevel s k rest = (b.cutLevel s k rest).logged ts := by
  cases s <;> rfl

theorem updateLevel_logged (ts : List (Trade P)) (b : OrderBook P) (s : Side) (p : P) (n : Int32) :
    (b.logged ts).updateLevel s p n = (b.updateLevel s p n).logged ts := by
  unfold OrderBook.updateLevel
  rw [levels_logged, cutLevel_logged]
  split
  · split
    · rfl
    · rfl
  · rfl

theorem cancelOrder_logged (ts : List (Trade P)) (b : OrderBook P) (id : Int32) :
    (b.logged ts).cancelOrder id = (b.cancelOrder id).map (Prod.map (fun f => f) (logged ts)) := by
  have hindex : (b.logged ts).orderIndex = b.orderIndex := rfl
  have hderef : ∀ it, (b.logged ts).deref it = b.deref it := fun _ => rfl
  unfold OrderBook.cancelOrder
  simp only [hindex, hderef, levels_logged, cutLevel_logged]
  cases b.orderIndex.lookup id with
  | none => rfl
  | some it =>
      dsimp only
      cases b.deref it with
      | none => rfl
      | some o =>
          dsimp only
          cases (b.levels o.side).find o.price with
          | none => rfl
          | some level =>
              dsimp only
              split
              · rfl
              · rfl

theorem modifyOrder_logged [Zero P] (env : Env) (ts : List (Trade P)) (b : OrderBook P) (id : Int32)
    (p : P) (q : Int32) : (b.logged ts).modifyOrder (env.after ts.length) id p q =
      (b.modifyOrder env id p q).map (Prod.map (fun o => o) (logged ts)) := by
  have hindex : (b.logged ts).orderIndex = b.orderIndex := rfl
  have hderef : ∀ it, (b.logged ts).deref it = b.deref it := fun _ => rfl
  unfold OrderBook.modifyOrder
  rw [hindex, cancelOrder_logged]
  cases b.orderIndex.lookup id with
  | none => rfl
  | some it =>
      dsimp only
      rw [hderef]
      cases b.deref it with
      | none => rfl
      | some o =>
          cases b.cancelOrder id with
          | none => rfl
          | some c => exact congrArg some (addOrder_logged ..)

/-- **A call does the same to a book that has kept what was drained.** -/
theorem step_logged [Zero P] (ts : List (Trade P)) (b : OrderBook P) (op : BookOp P) :
    (b.logged ts).step (op.after ts.length) =
      (b.step op).map (Prod.map (fun r => r) (logged ts)) := by
  cases op with
  | add env o =>
      show some (((b.logged ts).addOrder (env.after ts.length) o).map BookResult.order fun c => c) = _
      rw [addOrder_logged]
      rfl
  | addMarket env o =>
      show some (((b.logged ts).matchLimitOrder (env.after ts.length) o.asMarket).map BookResult.order fun c => c) = _
      rw [matchLimitOrder_logged]
      rfl
  | cancel id =>
      have hc := cancelOrder_logged ts b id
      show ((b.logged ts).cancelOrder id).map _ = _
      rw [hc]
      cases hb : b.cancelOrder id with
      | none => rw [step, hb]; rfl
      | some c => rw [step, hb]; rfl
  | modify env id p q =>
      have hm := modifyOrder_logged env ts b id p q
      show ((b.logged ts).modifyOrder (env.after ts.length) id p q).map _ = _
      rw [hm]
      cases hb : b.modifyOrder env id p q with
      | none => rw [step, hb]; rfl
      | some c => rw [step, hb]; rfl
  | updateLevel s p n =>
      show some (BookResult.done, (b.logged ts).updateLevel s p n) = _
      rw [updateLevel_logged]
      rfl

/-! ### The inactive buffer -/

/-- What calls are made of leaves the inactive buffer alone. -/
theorem Move.inactive (h : Move b b') : b'.inactive = b.inactive := by
  cases h with
  | cross env o =>
      show (if b.activeA then if b.activeA then b.tradesBufB else _
        else if b.activeA then _ else b.tradesBufA) = if b.activeA then _ else _
      cases b.activeA <;> rfl
  | rest => rfl
  | cancel => rfl
  | drop => rfl

/-! ### Trade ids -/

/-- The trades of a book that is never drained are numbered from 1 on. -/
def Numbered (b : OrderBook P) : Prop := NumberedTo b.trades b.nextTradeId

theorem Move.numbered (h : Move b b') (hn : b.Numbered) : b'.Numbered := by
  cases h with
  | cross env o =>
      obtain ⟨l', m', hc⟩ := matchLimitOrder_crossed env b o
      have hloop := matchLevels_of_hit b.symbol env (I := fun m => NumberedTo m.trades m.nextTradeId)
        (fun price o h => h.hit b.symbol env price o) (fun _ h => h) o.side.opposite
        (b.levels o.side.opposite).entries (m := b.matching o) hn
      rw [hc.loop] at hloop
      rw [Numbered, hc.trades, hc.nextTradeId]
      exact hloop
  | rest => exact hn
  | cancel => exact hn
  | drop => exact hn

end OrderBook

/-! ### Calls and drains -/

/-- A call on the book, or `drain_trades`. -/
inductive BufferOp (P : Type) where
  | call (op : BookOp P)
  | drain

/-- What a call returns, or a drain hands out. -/
inductive BufferOut (P : Type) where
  | result (r : BookResult P)
  | drained (ts : List (Trade P))

/-- The trades handed out. -/
def BufferOut.trades : BufferOut P → List (Trade P)
  | .result _ => []
  | .drained ts => ts

variable [LinearOrder P] [Zero P]

/-- One call or drain. -/
def OrderBook.bufferStep (b : OrderBook P) : BufferOp P → Option (BufferOut P × OrderBook P)
  | .call op => (b.step op).map (Prod.map .result fun b' => b')
  | .drain => some (.drained b.drainTrades.1, b.drainTrades.2)

/-- A book that is never drained, so that its buffer holds every trade there ever was, and how many
of them were handed out. -/
structure TradeLog (P : Type) [LinearOrder P] where
  book : OrderBook P
  read : ℕ

/-- One call or drain: a drain hands out the trades since the last one, and moves the mark. -/
def TradeLog.step (l : TradeLog P) : BufferOp P → Option (BufferOut P × TradeLog P)
  | .call op => (l.book.step (op.after l.read)).map (Prod.map .result fun b' => { l with book := b' })
  | .drain => some (.drained (l.book.trades.drop l.read), { l with read := l.book.trades.length })

namespace OrderBook

variable {b b' : OrderBook P} {l : TradeLog P}

/-- The book is the log, less what was handed out. -/
structure Reads (l : TradeLog P) (b : OrderBook P) : Prop where
  log : ∃ ts, l = ⟨b.logged ts, ts.length⟩
  inactive : b.inactive = []
  numbered : l.book.Numbered
  reached : Reached b

theorem Reads.drop (h : Reads l b) : l.book.trades.drop l.read = b.trades := by
  obtain ⟨ts, rfl⟩ := h.log
  exact List.drop_left

/-- **A call or drain gives the same on both.** -/
theorem Reads.step (h : Reads l b) (op : BufferOp P) :
    ∃ out l' b', b.bufferStep op = some (out, b') ∧ l.step op = some (out, l') ∧ Reads l' b' ∧
      l'.book.trades.take l'.read = l.book.trades.take l.read ++ out.trades := by
  obtain ⟨ts, rfl⟩ := h.log
  cases op with
  | call op =>
      obtain ⟨r, b', hs⟩ := h.reached.step_total op
      have hlog : (b.logged ts).step (op.after ts.length) = some (r, b'.logged ts) := by
        rw [step_logged, hs]
        rfl
      have hmarked : (b.logged ts).Marked _ _ := h.reached.addressed.congr rfl rfl rfl
      have hinactive : b'.inactive = [] := step_of_move (I := fun c => c.inactive = [])
        (fun he hmove => hmove.inactive.trans he) h.reached.addressed h.inactive hs
      have hnumbered : (b'.logged ts).Numbered :=
        step_of_move (fun hn hmove => hmove.numbered hn) hmarked h.numbered hlog
      refine ⟨.result r, ⟨b'.logged ts, ts.length⟩, b', ?_, ?_,
        ⟨⟨ts, rfl⟩, hinactive, hnumbered, h.reached.step hs⟩, ?_⟩
      · rw [bufferStep, hs]
        rfl
      · rw [TradeLog.step, hlog]
        rfl
      · show (ts ++ b'.trades).take ts.length = (ts ++ b.trades).take ts.length ++ []
        rw [List.take_left, List.take_left, List.append_nil]
  | drain =>
      -- the log stays, and all of it is handed out now
      have hsame : b.drainTrades.2.logged (ts ++ b.trades) = b.logged ts := by
        refine OrderBook.ext rfl rfl rfl ?_ rfl rfl rfl rfl rfl
        show (ts ++ b.trades) ++ b.drainTrades.2.trades = ts ++ b.trades
        rw [drainTrades_trades, List.append_nil]
      have hinactive : b.drainTrades.2.inactive = [] := ite_self _
      refine ⟨.drained b.trades, ⟨b.logged ts, (ts ++ b.trades).length⟩, b.drainTrades.2, rfl, ?_,
        ⟨⟨ts ++ b.trades, by rw [hsame]⟩, hinactive, h.numbered, .drain h.reached⟩, ?_⟩
      · rw [TradeLog.step, h.drop]
        rfl
      · show (ts ++ b.trades).take (ts ++ b.trades).length = (ts ++ b.trades).take ts.length ++ b.trades
        rw [List.take_length, List.take_left]

theorem Reads.run (ops : List (BufferOp P)) : ∀ {l : TradeLog P} {b : OrderBook P}, Reads l b →
    ∃ outs l' b', Run.exec bufferStep b ops = some (outs, b') ∧
      Run.exec TradeLog.step l ops = some (outs, l') ∧ Reads l' b' ∧
      l'.book.trades.take l'.read = l.book.trades.take l.read ++ outs.flatMap BufferOut.trades := by
  induction ops with
  | nil => exact fun {l b} h => ⟨[], l, b, rfl, rfl, h, (List.append_nil _).symm⟩
  | cons op ops ih =>
      intro l b h
      obtain ⟨out, l₁, b₁, hb, hl, h₁, hread⟩ := h.step op
      obtain ⟨outs, l', b', hb', hl', h', hread'⟩ := ih h₁
      refine ⟨out :: outs, l', b', Run.exec_cons hb hb', Run.exec_cons hl hl', h', ?_⟩
      rw [hread', hread, List.append_assoc, List.flatMap_cons]

theorem reads_init (symbol : List UInt8) :
    Reads ⟨init symbol, 0⟩ (init symbol : OrderBook P) where
  log := ⟨[], rfl⟩
  inactive := rfl
  numbered := ⟨rfl, rfl⟩
  reached := .init symbol

/-- **Draining loses and repeats no trade.**  Whatever calls and drains are made, with orders of any
kind, what the drains hand out and the buffer holds is the list of all trades in the order they were
generated. -/
theorem drain_run (symbol : List UInt8) (ops : List (BufferOp P)) :
    ∃ outs b log, Run.exec bufferStep (init symbol) ops = some (outs, b) ∧
      Run.exec TradeLog.step ⟨init symbol, 0⟩ ops = some (outs, log) ∧
      outs.flatMap BufferOut.trades ++ b.trades = log.book.trades ∧
      (log.book.trades.length < 2 ^ 31 - 1 → log.book.trades.map (fun t => t.tradeId.toInt) =
        (List.range log.book.trades.length).map fun i : ℕ => (i : ℤ) + 1) ∧
      b.inactive = [] ∧ b.tradeCount = log.book.trades.length - log.read := by
  obtain ⟨outs, log, b, hb, hl, h, hread⟩ := (reads_init symbol).run ops
  refine ⟨outs, b, log, hb, hl, ?_, h.numbered.toInt, h.inactive, ?_⟩
  · rw [← List.take_append_drop log.read log.book.trades, hread, h.drop]
    rfl
  · rw [tradeCount, ← h.drop, List.length_drop]

/-- An ask taken by two orders, with a drain after each trade and one more. -/
def drainedCalls : List (BufferOp ℤ) :=
  let bid := { (Order.blank : Order ℤ) with price := 100, quantity := 2 }
  [.call (.add .still { bid with id := 1, side := .sell, quantity := 5 }),
    .call (.add .still { bid with id := 2 }), .drain,
    .call (.addMarket .still { bid with id := 3 }), .drain, .drain]

theorem drain_run_drainedCalls :
    ∃ outs b log, Run.exec bufferStep (init []) drainedCalls = some (outs, b) ∧
      Run.exec TradeLog.step ⟨init [], 0⟩ drainedCalls = some (outs, log) ∧
      outs.flatMap BufferOut.trades ++ b.trades = log.book.trades ∧
      log.book.trades.map (fun t => t.tradeId.toInt) = [1, 2] ∧ b.tradeCount = 0 := by
  obtain ⟨outs, b, log, hb, hl, hall, hids, -, hcount⟩ := drain_run [] drainedCalls
  have hlog : (Run.exec TradeLog.step ⟨init [], 0⟩ drainedCalls).map
      (fun r => (r.2.book.trades.length, r.2.read)) = some (2, 2) := by decide +kernel
  rw [hl] at hlog
  obtain ⟨hlen, hread⟩ := Prod.mk.inj (Option.some.inj hlog)
  rw [hlen] at hids hcount
  rw [hread] at hcount
  exact ⟨outs, b, log, hb, hl, hall, hids (by decide), hcount⟩

end OrderBook

end Aspira
