import Aspira.Book.Reachable
import Aspira.Book.Fills

/-!
# Book — market orders

A market order is a limit order without a limit, of which the remainder is cancelled: adding the same
order with a price that reaches the whole other side, and cancelling it, leaves the same book, the
same trades and the same fill (`market_order`).

Both sweep the opposite queue with everything in reach, so they take the same pieces of it
(`matched_of_reach`).  What the limit order is left with rests under a new node and a fresh id, and
the cancel takes out this node and nothing else.
-/

namespace Aspira

variable {P : Type}

/-- The same trade, but for the time, and for what the stack held after the symbol. -/
structure Trade.Alike (t t' : Trade P) : Prop where
  tradeId : t'.tradeId = t.tradeId
  buyOrderId : t'.buyOrderId = t.buyOrderId
  sellOrderId : t'.sellOrderId = t.sellOrderId
  quantity : t'.quantity = t.quantity
  price : t'.price = t.price
  symbol : cstr t'.symbol.toList = cstr t.symbol.toList

theorem Trade.Alike.refl (t : Trade P) : t.Alike t := ⟨rfl, rfl, rfl, rfl, rfl, rfl⟩

/-- The same pieces are traded alike by orders of the same side and id. -/
theorem deals_alike {symbol : List UInt8} {env env' : Env} {o o' : Order P} (hs : o'.side = o.side)
    (hid : o'.id = o.id) : ∀ (i : ℕ) (tradeId : Int32) (ps : List (Node P × ℤ)),
      List.Forall₂ Trade.Alike (deals symbol env o i tradeId ps) (deals symbol env' o' i tradeId ps)
  | _, _, [] => .nil
  | i, tradeId, p :: ps => by
      refine .cons ⟨rfl, ?_, ?_, rfl, rfl, ?_⟩ (deals_alike hs hid (i + 1) (tradeId + 1) ps)
      · simp only [dealFor, hs, hid]
      · simp only [dealFor, hs, hid]
      · simp only [dealFor, cstr_tradeSymbol]

namespace OrderBook

variable [LinearOrder P] {b b' b₁ b₂ : OrderBook P} {o o₁ o₂ : Order P} {env env₁ env₂ : Env}
  {m₁ m₂ : Matching P}

/-- The order as a limit order at `p`. -/
def asLimit (o : Order P) (p : P) : Order P := { o with type := .limit, price := p }

/-- Every order on the other side is within the reach of `o`. -/
def ReachesAll (b : OrderBook P) (o : Order P) : Prop :=
  ∀ n ∈ b.queue o.side.opposite, Reaches o.side.opposite o n

/-! ### Two sweeps that reach everything -/

/-- **Orders that reach everything take the same.** -/
theorem matched_of_reach (hs : o₂.side = o₁.side) (hq : o₂.quantity = o₁.quantity)
    (h₁ : b.ReachesAll o₁) (h₂ : b.ReachesAll o₂) :
    b.matched o₂ = b.matched o₁ ∧ b.offered o₂ = b.offered o₁ := by
  rw [ReachesAll, hs] at h₂
  rw [matched, matched, offered, offered, hs, hq]
  exact Stock.consume_congr fun n hn => iff_of_true (h₂ n hn) (h₁ n hn)

/-- An order that reaches everything is filled with what there is. -/
theorem ReachesAll.filled (h : b.ReachesAll o) (hb : b.Placed) (ho : 0 ≤ o.quantity.toInt) :
    o.quantity.toInt - (b.matched o).2 =
      min o.quantity.toInt (remainingQty (b.queue o.side.opposite)) :=
  Stock.consume_of_reach (L := restingStock P) (fun _ hn => hb.resting hn) h ho

/-- The orders that a sweep takes are the front of the queue that is missing after it. -/
theorem Swept.orderIndex_eq (h : Swept env o b m₁ b') :
    b'.orderIndex = eraseIds b.orderIndex ((b.queue o.side.opposite).take
      ((b.queue o.side.opposite).length - (b'.queue o.side.opposite).length)) := by
  obtain ⟨gone, kept, hq, hk, hix⟩ := h.sweep.split
  have hlen : kept.length = (b'.queue o.side.opposite).length := hk.length_eq
  have hgone : (b.queue o.side.opposite).take
      ((b.queue o.side.opposite).length - (b'.queue o.side.opposite).length) = gone := by
    rw [hq, List.length_append, hlen, Nat.add_sub_cancel, List.take_left']
    rfl
  rw [hgone, h.orderIndex, hix]
  rfl

/-- Two books that agree in all but the times of the trades, and the addresses given out. -/
structure Agree (b₁ b₂ : OrderBook P) : Prop where
  levels : ∀ s, b₁.levels s = b₂.levels s
  lookup : ∀ id, b₁.orderIndex.lookup id = b₂.orderIndex.lookup id
  trades : List.Forall₂ Trade.Alike b₁.trades b₂.trades
  nextTradeId : b₁.nextTradeId = b₂.nextTradeId

/-- Two sweeps of one book that reach everything agree, in what they fill too. -/
theorem Swept.agree (h₁ : Swept env₁ o₁ b m₁ b₁) (h₂ : Swept env₂ o₂ b m₂ b₂) (hb : b.Placed)
    (hf₁ : o₁.filledQty = 0) (hf₂ : o₂.filledQty = 0) (hs : o₂.side = o₁.side) (hid : o₂.id = o₁.id)
    (hq : o₂.quantity = o₁.quantity) (hr₁ : b.ReachesAll o₁) (hr₂ : b.ReachesAll o₂) :
    b₁.Agree b₂ ∧ m₂.order.filledQty = m₁.order.filledQty := by
  obtain ⟨hmatch, hoffer⟩ := matched_of_reach hs hq hr₁ hr₂
  obtain ⟨hm₁, htr₁, hown₁⟩ := h₁.taken hb hf₁
  obtain ⟨hm₂, htr₂, hown₂⟩ := h₂.taken hb hf₂
  rw [hmatch, hm₁, hs, hq] at hm₂
  obtain ⟨hopp, hfill⟩ := Prod.mk.inj hm₂
  have hfill' : m₂.order.filledQty = m₁.order.filledQty := Int32.toInt_inj.mp (by omega)
  have htrades : List.Forall₂ Trade.Alike b₁.trades b₂.trades := by
    rw [htr₁, htr₂, hoffer]
    exact List.rel_append (List.forall₂_same.mpr fun t _ => .refl t) (deals_alike hs hid ..)
  refine ⟨⟨fun s => ?_, fun id => ?_, htrades, ?_⟩, hfill'⟩
  · rcases s.eq_or_eq_opposite o₁.side with rfl | rfl
    · rw [hs] at hown₂
      rw [hown₁, hown₂]
    · exact h₁.placed.levels_eq h₂.placed hopp
  · rw [h₁.orderIndex_eq, h₂.orderIndex_eq, hs, hopp]
  · obtain ⟨new₁, hnew₁, hnext₁⟩ := h₁.sweep.tradeIds
    obtain ⟨new₂, hnew₂, hnext₂⟩ := h₂.sweep.tradeIds
    have hlen : new₁.length = new₂.length := by
      have hall := htrades.length_eq
      rw [h₁.trades, h₂.trades, hnew₁, hnew₂, List.length_append, List.length_append] at hall
      exact Nat.add_left_cancel hall
    rw [h₁.nextTradeId, h₂.nextTradeId, hnext₁, hnext₂, hlen]
    rfl

/-! ### Resting and cancelling -/

/-- An order that rests under a fresh id and is cancelled leaves the book as it was. -/
theorem Rested.cancelOrder (h : Rested o b b') (hb : b.Placed) (hi : b.Indexed)
    (hfresh : ∀ n ∈ b.nodes, n.order.id ≠ o.id) :
    ∃ b'', b'.cancelOrder o.id = some (true, b'') ∧ (∀ s, b''.levels s = b.levels s) ∧
      (∀ id, b''.orderIndex.lookup id = b.orderIndex.lookup id) ∧ b''.trades = b.trades ∧
      b''.nextTradeId = b.nextTradeId := by
  have hid : (o.entry).id = o.id := (o.entry_same b.nextNode).id
  have hmem : (⟨b.nextNode, o.entry⟩ : Node P) ∈ b'.nodes :=
    h.nodes_perm.mem_iff.mpr (List.mem_cons_self ..)
  have hx : b'.orderIndex.lookup o.entry.id = some b.nextNode := by
    rw [hid, h.orderIndex, AList.lookup_insert]
  obtain ⟨b'', hc, hrem⟩ := cancelOrder_removed h.placed (h.indexed hi) hmem hx
  -- the orders that were there have older nodes
  have hold : ∀ s, ∀ q : OrderList P, (∀ n ∈ q, n ∈ b.queue s) →
      q.filter (fun n => n.addr ≠ b.nextNode) = q := fun s q hq =>
    List.filter_eq_self.mpr fun n hn => decide_eq_true (hi.addr_lt s n (hq n hn)).ne
  have hqueue : ∀ s, b''.queue s = b.queue s := by
    intro s
    rw [hrem.queue]
    rcases s.eq_or_eq_opposite o.side with rfl | rfl
    · obtain ⟨A, B, hA, hB, -, -⟩ := h.own
      have hin : ∀ n ∈ A ++ B, n ∈ b.queue o.side := fun n hn => by rwa [hA]
      rw [hA, hB, List.filter_append, List.filter_cons_of_neg (by simp), ← List.filter_append]
      exact hold o.side (A ++ B) hin
    · rw [h.opposite]
      exact hold _ _ fun n hn => hn
  rw [hid] at hc
  refine ⟨b'', hc, fun s => hrem.placed.levels_eq hb (hqueue s), fun id => ?_,
    hrem.trades.trans h.trades, hrem.nextTradeId.trans h.nextTradeId⟩
  rw [hrem.lookup]
  by_cases hown : id = o.id
  · rw [if_pos ⟨_, hmem, by simp, hid.trans hown.symm⟩, hown, hi.lookup_fresh hfresh]
  · rw [if_neg, h.orderIndex, AList.lookup_insert_ne hown]
    rintro ⟨n, hn, hkeep, rfl⟩
    have haddr : n.addr = b.nextNode := by simpa using hkeep
    have heq : n = ⟨b.nextNode, o.entry⟩ := (h.indexed hi).eq_of_addr hn hmem haddr
    exact hown (by rw [heq]; exact hid)

/-! ### Market orders -/

theorem Swept.lookup_fresh (h : Swept env o b m₁ b') {id : Int32}
    (hx : b.orderIndex.lookup id = none) : b'.orderIndex.lookup id = none := by
  rw [h.orderIndex_eq, lookup_eraseIds, hx, ite_self]

/-- A limit order that reaches everything, and the cancel of what is left of it, do what a sweep that
reaches everything does. -/
theorem addOrder_cancelOrder (hb : b.Placed) (hi : b.Indexed) (hfresh : ∀ n ∈ b.nodes, n.order.id ≠ o.id)
    (ho : o.filledQty = 0) (env : Env) :
    ∃ found b₁ b' m₁, Swept env o b m₁ b₁ ∧
      (b.addOrder env o).2.cancelOrder o.id = some (found, b') ∧
      (b.addOrder env o).1.filledQty = m₁.order.filledQty ∧ (∀ s, b'.levels s = b₁.levels s) ∧
      (∀ id, b'.orderIndex.lookup id = b₁.orderIndex.lookup id) ∧ b'.trades = b₁.trades ∧
      b'.nextTradeId = b₁.nextTradeId := by
  have hadded := addOrder_added env hb ho
  generalize b.addOrder env o = r at *
  obtain ⟨o', b'⟩ := r
  dsimp only at hadded ⊢
  cases hadded with
  | @done m' _ h _ =>
      have hmiss := cancelOrder_unknown (h.lookup_fresh (hi.lookup_fresh hfresh))
      exact ⟨false, b', b', m', h, hmiss, settle_filledQty _, fun _ => rfl, fun _ => rfl, rfl, rfl⟩
  | @rests m' b₁ _ h _ _ hr =>
      obtain ⟨st, hst⟩ := h.settled
      have hid : (settle m'.order).id = o.id := by rw [hst]
      obtain ⟨b'', hc, hsame⟩ := hr.cancelOrder h.placed (h.indexed hi) (hid ▸ h.fresh hfresh)
      rw [hid] at hc
      refine ⟨true, b₁, b'', m', h, hc, ?_, hsame⟩
      split <;> exact settle_filledQty _

/-- **A market order is a limit order without a limit, of which the remainder is cancelled**, and it
is filled with what there is on the other side. -/
theorem market_order [Zero P] (hb : Built b) (hfresh : ∀ n ∈ b.nodes, n.order.id ≠ o.id)
    (ho : o.filledQty = 0) (hq : 0 < o.quantity.toInt) {p : P}
    (hp : ∀ n ∈ b.queue o.side.opposite, ¬ o.side.opposite.Better p n.order.price)
    (env env' : Env) :
    (∃ found b', (b.addOrder env' (asLimit o p)).2.cancelOrder o.id = some (found, b') ∧
      b'.Agree (b.addMarketOrder env o).2) ∧
    (b.addMarketOrder env o).1.filledQty = (b.addOrder env' (asLimit o p)).1.filledQty ∧
    (b.addMarketOrder env o).1.filledQty.toInt =
      min o.quantity.toInt (remainingQty (b.queue o.side.opposite)) := by
  obtain ⟨m₂, hord, hmarket⟩ := matchLimitOrder_swept env (o := o.asMarket) hb.placed
    (Order.inRange_of_unfilled ho)
  obtain ⟨found, b₁, b', m₁, hlimit, hc, hfilled, hlevels, hlookup, htrades, hnext⟩ :=
    addOrder_cancelOrder (o := asLimit o p) hb.placed hb.indexed hfresh ho env'
  have hall : b.ReachesAll (asLimit o p) := fun n hn hblocked => hp n hn hblocked.2
  have hall' : b.ReachesAll o.asMarket := fun n hn hblocked => OrderType.noConfusion hblocked.1
  obtain ⟨hagree, hfill⟩ := hlimit.agree hmarket hb.placed ho ho rfl rfl rfl hall hall'
  have hret : (b.addMarketOrder env o).1.filledQty = m₂.order.filledQty := by
    show (b.matchLimitOrder env o.asMarket).1.filledQty = _
    rw [hord, settle_filledQty]
  refine ⟨⟨found, b', hc, ?_⟩, by rw [hret, hfilled, hfill], ?_⟩
  · refine ⟨fun s => (hlevels s).trans (hagree.levels s), fun id => (hlookup id).trans (hagree.lookup id),
      ?_, hnext.trans hagree.nextTradeId⟩
    rw [htrades]
    exact hagree.trades
  · -- everything is within reach, so the order or the other side runs out
    have hleft := congrArg Prod.snd (hmarket.taken hb.placed ho).matched
    have hmin := hall'.filled hb.placed hq.le
    rw [hleft] at hmin
    rw [hret]
    exact (Int.sub_sub_self _ _).symm.trans hmin

/-- Three asks at two prices, ten in all. -/
def askShelf : List (BookOp ℤ) :=
  let ask := { (Order.blank : Order ℤ) with side := .sell, price := 100 }
  [.add .still { ask with id := 1, quantity := 2 },
    .add .still { ask with id := 2, price := 101, quantity := 4 },
    .add .still { ask with id := 3, quantity := 4 }]

/-- A buy order. -/
def shelfBuy (quantity : Int32) : Order ℤ :=
  { (Order.blank : Order ℤ) with id := 4, quantity := quantity }

/-- More is asked for than there is. -/
theorem market_order_shelf : ∃ rs b, (init []).run askShelf = some (rs, b) ∧
    (∃ found b', (b.addOrder .still (asLimit (shelfBuy 11) 101)).2.cancelOrder 4 = some (found, b') ∧
      b'.Agree (b.addMarketOrder .still (shelfBuy 11)).2) ∧
    (b.addMarketOrder .still (shelfBuy 11)).1.filledQty =
      (b.addOrder .still (asLimit (shelfBuy 11) 101)).1.filledQty ∧
    (b.addMarketOrder .still (shelfBuy 11)).1.filledQty.toInt =
      min (shelfBuy 11).quantity.toInt (remainingQty (b.queue .sell)) := by
  refine ⟨_, _, rfl, market_order ?_ ?_ rfl (by decide) ?_ .still .still⟩
  · exact (Built.init []).run (by decide : ∀ op ∈ askShelf, op.Unfilled) rfl
  · decide +kernel
  · decide +kernel

end OrderBook

end Aspira
