import Aspira.Book.Depth
import Aspira.Book.Fills

/-!
# Book — splitting an order

A limit order and two limit orders at its price that make up its quantity do the same to the market
(`split_order`): to every order that rested before, to the quantity filled, and to the depth views.

What an order takes off the opposite side is taken in one amount or in two (`Stock.consume_add`).  If
the first order is left with something, then there is nothing more to reach for the second one, and
the two rest side by side at the price where the one would (`joined`).
-/

namespace Aspira

variable {P : Type}

/-- A level that some orders join, or the one they open. -/
def joined (new : OrderList P) (level : Option (OrderList P)) : Option (OrderList P) :=
  if new = [] then level else some (level.getD [] ++ new)

theorem joined_nil : joined ([] : OrderList P) = id := funext fun _ => if_pos rfl

theorem joined_comp (new new' : OrderList P) : joined new' ∘ joined new = joined (new ++ new') := by
  cases new with
  | nil => rw [joined_nil, List.nil_append, Function.comp_id]
  | cons n new =>
      cases new' with
      | nil => rw [joined_nil, List.append_nil, Function.id_comp]
      | cons n' new' =>
          funext level
          simp [joined]

/-- What the orders of an id have left. -/
def leftOf (id : Int32) (q : OrderList P) : ℤ :=
  (q.map fun n => (if n.order.id = id then 1 else 0) * (restingStock P).size n).sum

/-- The trades name an order other than the incoming one for the pieces taken of it. -/
theorem traded_deals {symbol : List UInt8} {env : Env} {o : Order P} {id : Int32} (hid : id ≠ o.id) :
    ∀ {ps : List (Node P × ℤ)} (i : ℕ) (tradeId : Int32), (∀ p ∈ ps, 0 ≤ p.2 ∧ p.2 < 2 ^ 31) →
      traded id (deals symbol env o i tradeId ps) =
        (ps.map fun p => (if p.1.order.id = id then 1 else 0) * p.2).sum
  | [], _, _, _ => rfl
  | p :: ps, i, tradeId, h => by
      obtain ⟨h₀, hlt⟩ := h p (List.mem_cons_self ..)
      have hqty : (Int32.ofInt p.2).toInt = p.2 := Int32.toInt_ofInt_of_le (by omega) hlt
      have hnames : (dealFor symbol (env i) o tradeId p.1 p.2).Names id ↔ p.1.order.id = id := by
        unfold Trade.Names dealFor
        split <;> simp [Ne.symm hid]
      have hdeal : (dealFor symbol (env i) o tradeId p.1 p.2).quantity.toInt = p.2 := hqty
      rw [deals, traded_cons, hdeal, List.map_cons, List.sum_cons,
        traded_deals hid _ _ fun p' hp' => h p' (List.mem_cons_of_mem p hp')]
      simp only [hnames]
      split <;> simp

namespace OrderBook

variable [LinearOrder P] {b b' b₁ b₂ : OrderBook P} {o o' : Order P} {s : Side}

/-! ### One limit order -/

/-- What `add_order` does with a limit order. -/
structure Limited (o : Order P) (b : OrderBook P) (o' : Order P) (b' : OrderBook P) : Prop where
  opposite : b'.queue o.side.opposite = (b.matched o).1
  filled : o'.filledQty.toInt = o.quantity.toInt - (b.matched o).2
  own : ∃ new : OrderList P, b'.levels o.side = (b.levels o.side).alter o.price (joined new) ∧
    (∀ n ∈ new, b.nextNode ≤ n.addr ∧ n.order.Resting) ∧ remainingQty new = (b.matched o).2
  traded : ∃ new, b'.trades = b.trades ++ new ∧ ∀ id, id ≠ o.id → traded id new =
    leftOf id (b.queue o.side.opposite) - leftOf id (b'.queue o.side.opposite)
  nextNode : b.nextNode ≤ b'.nextNode
  placed : b'.Placed

section Limited

variable {env : Env} {m' : Matching P}

/-- What the trades take of an id is what the queue loses of it. -/
theorem traded_of_swept (h : Swept env o b m' b') (hb : b.Placed) (ho : o.filledQty = 0) :
    ∃ new, b'.trades = b.trades ++ new ∧ ∀ id, id ≠ o.id → traded id new =
      leftOf id (b.queue o.side.opposite) - leftOf id (b'.queue o.side.opposite) := by
  obtain ⟨hmatch, htrades, -⟩ := h.taken hb ho
  refine ⟨_, htrades, fun id hid => ?_⟩
  rw [traded_deals hid]
  · have hqueue : b'.queue o.side.opposite = (b.matched o).1 := (congrArg Prod.fst hmatch).symm
    rw [hqueue]
    exact Stock.sum_pieces (L := restingStock P) (fun n => if n.order.id = id then 1 else 0)
      (fun _ _ => rfl) fun n hn => hb.resting hn
  · intro p hp
    obtain ⟨-, -, hpos, hlt⟩ := mem_offered hb hp
    exact ⟨hpos.le, hlt⟩

/-- The order is filled up: nothing of it rests. -/
theorem Swept.limited_of_filled (h : Swept env o b m' b') (hb : b.Placed) (ho : o.filledQty = 0)
    (hq : 0 < o.quantity.toInt) (hfull : m'.order.isFilled = true) :
    Limited o b (settle m'.order) b' := by
  obtain ⟨hmatch, -, hown⟩ := h.taken hb ho
  have hleft : (b.matched o).2 = o.quantity.toInt - m'.order.filledQty.toInt :=
    congrArg Prod.snd hmatch
  have hnone : (b.matched o).2 = 0 := by
    have hle := (h.sweep.resting (Order.inRange_of_unfilled ho) fun n hn => hb.resting hn).1.2
    obtain ⟨f, hf⟩ := h.sweep.order
    have hquant : m'.order.quantity = o.quantity := by rw [hf]; rfl
    rw [Order.isFilled_iff, hquant] at hfull
    rw [hquant] at hle
    omega
  refine ⟨(congrArg Prod.fst hmatch).symm, ?_, ⟨[], ?_, fun n hn => absurd hn List.not_mem_nil, ?_⟩,
    traded_of_swept h hb ho, h.nextNode.ge, h.placed⟩
  · rw [settle_filledQty]
    omega
  · rw [joined_nil, OrdMap.alter_id, hown]
  · exact hnone.symm

/-- Something is left of the order: it joins its level. -/
theorem Swept.limited_of_left (h : Swept env o b m' b') (hb : b.Placed) (ht : o.type = .limit)
    (ho : o.filledQty = 0) (hpart : m'.order.isFilled = false) :
    Limited o b (b'.rest (settle m'.order)).1 (b'.rest (settle m'.order)).2 := by
  obtain ⟨hmatch, -, hown⟩ := h.taken hb ho
  obtain ⟨st, hst⟩ := h.settled
  have hleft : (b.matched o).2 = o.quantity.toInt - m'.order.filledQty.toInt :=
    congrArg Prod.snd hmatch
  have hin : (settle m'.order).InRange := settle_inRange.mpr
    (h.sweep.resting (Order.inRange_of_unfilled ho) fun n hn => hb.resting hn).1
  have hnot : (settle m'.order).isFilled = false := by rw [settle_isFilled, hpart]
  have hlim : (settle m'.order).type = .limit := by rw [hst]; exact ht
  have hside : (settle m'.order).side = o.side := by rw [hst]
  have hprice : (settle m'.order).price = o.price := by rw [hst]
  have hrested := rest_rested h.placed hin hnot hlim
  have hopp := hrested.opposite
  have hlevels := levels_rest b' (settle m'.order)
  rw [hside] at hopp
  rw [hside, hprice, hown] at hlevels
  obtain ⟨new, htrades, htraded⟩ := traded_of_swept h hb ho
  obtain ⟨st', hentry⟩ := (settle m'.order).entry_eq
  refine ⟨hopp.trans (congrArg Prod.fst hmatch).symm, ?_,
    ⟨[⟨b'.nextNode, (settle m'.order).entry⟩], ?_, fun n hn => ?_, ?_⟩,
    ⟨new, hrested.trades.trans htrades, fun id hid => ?_⟩, ?_, hrested.placed⟩
  · have hfilled : (b'.rest (settle m'.order)).1.filledQty = m'.order.filledQty := by
      unfold OrderBook.rest
      dsimp only
      split <;> exact settle_filledQty _
    rw [hfilled]
    omega
  · exact hlevels
  · rw [List.mem_singleton] at hn
    rw [hn]
    exact ⟨h.nextNode.ge, Order.entry_resting hin hnot hlim⟩
  · rw [remainingQty_cons, remainingQty_nil, hentry, hst, hleft, add_zero]
  · rw [hopp]
    exact htraded id hid
  · rw [hrested.nextNode, h.nextNode]
    exact Nat.le_succ _

theorem addOrder_limited (env : Env) (hb : b.Placed) (ht : o.type = .limit) (ho : o.filledQty = 0)
    (hq : 0 < o.quantity.toInt) : Limited o b (b.addOrder env o).1 (b.addOrder env o).2 := by
  obtain ⟨m', hord, hsw⟩ := matchLimitOrder_swept env hb (Order.inRange_of_unfilled ho)
  obtain ⟨st, hst⟩ := hsw.settled
  cases hfull : m'.order.isFilled with
  | true =>
      have heq : b.addOrder env o = b.matchLimitOrder env o := by
        refine if_neg fun h => ?_
        rw [hord, settle_isFilled, hfull] at h
        exact Bool.noConfusion h.1
      rw [heq, hord]
      exact hsw.limited_of_filled hb ho hq hfull
  | false =>
      have heq : b.addOrder env o = (b.matchLimitOrder env o).2.rest (settle m'.order) := by
        rw [← hord]
        refine if_pos ?_
        rw [hord, settle_isFilled, hst]
        exact ⟨hfull, ht⟩
      rw [heq]
      exact hsw.limited_of_left hb ht ho hfull

end Limited

/-! ### Joining a level -/

/-- What is seen of the levels after some orders join one is the total of what they have left. -/
theorem sizes_joined {m : LevelMap P s} {k : P} {new new' : OrderList P}
    (hne : new = [] ↔ new' = []) (hsize : levelSize new = levelSize new') :
    (m.alter k (joined new)).entries.map (fun e => (e.1, levelSize e.2)) =
      (m.alter k (joined new')).entries.map fun e => (e.1, levelSize e.2) := by
  obtain ⟨A, B, -, -, -, hf⟩ := m.exists_split k
  have hmid : (OrdMap.entryAt k (joined new (m.find k))).map (fun e => (e.1, levelSize e.2)) =
      (OrdMap.entryAt k (joined new' (m.find k))).map fun e => (e.1, levelSize e.2) := by
    by_cases hnil : new = []
    · rw [hnil, hne.mp hnil]
    · have hnil' : new' ≠ [] := fun h => hnil (hne.mpr h)
      rw [joined, if_neg hnil, joined, if_neg hnil', OrdMap.entryAt_some, OrdMap.entryAt_some,
        List.map_singleton, List.map_singleton, levelSize_append, levelSize_append, hsize]
  rw [hf, hf, List.map_append, List.map_append, List.map_append, List.map_append, hmid]

/-- The orders that join a level are behind those of the level and of the better ones. -/
theorem queue_joined {k : P} {new : OrderList P}
    (h : b'.levels s = (b.levels s).alter k (joined new)) :
    ∃ A B, b.queue s = A ++ B ∧ b'.queue s = A ++ new ++ B := by
  obtain ⟨A, B, -, -, hm, hf⟩ := (b.levels s).exists_split k
  refine ⟨A.flatMap Prod.snd ++ ((b.levels s).find k).getD [], B.flatMap Prod.snd, ?_, ?_⟩
  · rw [queue, hm]
    cases (b.levels s).find k <;> simp
  · rw [queue, h, hf]
    unfold joined
    split
    · rename_i hnil
      rw [hnil]
      cases (b.levels s).find k <;> simp
    · cases (b.levels s).find k <;> simp

/-- The orders that were there before are as they were. -/
theorem old_joined {k : P} {new : OrderList P} {a : ℕ}
    (h : b'.levels s = (b.levels s).alter k (joined new)) (hnew : ∀ n ∈ new, a ≤ n.addr) :
    (b'.queue s).filter (fun n => n.addr < a) = (b.queue s).filter fun n => n.addr < a := by
  obtain ⟨A, B, hq, hq'⟩ := queue_joined h
  have hnone : new.filter (fun n => n.addr < a) = [] :=
    List.filter_eq_nil_iff.mpr fun n hn hlt => (of_decide_eq_true hlt).not_ge (hnew n hn)
  rw [hq, hq', List.filter_append, List.filter_append, List.filter_append, hnone, List.append_nil]

/-- Books with the same old nodes have the same orders in them. -/
theorem deref_eq_of_old {a : ℕ} (h : ∀ s, (b₁.queue s).filter (fun n => n.addr < a) =
    (b₂.queue s).filter fun n => n.addr < a) {it : ℕ} (hit : it < a) :
    b₁.deref it = b₂.deref it := by
  have hold : ∀ c : OrderBook P, c.deref it =
      ((c.nodes.filter fun n => n.addr < a).find? fun n => n.addr = it).map Node.order := by
    intro c
    rw [OrderBook.deref, List.find?_filter]
    congr 2
    funext n
    by_cases hn : n.addr = it
    · simp [hn, hit]
    · simp [hn]
  rw [hold, hold, nodes, nodes, List.filter_append, List.filter_append, h, h]

/-! ### Two orders for one -/

/-- Two limit orders make up a third. -/
structure Splits (o₁ o₂ o : Order P) : Prop where
  type : o₁.type = .limit ∧ o₂.type = .limit ∧ o.type = .limit
  side : o₁.side = o.side ∧ o₂.side = o.side
  price : o₁.price = o.price ∧ o₂.price = o.price
  unfilled : o₁.filledQty = 0 ∧ o₂.filledQty = 0 ∧ o.filledQty = 0
  pos : 0 < o₁.quantity.toInt ∧ 0 < o₂.quantity.toInt
  quantity : o₁.quantity.toInt + o₂.quantity.toInt = o.quantity.toInt

/-- The books `b₁` and `b₂` are the same market to the orders that rest in `b`: the same order is at
each of their nodes, if any, each of their ids traded the same since then, and the depth views
agree. -/
structure SameMarket (b b₁ b₂ : OrderBook P) : Prop where
  deref : ∀ n ∈ b.nodes, b₁.deref n.addr = b₂.deref n.addr
  traded : ∀ n ∈ b.nodes, traded n.order.id (b₁.trades.drop b.trades.length) =
    traded n.order.id (b₂.trades.drop b.trades.length)
  bids : ∀ depth, b₁.getBidLevels depth = b₂.getBidLevels depth
  asks : ∀ depth, b₁.getAskLevels depth = b₂.getAskLevels depth

/-- What is matched depends on the side, the type and the price. -/
theorem matched_congr {o₁ : Order P} (ht : o₁.type = o.type) (hs : o₁.side = o.side)
    (hp : o₁.price = o.price) (b : OrderBook P) :
    b.matched o₁ = stays o.side.opposite o o₁.quantity.toInt (b.queue o.side.opposite) := by
  rw [matched, hs]
  refine (Stock.consume_congr fun n _ => ?_).1
  rw [Reaches, Reaches, Blocked, Blocked, ht, hp]

/-- **What two orders take in turn, one takes at once.** -/
theorem Splits.matched {o₁ o₂ : Order P} (h : Splits o₁ o₂ o) (hb : b.Placed) {o₁' : Order P}
    (h₁ : Limited o₁ b o₁' b₁) :
    (b₁.matched o₂).1 = (b.matched o).1 ∧
      (b.matched o₁).2 + (b₁.matched o₂).2 = (b.matched o).2 := by
  have hfirst := matched_congr (h.type.1.trans h.type.2.2.symm) h.side.1 h.price.1 b
  have hsecond := matched_congr (h.type.2.1.trans h.type.2.2.symm) h.side.2 h.price.2 b₁
  have hopp := h₁.opposite
  rw [h.side.1, hfirst] at hopp
  have hadd := stays_add (s := o.side.opposite) (o := o)
    (fun n (hn : n ∈ b.queue o.side.opposite) => hb.resting hn) h.pos.1.le h.pos.2.le
  rw [hsecond, hfirst, hopp, OrderBook.matched, ← h.quantity, hadd]
  exact ⟨rfl, rfl⟩

section Splits

variable {o₁ o₂ o₁' o₂' : Order P}

/-- The two orders join the level that the one joins, with as much left. -/
theorem Splits.own (h : Splits o₁ o₂ o) (hb : b.Placed) (h₁ : Limited o₁ b o₁' b₁)
    (h₂ : Limited o₂ b₁ o₂' b₂) (h' : Limited o b o' b') :
    ∃ new new' : OrderList P, b₂.levels o.side = (b.levels o.side).alter o.price (joined new) ∧
      b'.levels o.side = (b.levels o.side).alter o.price (joined new') ∧
      (∀ n ∈ new, b.nextNode ≤ n.addr) ∧ (∀ n ∈ new', b.nextNode ≤ n.addr) ∧
      (new = [] ↔ new' = []) ∧ levelSize new = levelSize new' := by
  obtain ⟨new₁, hlev₁, hnew₁, hqty₁⟩ := h₁.own
  obtain ⟨new₂, hlev₂, hnew₂, hqty₂⟩ := h₂.own
  obtain ⟨new', hlev', hnew', hqty'⟩ := h'.own
  rw [h.side.1, h.price.1] at hlev₁
  rw [h.side.2, h.price.2, hlev₁, OrdMap.alter_alter, joined_comp] at hlev₂
  have hall : ∀ n ∈ new₁ ++ new₂, b.nextNode ≤ n.addr ∧ n.order.Resting := by
    intro n hn
    rcases List.mem_append.mp hn with hn | hn
    · exact hnew₁ n hn
    · exact ⟨h₁.nextNode.trans (hnew₂ n hn).1, (hnew₂ n hn).2⟩
  have hqty : remainingQty (new₁ ++ new₂) = remainingQty new' := by
    rw [remainingQty_append, hqty₁, hqty₂, hqty']
    exact (h.matched hb h₁).2
  -- no order rests exactly when nothing is left
  have hnil : ∀ {q : OrderList P}, (∀ n ∈ q, n.order.Resting) → (q = [] ↔ remainingQty q = 0) := by
    intro q hq
    refine ⟨fun he => by rw [he, remainingQty_nil], fun hz => ?_⟩
    by_contra hne
    exact (remainingQty_pos hq hne).ne' hz
  refine ⟨new₁ ++ new₂, new', hlev₂, hlev', fun n hn => (hall n hn).1, fun n hn => (hnew' n hn).1,
    ?_, ?_⟩
  · rw [hnil fun n hn => (hall n hn).2, hnil fun n hn => (hnew' n hn).2, hqty]
  · rw [← Int32.toInt_inj, toInt_levelSize fun n hn => (hall n hn).2,
      toInt_levelSize fun n hn => (hnew' n hn).2, hqty]

theorem Splits.opposite (h : Splits o₁ o₂ o) (hb : b.Placed) (h₁ : Limited o₁ b o₁' b₁)
    (h₂ : Limited o₂ b₁ o₂' b₂) (h' : Limited o b o' b') :
    b₂.queue o.side.opposite = b'.queue o.side.opposite := by
  have hopp := h₂.opposite
  rw [h.side.2, (h.matched hb h₁).1] at hopp
  rw [hopp, h'.opposite]

theorem Splits.getLevels (h : Splits o₁ o₂ o) (hb : b.Placed) (h₁ : Limited o₁ b o₁' b₁)
    (h₂ : Limited o₂ b₁ o₂' b₂) (h' : Limited o b o' b') (s : Side) (depth : ℕ) :
    b₂.getLevels s depth = b'.getLevels s depth := by
  rw [OrderBook.getLevels, OrderBook.getLevels, List.map_take, List.map_take]
  rcases s.eq_or_eq_opposite o.side with rfl | rfl
  · obtain ⟨new, new', hlev, hlev', -, -, hnil, hsize⟩ := h.own hb h₁ h₂ h'
    rw [hlev, hlev', sizes_joined hnil hsize]
  · rw [h₂.placed.levels_eq h'.placed (h.opposite hb h₁ h₂ h')]

/-- The orders that rested before are the same in both books. -/
theorem Splits.deref (h : Splits o₁ o₂ o) (hb : b.Placed) (h₁ : Limited o₁ b o₁' b₁)
    (h₂ : Limited o₂ b₁ o₂' b₂) (h' : Limited o b o' b') {it : ℕ} (hit : it < b.nextNode) :
    b₂.deref it = b'.deref it := by
  refine deref_eq_of_old (fun s => ?_) hit
  rcases s.eq_or_eq_opposite o.side with rfl | rfl
  · obtain ⟨new, new', hlev, hlev', hnew, hnew', -, -⟩ := h.own hb h₁ h₂ h'
    rw [old_joined hlev hnew, old_joined hlev' hnew']
  · rw [h.opposite hb h₁ h₂ h']

/-- An order that rested before trades the same in both. -/
theorem Splits.traded (h : Splits o₁ o₂ o) (hb : b.Placed) (h₁ : Limited o₁ b o₁' b₁)
    (h₂ : Limited o₂ b₁ o₂' b₂) (h' : Limited o b o' b') {id : Int32}
    (hid : id ≠ o₁.id ∧ id ≠ o₂.id ∧ id ≠ o.id) :
    Aspira.traded id (b₂.trades.drop b.trades.length) =
      Aspira.traded id (b'.trades.drop b.trades.length) := by
  obtain ⟨new₁, htr₁, hid₁⟩ := h₁.traded
  obtain ⟨new₂, htr₂, hid₂⟩ := h₂.traded
  obtain ⟨new', htr', hid'⟩ := h'.traded
  have hfirst := hid₁ id hid.1
  have hsecond := hid₂ id hid.2.1
  have hone := hid' id hid.2.2
  rw [h.side.1] at hfirst
  rw [h.side.2, h.opposite hb h₁ h₂ h'] at hsecond
  rw [htr₂, htr₁, htr', List.append_assoc, List.drop_left, List.drop_left, traded_append, hfirst,
    hsecond, hone]
  omega

end Splits

/-- **Splitting an order does not change the market.** -/
theorem split_order [Zero P] (hb : Built b) {o₁ o₂ : Order P} (h : Splits o₁ o₂ o)
    (hfresh : ∀ n ∈ b.nodes, n.order.id ≠ o₁.id ∧ n.order.id ≠ o₂.id ∧ n.order.id ≠ o.id)
    (env₁ env₂ env : Env) :
    (b.addOrder env₁ o₁).1.filledQty.toInt +
        ((b.addOrder env₁ o₁).2.addOrder env₂ o₂).1.filledQty.toInt =
      (b.addOrder env o).1.filledQty.toInt ∧
    SameMarket b ((b.addOrder env₁ o₁).2.addOrder env₂ o₂).2 (b.addOrder env o).2 := by
  have hpos : 0 < o.quantity.toInt := h.quantity ▸ add_pos h.pos.1 h.pos.2
  have h₁ := addOrder_limited env₁ hb.placed h.type.1 h.unfilled.1 h.pos.1
  have h₂ := addOrder_limited env₂ h₁.placed h.type.2.1 h.unfilled.2.1 h.pos.2
  have h' := addOrder_limited env hb.placed h.type.2.2 h.unfilled.2.2 hpos
  refine ⟨?_, fun n hn => ?_, fun n hn => ?_, h.getLevels hb.placed h₁ h₂ h' .buy,
    h.getLevels hb.placed h₁ h₂ h' .sell⟩
  · have hleft := (h.matched hb.placed h₁).2
    rw [h₁.filled, h₂.filled, h'.filled, ← h.quantity]
    omega
  · obtain ⟨s, hs⟩ := mem_nodes.mp hn
    exact h.deref hb.placed h₁ h₂ h' (hb.indexed.addr_lt s n hs)
  · exact h.traded hb.placed h₁ h₂ h' (hfresh n hn)

/-- Two asks of five at different prices. -/
def askLadder : List (BookOp ℤ) :=
  let ask := { (Order.blank : Order ℤ) with side := .sell, quantity := 5 }
  [.add .still { ask with id := 1, price := 100 }, .add .still { ask with id := 2, price := 101 }]

/-- A buy order that takes both asks and more. -/
def ladderBid (id quantity : Int32) : Order ℤ :=
  { (Order.blank : Order ℤ) with id := id, price := 101, quantity := quantity }

/-- The first of the two orders ends within the first ask, and the second one is left with three. -/
theorem split_order_askLadder :
    Splits (ladderBid 3 4) (ladderBid 4 9) (ladderBid 5 13) ∧
      ∃ rs b, (init []).run askLadder = some (rs, b) ∧
        (b.addOrder .still (ladderBid 3 4)).1.filledQty.toInt +
            ((b.addOrder .still (ladderBid 3 4)).2.addOrder .still (ladderBid 4 9)).1.filledQty.toInt =
          (b.addOrder .still (ladderBid 5 13)).1.filledQty.toInt ∧
        SameMarket b ((b.addOrder .still (ladderBid 3 4)).2.addOrder .still (ladderBid 4 9)).2
          (b.addOrder .still (ladderBid 5 13)).2 := by
  have hsplit : Splits (ladderBid 3 4) (ladderBid 4 9) (ladderBid 5 13) :=
    ⟨by decide, by decide, by decide, by decide, by decide, by decide⟩
  refine ⟨hsplit, _, _, rfl, split_order ?_ hsplit ?_ .still .still .still⟩
  · exact (Built.init []).run (by decide : ∀ op ∈ askLadder, op.Unfilled) rfl
  · decide +kernel

end OrderBook

end Aspira
