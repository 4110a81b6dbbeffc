import Aspira.Book.Invariant

/-!
# Book — reachable books

What holds of every book that calls build from an empty one:

* `WellFormed`: the containers agree.  `order_index_` designates each resting order by its id and
  nothing else, no level is empty, every order rests where its own fields say, and is a limit order
  with something left.  This needs that no order is added under the id of a resting one.
* `Uncrossed`: every bid is below every ask, whatever the ids.
* `Iterators`: an iterator in `order_index_` designates a live node, whatever the ids.

`Built` are the books that such calls build, for what is said of one book or of a few more calls.
-/

namespace Aspira

namespace OrderBook

variable {P : Type} [LinearOrder P] {b b' : OrderBook P}

/-! ### The containers agree -/

/-- The representation invariant of `class OrderBook`. -/
structure WellFormed (b : OrderBook P) : Prop where
  designates : ∀ id a, b.orderIndex.lookup id = some a ↔
    ∃ n ∈ b.nodes, n.order.id = id ∧ n.addr = a
  id_nodup : (b.nodes.map fun n => n.order.id).Nodup
  addr_nodup : (b.nodes.map Node.addr).Nodup
  orderCount : b.orderCount = b.nodes.length
  cancelOrder : ∀ id, (b.cancelOrder id).map Prod.fst = some (decide (∃ n ∈ b.nodes, n.order.id = id))
  nonempty : ∀ s, ∀ e ∈ (b.levels s).entries, e.2 ≠ []
  at_key : ∀ s, ∀ e ∈ (b.levels s).entries, ∀ n ∈ e.2, n.order.side = s ∧ n.order.price = e.1
  resting : ∀ n ∈ b.nodes, n.order.Resting

theorem designates_iff (hi : b.Indexed) (hu : b.Unique) (id : Int32) (a : Nat) :
    b.orderIndex.lookup id = some a ↔ ∃ n ∈ b.nodes, n.order.id = id ∧ n.addr = a := by
  constructor
  · intro h
    obtain ⟨n, hn, ha, hid⟩ := hi.live id a h
    exact ⟨n, hn, hid, ha⟩
  · rintro ⟨n, hn, rfl, rfl⟩
    exact hu.designated n hn

/-- The index holds the ids of the resting orders, each once. -/
theorem keys_perm (hi : b.Indexed) (hu : b.Unique) :
    b.orderIndex.keys.Perm (b.nodes.map fun n => n.order.id) := by
  refine (List.perm_ext_iff_of_nodup b.orderIndex.nodupKeys hu.id_nodup).mpr fun id => ?_
  rw [List.mem_map]
  show id ∈ b.orderIndex ↔ _
  rw [← AList.lookup_isSome, Option.isSome_iff_exists]
  constructor
  · rintro ⟨a, ha⟩
    obtain ⟨n, hn, -, hid⟩ := hi.live id a ha
    exact ⟨n, hn, hid⟩
  · rintro ⟨n, hn, rfl⟩
    exact ⟨n.addr, hu.designated n hn⟩

theorem Indexed.lookup_fresh (hi : b.Indexed) {id : Int32} (h : ∀ n ∈ b.nodes, n.order.id ≠ id) :
    b.orderIndex.lookup id = none := by
  rw [Option.eq_none_iff_forall_not_mem]
  intro a ha
  obtain ⟨n, hn, -, hid⟩ := hi.live id a ha
  exact h n hn hid

theorem cancelOrder_flag (hb : b.Placed) (hi : b.Indexed) (hu : b.Unique) (id : Int32) :
    (b.cancelOrder id).map Prod.fst = some (decide (∃ n ∈ b.nodes, n.order.id = id)) := by
  by_cases h : ∃ n ∈ b.nodes, n.order.id = id
  · obtain ⟨n, hn, rfl⟩ := h
    obtain ⟨b', hc, -⟩ := cancelOrder_removed hb hi hn (hu.designated n hn)
    rw [hc, decide_eq_true ⟨n, hn, rfl⟩]
    rfl
  · have hx : b.orderIndex.lookup id = none := hi.lookup_fresh fun n hn hid => h ⟨n, hn, hid⟩
    rw [cancelOrder_unknown hx, decide_eq_false h]
    rfl

theorem wellFormed_of_unique (hb : b.Placed) (hi : b.Indexed) (hu : b.Unique) : b.WellFormed where
  designates := designates_iff hi hu
  id_nodup := hu.id_nodup
  addr_nodup := hi.addr_nodup
  orderCount := (keys_perm hi hu).length_eq.trans (List.length_map _)
  cancelOrder := cancelOrder_flag hb hi hu
  nonempty := hb.nonempty
  at_key s e he n hn := ⟨(hb.at_key s e he n hn).1, (hb.at_key s e he n hn).2.1⟩
  resting n hn := by
    obtain ⟨s, hs⟩ := mem_nodes.mp hn
    exact hb.resting hs

theorem init_unique (symbol : List UInt8) : (init symbol : OrderBook P).Unique :=
  ⟨.nil, fun _ hn => absurd hn List.not_mem_nil⟩

/-- **The containers of a reachable book agree.**  No call of the run reads through a dead iterator,
and the book it ends in is well formed. -/
theorem run_wellFormed [Zero P] {symbol : List UInt8} {ops : List (BookOp P)}
    (h : Run.Along step FreshId (init symbol) ops) :
    ∃ rs b, (init symbol).run ops = some (rs, b) ∧ b.WellFormed := by
  obtain ⟨rs, b, hrun, hb, hi, hu⟩ := run_invariant (I := Unique) (fun b op h => h.1)
    (fun hb _ hu hop hstep => hstep.unique hb hu hop) (init_placed symbol) (init_indexed symbol)
    (init_unique symbol) h
  exact ⟨rs, b, hrun, wellFormed_of_unique hb hi hu⟩

/-- Two asks, a buy order that takes the better one and part of the other, and then the other one
modified, a level cut and a cancel that misses. -/
def mixedCalls : List (BookOp ℤ) :=
  let ask : Order ℤ := { Order.blank with side := .sell }
  [.add .still { ask with id := 1, price := 101, quantity := 5 },
    .add .still { ask with id := 2, price := 100, quantity := 3 },
    .add .still { (Order.blank : Order ℤ) with id := 3, price := 101, quantity := 4 },
    .modify .still 1 99 7,
    .add .still { (Order.blank : Order ℤ) with id := 3, price := 98, quantity := 4 },
    .updateLevel .buy 98 0,
    .cancel 3]

theorem run_wellFormed_mixedCalls :
    Run.Along step FreshId (init []) mixedCalls ∧
      ∃ rs b, (init []).run mixedCalls = some (rs, b) ∧ b.WellFormed :=
  ⟨by decide, run_wellFormed (by decide)⟩

/-! ### Bids stay below asks -/

/-- Every order of one side is better priced, for the other side, than every order of that side. -/
def Uncrossed (b : OrderBook P) : Prop :=
  ∀ s, ∀ n ∈ b.queue s, ∀ n' ∈ b.queue s.opposite, s.Better n'.order.price n.order.price

theorem uncrossed_of_sub (hb : b.Uncrossed)
    (h : ∀ s, ∀ n' ∈ b'.queue s, ∃ n ∈ b.queue s, n'.order.price = n.order.price) :
    b'.Uncrossed := by
  intro s n hn n' hn'
  obtain ⟨m, hm, e⟩ := h s n hn
  obtain ⟨m', hm', e'⟩ := h _ n' hn'
  rw [e, e']
  exact hb s m hm m' hm'

section Moves

variable {env : Env} {o o' : Order P} {m' : Matching P}

theorem Swept.uncrossed (h : Swept env o b m' b') (hb : b.Uncrossed) : b'.Uncrossed :=
  uncrossed_of_sub hb fun s n' hn' => by
    obtain ⟨n, hn, hs⟩ := h.back hn'
    exact ⟨n, hn, hs.price⟩

theorem Removed.uncrossed {keep : Node P → Bool} (h : Removed keep b b') (hb : b.Uncrossed) :
    b'.Uncrossed :=
  uncrossed_of_sub hb fun s n' hn' => by
    rw [h.queue] at hn'
    exact ⟨n', List.mem_of_mem_filter hn', rfl⟩

/-- An order that reaches nothing on the other side joins the book. -/
theorem Rested.uncrossed (h : Rested o b b') (hb : b.Uncrossed)
    (hx : ∀ n ∈ b.queue o.side.opposite, o.side.Better n.order.price o.price) : b'.Uncrossed := by
  have hprice : o.entry.price = o.price := (o.entry_same b.nextNode).price
  intro s n hn n' hn'
  rcases h.mem_queue.mp hn with hn | ⟨rfl, rfl⟩ <;> rcases h.mem_queue.mp hn' with hn' | ⟨hs, rfl⟩
  · exact hb s n hn n' hn'
  · obtain rfl := Side.opposite_eq_iff.mp hs
    show o.side.opposite.Better o.entry.price _
    rw [hprice, Side.better_opposite]
    exact hx n hn
  · show o.side.Better _ o.entry.price
    rw [hprice]
    exact hx n' hn'
  · exact absurd hs (Side.opposite_ne _)

/-- What is left of an order when the loops end rests only if it reaches nothing. -/
theorem Added.uncrossed (h : Added env o b o' b') (hp : b.Placed) (ho : o.filledQty = 0)
    (hb : b.Uncrossed) : b'.Uncrossed := by
  cases h with
  | done h => exact h.uncrossed hb
  | @rests m' b₁ _ h hf ht hr =>
      refine hr.uncrossed (h.uncrossed hb) fun n hn => ?_
      have hr₀ : (b.matching o).order.InRange := Order.inRange_of_unfilled ho
      have hrest : ∀ n ∈ b.queue o.side.opposite, n.order.Resting := fun n hn => hp.resting hn
      obtain ⟨st, hst⟩ := h.settled
      have hside : (settle m'.order).side = o.side := by rw [hst]
      rw [hside] at hn ⊢
      rcases h.sweep.exit hr₀ hrest with hx | hx
      · -- something is left, so the loops did not end for lack of it
        rw [settle_isFilled, Order.not_isFilled_iff] at hf
        exact absurd ((h.sweep.resting hr₀ hrest).1.remaining_pos.mpr hf) hx
      · obtain ⟨f, hf⟩ := h.sweep.order
        have hb := (hx n hn).2
        rw [hf] at hb
        rw [← Side.better_opposite, hst]
        exact hb

end Moves

theorem BookStep.uncrossed [Zero P] {op : BookOp P} {r : BookResult P} (h : BookStep b op r b')
    (hp : b.Placed) (hop : op.Unfilled) (hb : b.Uncrossed) : b'.Uncrossed := by
  cases h with
  | add h => exact h.uncrossed hp hop hb
  | addMarket h => exact h.uncrossed hb
  | cancelMiss => exact hb
  | cancelHit _ _ h => exact h.uncrossed hb
  | modifyMiss => exact hb
  | modifyHit _ _ h ha => exact ha.uncrossed h.placed rfl (h.uncrossed hb)
  | cutLevel h => exact h.uncrossed hb
  | keepLevel => exact hb

theorem init_uncrossed (symbol : List UInt8) : (init symbol : OrderBook P).Uncrossed := by
  intro s n hn
  cases s <;> exact absurd hn List.not_mem_nil

/-- The best price of a side is that of one of its orders. -/
theorem best_mem [Zero P] (hb : b.Placed) {s : Side} (h : b.queue s ≠ []) :
    ∃ n ∈ b.queue s, n.order.price = b.best s := by
  unfold best
  cases hl : (b.levels s).entries with
  | nil => exact absurd (by rw [queue, hl]; rfl) h
  | cons e l =>
      have he : e ∈ (b.levels s).entries := by rw [hl]; exact List.mem_cons_self ..
      obtain ⟨n, hn⟩ := List.exists_mem_of_ne_nil _ (hb.nonempty s e he)
      exact ⟨n, mem_queue.mpr ⟨e, he, hn⟩, (hb.at_key s e he n hn).2.1⟩

/-- **A reachable book is neither crossed nor locked.**  Ids may repeat, and quantities may be
anything. -/
theorem run_uncrossed [Zero P] {symbol : List UInt8} {ops : List (BookOp P)}
    (h : ∀ op ∈ ops, op.Unfilled) :
    ∃ rs b, (init symbol).run ops = some (rs, b) ∧
      (∀ bid ∈ b.queue .buy, ∀ ask ∈ b.queue .sell, bid.order.price < ask.order.price) ∧
      (b.queue .buy ≠ [] → b.queue .sell ≠ [] → b.bestBid < b.bestAsk) := by
  obtain ⟨rs, b, hrun, hp, -, hb⟩ := run_invariant (I := Uncrossed) (fun _ _ h => h)
    (fun hp _ hb hop hstep => hstep.uncrossed hp hop hb) (init_placed symbol)
    (init_indexed symbol) (init_uncrossed symbol) (Run.along_of_forall h _)
  have hlt : ∀ bid ∈ b.queue .buy, ∀ ask ∈ b.queue .sell, bid.order.price < ask.order.price :=
    fun bid hbid ask hask => hb .sell ask hask bid hbid
  refine ⟨rs, b, hrun, hlt, fun hbids hasks => ?_⟩
  obtain ⟨bid, hbid, e⟩ := best_mem hp hbids
  obtain ⟨ask, hask, e'⟩ := best_mem hp hasks
  rw [bestBid, bestAsk, ← e, ← e']
  exact hlt bid hbid ask hask

theorem run_uncrossed_mixedCalls :
    (∀ op ∈ mixedCalls, op.Unfilled) ∧ ∃ rs b, (init []).run mixedCalls = some (rs, b) ∧
      (∀ bid ∈ b.queue .buy, ∀ ask ∈ b.queue .sell, bid.order.price < ask.order.price) ∧
      (b.queue .buy ≠ [] → b.queue .sell ≠ [] → b.bestBid < b.bestAsk) :=
  ⟨by decide, run_uncrossed (by decide)⟩

/-! ### Iterators -/

/-- The iterators stored in `order_index_` are live: each designates one node, which holds the id it
is stored under and lies in the level that its own side and price lead to.  Cancelling an id that is
found removes this node and nothing else, and modifying it does that first. -/
structure Iterators [Zero P] (b : OrderBook P) : Prop where
  designates : ∀ id a, b.orderIndex.lookup id = some a →
    (b.nodes.map Node.addr).count a = 1 ∧ ∃ n ∈ b.nodes, n.addr = a ∧ n.order.id = id ∧
      ∃ level, (b.levels n.order.side).find n.order.price = some level ∧ n ∈ level
  cancelOrder : ∀ id a, b.orderIndex.lookup id = some a →
    ∃ b', b.cancelOrder id = some (true, b') ∧
      ∀ s, b'.queue s = (b.queue s).filter fun n => n.addr ≠ a
  modifyOrder : ∀ env id p q a, b.orderIndex.lookup id = some a →
    ∃ n ∈ b.nodes, n.addr = a ∧ ∃ b', b.cancelOrder id = some (true, b') ∧
      b.modifyOrder env id p q = some (b'.addOrder env (resubmitted n.order p q))

/-- A resting order is in the level that its side and price lead to. -/
theorem Placed.find_level (h : b.Placed) {n : Node P} (hn : n ∈ b.nodes) :
    ∃ level, (b.levels n.order.side).find n.order.price = some level ∧ n ∈ level := by
  obtain ⟨s, hs⟩ := mem_nodes.mp hn
  obtain ⟨e, he, hne⟩ := OrderBook.mem_queue.mp hs
  obtain ⟨hside, hprice, -⟩ := h.at_key s e he n hne
  refine ⟨e.2, ?_, hne⟩
  rw [hside, hprice]
  exact OrdMap.find_eq_some_iff.mpr he

theorem iterators_of_indexed [Zero P] (hp : b.Placed) (hi : b.Indexed) : b.Iterators where
  designates id a hx := by
    obtain ⟨n, hn, ha, hid⟩ := hi.live id a hx
    exact ⟨List.count_eq_one_of_mem hi.addr_nodup (ha ▸ List.mem_map_of_mem hn),
      n, hn, ha, hid, hp.find_level hn⟩
  cancelOrder id a hx := by
    obtain ⟨n, hn, rfl, rfl⟩ := hi.live id a hx
    obtain ⟨b', hc, hrem⟩ := cancelOrder_removed hp hi hn hx
    exact ⟨b', hc, hrem.queue⟩
  modifyOrder env id p q a hx := by
    obtain ⟨n, hn, rfl, rfl⟩ := hi.live id a hx
    obtain ⟨b', hc, -⟩ := cancelOrder_removed hp hi hn hx
    refine ⟨n, hn, rfl, b', hc, ?_⟩
    simp only [OrderBook.modifyOrder, hx, hi.deref hn, hc, Option.bind_eq_bind, Option.bind_some]
    rfl

/-- **Stored iterators never dangle.**  Whatever the ids, every call of a run returns, and so reads
and erases through live iterators only, and those in the book after it are live. -/
theorem run_iterators [Zero P] {symbol : List UInt8} {ops : List (BookOp P)}
    (h : ∀ op ∈ ops, op.Unfilled) :
    ∃ rs b, (init symbol).run ops = some (rs, b) ∧ b.Iterators := by
  obtain ⟨rs, b, hrun, hp, hi, -⟩ := run_invariant (I := fun _ => True) (fun _ _ h => h)
    (fun _ _ _ _ _ => trivial) (init_placed symbol) (init_indexed symbol) trivial
    (Run.along_of_forall h (init symbol))
  exact ⟨rs, b, hrun, iterators_of_indexed hp hi⟩

/-- An id added again while it rests, and then both orders that hold it are dropped in turn. -/
def repeatedIdCalls : List (BookOp ℤ) :=
  let ask : Order ℤ := { Order.blank with side := .sell, id := 1 }
  [.add .still { ask with price := 101, quantity := 5 },
    .add .still { ask with price := 100, quantity := 3 },
    .cancel 1,
    .add .still { (Order.blank : Order ℤ) with id := 1, price := 99, quantity := 4 },
    .addMarket .still { (Order.blank : Order ℤ) with id := 2, quantity := 2 },
    .modify .still 1 98 7]

theorem run_iterators_repeatedIdCalls :
    (∀ op ∈ repeatedIdCalls, op.Unfilled) ∧
      ∃ rs b, (init []).run repeatedIdCalls = some (rs, b) ∧ b.Iterators :=
  ⟨by decide, run_iterators (by decide)⟩

/-! ### Built books -/

/-- The books that calls build from an empty one, the trade buffer drained or not.  Ids may repeat;
incoming orders have nothing filled. -/
inductive Built [Zero P] : OrderBook P → Prop where
  | init (symbol : List UInt8) : Built (init symbol)
  | step {b b' : OrderBook P} {op : BookOp P} {r : BookResult P} (h : Built b) (hop : op.Unfilled)
      (hs : b.step op = some (r, b')) : Built b'
  | drain {b : OrderBook P} (h : Built b) : Built b.drainTrades.2

theorem Built.invariant [Zero P] (h : Built b) : b.Placed ∧ b.Indexed := by
  induction h with
  | init symbol => exact ⟨init_placed symbol, init_indexed symbol⟩
  | @step b b' op r _ hop hs ih =>
      obtain ⟨r', b₁, hs', hstep⟩ := step_bookStep ih.1 ih.2 hop
      rw [hs] at hs'
      cases hs'
      exact ⟨hstep.placed ih.1, hstep.indexed ih.2⟩
  | drain _ ih => exact ⟨ih.1.congr rfl rfl, ih.2.drain⟩

theorem Built.run [Zero P] {rs : List (BookResult P)} {ops : List (BookOp P)} (h : Built b)
    (hops : ∀ op ∈ ops, op.Unfilled) (hrun : b.run ops = some (rs, b')) : Built b' :=
  Run.exec_invariant (I := Built) (fun _ op _ _ hop hb hstep => hb.step (hops op hop) hstep) h hrun

theorem Built.placed [Zero P] (h : Built b) : b.Placed := h.invariant.1

theorem Built.indexed [Zero P] (h : Built b) : b.Indexed := h.invariant.2

end OrderBook

end Aspira
