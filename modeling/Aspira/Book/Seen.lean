import Aspira.Book.View

/-!
# Book — a book and its view

`Seen v g b b'` says that `b'` is what is seen of `b` through `v`, which hides the orders with an id
in `g`.  `Seen.step` is the simulation: a call that uses none of these ids, and whose trades name
none, does to the view what it does to the book, and returns what is seen of the result.
`Seen.run` carries it to sequences of calls, and `Seen.cancel_hidden` says that the book may cancel
a hidden order with nothing to be seen.
-/

namespace Aspira

variable {P : Type}

namespace View

variable (v : View)

theorem order_settle (o : Order P) : settle (v.order o) = v.order (settle o) := by
  have hfilled : (v.order o).isFilled = o.isFilled := rfl
  have hqty : (v.order o).filledQty = o.filledQty := rfl
  unfold settle
  rw [hfilled, hqty]
  split
  · rfl
  · split
    · rfl
    · rfl

theorem order_entry (o : Order P) : (v.order o).entry = v.order o.entry := by
  have hqty : (v.order o).filledQty = o.filledQty := rfl
  unfold Order.entry
  rw [hqty]
  split
  · rfl
  · rfl

variable {v} {g : Set Int32}

/-- A trade changes neither the address nor the id of a node. -/
theorem hides_same (n n' : Node P) (hs : n.Same n')
    (h : v.addr n.addr = none ↔ n.order.id ∈ g) : v.addr n'.addr = none ↔ n'.order.id ∈ g := by
  rw [hs.1, hs.id]
  exact h

end View

namespace OrderBook

variable [LinearOrder P]

/-- `b'` is what is seen of `b`; the hidden orders are those with an id in `g`. -/
structure Seen (v : View) (g : Set Int32) (b b' : OrderBook P) : Prop where
  levels : ∀ s, b'.levels s = v.side (b.levels s)
  marked : b.Marked (fun n => v.addr n.addr = none ↔ n.order.id ∈ g)
    (fun id a => v.addr a = none ↔ id ∈ g)
  lookup : ∀ id, b'.orderIndex.lookup id = (b.orderIndex.lookup id).bind v.addr
  nextTradeId : b'.nextTradeId = b.nextTradeId
  nextNode : ∀ k, v.addr (b.nextNode + k) = some (b'.nextNode + k)

/-- From `b` to `b₁` and from `b'` to `b₁'` the same trades are made, up to the clock and the
symbol. -/
def SameTrades (b b' b₁ b₁' : OrderBook P) : Prop :=
  ∃ new new', b₁.trades = b.trades ++ new ∧ b₁'.trades = b'.trades ++ new' ∧
    new'.map Trade.terms = new.map Trade.terms

theorem SameTrades.of_eq {b b' b₁ b₁' : OrderBook P} (h : b₁.trades = b.trades)
    (h' : b₁'.trades = b'.trades) : SameTrades b b' b₁ b₁' :=
  ⟨[], [], by rw [h, List.append_nil], by rw [h', List.append_nil], rfl⟩

theorem SameTrades.trans {b b' b₁ b₁' b₂ b₂' : OrderBook P} (h : SameTrades b b' b₁ b₁')
    (h' : SameTrades b₁ b₁' b₂ b₂') : SameTrades b b' b₂ b₂' := by
  obtain ⟨new, new', htr, htr', hterms⟩ := h
  obtain ⟨more, more', hmore, hmore', hterms'⟩ := h'
  refine ⟨new ++ more, new' ++ more', ?_, ?_, ?_⟩
  · rw [hmore, htr, List.append_assoc]
  · rw [hmore', htr', List.append_assoc]
  · rw [List.map_append, List.map_append, hterms, hterms']

variable {v : View} {g : Set Int32} {b b' : OrderBook P}

/-- What is seen of a side of which all is seen. -/
theorem entries_side {s : Side} {m : LevelMap P s} (hne : ∀ e ∈ m.entries, e.2 ≠ [])
    (hall : ∀ e ∈ m.entries, ∀ n ∈ e.2, v.addr n.addr ≠ none) :
    (v.side m).entries = m.entries.map fun e =>
      (e.1, e.2.map fun n => ⟨(v.addr n.addr).getD 0, v.order n.order⟩) := by
  have hlevel : ∀ e ∈ m.entries, v.level e.2 =
      some (e.2.map fun n => ⟨(v.addr n.addr).getD 0, v.order n.order⟩) := by
    intro e he
    have hqueue := View.queue_eq_map (hall e he)
    rw [View.level_of_ne_nil (by rw [hqueue]; simpa using hne e he), hqueue]
  show OrdMap.restrictList v.level m.entries = _
  unfold OrdMap.restrictList
  rw [← List.filterMap_eq_map]
  refine List.filterMap_congr fun e he => ?_
  rw [hlevel e he]
  rfl

namespace Seen

theorem index (h : Seen v g b b') : v.Indexes g b.orderIndex b'.orderIndex :=
  ⟨h.marked.entry, h.lookup⟩

theorem entries (h : Seen v g b b') (s : Side) :
    (b'.levels s).entries = OrdMap.restrictList v.level (b.levels s).entries := by
  rw [h.levels]
  rfl

theorem hides (h : Seen v g b b') {s : Side} {e : P × OrderList P}
    (he : e ∈ (b.levels s).entries) : v.Hides g e.2 := fun n hn =>
  (h.marked.at_key s e he n hn).2.2

theorem nodes (h : Seen v g b b') : b'.nodes = v.queue b.nodes := by
  unfold OrderBook.nodes OrderBook.queue
  rw [h.entries, h.entries, View.flatMap_restrictList, View.flatMap_restrictList,
    View.queue_append]

theorem deref (h : Seen v g b b') {it it' : ℕ} (hit : v.addr it = some it') :
    b'.deref it' = (b.deref it).map v.order := by
  unfold OrderBook.deref
  rw [h.nodes, View.find_queue hit]
  cases hf : b.nodes.find? (fun n => n.addr = it) with
  | none => rfl
  | some n =>
      have ha : n.addr = it := by simpa using List.find?_some hf
      simp [View.node, ha, hit]

/-! ### Matching -/

theorem matchLimitOrder (h : Seen v g b b') (env env' : Env) (o : Order P)
    (hclean : Clean g ((b.matchLimitOrder env o).2.trades.drop b.trades.length)) :
    (b'.matchLimitOrder env' (v.order o)).1 = v.order (b.matchLimitOrder env o).1 ∧
      Seen v g (b.matchLimitOrder env o).2 (b'.matchLimitOrder env' (v.order o)).2 ∧
      SameTrades b b' (b.matchLimitOrder env o).2 (b'.matchLimitOrder env' (v.order o)).2 := by
  obtain ⟨l₁, m₁, hc⟩ := matchLimitOrder_crossed env b o
  obtain ⟨l₁', m₁', hc'⟩ := matchLimitOrder_crossed env' b' (v.order o)
  have hstart : v.Matches g b.trades b'.trades (b.matching o) (b'.matching (v.order o)) :=
    ⟨rfl, h.index, ⟨[], [], (List.append_nil _).symm, (List.append_nil _).symm, rfl⟩, h.nextTradeId⟩
  rw [hc.trades] at hclean
  obtain ⟨hlevels, hmatch⟩ := hstart.matchLevels b.symbol b'.symbol env env'
    (fun e he => h.hides he) (b.levels o.side.opposite).sorted (by rw [hc.loop]; exact hclean)
  have hloop : matchLevels b'.symbol env' o.side.opposite
      (OrdMap.restrictList v.level (b.levels o.side.opposite).entries) (b'.matching (v.order o)) =
      (l₁', m₁') := by
    rw [← h.entries]
    exact hc'.loop
  rw [hloop, hc.loop] at hlevels hmatch
  refine ⟨?_, ⟨fun s => ?_, hc.marked View.hides_same h.marked, fun id => ?_, ?_, fun k => ?_⟩, ?_⟩
  · rw [hc.order, hc'.order, hmatch.order, View.order_settle]
  · rcases s.eq_or_eq_opposite o.side with rfl | rfl
    · exact hc'.own.trans ((h.levels _).trans (congrArg v.side hc.own.symm))
    · refine OrdMap.ext ?_
      exact hc'.opposite.trans (hlevels.trans (congrArg (OrdMap.restrictList v.level) hc.opposite.symm))
  · rw [hc.orderIndex, hc'.orderIndex]
    exact hmatch.index.lookup id
  · rw [hc.nextTradeId, hc'.nextTradeId]
    exact hmatch.nextTradeId
  · rw [hc.nextNode, hc'.nextNode]
    exact h.nextNode k
  · obtain ⟨new, new', htr, htr', hterms⟩ := hmatch.trades
    exact ⟨new, new', hc.trades.trans htr, hc'.trades.trans htr', hterms⟩

/-! ### Calls -/

theorem rest (h : Seen v g b b') {o : Order P} (hid : o.id ∉ g) :
    (b'.rest (v.order o)).1 = v.order (b.rest o).1 ∧
      Seen v g (b.rest o).2 (b'.rest (v.order o)).2 := by
  have haddr : v.addr b.nextNode = some b'.nextNode := h.nextNode 0
  have hnode : v.addr b.nextNode = none ↔ o.id ∈ g := by
    rw [haddr]
    exact iff_of_false nofun hid
  refine ⟨?_, ⟨fun s => ?_, rest_marked View.hides_same h.marked hnode hnode, fun id => ?_,
    h.nextTradeId, fun k => ?_⟩⟩
  · have hqty : (v.order o).filledQty = o.filledQty := rfl
    unfold OrderBook.rest
    dsimp only
    rw [hqty]
    split
    · rfl
    · rfl
  · have hown : (b'.rest (v.order o)).2.levels o.side = (b'.levels o.side).alter o.price
        fun l => some (l.getD [] ++ [⟨b'.nextNode, (v.order o).entry⟩]) := levels_rest b' (v.order o)
    have hopp : (b'.rest (v.order o)).2.levels o.side.opposite = b'.levels o.side.opposite :=
      levels_rest_opposite b' (v.order o)
    rcases s.eq_or_eq_opposite o.side with rfl | rfl
    · rw [hown, levels_rest, h.levels]
      refine (OrdMap.restrict_alter ?_).symm
      have hseen : v.queue (((b.levels o.side).find o.price).getD [] ++ [⟨b.nextNode, o.entry⟩]) =
          (((b.levels o.side).find o.price).bind v.level).getD [] ++
            [⟨b'.nextNode, (v.order o).entry⟩] := by
        rw [View.queue_append, View.getD_level, View.queue_cons_at haddr, View.order_entry]
        rfl
      rw [Option.bind_some, View.level_of_ne_nil (by rw [hseen]; simp), hseen]
    · rw [hopp, levels_rest_opposite]
      exact h.levels _
  · exact (h.index.insert hid haddr).lookup id
  · show v.addr (b.nextNode + 1 + k) = some (b'.nextNode + 1 + k)
    rw [Nat.add_assoc, Nat.add_assoc]
    exact h.nextNode (1 + k)

theorem addOrder (h : Seen v g b b') (env env' : Env) {o : Order P} (hid : o.id ∉ g)
    (hclean : Clean g ((b.addOrder env o).2.trades.drop b.trades.length)) :
    (b'.addOrder env' (v.order o)).1 = v.order (b.addOrder env o).1 ∧
      Seen v g (b.addOrder env o).2 (b'.addOrder env' (v.order o)).2 ∧
      SameTrades b b' (b.addOrder env o).2 (b'.addOrder env' (v.order o)).2 := by
  rw [trades_addOrder] at hclean
  obtain ⟨hres, hseen, htr⟩ := h.matchLimitOrder env env' o hclean
  obtain ⟨l', m', hc⟩ := matchLimitOrder_crossed env b o
  obtain ⟨f, st, hset⟩ := hc.settled
  unfold OrderBook.addOrder
  dsimp only
  by_cases hrest : (b.matchLimitOrder env o).1.isFilled = false ∧
      (b.matchLimitOrder env o).1.type = .limit
  · have hrest' : (b'.matchLimitOrder env' (v.order o)).1.isFilled = false ∧
        (b'.matchLimitOrder env' (v.order o)).1.type = .limit := by
      rw [hres]
      exact hrest
    rw [if_pos hrest, if_pos hrest', hres]
    obtain ⟨hres', hseen'⟩ := hseen.rest (o := (b.matchLimitOrder env o).1) (by rw [hset]; exact hid)
    exact ⟨hres', hseen', htr.trans (.of_eq rfl rfl)⟩
  · have hrest' : ¬ ((b'.matchLimitOrder env' (v.order o)).1.isFilled = false ∧
        (b'.matchLimitOrder env' (v.order o)).1.type = .limit) := by
      rw [hres]
      exact hrest
    rw [if_neg hrest, if_neg hrest']
    exact ⟨hres, hseen, htr⟩

/-- A level is cut down to `rest`, and what is seen of it to what is seen of `rest`. -/
theorem cut (h : Seen v g b b') {s : Side} {k : P} {level rest : OrderList P} {ix ix' : OrderIndex}
    (hfind : (b.levels s).find k = some level) (hsub : ∀ n ∈ rest, n ∈ level)
    (hless : ∀ id a, ix.lookup id = some a → b.orderIndex.lookup id = some a)
    (hix : v.Indexes g ix ix') :
    Seen v g ((b.cutLevel s k rest).setIndex ix)
      ((b'.cutLevel s k (v.queue rest)).setIndex ix') where
  levels := by
    intro t
    rcases t.eq_or_eq_opposite s with rfl | rfl
    · rw [levels_cutLevel, levels_cutLevel, h.levels]
      refine (OrdMap.restrict_alter ?_).symm
      cases rest with
      | nil => rfl
      | cons n rest => rfl
    · rw [levels_cutLevel_opposite, levels_cutLevel_opposite]
      exact h.levels _
  marked := cut_marked h.marked hfind hsub hless
  lookup := hix.lookup
  nextTradeId := h.nextTradeId
  nextNode := h.nextNode

/-- A level is cut down to `rest`, and nothing of what goes was seen. -/
theorem cut_hidden (h : Seen v g b b') {s : Side} {k : P} {level rest : OrderList P}
    {ix ix' : OrderIndex} (hfind : (b.levels s).find k = some level)
    (hsub : ∀ n ∈ rest, n ∈ level) (hqueue : v.queue rest = v.queue level)
    (hless : ∀ id a, ix.lookup id = some a → b.orderIndex.lookup id = some a)
    (hix : v.Indexes g ix ix') : Seen v g ((b.cutLevel s k rest).setIndex ix) (b'.setIndex ix') where
  levels := by
    intro t
    have hset : (b'.setIndex ix').levels t = b'.levels t := levels_congr rfl rfl
    rw [hset, h.levels]
    rcases t.eq_or_eq_opposite s with rfl | rfl
    · have hlevel : v.level rest = v.level level := by rw [View.level, hqueue, View.level]
      have hsame : (if rest.isEmpty then none else some rest).bind v.level =
          id (((b.levels t).find k).bind v.level) := by
        rw [hfind, Option.bind_some, id, ← hlevel]
        cases rest with
        | nil => rfl
        | cons n rest => rfl
      rw [levels_cutLevel]
      exact ((OrdMap.restrict_alter hsame).trans (OrdMap.alter_id _ k)).symm
    · rw [levels_cutLevel_opposite]
  marked := cut_marked h.marked hfind hsub hless
  lookup := hix.lookup
  nextTradeId := h.nextTradeId
  nextNode := h.nextNode

theorem lookup_seen (h : Seen v g b b') {id : Int32} (hid : id ∉ g) {a : ℕ}
    (hl : b.orderIndex.lookup id = some a) :
    ∃ a', v.addr a = some a' ∧ b'.orderIndex.lookup id = some a' := by
  obtain ⟨a', ha'⟩ : ∃ a', v.addr a = some a' :=
    Option.ne_none_iff_exists'.mp (mt (h.marked.entry id a hl).mp hid)
  refine ⟨a', ha', ?_⟩
  rw [h.lookup, hl]
  exact ha'

theorem cancelOrder (h : Seen v g b b') {id : Int32} (hid : id ∉ g) {f : Bool} {b₁ : OrderBook P}
    (hc : b.cancelOrder id = some (f, b₁)) :
    ∃ b₁', b'.cancelOrder id = some (f, b₁') ∧ Seen v g b₁ b₁' ∧ SameTrades b b' b₁ b₁' := by
  rcases h.marked.cancelOrder_cases hc with ⟨hl, rfl, rfl⟩ |
    ⟨n, -, hl, hd, level, hfind, hmem, rfl, rfl⟩
  · have hl' : b'.orderIndex.lookup id = none := by
      rw [h.lookup, hl]
      rfl
    exact ⟨b', cancelOrder_unknown hl', h, .of_eq rfl rfl⟩
  · obtain ⟨a', ha', hl'⟩ := h.lookup_seen hid hl
    have hmem' : (⟨a', v.order n.order⟩ : Node P) ∈ v.queue level :=
      View.mem_queue.mpr ⟨n, hmem, ha', rfl⟩
    have hd' : b'.deref a' = some (v.order n.order) := by
      rw [h.deref ha', hd]
      rfl
    have hfind' : (b'.levels (v.order n.order).side).find (v.order n.order).price =
        some (v.queue level) := by
      show (b'.levels n.order.side).find n.order.price = _
      rw [h.levels, View.side, OrdMap.find_restrict, hfind]
      exact View.level_of_ne_nil (List.ne_nil_of_mem hmem')
    have hany : (v.queue level).any (fun x => decide (x.addr = a')) = true :=
      List.any_eq_true.mpr ⟨_, hmem', by simp⟩
    refine ⟨(b'.cutLevel n.order.side n.order.price (v.queue (level.filter fun x =>
      x.addr ≠ n.addr))).setIndex (b'.orderIndex.erase id), ?_, ?_, .of_eq rfl rfl⟩
    · rw [OrderBook.cancelOrder, hl']
      simp only [hd', hfind', hany, if_true]
      rw [View.filter_queue ha']
      rfl
    · exact h.cut hfind (fun x hx => List.mem_of_mem_filter hx)
        (fun id' a hl => (lookup_erase_some hl).2) (h.index.erase id)

/-- **A hidden order is cancelled** with nothing to be seen. -/
theorem cancel_hidden (h : Seen v g b b') {id : Int32} (hid : id ∈ g) {f : Bool}
    {b₁ : OrderBook P} (hc : b.cancelOrder id = some (f, b₁)) : Seen v g b₁ b' := by
  rcases h.marked.cancelOrder_cases hc with ⟨-, -, rfl⟩ | ⟨n, -, hl, -, level, hfind, -, -, rfl⟩
  · exact h
  · exact h.cut_hidden hfind (fun x hx => List.mem_of_mem_filter hx)
      (View.queue_filter_hidden ((h.marked.entry id n.addr hl).mpr hid) level)
      (fun id' a hl => (lookup_erase_some hl).2) (h.index.erase_hidden hid)

theorem updateLevel (h : Seen v g b b') (side : Side) (price : P) (size : Int32) :
    Seen v g (b.updateLevel side price size) (b'.updateLevel side price size) := by
  unfold OrderBook.updateLevel
  by_cases hsize : size = 0
  · rw [if_pos hsize, if_pos hsize, h.levels, View.side, OrdMap.find_restrict]
    cases hfind : (b.levels side).find price with
    | none => exact h
    | some level =>
        have hix : v.Indexes g (eraseIds b.orderIndex level)
            (eraseIds b'.orderIndex (v.queue level)) :=
          h.index.eraseIds (h.hides (OrdMap.find_eq_some_iff.mp hfind))
        have hsub : ∀ n ∈ ([] : OrderList P), n ∈ level := fun n hn => absurd hn List.not_mem_nil
        rw [Option.bind_some]
        by_cases hempty : v.queue level = []
        · rw [hempty] at hix
          rw [View.level_of_nil hempty]
          exact h.cut_hidden hfind hsub hempty.symm (fun id a hl => lookup_eraseIds_some hl) hix
        · rw [View.level_of_ne_nil hempty]
          exact h.cut hfind hsub (fun id a hl => lookup_eraseIds_some hl) hix
  · rw [if_neg hsize, if_neg hsize]
    exact h

variable [Zero P]

theorem modifyOrder (h : Seen v g b b') (env env' : Env) {id : Int32} (hid : id ∉ g) {p : P}
    {q : Int32} {o₁ : Order P} {b₁ : OrderBook P}
    (hm : b.modifyOrder env id p q = some (o₁, b₁))
    (hclean : Clean g (b₁.trades.drop b.trades.length)) :
    ∃ b₁', b'.modifyOrder env' id p q = some (v.order o₁, b₁') ∧ Seen v g b₁ b₁' ∧
      SameTrades b b' b₁ b₁' := by
  rcases modifyOrder_cases hm with ⟨hl, rfl, rfl⟩ | ⟨it, o, f, b₂, hl, hd, hc, hadd⟩
  · have hl' : b'.orderIndex.lookup id = none := by
      rw [h.lookup, hl]
      rfl
    refine ⟨b', ?_, h, .of_eq rfl rfl⟩
    rw [OrderBook.modifyOrder, hl']
    have hblank : v.order { (Order.blank : Order P) with id := invalidOrderId, status := .rejected } =
        { Order.blank with id := invalidOrderId, status := .rejected } := by
      unfold View.order Order.blank
      rw [v.stamp_zero, v.label_blank]
    rw [hblank]
  · obtain ⟨it', hit', hl'⟩ := h.lookup_seen hid hl
    obtain ⟨n, hn, rfl, rfl⟩ := deref_eq_some hd
    obtain ⟨b₂', hc', hseen, htr⟩ := h.cancelOrder hid hc
    have hid' : (resubmitted n.order p q).id ∉ g := by
      refine mt (h.marked.node hn).mpr ?_
      rw [hit']
      exact Option.some_ne_none it'
    have htrades := cancelOrder_trades h.marked hc
    have hadded := hseen.addOrder env env' hid' (by rw [hadd, htrades]; exact hclean)
    rw [hadd] at hadded
    obtain ⟨hres, hseen', htr'⟩ := hadded
    refine ⟨_, ?_, hseen', htr.trans htr'⟩
    rw [OrderBook.modifyOrder, hl']
    simp only [h.deref hit', hd, hc', Option.map_some, Option.bind_eq_bind, Option.bind_some]
    exact congrArg some (Prod.ext hres rfl)

end Seen

/-- Draining the trade buffer is not seen. -/
theorem Seen.drain (h : Seen v g b b') : Seen v g b.drainTrades.2 b' where
  levels := fun s => (h.levels s).trans (congrArg v.side (levels_congr rfl rfl))
  marked := h.marked.congr rfl rfl rfl
  lookup := h.lookup
  nextTradeId := h.nextTradeId
  nextNode := h.nextNode

/-! ### Runs -/

/-- The same call, with another clock, on what is seen of its order. -/
inductive SameCall (v : View) : BookOp P → BookOp P → Prop where
  | add (env env' : Env) (o : Order P) : SameCall v (.add env o) (.add env' (v.order o))
  | addMarket (env env' : Env) (o : Order P) :
      SameCall v (.addMarket env o) (.addMarket env' (v.order o))
  | cancel (id : Int32) : SameCall v (.cancel id) (.cancel id)
  | modify (env env' : Env) (id : Int32) (p : P) (q : Int32) :
      SameCall v (.modify env id p q) (.modify env' id p q)
  | updateLevel (s : Side) (p : P) (n : Int32) :
      SameCall v (.updateLevel s p n) (.updateLevel s p n)

/-- The call is given an id. -/
def BookOp.Names (id : Int32) : BookOp P → Prop
  | .add _ o => o.id = id
  | .addMarket _ o => o.id = id
  | .cancel i => i = id
  | .modify _ i _ _ => i = id
  | .updateLevel _ _ _ => False

instance (id : Int32) : (op : BookOp P) → Decidable (BookOp.Names id op)
  | .add _ o => inferInstanceAs (Decidable (o.id = id))
  | .addMarket _ o => inferInstanceAs (Decidable (o.id = id))
  | .cancel i => inferInstanceAs (Decidable (i = id))
  | .modify _ i _ _ => inferInstanceAs (Decidable (i = id))
  | .updateLevel _ _ _ => inferInstanceAs (Decidable False)

variable [Zero P]

/-- **A call on a book and on its view.** -/
theorem Seen.step (h : Seen v g b b') {op op' : BookOp P} {r : BookResult P} {b₁ : OrderBook P}
    (hop : SameCall v op op') (hids : ∀ id ∈ g, ¬ BookOp.Names id op)
    (hs : b.step op = some (r, b₁)) (hclean : Clean g (b₁.trades.drop b.trades.length)) :
    ∃ b₁', b'.step op' = some (v.result r, b₁') ∧ Seen v g b₁ b₁' ∧ SameTrades b b' b₁ b₁' := by
  have hid : ∀ id, BookOp.Names id op → id ∉ g := fun id hn hg => hids id hg hn
  cases hop with
  | add env env' o =>
      rw [step_add] at hs
      obtain ⟨rfl, rfl⟩ := Prod.mk.inj (Option.some.inj hs)
      obtain ⟨hres, hseen, htr⟩ := h.addOrder env env' (hid o.id rfl) hclean
      have hstep := step_add b' env' (v.order o)
      rw [hres] at hstep
      exact ⟨(b'.addOrder env' (v.order o)).2, hstep, hseen, htr⟩
  | addMarket env env' o =>
      rw [step_addMarket] at hs
      obtain ⟨rfl, rfl⟩ := Prod.mk.inj (Option.some.inj hs)
      obtain ⟨hres, hseen, htr⟩ := h.matchLimitOrder env env' o.asMarket hclean
      exact ⟨_, congrArg some (Prod.ext (congrArg BookResult.order hres) rfl), hseen, htr⟩
  | cancel id =>
      obtain ⟨⟨f, b₂⟩, hc, heq⟩ := Option.map_eq_some_iff.mp hs
      obtain ⟨rfl, rfl⟩ := Prod.mk.inj heq
      obtain ⟨b₂', hc', hseen, htr⟩ := h.cancelOrder (hid id rfl) hc
      exact ⟨b₂', by rw [OrderBook.step, hc']; rfl, hseen, htr⟩
  | modify env env' id p q =>
      obtain ⟨⟨o₂, b₂⟩, hm, heq⟩ := Option.map_eq_some_iff.mp hs
      obtain ⟨rfl, rfl⟩ := Prod.mk.inj heq
      obtain ⟨b₂', hm', hseen, htr⟩ := h.modifyOrder env env' (hid id rfl) hm hclean
      exact ⟨b₂', by rw [OrderBook.step, hm']; rfl, hseen, htr⟩
  | updateLevel s p n =>
      obtain ⟨rfl, rfl⟩ := Prod.mk.inj (Option.some.inj hs)
      exact ⟨_, rfl, h.updateLevel s p n, .of_eq (updateLevel_trades ..) (updateLevel_trades ..)⟩

/-- **A run of calls on a book and on its view.** -/
theorem Seen.run {ops ops' : List (BookOp P)} (hops : List.Forall₂ (SameCall v) ops ops')
    (hids : ∀ op ∈ ops, ∀ id ∈ g, ¬ BookOp.Names id op) :
    ∀ {b b' b₁ : OrderBook P} {rs : List (BookResult P)}, Seen v g b b' →
      b.run ops = some (rs, b₁) → Clean g (b₁.trades.drop b.trades.length) →
      ∃ b₁', b'.run ops' = some (rs.map v.result, b₁') ∧ Seen v g b₁ b₁' ∧
        SameTrades b b' b₁ b₁' := by
  induction hops with
  | nil =>
      intro b b' b₁ rs h hs _
      obtain ⟨rfl, rfl⟩ := Prod.mk.inj (Option.some.inj hs)
      exact ⟨b', rfl, h, .of_eq rfl rfl⟩
  | @cons op op' ops ops' hop _ ih =>
      intro b b' b₂ rs h hs hclean
      obtain ⟨r, b₁, rs', hstep, hrun, rfl⟩ := Run.exec_cons_some hs
      have hids' := fun o ho => hids o (List.mem_cons_of_mem op ho)
      have hplain : b.Marked (fun _ => True) (fun _ _ => True) :=
        h.marked.mono (fun _ _ => trivial) fun _ _ _ => trivial
      have hone : b.run [op] = some ([r], b₁) := Run.exec_cons hstep rfl
      have hplain' := hplain.run (fun _ _ _ _ => trivial) (fun _ _ _ => trivial)
        (fun _ _ _ => trivial) hone
      have hlater : b₁.trades <+: b₂.trades := run_trades hplain' hrun
      obtain ⟨b₁', hstep', h₁, htr⟩ := h.step hop (hids op (List.mem_cons_self ..)) hstep
        (Clean.of_prefix hlater hclean)
      have hclean' : Clean g (b₂.trades.drop b₁.trades.length) := by
        obtain ⟨new, -, hnew, -⟩ := htr
        intro t ht
        refine hclean t ?_
        rw [hnew, List.length_append, ← List.drop_drop] at ht
        exact List.mem_of_mem_drop ht
      obtain ⟨b₂', hrun', h₂, htr'⟩ := ih hids' h₁ hrun hclean'
      exact ⟨b₂', Run.exec_cons hstep' hrun', h₂, htr.trans htr'⟩

end OrderBook

end Aspira
