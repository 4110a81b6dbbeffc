import Aspira.Book.Invariant

/-!
# Book — Layout

What holds of a book whatever is submitted to it, with fills and quantities of any size and ids used
more than once: no level is empty, every order lies on its own side at its own price, and what is
true of a node when it joins the book stays true of it, as long as a trade does not change it
(`Marked`).  The same goes for what is true of an index entry.

`Reached` are the books that calls lead to, the trade buffer drained or not; their addresses are
those that have been given out.
-/

namespace Aspira

variable {P : Type}

/-! ### The loops, whatever they meet -/

section Loops

variable (symbol : List UInt8) (env : Env)

/-- The inner loop changes nothing of the incoming order but its fill, appends to the trades, and
only erases from the index. -/
structure Matching.Leads (m m' : Matching P) : Prop where
  order : ∃ f, m'.order = { m.order with filledQty := f }
  trades : m.trades <+: m'.trades
  lookup : ∀ id a, m'.orderIndex.lookup id = some a → m.orderIndex.lookup id = some a

namespace Matching.Leads

variable {m m' m'' : Matching P}

theorem refl (m : Matching P) : m.Leads m := ⟨⟨m.order.filledQty, rfl⟩, List.prefix_rfl, fun _ _ h => h⟩

theorem trans (h : m.Leads m') (h' : m'.Leads m'') : m.Leads m'' where
  order := by
    obtain ⟨f, hf⟩ := h.order
    obtain ⟨f', hf'⟩ := h'.order
    exact ⟨f', by rw [hf', hf]⟩
  trades := h.trades.trans h'.trades
  lookup := fun id a hl => h.lookup id a (h'.lookup id a hl)

theorem hit (price : P) (m : Matching P) (o : Order P) : m.Leads (m.hit symbol env price o) :=
  ⟨⟨_, rfl⟩, List.prefix_append .., fun _ _ h => h⟩

theorem unindex (m : Matching P) (id : Int32) : m.Leads (m.unindex id) where
  order := ⟨m.order.filledQty, rfl⟩
  trades := List.prefix_rfl
  lookup := by
    intro id' a hl
    by_cases h : id' = id
    · subst h
      have hnone : (m.orderIndex.erase id').lookup id' = none := AList.lookup_erase ..
      exact absurd (hnone.symm.trans hl) nofun
    · exact (AList.lookup_erase_ne h).symm.trans hl

end Matching.Leads

section Rule

variable {I : Matching P → Prop} (hhit : ∀ {m} (price : P) (o : Order P), I m → I (m.hit symbol env price o))
  (hindex : ∀ {m} (id : Int32), I m → I (m.unindex id))

include hhit hindex in
theorem matchLevel_of_hit (price : P) : ∀ (q : OrderList P) {m : Matching P}, I m →
    I (matchLevel symbol env price q m).2
  | [], _, h => h
  | n :: q, m, h => by
      rw [matchLevel]
      simp only [matchEntry_eq]
      split
      · have hnext := hhit price n.order h
        split
        · exact matchLevel_of_hit price q (hindex n.order.id hnext)
        · exact matchLevel_of_hit price q hnext
      · exact h

include hhit hindex in
/-- **What a trade and an erasure keep, the loops keep.** -/
theorem matchLevels_of_hit [LinearOrder P] (s : Side) : ∀ (l : List (P × OrderList P))
    {m : Matching P}, I m → I (matchLevels symbol env s l m).2
  | [], _, h => h
  | e :: l, m, h => by
      rw [matchLevels]
      split
      · split
        · exact h
        · have hrest := matchLevels_of_hit s l (matchLevel_of_hit symbol env hhit hindex e.1 e.2 h)
          dsimp only
          split
          · exact hrest
          · exact hrest
      · exact h

end Rule

theorem matchLevel_leads (price : P) (q : OrderList P) (m : Matching P) :
    m.Leads (matchLevel symbol env price q m).2 :=
  matchLevel_of_hit symbol env (fun _ _ h => h.trans (.hit ..)) (fun _ h => h.trans (.unindex ..))
    price q (.refl m)

theorem matchLevels_leads [LinearOrder P] (s : Side) (l : List (P × OrderList P)) (m : Matching P) :
    m.Leads (matchLevels symbol env s l m).2 :=
  matchLevels_of_hit symbol env (fun _ _ h => h.trans (.hit ..)) (fun _ h => h.trans (.unindex ..))
    s l (.refl m)

end Loops

namespace OrderBook

variable [LinearOrder P] {b b' : OrderBook P} {env : Env} {o o' : Order P}

/-- `match_limit_order` in terms of its loops, which leave the levels `l'` and the state `m'`. -/
structure Crossed (env : Env) (o : Order P) (b : OrderBook P) (l' : List (P × OrderList P))
    (m' : Matching P) (o' : Order P) (b' : OrderBook P) : Prop where
  loop : matchLevels b.symbol env o.side.opposite (b.levels o.side.opposite).entries
    (b.matching o) = (l', m')
  order : o' = settle m'.order
  opposite : (b'.levels o.side.opposite).entries = l'
  own : b'.levels o.side = b.levels o.side
  trades : b'.trades = m'.trades
  orderIndex : b'.orderIndex = m'.orderIndex
  nextTradeId : b'.nextTradeId = m'.nextTradeId
  nextNode : b'.nextNode = b.nextNode

theorem matchLimitOrder_crossed (env : Env) (b : OrderBook P) (o : Order P) :
    ∃ l' m', Crossed env o b l' m' (b.matchLimitOrder env o).1 (b.matchLimitOrder env o).2 := by
  have hlevels : ∀ s, (b.matchLimitOrder env o).2.levels s = (b.setLevels o.side.opposite _).levels s :=
    fun s => levels_congr rfl rfl
  refine ⟨_, _, rfl, rfl, ?_, ?_, trades_setTrades (b.setLevels _ _) _, rfl, rfl, rfl⟩
  · rw [hlevels, levels_setLevels]
    rfl
  · rw [hlevels, levels_setLevels_of_ne _ (Side.opposite_ne _).symm]

section Crossed

variable {l' : List (P × OrderList P)} {m' : Matching P}

theorem Crossed.leads (h : Crossed env o b l' m' o' b') : (b.matching o).Leads m' := by
  have hl := matchLevels_leads b.symbol env o.side.opposite (b.levels o.side.opposite).entries
    (b.matching o)
  rw [h.loop] at hl
  exact hl

/-- The order `match_limit_order` returns. -/
theorem Crossed.settled (h : Crossed env o b l' m' o' b') :
    ∃ f st, o' = { o with filledQty := f, status := st } := by
  obtain ⟨f, hf⟩ := h.leads.order
  obtain ⟨st, hst⟩ := settle_eq m'.order
  refine ⟨f, st, ?_⟩
  rw [h.order, hst, hf]
  rfl

end Crossed

/-! ### What stays true of nodes and index entries -/

/-- No level is empty, every order lies on its own side at its own price, `Q` holds of every node and
`R` of every index entry. -/
structure Marked (Q : Node P → Prop) (R : Int32 → ℕ → Prop) (b : OrderBook P) : Prop where
  nonempty : ∀ s, ∀ e ∈ (b.levels s).entries, e.2 ≠ []
  at_key : ∀ s, ∀ e ∈ (b.levels s).entries, ∀ n ∈ e.2, n.order.side = s ∧ n.order.price = e.1 ∧ Q n
  entry : ∀ id a, b.orderIndex.lookup id = some a → R id a

section Marked

variable {Q Q' : Node P → Prop} {R R' : Int32 → ℕ → Prop}

theorem Marked.node (h : b.Marked Q R) {n : Node P} (hn : n ∈ b.nodes) : Q n := by
  obtain ⟨s, hs⟩ := mem_nodes.mp hn
  obtain ⟨e, he, hn⟩ := mem_queue.mp hs
  exact (h.at_key s e he n hn).2.2

theorem Marked.imp (h : b.Marked Q R) (hQ : ∀ n ∈ b.nodes, Q n → Q' n)
    (hR : ∀ id a, b.orderIndex.lookup id = some a → R id a → R' id a) : b.Marked Q' R' where
  nonempty := h.nonempty
  at_key := by
    intro s e he n hn
    obtain ⟨hside, hprice, hq⟩ := h.at_key s e he n hn
    exact ⟨hside, hprice, hQ n (mem_nodes.mpr ⟨s, mem_queue.mpr ⟨e, he, hn⟩⟩) hq⟩
  entry := fun id a hl => hR id a hl (h.entry id a hl)

theorem Marked.mono (h : b.Marked Q R) (hQ : ∀ n, Q n → Q' n) (hR : ∀ id a, R id a → R' id a) :
    b.Marked Q' R' := h.imp (fun n _ => hQ n) fun id a _ => hR id a

theorem Marked.congr (h : b.Marked Q R) (h₁ : b'.bids = b.bids) (h₂ : b'.asks = b.asks)
    (h₃ : b'.orderIndex = b.orderIndex) : b'.Marked Q R where
  nonempty := fun s e he => h.nonempty s e (by rwa [← levels_congr h₁ h₂])
  at_key := fun s e he => h.at_key s e (by rwa [← levels_congr h₁ h₂])
  entry := fun id a hl => h.entry id a (by rwa [← h₃])

theorem Marked.entries (h : b.Marked Q R) (s : Side) : ∀ e ∈ (b.levels s).entries, e.2 ≠ [] ∧
    ∀ n ∈ e.2, n.order.side = s ∧ n.order.price = e.1 ∧ Q n :=
  fun e he => ⟨h.nonempty s e he, h.at_key s e he⟩

/-- A book one side of which is as it was. -/
theorem marked_of_side (t : Side) (h : b.Marked Q R) (hopp : b'.levels t.opposite = b.levels t.opposite)
    (hside : ∀ e ∈ (b'.levels t).entries, e.2 ≠ [] ∧
      ∀ n ∈ e.2, n.order.side = t ∧ n.order.price = e.1 ∧ Q n)
    (hentry : ∀ id a, b'.orderIndex.lookup id = some a → R id a) : b'.Marked Q R := by
  have hboth : ∀ s, ∀ e ∈ (b'.levels s).entries, e.2 ≠ [] ∧
      ∀ n ∈ e.2, n.order.side = s ∧ n.order.price = e.1 ∧ Q n := by
    intro s e he
    rcases s.eq_or_eq_opposite t with rfl | rfl
    · exact hside e he
    · rw [hopp] at he
      exact h.entries _ e he
  exact ⟨fun s e he => (hboth s e he).1, fun s e he => (hboth s e he).2, hentry⟩

variable (hQ : ∀ n n', n.Same n' → Q n → Q n')

include hQ in
theorem Crossed.marked {l' : List (P × OrderList P)} {m' : Matching P}
    (hc : Crossed env o b l' m' o' b') (h : b.Marked Q R) : b'.Marked Q R := by
  have hopp : b'.levels o.side.opposite.opposite = b.levels o.side.opposite.opposite := by
    rw [Side.opposite_opposite]
    exact hc.own
  refine marked_of_side o.side.opposite h hopp (fun e he => ?_) (fun id a hl => ?_)
  · have hsame := matchLevels_same b.symbol env o.side.opposite
      (b.levels o.side.opposite).entries (b.matching o) (h.nonempty _)
    rw [hc.loop] at hsame
    rw [hc.opposite] at he
    obtain ⟨hne, e₀, he₀, hk, hnodes⟩ := hsame e he
    refine ⟨hne, fun n hn => ?_⟩
    obtain ⟨n₀, hn₀, hs⟩ := hnodes n hn
    obtain ⟨h₁, h₂, h₃⟩ := h.at_key _ e₀ he₀ n₀ hn₀
    exact ⟨hs.side.trans h₁, hs.price.trans (h₂.trans hk), hQ _ _ hs h₃⟩
  · rw [hc.orderIndex] at hl
    exact h.entry id a (hc.leads.lookup id a hl)

include hQ in
theorem rest_marked (h : b.Marked Q R) (hnode : Q ⟨b.nextNode, o⟩) (hentry : R o.id b.nextNode) :
    (b.rest o).2.Marked Q R := by
  have hsame := o.entry_same b.nextNode
  refine marked_of_side o.side h (levels_rest_opposite b o) (fun e he => ?_) (fun id a hl => ?_)
  · rw [levels_rest] at he
    exact OrdMap.forall_alter_join (T := fun k n => n.order.side = o.side ∧ n.order.price = k ∧ Q n)
      (h.entries o.side) ⟨hsame.side, hsame.price, hQ _ _ hsame hnode⟩ e he
  · have hlook : (b.rest o).2.orderIndex.lookup id =
        (b.orderIndex.insert o.id b.nextNode).lookup id := rfl
    rw [hlook] at hl
    by_cases hid : id = o.id
    · subst hid
      rw [AList.lookup_insert] at hl
      rw [← Option.some.inj hl]
      exact hentry
    · rw [AList.lookup_insert_ne hid] at hl
      exact h.entry id a hl

theorem levels_cutLevel (b : OrderBook P) (s : Side) (k : P) (rest : OrderList P) (ix : OrderIndex) :
    ((b.cutLevel s k rest).setIndex ix).levels s =
      (b.levels s).alter k fun _ => if rest.isEmpty then none else some rest := by
  rw [levels_congr (b := (b.cutLevel s k rest).setIndex ix) (c := b.cutLevel s k rest) rfl rfl]
  exact levels_setLevels b s _

theorem levels_cutLevel_opposite (b : OrderBook P) (s : Side) (k : P) (rest : OrderList P)
    (ix : OrderIndex) :
    ((b.cutLevel s k rest).setIndex ix).levels s.opposite = b.levels s.opposite := by
  rw [levels_congr (b := (b.cutLevel s k rest).setIndex ix) (c := b.cutLevel s k rest) rfl rfl]
  exact levels_setLevels_of_ne _ (Side.opposite_ne s)

/-- A level cut down to some of its nodes, and an index with fewer entries. -/
theorem cut_marked {s : Side} {k : P} {level rest : OrderList P} {ix : OrderIndex}
    (h : b.Marked Q R) (hfind : (b.levels s).find k = some level) (hsub : ∀ n ∈ rest, n ∈ level)
    (hix : ∀ id a, ix.lookup id = some a → b.orderIndex.lookup id = some a) :
    ((b.cutLevel s k rest).setIndex ix).Marked Q R := by
  refine marked_of_side s h (levels_cutLevel_opposite b s k rest ix) (fun e he => ?_)
    (fun id a hl => h.entry id a (hix id a hl))
  rw [levels_cutLevel] at he
  exact OrdMap.forall_alter_cut (T := fun k n => n.order.side = s ∧ n.order.price = k ∧ Q n)
    (h.entries s) (fun n hn => h.at_key s _ (OrdMap.find_eq_some_iff.mp hfind) n (hsub n hn)) e he

/-! ### The calls -/

/-- `add_order` matches and, if something of a limit order is left, rests it. -/
theorem addOrder_cases (env : Env) (b : OrderBook P) (o : Order P) :
    b.addOrder env o = b.matchLimitOrder env o ∨
      b.addOrder env o = (b.matchLimitOrder env o).2.rest (b.matchLimitOrder env o).1 := by
  unfold addOrder
  by_cases h : (b.matchLimitOrder env o).1.isFilled = false ∧
      (b.matchLimitOrder env o).1.type = .limit
  · exact .inr (if_pos h)
  · exact .inl (if_neg h)

/-- The order `add_order` returns. -/
theorem addOrder_settled (env : Env) (b : OrderBook P) (o : Order P) :
    ∃ f st, (b.addOrder env o).1 = { o with filledQty := f, status := st } := by
  obtain ⟨l', m', hc⟩ := matchLimitOrder_crossed env b o
  obtain ⟨f, st, hset⟩ := hc.settled
  rcases addOrder_cases env b o with heq | heq
  · exact ⟨f, st, by rw [heq, hset]⟩
  · rw [heq, OrderBook.rest]
    dsimp only
    split
    · exact ⟨f, .partFilled, by rw [hset]⟩
    · exact ⟨f, st, hset⟩

theorem deref_eq_some {it : ℕ} (h : b.deref it = some o) : ∃ n ∈ b.nodes, n.addr = it ∧ n.order = o := by
  obtain ⟨n, hn, rfl⟩ := Option.map_eq_some_iff.mp h
  exact ⟨n, List.mem_of_find?_eq_some hn, by simpa using List.find?_some hn, rfl⟩

/-- The level of a node is the one at its own side and price. -/
theorem Marked.find_level (h : b.Marked Q R) {n : Node P} (hn : n ∈ b.nodes) :
    ∃ level, (b.levels n.order.side).find n.order.price = some level ∧ n ∈ level := by
  obtain ⟨s, hs⟩ := mem_nodes.mp hn
  obtain ⟨e, he, hne⟩ := mem_queue.mp hs
  obtain ⟨hside, hprice, -⟩ := h.at_key s e he n hne
  refine ⟨e.2, ?_, hne⟩
  rw [hside, hprice]
  exact OrdMap.find_eq_some_iff.mpr he

/-- **What `cancel_order` does**, where it has a result: nothing, or it takes the node that the index
designates out of its level. -/
theorem Marked.cancelOrder_cases (h : b.Marked Q R) {id : Int32} {f : Bool}
    (hc : b.cancelOrder id = some (f, b')) :
    (b.orderIndex.lookup id = none ∧ f = false ∧ b' = b) ∨
      ∃ n ∈ b.nodes, b.orderIndex.lookup id = some n.addr ∧ b.deref n.addr = some n.order ∧
        ∃ level, (b.levels n.order.side).find n.order.price = some level ∧ n ∈ level ∧ f = true ∧
          b' = (b.cutLevel n.order.side n.order.price
            (level.filter fun x => x.addr ≠ n.addr)).setIndex (b.orderIndex.erase id) := by
  rw [cancelOrder] at hc
  cases hl : b.orderIndex.lookup id with
  | none =>
      rw [hl] at hc
      obtain ⟨rfl, rfl⟩ := Prod.mk.inj (Option.some.inj hc)
      exact .inl ⟨rfl, rfl, rfl⟩
  | some it =>
      rw [hl] at hc
      dsimp only at hc
      cases hd : b.deref it with
      | none => rw [hd] at hc; cases hc
      | some o =>
          obtain ⟨n, hn, rfl, rfl⟩ := deref_eq_some hd
          obtain ⟨level, hfind, hmem⟩ := h.find_level hn
          have hany : level.any (fun x => decide (x.addr = n.addr)) = true :=
            List.any_eq_true.mpr ⟨n, hmem, by simp⟩
          simp only [hd, hfind, hany, if_true] at hc
          obtain ⟨rfl, rfl⟩ := Prod.mk.inj (Option.some.inj hc)
          exact .inr ⟨n, hn, rfl, hd, level, hfind, hmem, rfl, rfl⟩

theorem lookup_erase_some {ix : OrderIndex} {id id' : Int32} {a : ℕ}
    (h : (ix.erase id).lookup id' = some a) : id' ≠ id ∧ ix.lookup id' = some a := by
  by_cases hid : id' = id
  · subst hid
    rw [AList.lookup_erase] at h
    cases h
  · rw [AList.lookup_erase_ne hid] at h
    exact ⟨hid, h⟩

theorem Marked.cancelOrder (h : b.Marked Q R) {id : Int32} {f : Bool}
    (hc : b.cancelOrder id = some (f, b')) : b'.Marked Q R := by
  rcases h.cancelOrder_cases hc with ⟨-, -, rfl⟩ | ⟨n, -, -, -, level, hfind, -, -, rfl⟩
  · exact h
  · exact cut_marked h hfind (fun x hx => List.mem_of_mem_filter hx)
      fun id' a hl => (lookup_erase_some hl).2

omit [LinearOrder P] in
/-- What `update_level` erases from the index. -/
theorem lookup_eraseIds_some {ix : OrderIndex} {l : OrderList P} {id : Int32} {a : ℕ}
    (h : (eraseIds ix l).lookup id = some a) : ix.lookup id = some a := by
  rw [lookup_eraseIds] at h
  split at h
  · cases h
  · exact h

theorem Marked.updateLevel (h : b.Marked Q R) (side : Side) (price : P) (size : Int32) :
    (b.updateLevel side price size).Marked Q R := by
  unfold OrderBook.updateLevel
  split
  · cases hfind : (b.levels side).find price with
    | none => exact h
    | some level =>
        exact cut_marked h hfind (fun n hn => absurd hn List.not_mem_nil)
          fun id a hl => lookup_eraseIds_some hl
  · exact h

include hQ in
/-- An order joins the book with what is true of it. -/
theorem Marked.addOrder (h : b.Marked Q R) (env : Env) (o : Order P)
    (hnew : b.nextNode < (b.addOrder env o).2.nextNode →
      Q ⟨b.nextNode, o⟩ ∧ R o.id b.nextNode) : (b.addOrder env o).2.Marked Q R := by
  obtain ⟨l', m', hc⟩ := matchLimitOrder_crossed env b o
  have hm := hc.marked hQ h
  obtain ⟨f, st, hset⟩ := hc.settled
  rcases addOrder_cases env b o with heq | heq
  · rw [heq]
    exact hm
  · have hlt : b.nextNode < (b.addOrder env o).2.nextNode := by
      rw [heq, ← hc.nextNode]
      exact Nat.lt_succ_self _
    obtain ⟨hnode, hentry⟩ := hnew hlt
    rw [heq]
    refine rest_marked hQ hm ?_ ?_
    · rw [hc.nextNode]
      exact hQ ⟨b.nextNode, o⟩ _ ⟨rfl, f, st, hset⟩ hnode
    · rw [hc.nextNode, hset]
      exact hentry

theorem matchLimitOrder_trades (env : Env) (b : OrderBook P) (o : Order P) :
    b.trades <+: (b.matchLimitOrder env o).2.trades := by
  obtain ⟨l', m', hc⟩ := matchLimitOrder_crossed env b o
  rw [hc.trades]
  exact hc.leads.trades

/-- What is left of an order rests without a trade. -/
theorem trades_addOrder (env : Env) (b : OrderBook P) (o : Order P) :
    (b.addOrder env o).2.trades = (b.matchLimitOrder env o).2.trades := by
  rcases addOrder_cases env b o with heq | heq
  · rw [heq]
  · rw [heq]
    rfl

theorem updateLevel_trades (b : OrderBook P) (side : Side) (price : P) (size : Int32) :
    (b.updateLevel side price size).trades = b.trades := by
  unfold OrderBook.updateLevel
  split
  · split
    · rfl
    · rfl
  · rfl

/-- What a call asks of the order it may put in the book. -/
def Admits (Q : Node P → Prop) (R : Int32 → ℕ → Prop) (b : OrderBook P) : BookOp P → Prop
  | .add _ o => Q ⟨b.nextNode, o⟩ ∧ R o.id b.nextNode
  | .modify _ _ p q => ∀ n ∈ b.nodes, Q ⟨b.nextNode, resubmitted n.order p q⟩ ∧
      R n.order.id b.nextNode
  | _ => True

/-- Marks that the next address has whatever is put there. -/
theorem admits_of_new (hnode : ∀ o, Q ⟨b.nextNode, o⟩) (hentry : ∀ id, R id b.nextNode)
    (op : BookOp P) : b.Admits Q R op := by
  cases op with
  | add env o => exact ⟨hnode o, hentry o.id⟩
  | modify env id p q => exact fun n _ => ⟨hnode _, hentry _⟩
  | addMarket env o => trivial
  | cancel id => trivial
  | updateLevel s p n => trivial

theorem cancelOrder_nextNode (h : b.Marked Q R) {id : Int32} {f : Bool}
    (hc : b.cancelOrder id = some (f, b')) : b'.nextNode = b.nextNode := by
  rcases h.cancelOrder_cases hc with ⟨-, -, rfl⟩ | ⟨n, -, -, -, level, -, -, -, rfl⟩
  · rfl
  · rfl

theorem cancelOrder_trades (h : b.Marked Q R) {id : Int32} {f : Bool}
    (hc : b.cancelOrder id = some (f, b')) : b'.trades = b.trades := by
  rcases h.cancelOrder_cases hc with ⟨-, -, rfl⟩ | ⟨n, -, -, -, level, -, -, -, rfl⟩
  · rfl
  · rfl

/-- **What `modify_order` does**, where it has a result: it rejects an unknown id, or cancels the
order and submits it anew. -/
theorem modifyOrder_cases [Zero P] {id : Int32} {p : P} {q : Int32}
    (hm : b.modifyOrder env id p q = some (o', b')) :
    (b.orderIndex.lookup id = none ∧
      o' = { Order.blank with id := invalidOrderId, status := .rejected } ∧ b' = b) ∨
    ∃ it o f b₁, b.orderIndex.lookup id = some it ∧ b.deref it = some o ∧
      b.cancelOrder id = some (f, b₁) ∧ b₁.addOrder env (resubmitted o p q) = (o', b') := by
  rw [modifyOrder] at hm
  cases hl : b.orderIndex.lookup id with
  | none =>
      rw [hl] at hm
      obtain ⟨rfl, rfl⟩ := Prod.mk.inj (Option.some.inj hm)
      exact .inl ⟨rfl, rfl, rfl⟩
  | some it =>
      rw [hl] at hm
      simp only [Option.bind_eq_bind, Option.bind_eq_some_iff] at hm
      obtain ⟨o, hd, ⟨f, b₁⟩, hc, heq⟩ := hm
      exact .inr ⟨it, o, f, b₁, rfl, hd, hc, Option.some.inj heq⟩

include hQ in
/-- **A call keeps the marks.** -/
theorem Marked.step [Zero P] {op : BookOp P} {r : BookResult P} (h : b.Marked Q R)
    (hs : b.step op = some (r, b')) (hadm : b.nextNode < b'.nextNode → b.Admits Q R op) :
    b'.Marked Q R := by
  cases op with
  | add env o =>
      rw [step_add] at hs
      obtain ⟨-, rfl⟩ := Prod.mk.inj (Option.some.inj hs)
      exact h.addOrder hQ env o hadm
  | addMarket env o =>
      rw [step_addMarket] at hs
      obtain ⟨-, rfl⟩ := Prod.mk.inj (Option.some.inj hs)
      obtain ⟨l', m', hc⟩ := matchLimitOrder_crossed env b o.asMarket
      exact hc.marked hQ h
  | cancel id =>
      obtain ⟨⟨f, b₁⟩, hc, heq⟩ := Option.map_eq_some_iff.mp hs
      obtain ⟨-, rfl⟩ := Prod.mk.inj heq
      exact h.cancelOrder hc
  | modify env id p q =>
      obtain ⟨⟨o', b₁⟩, hm, heq⟩ := Option.map_eq_some_iff.mp hs
      obtain ⟨-, rfl⟩ := Prod.mk.inj heq
      rcases modifyOrder_cases hm with ⟨-, -, rfl⟩ | ⟨it, o, f, b₂, -, hd, hc, hadd⟩
      · exact h
      · obtain ⟨n, hn, -, rfl⟩ := deref_eq_some hd
        have hnext := cancelOrder_nextNode h hc
        have hb₂ := h.cancelOrder hc
        have hkeep := hb₂.addOrder hQ env (resubmitted n.order p q) fun hlt => ?_
        · rw [hadd] at hkeep
          exact hkeep
        · rw [hadd, hnext] at hlt
          rw [hnext]
          exact hadm hlt n hn
  | updateLevel s p n =>
      obtain ⟨-, rfl⟩ := Prod.mk.inj (Option.some.inj hs)
      exact h.updateLevel s p n

end Marked

/-! ### What calls are made of -/

/-- What a call does to the book, whatever is submitted: it runs the loops, rests what they leave of
an order, takes out the node that an index entry designates, or drops a level. -/
inductive Move (b : OrderBook P) : OrderBook P → Prop where
  | cross (env : Env) (o : Order P) : Move b (b.matchLimitOrder env o).2
  | rest (o : Order P) : Move b (b.rest o).2
  | cancel {id : Int32} {n : Node P} {level : OrderList P}
      (hx : b.orderIndex.lookup id = some n.addr)
      (hfind : (b.levels n.order.side).find n.order.price = some level) :
      Move b ((b.cutLevel n.order.side n.order.price
        (level.filter fun x => x.addr ≠ n.addr)).setIndex (b.orderIndex.erase id))
  | drop {s : Side} {p : P} {level : OrderList P} (hfind : (b.levels s).find p = some level) :
      Move b ((b.cutLevel s p []).setIndex (eraseIds b.orderIndex level))

section Move

variable {I : OrderBook P → Prop} (hI : ∀ {b b'}, I b → Move b b' → I b')

include hI in
theorem addOrder_of_move (h : I b) (env : Env) (o : Order P) : I (b.addOrder env o).2 := by
  have hcross : I (b.matchLimitOrder env o).2 := hI h (.cross env o)
  rcases addOrder_cases env b o with heq | heq
  · rw [heq]
    exact hcross
  · rw [heq]
    exact hI hcross (.rest _)

include hI in
theorem cancelOrder_of_move {Q : Node P → Prop} {R : Int32 → ℕ → Prop} (hm : b.Marked Q R) (h : I b)
    {id : Int32} {f : Bool} (hc : b.cancelOrder id = some (f, b')) : I b' := by
  rcases hm.cancelOrder_cases hc with ⟨-, -, rfl⟩ | ⟨n, -, hx, -, level, hfind, -, -, rfl⟩
  · exact h
  · exact hI h (.cancel hx hfind)

include hI in
/-- **What every move keeps, every call keeps.** -/
theorem step_of_move [Zero P] {Q : Node P → Prop} {R : Int32 → ℕ → Prop} {op : BookOp P}
    {r : BookResult P} (hm : b.Marked Q R) (h : I b) (hs : b.step op = some (r, b')) : I b' := by
  cases op with
  | add env o =>
      obtain ⟨-, rfl⟩ := Prod.mk.inj (Option.some.inj hs)
      exact addOrder_of_move hI h env o
  | addMarket env o =>
      obtain ⟨-, rfl⟩ := Prod.mk.inj (Option.some.inj hs)
      exact hI h (.cross env o.asMarket)
  | cancel id =>
      obtain ⟨⟨f, b₁⟩, hc, heq⟩ := Option.map_eq_some_iff.mp hs
      obtain ⟨-, rfl⟩ := Prod.mk.inj heq
      exact cancelOrder_of_move hI hm h hc
  | modify env id p q =>
      obtain ⟨⟨o', b₁⟩, hmod, heq⟩ := Option.map_eq_some_iff.mp hs
      obtain ⟨-, rfl⟩ := Prod.mk.inj heq
      rcases modifyOrder_cases hmod with ⟨-, -, rfl⟩ | ⟨it, o, f, b₂, -, -, hc, hadd⟩
      · exact h
      · have hadded := addOrder_of_move hI (cancelOrder_of_move hI hm h hc) env (resubmitted o p q)
        rw [hadd] at hadded
        exact hadded
  | updateLevel s p n =>
      obtain ⟨-, rfl⟩ := Prod.mk.inj (Option.some.inj hs)
      unfold OrderBook.updateLevel
      split
      · cases hfind : (b.levels s).find p with
        | none => exact h
        | some level => exact hI h (.drop hfind)
      · exact h

end Move

theorem Move.nextNode_le (h : Move b b') : b.nextNode ≤ b'.nextNode := by
  cases h with
  | cross => exact Nat.le_refl b.nextNode
  | rest => exact Nat.le_succ b.nextNode
  | cancel => exact Nat.le_refl b.nextNode
  | drop => exact Nat.le_refl b.nextNode

theorem Move.trades (h : Move b b') : b.trades <+: b'.trades := by
  cases h with
  | cross env o => exact matchLimitOrder_trades env b o
  | rest => exact List.prefix_rfl
  | cancel => exact List.prefix_rfl
  | drop => exact List.prefix_rfl

/-! ### Books that calls lead to -/

section Reached

variable [Zero P]

/-- The books that calls lead to. -/
inductive Reached : OrderBook P → Prop where
  | init (symbol : List UInt8) : Reached (init symbol)
  | step {b b' : OrderBook P} {op : BookOp P} {r : BookResult P} (h : Reached b)
      (hs : b.step op = some (r, b')) : Reached b'
  | drain {b : OrderBook P} (h : Reached b) : Reached b.drainTrades.2

/-- The addresses of the nodes and of the index are among those given out. -/
def Addressed (b : OrderBook P) : Prop :=
  b.Marked (fun n => n.addr < b.nextNode) (fun _ a => a < b.nextNode)

omit [Zero P] in
theorem init_marked (Q : Node P → Prop) (R : Int32 → ℕ → Prop) (symbol : List UInt8) :
    (init symbol : OrderBook P).Marked Q R := by
  refine ⟨fun s e he => ?_, fun s e he => ?_, fun id a hl => nomatch hl⟩
  · cases s <;> exact absurd he List.not_mem_nil
  · cases s <;> exact absurd he List.not_mem_nil

theorem step_nextNode_le {Q : Node P → Prop} {R : Int32 → ℕ → Prop} {op : BookOp P}
    {r : BookResult P} (h : b.Marked Q R) (hs : b.step op = some (r, b')) :
    b.nextNode ≤ b'.nextNode :=
  step_of_move (I := fun c => b.nextNode ≤ c.nextNode)
    (fun hle hmove => hle.trans hmove.nextNode_le) h le_rfl hs

/-- **Calls append to the trade buffer.** -/
theorem step_trades {Q : Node P → Prop} {R : Int32 → ℕ → Prop} {op : BookOp P}
    {r : BookResult P} (h : b.Marked Q R) (hs : b.step op = some (r, b')) :
    b.trades <+: b'.trades :=
  step_of_move (I := fun c => b.trades <+: c.trades) (fun hpre hmove => hpre.trans hmove.trades) h
    List.prefix_rfl hs

section Run

variable {Q : Node P → Prop} {R : Int32 → ℕ → Prop} {rs : List (BookResult P)}
  {ops : List (BookOp P)}

/-- **A run keeps the marks** that every new address has. -/
theorem Marked.run (hQ : ∀ n n', n.Same n' → Q n → Q n') (h : b.Marked Q R)
    (hnode : ∀ a, b.nextNode ≤ a → ∀ o, Q ⟨a, o⟩) (hentry : ∀ a, b.nextNode ≤ a → ∀ id, R id a)
    (hs : b.run ops = some (rs, b')) : b'.Marked Q R := by
  -- Along the run, an address that is new is new with respect to `b`.
  have hkeep : ∀ (c : OrderBook P) op r c', op ∈ ops → b.nextNode ≤ c.nextNode ∧ c.Marked Q R →
      c.step op = some (r, c') → b.nextNode ≤ c'.nextNode ∧ c'.Marked Q R := by
    rintro c op r c' - ⟨hle, hc⟩ hstep
    have hadm : c.Admits Q R op := admits_of_new (hnode _ hle) (hentry _ hle) op
    exact ⟨hle.trans (step_nextNode_le hc hstep), hc.step hQ hstep fun _ => hadm⟩
  exact (Run.exec_invariant (I := fun c => b.nextNode ≤ c.nextNode ∧ c.Marked Q R) hkeep
    ⟨le_rfl, h⟩ hs).2

theorem run_trades (h : b.Marked Q R) (hs : b.run ops = some (rs, b')) :
    b.trades <+: b'.trades := by
  have hplain : b.Marked (fun _ => True) (fun _ _ => True) :=
    h.mono (fun _ _ => trivial) fun _ _ _ => trivial
  have hkeep : ∀ (c : OrderBook P) op r c', op ∈ ops →
      b.trades <+: c.trades ∧ c.Marked (fun _ => True) (fun _ _ => True) →
      c.step op = some (r, c') →
      b.trades <+: c'.trades ∧ c'.Marked (fun _ => True) (fun _ _ => True) := by
    rintro c op r c' - ⟨hpre, hc⟩ hstep
    refine ⟨hpre.trans (step_trades hc hstep), hc.step (fun _ _ _ _ => trivial) hstep fun _ => ?_⟩
    exact admits_of_new (fun _ => trivial) (fun _ => trivial) op
  exact (Run.exec_invariant
    (I := fun c => b.trades <+: c.trades ∧ c.Marked (fun _ => True) (fun _ _ => True)) hkeep
    ⟨List.prefix_rfl, hplain⟩ hs).1

end Run

theorem Reached.run {rs : List (BookResult P)} {ops : List (BookOp P)} (h : Reached b)
    (hs : b.run ops = some (rs, b')) : Reached b' :=
  Run.exec_invariant (I := Reached) (fun _ _ _ _ _ hb hstep => hb.step hstep) h hs

/-- **Addresses are given out once.** -/
theorem Reached.addressed (h : Reached b) : b.Addressed := by
  induction h with
  | init symbol => exact init_marked _ _ symbol
  | @step b b' op r _ hs ih =>
      have hle := step_nextNode_le ih hs
      have hmono : b.Marked (fun n => n.addr < b'.nextNode) (fun _ a => a < b'.nextNode) :=
        ih.mono (fun n hn => hn.trans_le hle) fun id a ha => ha.trans_le hle
      refine hmono.step (fun n n' hs hn => ?_) hs fun hlt => ?_
      · show n'.addr < b'.nextNode
        rw [hs.1]
        exact hn
      · apply admits_of_new
        · exact fun _ => hlt
        · exact fun _ => hlt
  | drain _ ih => exact Marked.congr ih rfl rfl rfl

end Reached

end OrderBook

end Aspira
