import Aspira.Book.Ledger
import Aspira.Book.Seen

/-!
# Book — an order that never trades

A limit order that is submitted, makes no trade and is cancelled leaves no trace: without the two
calls every other call returns the same, the same trades are made, and the book ends the same, up to
the addresses of the nodes that came after it (`no_trace`).

Between the two calls the order is hidden (`View.without`): the other book is what is seen of this
one.
-/

namespace Aspira

variable {P : Type}

/-- The same call at another time. -/
inductive BookOp.Retimed : BookOp P → BookOp P → Prop where
  | add (env env' : Env) (o : Order P) : Retimed (.add env o) (.add env' o)
  | addMarket (env env' : Env) (o : Order P) : Retimed (.addMarket env o) (.addMarket env' o)
  | cancel (id : Int32) : Retimed (.cancel id) (.cancel id)
  | modify (env env' : Env) (id : Int32) (p : P) (q : Int32) :
      Retimed (.modify env id p q) (.modify env' id p q)
  | updateLevel (s : Side) (p : P) (n : Int32) : Retimed (.updateLevel s p n) (.updateLevel s p n)

theorem BookOp.Retimed.refl (op : BookOp P) : op.Retimed op := by
  cases op with
  | add env o => exact .add env env o
  | addMarket env o => exact .addMarket env env o
  | cancel id => exact .cancel id
  | modify env id p q => exact .modify env env id p q
  | updateLevel s p n => exact .updateLevel s p n

namespace View

/-- The view that shows all there is. -/
def plain : View where
  addr := some
  stamp := id
  label := id
  addr_inj := some_addr_inj
  stamp_zero := rfl
  label_blank := rfl

/-- The view that hides the node at address `x`, as if it had not been given out. -/
def without (x : ℕ) : View where
  addr := fun a => if a = x then none else if a < x then some a else some (a - 1)
  stamp := id
  label := id
  addr_inj := by
    intro a a' c h h'
    grind
  stamp_zero := rfl
  label_blank := rfl

/-- A view that changes no label. -/
def Verbatim (v : View) : Prop := v.stamp = id ∧ v.label = id

variable {v : View}

theorem Verbatim.order (h : v.Verbatim) (o : Order P) : v.order o = o := by
  unfold View.order
  rw [h.1, h.2]
  rfl

theorem Verbatim.result (h : v.Verbatim) (r : BookResult P) : v.result r = r := by
  cases r with
  | order o => exact congrArg BookResult.order (h.order o)
  | flag b => rfl
  | done => rfl

theorem Verbatim.results (h : v.Verbatim) (rs : List (BookResult P)) : rs.map v.result = rs := by
  have hid : v.result = (id : BookResult P → BookResult P) := funext h.result
  rw [hid, List.map_id]

theorem Verbatim.sameCall [LinearOrder P] (h : v.Verbatim) {op op' : BookOp P}
    (hop : op.Retimed op') : OrderBook.SameCall v op op' := by
  cases hop with
  | add env env' o =>
      have hc := OrderBook.SameCall.add (v := v) env env' o
      rw [h.order] at hc
      exact hc
  | addMarket env env' o =>
      have hc := OrderBook.SameCall.addMarket (v := v) env env' o
      rw [h.order] at hc
      exact hc
  | cancel id => exact .cancel id
  | modify env env' id p q => exact .modify env env' id p q
  | updateLevel s p n => exact .updateLevel s p n

theorem without_eq_none {x a : ℕ} : (without x).addr a = none ↔ a = x := by
  unfold without
  grind

theorem without_of_lt {x a : ℕ} (h : a < x) : (without x).addr a = some a := by
  unfold without
  grind

theorem without_of_gt {x k : ℕ} : (without x).addr (x + 1 + k) = some (x + k) := by
  unfold without
  grind

end View

/-- The matching loops change nothing where they make no trade. -/
theorem matchLevels_of_no_trade [LinearOrder P] (symbol : List UInt8) (env : Env) {s : Side}
    {l : List (P × OrderList P)} {m : Matching P} (hne : ∀ e ∈ l, e.2 ≠ [])
    (h : (matchLevels symbol env s l m).2.trades = m.trades) :
    matchLevels symbol env s l m = (l, m) := by
  cases l with
  | nil => rfl
  | cons e l =>
      by_cases h₀ : 0 < m.order.remaining
      · by_cases hb : Blocked s m.order e.1
        · rw [matchLevels, if_pos h₀]
          exact if_pos hb
        · obtain ⟨n, q, hq⟩ := List.exists_cons_of_ne_nil (hne e (List.mem_cons_self ..))
          rw [View.matchLevels_cons symbol env h₀ hb rfl rfl] at h
          have hhit := View.matchLevel_hit symbol env e.1 n q h₀
          rw [← hq] at hhit
          have hlater := hhit.trans (matchLevels_leads symbol env s l _).trades
          rw [h] at hlater
          have hlen := hlater.length_le
          rw [show (m.hit symbol env e.1 n.order).trades =
            m.trades ++ [m.deal symbol env e.1 n.order] from rfl, List.length_append] at hlen
          exact absurd hlen (Nat.not_succ_le_self _)
      · exact View.matchLevels_of_exhausted symbol env h₀

namespace OrderBook

variable [LinearOrder P] {b b' : OrderBook P} {v : View}

/-- No order of the book has the id, nor has the index. -/
def Fresh (b : OrderBook P) (id : Int32) : Prop :=
  b.orderIndex.lookup id = none ∧ ∀ n ∈ b.nodes, n.order.id ≠ id

instance (b : OrderBook P) (id : Int32) : Decidable (b.Fresh id) :=
  inferInstanceAs (Decidable (_ ∧ _))

/-- A book seen through a view that shows all there is. -/
theorem seen_plain {Q : Node P → Prop} {R : Int32 → ℕ → Prop} (h : b.Marked Q R) :
    Seen View.plain ∅ b b where
  levels := by
    intro s
    refine OrdMap.ext ?_
    rw [entries_side (h.nonempty s) fun e he n hn => Option.some_ne_none _]
    refine (List.map_id' _).symm.trans (List.map_congr_left fun e he => ?_)
    exact Prod.ext rfl (List.map_id' _).symm
  marked := h.mono (fun n _ => iff_of_false (Option.some_ne_none _) id)
    fun _ a _ => iff_of_false (Option.some_ne_none _) id
  lookup := fun id => (Option.bind_fun_some _).symm
  nextTradeId := rfl
  nextNode := fun k => rfl

/-! ### The order joins the book -/

/-- `match_limit_order` changes nothing where it makes no trade. -/
theorem Crossed.of_no_trade {env : Env} {o o' : Order P} {l' : List (P × OrderList P)}
    {m' : Matching P} (hc : Crossed env o b l' m' o' b')
    (hne : ∀ s, ∀ e ∈ (b.levels s).entries, e.2 ≠ []) (ht : b'.trades = b.trades) :
    (∀ s, b'.levels s = b.levels s) ∧ b'.orderIndex = b.orderIndex ∧
      b'.nextTradeId = b.nextTradeId := by
  have hloop := matchLevels_of_no_trade b.symbol env (hne o.side.opposite)
    (m := b.matching o) (by rw [hc.loop]; exact hc.trades.symm.trans ht)
  rw [hc.loop] at hloop
  obtain ⟨rfl, rfl⟩ := Prod.mk.inj hloop
  refine ⟨fun s => ?_, hc.orderIndex, hc.nextTradeId⟩
  rcases s.eq_or_eq_opposite o.side with rfl | rfl
  · exact hc.own
  · exact OrdMap.ext hc.opposite

section Added

variable {env : Env} {x r : Order P} {b₁ : OrderBook P}

/-- The order is not put in the book: nothing is hidden. -/
theorem Seen.of_unrested (h : Seen View.plain ∅ b b') (hfresh : b.Fresh x.id)
    (hadd : b.matchLimitOrder env x = (r, b₁)) (hquiet : b₁.trades = b.trades) :
    Seen View.plain {x.id} b₁ b' := by
  obtain ⟨l', m', hc⟩ := matchLimitOrder_crossed env b x
  rw [hadd] at hc
  obtain ⟨hlevels, hix, hid⟩ := hc.of_no_trade h.marked.nonempty hquiet
  have hmark : b.Marked (fun n => View.plain.addr n.addr = none ↔ n.order.id ∈ ({x.id} : Set Int32))
      (fun id a => View.plain.addr a = none ↔ id ∈ ({x.id} : Set Int32)) := by
    refine h.marked.imp (fun n hn _ => ?_) fun id a hl _ => ?_
    · exact iff_of_false (Option.some_ne_none _) (hfresh.2 n hn)
    · refine iff_of_false (Option.some_ne_none _) fun he => ?_
      rw [Set.mem_singleton_iff.mp he, hfresh.1] at hl
      cases hl
  refine ⟨fun s => ?_, hc.marked View.hides_same hmark, fun id => ?_, ?_, fun k => ?_⟩
  · rw [hlevels]
    exact h.levels s
  · rw [hix]
    exact h.lookup id
  · rw [hid]
    exact h.nextTradeId
  · rw [hc.nextNode]
    exact h.nextNode k

/-- A view that hides none of the addresses given out shows what is there. -/
theorem side_without (hb : b.Addressed) (s : Side) :
    (View.without b.nextNode).side (b.levels s) = View.plain.side (b.levels s) := by
  have haddr : ∀ e ∈ (b.levels s).entries, ∀ n ∈ e.2,
      (View.without b.nextNode).addr n.addr = some n.addr := fun e he n hn =>
    View.without_of_lt (hb.at_key s e he n hn).2.2
  refine OrdMap.ext ?_
  rw [entries_side (hb.nonempty s) fun e he n hn => by rw [haddr e he n hn]; exact Option.some_ne_none _,
    entries_side (hb.nonempty s) fun e he n hn => Option.some_ne_none _]
  refine List.map_congr_left fun e he => Prod.ext rfl (List.map_congr_left fun n hn => ?_)
  rw [haddr e he n hn]
  rfl

/-- The order is put in the book: it is hidden. -/
theorem Seen.of_rested (h : Seen View.plain ∅ b b') (hb : b.Addressed) (hfresh : b.Fresh x.id)
    (hadd : (b.matchLimitOrder env x).2.rest (b.matchLimitOrder env x).1 = (r, b₁))
    (hquiet : b₁.trades = b.trades) : Seen (View.without b.nextNode) {x.id} b₁ b' := by
  obtain ⟨l', m', hc⟩ := matchLimitOrder_crossed env b x
  generalize (b.matchLimitOrder env x).1 = o at hc hadd
  generalize (b.matchLimitOrder env x).2 = b₀ at hc hadd
  obtain rfl : (b₀.rest o).2 = b₁ := congrArg Prod.snd hadd
  obtain ⟨f, st, hset⟩ := hc.settled
  have hoid : o.id = x.id := by rw [hset]
  obtain ⟨hlevels, hix, hid⟩ := hc.of_no_trade h.marked.nonempty hquiet
  have hnext : b'.nextNode = b.nextNode := (Option.some.inj (h.nextNode 0)).symm
  have hhidden : (View.without b.nextNode).addr b₀.nextNode = none := by
    rw [hc.nextNode]
    exact View.without_eq_none.mpr rfl
  have hmark : b.Marked
      (fun n => (View.without b.nextNode).addr n.addr = none ↔ n.order.id ∈ ({x.id} : Set Int32))
      (fun id a => (View.without b.nextNode).addr a = none ↔ id ∈ ({x.id} : Set Int32)) := by
    refine hb.imp (fun n hn hlt => ?_) fun id a hl hlt => ?_
    · rw [View.without_of_lt hlt]
      exact iff_of_false (Option.some_ne_none _) (hfresh.2 n hn)
    · rw [View.without_of_lt hlt]
      refine iff_of_false (Option.some_ne_none _) fun he => ?_
      rw [Set.mem_singleton_iff.mp he, hfresh.1] at hl
      cases hl
  have hnode : (View.without b.nextNode).addr b₀.nextNode = none ↔ o.id ∈ ({x.id} : Set Int32) :=
    iff_of_true hhidden hoid
  refine ⟨fun s => ?_, rest_marked View.hides_same (hc.marked View.hides_same hmark) hnode hnode,
    fun id => ?_, ?_, fun k => ?_⟩
  · rw [h.levels, ← side_without hb, ← hlevels]
    rcases s.eq_or_eq_opposite o.side with rfl | rfl
    · have hsame : (some (((b₀.levels o.side).find o.price).getD [] ++
          [⟨b₀.nextNode, o.entry⟩])).bind (View.without b.nextNode).level =
          id (((b₀.levels o.side).find o.price).bind (View.without b.nextNode).level) := by
        rw [Option.bind_some, View.level, View.queue_append, View.queue_cons_hidden hhidden,
          View.queue_nil, List.append_nil]
        cases (b₀.levels o.side).find o.price with
        | none => rfl
        | some l => rfl
      rw [levels_rest]
      exact ((OrdMap.restrict_alter hsame).trans (OrdMap.alter_id _ _)).symm
    · rw [levels_rest_opposite]
  · have hins : (b₀.rest o).2.orderIndex = b₀.orderIndex.insert o.id b₀.nextNode := rfl
    rw [hins, hix, hoid, h.lookup]
    by_cases he : id = x.id
    · rw [he, AList.lookup_insert, hfresh.1, Option.bind_some, hhidden]
      rfl
    · rw [AList.lookup_insert_ne he]
      cases hl : b.orderIndex.lookup id with
      | none => rfl
      | some a => exact (View.without_of_lt (hb.entry id a hl)).symm
  · exact h.nextTradeId.trans hid.symm
  · show (View.without b.nextNode).addr (b₀.nextNode + 1 + k) = some (b'.nextNode + k)
    rw [hc.nextNode, hnext]
    exact View.without_of_gt

end Added

/-! ### The order is cancelled -/

/-- Once the one hidden order is cancelled, nothing is hidden. -/
theorem Seen.shown {a : ℕ} {id : Int32} {s : Side} {k : P} {b₁ : OrderBook P}
    (h : Seen (View.without a) {id} b b')
    (hpin : b.Marked (fun n => n.addr = a → n.order.side = s ∧ n.order.price = k)
      (fun _ _ => True))
    (hc : b.cancelOrder id = some (true, b₁)) : Seen (View.without a) ∅ b₁ b' := by
  have h₁ := h.cancel_hidden (Set.mem_singleton id) hc
  have hpin₁ := hpin.cancelOrder hc
  rcases h.marked.cancelOrder_cases hc with ⟨-, hfalse, -⟩ |
    ⟨n, hn, hl, -, level, hfind, -, -, hb₁⟩
  · cases hfalse
  · obtain rfl : n.addr = a :=
      View.without_eq_none.mp ((h.marked.entry id n.addr hl).mpr (Set.mem_singleton id))
    obtain ⟨rfl, rfl⟩ := hpin.node hn rfl
    refine ⟨h₁.levels, h₁.marked.imp (fun x hx _ => ?_) fun id' a hl' hhid => ?_, h₁.lookup,
      h₁.nextTradeId, h₁.nextNode⟩
    · refine iff_of_false (fun hnone => ?_) (Set.notMem_empty _)
      -- a node left at the address lies on the level that was cut
      have hx' := View.without_eq_none.mp hnone
      obtain ⟨hside, hprice⟩ := hpin₁.node hx hx'
      obtain ⟨level₁, hfind₁, hmem⟩ := hpin₁.find_level hx
      rw [hside, hprice, hb₁, levels_cutLevel] at hfind₁
      rcases OrdMap.mem_alter.mp (OrdMap.find_eq_some_iff.mp hfind₁) with ⟨-, hne⟩ | ⟨-, heq⟩
      · exact hne rfl
      · split at heq
        · cases heq
        · obtain rfl := Option.some.inj heq
          have hne := List.of_mem_filter hmem
          rw [hx'] at hne
          simp at hne
    · refine iff_of_false (fun hnone => ?_) (Set.notMem_empty _)
      have hid := Set.mem_singleton_iff.mp (hhid.mp hnone)
      have hix : b₁.orderIndex = b.orderIndex.erase id := by rw [hb₁]; rfl
      rw [hix, hid, AList.lookup_erase] at hl'
      cases hl'

/-! ### No trace -/

/-- The address is that of a node, or one that the index designates. -/
def Uses (b : OrderBook P) (a : ℕ) : Prop :=
  (∃ n ∈ b.nodes, n.addr = a) ∨ ∃ id, b.orderIndex.lookup id = some a

/-- The books differ in the addresses of their nodes only: the levels, the orders on them, their
places in the queue and what the index designates are the same. -/
structure Renamed (ρ : ℕ → ℕ) (b b' : OrderBook P) : Prop where
  inj : Set.InjOn ρ { a | b.Uses a }
  levels : ∀ s, (b'.levels s).entries = (b.levels s).entries.map fun e =>
    (e.1, e.2.map fun n => ⟨ρ n.addr, n.order⟩)
  lookup : ∀ id, b'.orderIndex.lookup id = (b.orderIndex.lookup id).map ρ

/-- A book of which all is seen as it is. -/
theorem Seen.renamed (h : Seen v ∅ b b') (hv : v.Verbatim) :
    Renamed (fun a => (v.addr a).getD 0) b b' where
  inj := by
    have hseen : ∀ a, b.Uses a → v.addr a ≠ none := by
      rintro a (⟨n, hn, rfl⟩ | ⟨id, hl⟩)
      · exact fun hnone => (h.marked.node hn).mp hnone
      · exact fun hnone => (h.marked.entry id a hl).mp hnone
    intro a ha a' ha' heq
    obtain ⟨c, hc⟩ := Option.ne_none_iff_exists'.mp (hseen a ha)
    obtain ⟨c', hc'⟩ := Option.ne_none_iff_exists'.mp (hseen a' ha')
    simp only [hc, hc', Option.getD_some] at heq
    subst heq
    exact v.addr_inj a a' c hc hc'
  levels := by
    intro s
    rw [h.levels, entries_side (h.marked.nonempty s) fun e he n hn hnone =>
      (h.marked.at_key s e he n hn).2.2.mp hnone]
    simp only [hv.order]
  lookup := by
    intro id
    rw [h.lookup]
    cases hl : b.orderIndex.lookup id with
    | none => rfl
    | some a =>
        obtain ⟨c, hc⟩ := Option.ne_none_iff_exists'.mp
          fun hnone => (h.marked.entry id a hl).mp hnone
        simp only [Option.bind_some, Option.map_some, hc, Option.getD_some]

section Trace

variable [Zero P] {x r : Order P} {env : Env} {rs₀ rs₁ rs₂ : List (BookResult P)}
  {before mid post before' mid' post' : List (BookOp P)} {b₀ b₁ b₂ b₃ b₄ : OrderBook P}

/-- A run of calls on a book of which all is seen as it is. -/
theorem Seen.run_verbatim {ops ops' : List (BookOp P)} {rs : List (BookResult P)} {g : Set Int32}
    (h : Seen v g b b') (hv : v.Verbatim) (hops : List.Forall₂ BookOp.Retimed ops ops')
    (hids : ∀ op ∈ ops, ∀ id ∈ g, ¬ BookOp.Names id op) (hrun : b.run ops = some (rs, b₁))
    (hclean : Clean g (b₁.trades.drop b.trades.length)) :
    ∃ b₁', b'.run ops' = some (rs, b₁') ∧ Seen v g b₁ b₁' ∧ SameTrades b b' b₁ b₁' := by
  obtain ⟨b₁', hrun', hseen, htr⟩ :=
    Seen.run (hops.imp fun op op' hop => hv.sameCall hop) hids h hrun hclean
  rw [hv.results] at hrun'
  exact ⟨b₁', hrun', hseen, htr⟩

/-- While the order rests, it stays on its side at its price. -/
theorem pinned (hb : b₀.Addressed) (hadd : b₀.addOrder env x = (r, b₁))
    (hlt : b₀.nextNode < b₁.nextNode) (hrun : b₁.run mid = some (rs₁, b₂)) :
    b₂.Marked (fun n => n.addr = b₀.nextNode → n.order.side = x.side ∧ n.order.price = x.price)
      (fun _ _ => True) := by
  have hold : b₀.Marked
      (fun n => n.addr = b₀.nextNode → n.order.side = x.side ∧ n.order.price = x.price)
      (fun _ _ => True) :=
    hb.mono (fun n hlt heq => absurd heq hlt.ne) fun _ _ _ => trivial
  have hsame : ∀ n n' : Node P, n.Same n' →
      (n.addr = b₀.nextNode → n.order.side = x.side ∧ n.order.price = x.price) →
      n'.addr = b₀.nextNode → n'.order.side = x.side ∧ n'.order.price = x.price := by
    intro n n' hs h heq
    rw [hs.side, hs.price]
    exact h (hs.1.symm.trans heq)
  have hjoin := hold.addOrder hsame env x fun _ => ⟨fun _ => ⟨rfl, rfl⟩, trivial⟩
  rw [hadd] at hjoin
  exact hjoin.run hsame (fun a ha o heq => absurd heq (hlt.trans_le ha).ne')
    (fun _ _ _ => trivial) hrun

/-- The order comes and goes, hidden from the other book. -/
theorem Seen.come_and_go (h : Seen View.plain ∅ b₀ b') (hb : b₀.Addressed) (hfresh : b₀.Fresh x.id)
    (hadd : b₀.addOrder env x = (r, b₁)) (hquiet : b₁.trades = b₀.trades)
    (hrun : b₁.run mid = some (rs₁, b₂)) (hids : ∀ op ∈ mid, ¬ BookOp.Names x.id op)
    (hnames : ∀ t ∈ b₂.trades.drop b₁.trades.length, ¬ t.Names x.id)
    (hcancel : b₂.cancelOrder x.id = some (true, b₃))
    (hops : List.Forall₂ BookOp.Retimed mid mid') :
    ∃ v : View, v.Verbatim ∧ ∃ b₁', b'.run mid' = some (rs₁, b₁') ∧ Seen v ∅ b₃ b₁' ∧
      SameTrades b₀ b' b₃ b₁' := by
  have hids' : ∀ op ∈ mid, ∀ id ∈ ({x.id} : Set Int32), ¬ BookOp.Names id op := by
    rintro op hop id rfl
    exact hids op hop
  have hclean : Clean {x.id} (b₂.trades.drop b₁.trades.length) := fun t ht =>
    ⟨fun hbuy => hnames t ht (.inl hbuy), fun hsell => hnames t ht (.inr hsell)⟩
  rcases addOrder_cases env b₀ x with heq | heq
  · -- an order that does not rest has no index entry to cancel
    rw [heq] at hadd
    have h₁ := h.of_unrested hfresh hadd hquiet
    obtain ⟨b₂', -, h₂, -⟩ := h₁.run_verbatim ⟨rfl, rfl⟩ hops hids' hrun hclean
    rcases h₂.marked.cancelOrder_cases hcancel with ⟨-, hfalse, -⟩ | ⟨n, -, hl, -⟩
    · cases hfalse
    · exact absurd ((h₂.marked.entry x.id n.addr hl).mpr rfl) (Option.some_ne_none _)
  · rw [heq] at hadd
    have h₁ := h.of_rested hb hfresh hadd hquiet
    obtain ⟨b₂', hrun', h₂, htr⟩ := h₁.run_verbatim ⟨rfl, rfl⟩ hops hids' hrun hclean
    have hnext : b₀.nextNode + 1 = b₁.nextNode := congrArg (fun p => p.2.nextNode) hadd
    have hpin := pinned hb (heq.trans hadd) (Nat.lt_of_succ_le hnext.le) hrun
    have h₃ := h₂.shown hpin hcancel
    have hadded : SameTrades b₀ b' b₁ b' := .of_eq hquiet rfl
    have hgone : SameTrades b₂ b₂' b₃ b₂' := .of_eq (cancelOrder_trades h₂.marked hcancel) rfl
    exact ⟨_, ⟨rfl, rfl⟩, b₂', hrun', h₃, (hadded.trans htr).trans hgone⟩

/-- **The two calls leave no trace.**  On every book that calls lead to, and for every run of calls
in which an order with a fresh id is added without a trade and later cancelled, while no call names
it and no trade does: the same run without the two calls returns the same, makes the same trades and
ends in the same book, up to the addresses of the nodes. -/
theorem no_trace (hb : Reached b) (hrun₀ : b.run before = some (rs₀, b₀)) (hfresh : b₀.Fresh x.id)
    (hadd : b₀.addOrder env x = (r, b₁)) (hquiet : b₁.trades = b₀.trades)
    (hrun₁ : b₁.run mid = some (rs₁, b₂)) (hids : ∀ op ∈ mid, ¬ BookOp.Names x.id op)
    (hnames : ∀ t ∈ b₂.trades.drop b₁.trades.length, ¬ t.Names x.id)
    (hcancel : b₂.cancelOrder x.id = some (true, b₃)) (hrun₂ : b₃.run post = some (rs₂, b₄))
    (hbefore : List.Forall₂ BookOp.Retimed before before')
    (hmid : List.Forall₂ BookOp.Retimed mid mid')
    (hpost : List.Forall₂ BookOp.Retimed post post') :
    ∃ b', b.run (before' ++ mid' ++ post') = some (rs₀ ++ rs₁ ++ rs₂, b') ∧
      b'.trades.map Trade.terms = b₄.trades.map Trade.terms ∧ ∃ ρ, Renamed ρ b₄ b' := by
  have hnone : ∀ ops : List (BookOp P), ∀ op ∈ ops, ∀ id ∈ (∅ : Set Int32), ¬ BookOp.Names id op :=
    fun _ _ _ _ hid => absurd hid (Set.notMem_empty _)
  obtain ⟨b₀', hrun₀', h₀, htr₀⟩ := (seen_plain hb.addressed).run_verbatim ⟨rfl, rfl⟩ hbefore
    (hnone before) hrun₀ (clean_empty _)
  have hplain : Seen View.plain ∅ b₀ b₀' := h₀
  obtain ⟨v, hv, b₃', hrun₁', h₃, htr₁⟩ := hplain.come_and_go (hb.run hrun₀).addressed hfresh hadd
    hquiet hrun₁ hids hnames hcancel hmid
  obtain ⟨b₄', hrun₂', h₄, htr₂⟩ := h₃.run_verbatim hv hpost (hnone post) hrun₂ (clean_empty _)
  refine ⟨b₄', Run.exec_append (Run.exec_append hrun₀' hrun₁') hrun₂', ?_, _, h₄.renamed hv⟩
  obtain ⟨new, new', htr, htr', hterms⟩ := (htr₀.trans htr₁).trans htr₂
  rw [htr, htr', List.map_append, List.map_append, hterms]

end Trace

/-- The calls before the order comes. -/
def callsBefore : List (BookOp ℤ) :=
  let bid : Order ℤ := Order.blank
  [.add .still { bid with id := 1, price := 100, quantity := 5 }]

/-- The order that never trades. -/
def passingOrder : Order ℤ := { (Order.blank : Order ℤ) with id := 2, price := 99, quantity := 3 }

/-- The calls until it is cancelled: a trade above it, and an order behind it. -/
def callsBetween : List (BookOp ℤ) :=
  let bid : Order ℤ := Order.blank
  [.add .still { bid with id := 3, side := .sell, price := 100, quantity := 4 },
    .add .still { bid with id := 4, price := 99, quantity := 2 }]

/-- The calls after that: trades at its price. -/
def callsAfter : List (BookOp ℤ) :=
  let bid : Order ℤ := Order.blank
  [.modify .still 1 99 2, .addMarket .still { bid with id := 5, side := .sell, quantity := 3 }]

theorem no_trace_passingOrder : ∃ rs₀ b₀ r b₁ rs₁ b₂ b₃ rs₂ b₄,
    (init []).run callsBefore = some (rs₀, b₀) ∧ b₀.addOrder .still passingOrder = (r, b₁) ∧
      b₁.run callsBetween = some (rs₁, b₂) ∧ b₂.cancelOrder 2 = some (true, b₃) ∧
      b₃.run callsAfter = some (rs₂, b₄) ∧ b₄.trades.length = 3 ∧
      ∃ b', (init []).run (callsBefore ++ callsBetween ++ callsAfter) =
          some (rs₀ ++ rs₁ ++ rs₂, b') ∧
        b'.trades.map Trade.terms = b₄.trades.map Trade.terms ∧ ∃ ρ, Renamed ρ b₄ b' :=
  ⟨_, _, _, _, _, _, _, _, _, rfl, rfl, rfl, rfl, rfl, by decide,
    no_trace (x := passingOrder) (.init []) rfl (by decide) rfl (by decide) rfl (by decide)
      (by decide) rfl rfl (.cons (.refl _) .nil) (.cons (.refl _) (.cons (.refl _) .nil))
      (.cons (.refl _) (.cons (.refl _) .nil))⟩

end OrderBook

end Aspira
