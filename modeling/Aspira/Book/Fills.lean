import Aspira.Support.Consume
import Aspira.Book.Quantity

/-!
# Book — Fills

A sweep is the taking of an amount off a list of lots (`Support/Consume`): the resting orders are the
lots, what they have left are their sizes, and the incoming order takes what it has left of those it
reaches.

`Sweep.consumed` says what stays of the queue and of the incoming order, `Sweep.dealt` what the
trades are, each with the piece it takes of a resting order; `addOrder_offered` says the same of what
`add_order` returns and adds to the trades.
-/

namespace Aspira

variable {P : Type}

/-- The resting order with `k` more of it filled. -/
def Node.cut (k : ℤ) (n : Node P) : Node P :=
  { n with order := { n.order.fill (Int32.ofInt k) with status := .partFilled } }

/-- The resting orders, as lots. -/
def restingStock (P : Type) : Stock (Node P) where
  Lot n := n.order.Resting
  size n := n.order.quantity.toInt - n.order.filledQty.toInt
  cut := Node.cut
  size_pos h := Int.sub_pos_of_lt h.filled_lt
  size_cut := by
    intro n k hn h₀ hlt
    have hq := n.order.quantity.toInt_lt
    have hf := hn.filled_nonneg
    have hk : (Int32.ofInt k).toInt = k := Int32.toInt_ofInt_of_le (by omega) (by omega)
    have hfill : (n.order.filledQty + Int32.ofInt k).toInt = n.order.filledQty.toInt + k := by
      rw [Int32.toInt_add_exact (by omega) (by omega), hk]
    show n.order.quantity.toInt - (n.order.filledQty + Int32.ofInt k).toInt = _
    rw [hfill]
    omega
  cut_cut := by
    intro j k n
    simp only [Node.cut, Order.fill, Int32.add_assoc, Int32.ofInt_add]

/-- The trade of `o` with the order at `n`, for `k`. -/
def dealFor (symbol : List UInt8) (stamp : Stamp) (o : Order P) (tradeId : Int32)
    (n : Node P) (k : ℤ) : Trade P where
  tradeId := tradeId
  buyOrderId := if o.side = .buy then o.id else n.order.id
  sellOrderId := if o.side = .buy then n.order.id else o.id
  quantity := Int32.ofInt k
  timestampNs := stamp.now
  price := n.order.price
  symbol := tradeSymbol symbol stamp.stack

/-- The trades of `o` for some pieces of resting orders, from the trade id and the length of the
buffer on. -/
def deals (symbol : List UInt8) (env : Env) (o : Order P) :
    ℕ → Int32 → List (Node P × ℤ) → List (Trade P)
  | _, _, [] => []
  | i, tradeId, p :: ps =>
      dealFor symbol (env i) o tradeId p.1 p.2 :: deals symbol env o (i + 1) (tradeId + 1) ps

/-- The trades depend on the side and the id of the order alone. -/
theorem deals_congr {symbol : List UInt8} {env : Env} {o o' : Order P} (hs : o'.side = o.side)
    (hid : o'.id = o.id) : ∀ (i : ℕ) (tradeId : Int32) (ps : List (Node P × ℤ)),
      deals symbol env o' i tradeId ps = deals symbol env o i tradeId ps
  | _, _, [] => rfl
  | i, tradeId, p :: ps => by
      rw [deals, deals, deals_congr hs hid, dealFor, hs, hid]
      rfl

section Sweep

variable [LinearOrder P] {symbol : List UInt8} {env : Env} {s : Side} {q q' : OrderList P}
  {m m' : Matching P} {n : Node P}

/-- The incoming order reaches the order at `n`. -/
def Reaches (s : Side) (o : Order P) (n : Node P) : Prop := ¬ Blocked s o n.order.price

instance (s : Side) (o : Order P) : DecidablePred (Reaches s o) :=
  fun n => inferInstanceAs (Decidable (¬ Blocked s o n.order.price))

/-- What an order with `left` to fill takes of the orders of a queue of side `s`. -/
def taken (s : Side) (o : Order P) (left : ℤ) (q : OrderList P) : List (Node P × ℤ) :=
  (restingStock P).pieces (Reaches s o) left q

/-- What stays of a queue of side `s`, and of an order with `left` to fill. -/
def stays (s : Side) (o : Order P) (left : ℤ) (q : OrderList P) : OrderList P × ℤ :=
  (restingStock P).consume (Reaches s o) left q

theorem stays_add {o : Order P} {j k : ℤ} (hq : ∀ n ∈ q, n.order.Resting) (hj : 0 ≤ j) (hk : 0 ≤ k) :
    stays s o (j + k) q = ((stays s o k (stays s o j q).1).1,
      (stays s o j q).2 + (stays s o k (stays s o j q).1).2) :=
  Stock.consume_add hq (fun _ _ => Iff.rfl) hj hk

omit [LinearOrder P] in
/-- An order that is filled up was taken whole. -/
theorem take_size (hm : m.order.InRange) (hn : n.order.Resting) (h₀ : 0 < m.order.remaining)
    (hfull : (n.order.fill (m.qty n.order)).isFilled = true) :
    (m.qty n.order).toInt = (restingStock P).size n ∧ (restingStock P).size n ≤ m.left := by
  have hqty := qty_toInt hm hn.inRange
  obtain ⟨-, hfill, -, -, -, -⟩ := hit_spec hm h₀ hn.inRange hn.remaining_pos
  rw [Order.isFilled_iff] at hfull
  have hquant : (n.order.fill (m.qty n.order)).quantity = n.order.quantity := rfl
  rw [hquant] at hfull
  show _ = n.order.quantity.toInt - n.order.filledQty.toInt ∧
    n.order.quantity.toInt - n.order.filledQty.toInt ≤
      m.order.quantity.toInt - m.order.filledQty.toInt
  omega

omit [LinearOrder P] in
theorem deal_eq_dealFor {k : ℤ} (h : (m.qty n.order).toInt = k) :
    m.deal symbol env n.order.price n.order =
      dealFor symbol (env m.trades.length) m.order m.nextTradeId n k := by
  rw [dealFor, ← h, Int32.ofInt_toInt]
  rfl

/-- **What a sweep leaves.** -/
theorem Sweep.consumed (h : Sweep symbol env s q m q' m') (hm : m.order.InRange)
    (hq : ∀ n ∈ q, n.order.Resting) : stays s m.order m.left q = (q', m'.left) := by
  refine Sweep.live_induction (C := fun q m q' m' => stays s m.order m.left q = (q', m'.left))
    ?_ ?_ ?_ h hm hq
  · intro q m hm hq hstop
    rcases hstop with hstop | hstop
    · rw [hm.remaining_pos, not_lt] at hstop
      exact Stock.consume_of_nonpos (Int.sub_nonpos_of_le hstop) q
    · cases q with
      | nil => rfl
      | cons n q => exact Stock.consume_stop fun hn => hn.2 (hstop n (List.mem_cons_self ..))
  · intro n q q' m m' hm hn h₀ hb hfull ih
    have hleft : 0 < m.left := Int.sub_pos_of_lt (hm.remaining_pos.mp h₀)
    have hreach : Reaches s m.order n := hb
    rw [stays, Stock.consume_take hleft hreach (take_size hm hn h₀ hfull).2]
    have htake := (struck_of_take symbol env q hm hn h₀ hb hfull).1
    rw [← ih]
    show _ = stays s m.order (m.hit symbol env n.order.price n.order).left q
    rw [htake]
    rfl
  · intro n q m hm hn hq h₀ hb hpart
    have hleft : 0 < m.left := Int.sub_pos_of_lt (hm.remaining_pos.mp h₀)
    obtain ⟨hqty, hlt, -⟩ := struck_of_leave q hm hn h₀ hb hpart
    obtain ⟨-, -, hm', -, -, -⟩ := hit_spec hm h₀ hn.inRange hn.remaining_pos
    have hdone : (m.hit symbol env n.order.price n.order).left = 0 := by
      show m.order.quantity.toInt - (m.order.fill (m.qty n.order)).filledQty.toInt = 0
      unfold Matching.left at hqty
      omega
    have hreach : Reaches s m.order n := hb
    rw [stays, Stock.consume_cut hleft hreach hlt, hdone, ← hqty]
    show ({ n with order := { n.order.fill (Int32.ofInt _) with status := .partFilled } } :: q, _) = _
    rw [Int32.ofInt_toInt]

/-- **The trades of a sweep**, one for each order it takes something of. -/
theorem Sweep.dealt (h : Sweep symbol env s q m q' m') (hm : m.order.InRange)
    (hq : ∀ n ∈ q, n.order.Resting) :
    m'.trades = m.trades ++ deals symbol env m.order m.trades.length m.nextTradeId
      (taken s m.order m.left q) := by
  refine Sweep.live_induction (C := fun q m q' m' => m'.trades = m.trades ++
    deals symbol env m.order m.trades.length m.nextTradeId (taken s m.order m.left q))
    ?_ ?_ ?_ h hm hq
  · intro q m hm hq hstop
    have hnone : taken s m.order m.left q = [] := by
      cases q with
      | nil => rfl
      | cons n q =>
          refine Stock.pieces_stop fun hn => ?_
          rcases hstop with hstop | hstop
          · exact hstop (hm.remaining_pos.mpr (Int.lt_of_sub_pos hn.1))
          · exact hn.2 (hstop n (List.mem_cons_self ..))
    rw [hnone]
    exact (List.append_nil _).symm
  · intro n q q' m m' hm hn h₀ hb hfull ih
    have hleft : 0 < m.left := Int.sub_pos_of_lt (hm.remaining_pos.mp h₀)
    have hreach : Reaches s m.order n := hb
    obtain ⟨hqty, hle⟩ := take_size hm hn h₀ hfull
    have htake := (struck_of_take symbol env q hm hn h₀ hb hfull).1
    have hlen : (m.hit symbol env n.order.price n.order).trades.length = m.trades.length + 1 :=
      List.length_append
    have hgo : ∀ i tradeId ps,
        deals symbol env (m.hit symbol env n.order.price n.order).order i tradeId ps =
          deals symbol env m.order i tradeId ps := deals_congr rfl rfl
    rw [ih, taken, taken, Stock.pieces_take hleft hreach hle, deals, ← deal_eq_dealFor hqty]
    show (m.trades ++ [_]) ++ deals symbol env (m.hit symbol env n.order.price n.order).order
      (m.hit symbol env n.order.price n.order).trades.length (m.nextTradeId + 1)
      ((restingStock P).pieces (Reaches s m.order) (m.hit symbol env n.order.price n.order).left q) = _
    rw [hgo, hlen, htake, List.append_assoc]
    rfl
  · intro n q m hm hn hq h₀ hb hpart
    have hleft : 0 < m.left := Int.sub_pos_of_lt (hm.remaining_pos.mp h₀)
    have hreach : Reaches s m.order n := hb
    obtain ⟨hqty, hlt, -⟩ := struck_of_leave q hm hn h₀ hb hpart
    rw [taken, Stock.pieces_cut hleft hreach hlt, deals, ← deal_eq_dealFor hqty]
    rfl

end Sweep

/-! ### Matching against the book -/

namespace OrderBook

variable [LinearOrder P] {b b' : OrderBook P} {env : Env} {o : Order P} {m' : Matching P}

/-- What the orders on the other side have for `o`. -/
def offered (b : OrderBook P) (o : Order P) : List (Node P × ℤ) :=
  taken o.side.opposite o o.quantity.toInt (b.queue o.side.opposite)

/-- The other side's queue without what it has for `o`, and what is left of `o`. -/
def matched (b : OrderBook P) (o : Order P) : OrderList P × ℤ :=
  stays o.side.opposite o o.quantity.toInt (b.queue o.side.opposite)

/-- **What `match_limit_order` does with an order that has nothing filled.** -/
structure Taken (env : Env) (o : Order P) (b : OrderBook P) (m' : Matching P) (b' : OrderBook P) :
    Prop where
  matched : b.matched o = (b'.queue o.side.opposite, o.quantity.toInt - m'.order.filledQty.toInt)
  trades : b'.trades = b.trades ++
    deals b.symbol env o b.trades.length b.nextTradeId (b.offered o)
  own : b'.levels o.side = b.levels o.side

theorem Swept.taken (h : Swept env o b m' b') (hb : b.Placed) (ho : o.filledQty = 0) :
    Taken env o b m' b' := by
  have hin : (b.matching o).order.InRange := Order.inRange_of_unfilled ho
  have hrest : ∀ n ∈ b.queue o.side.opposite, n.order.Resting := fun n hn => hb.resting hn
  have hleft : (b.matching o).left = o.quantity.toInt := by
    show o.quantity.toInt - o.filledQty.toInt = _
    rw [ho, Int32.toInt_zero, sub_zero]
  have hleft' : m'.left = o.quantity.toInt - m'.order.filledQty.toInt := by
    obtain ⟨f, hf⟩ := h.sweep.order
    rw [Matching.left, hf]
    rfl
  have hstays := h.sweep.consumed hin hrest
  have hdealt := h.sweep.dealt hin hrest
  rw [hleft] at hstays hdealt
  rw [hleft'] at hstays
  exact ⟨hstays, h.trades.trans hdealt, h.placed.levels_eq hb h.own⟩

/-- What is offered is within the reach and the size of the orders that offer it. -/
theorem mem_offered (hb : b.Placed) {p : Node P × ℤ} (hp : p ∈ b.offered o) :
    p.1 ∈ b.queue o.side.opposite ∧ Reaches o.side.opposite o p.1 ∧ 0 < p.2 ∧ p.2 < 2 ^ 31 := by
  obtain ⟨hmem, hreach, hpos, hle⟩ := Stock.mem_pieces (fun n hn => hb.resting hn) hp
  have hsize : p.2 ≤ p.1.order.quantity.toInt - p.1.order.filledQty.toInt := hle
  have hlt := p.1.order.quantity.toInt_lt
  have hnonneg := (hb.resting hmem).filled_nonneg
  exact ⟨hmem, hreach, hpos, by omega⟩

/-- Nothing is offered to an order for nothing. -/
theorem quantity_pos_of_mem_offered {p : Node P × ℤ} (hp : p ∈ b.offered o) : 0 < o.quantity.toInt := by
  by_contra h
  rw [offered, taken, Stock.pieces_of_nonpos (not_lt.mp h)] at hp
  exact absurd hp List.not_mem_nil

/-- **What `add_order` does with an order that has nothing filled**, in what it returns and in the
trades. -/
theorem addOrder_offered (env : Env) (hb : b.Placed) (ho : o.filledQty = 0) :
    (b.addOrder env o).2.trades =
      b.trades ++ deals b.symbol env o b.trades.length b.nextTradeId (b.offered o) ∧
    ∃ f st, (b.addOrder env o).1 = { o with filledQty := f, status := st } ∧
      f.toInt = ((b.offered o).map Prod.snd).sum := by
  have hsum : ∀ {m' : Matching P} {b₁ : OrderBook P}, Taken env o b m' b₁ →
      m'.order.filledQty.toInt = ((b.offered o).map Prod.snd).sum := by
    intro m' b₁ h
    have hleft : (b.matched o).2 = _ := congrArg Prod.snd h.matched
    have hpieces : ((b.offered o).map Prod.snd).sum = o.quantity.toInt - (b.matched o).2 :=
      Stock.sum_pieces_snd
    rw [hpieces, hleft]
    exact (Int.sub_sub_self _ _).symm
  have hadded := addOrder_added env hb ho
  generalize b.addOrder env o = r at *
  obtain ⟨o', b'⟩ := r
  dsimp only at hadded ⊢
  cases hadded with
  | @done m' _ h _ =>
      obtain ⟨st, hst⟩ := h.settled
      exact ⟨(h.taken hb ho).trades, m'.order.filledQty, st, hst, hsum (h.taken hb ho)⟩
  | @rests m' b₁ _ h _ _ hr =>
      obtain ⟨st, hst⟩ := h.settled
      refine ⟨hr.trades.trans (h.taken hb ho).trades, m'.order.filledQty, ?_⟩
      split
      · exact ⟨.partFilled, by rw [hst], hsum (h.taken hb ho)⟩
      · exact ⟨st, hst, hsum (h.taken hb ho)⟩

/-- The first order of a side is at its best price. -/
theorem Placed.exists_head {s : Side} {n : Node P} (hb : b.Placed) (hn : n ∈ b.queue s) :
    ∃ n₀ q, b.queue s = n₀ :: q ∧ ¬ s.Better n.order.price n₀.order.price := by
  obtain ⟨e, he, hne⟩ := mem_queue.mp hn
  have hsorted := (b.levels s).sorted
  have hnonempty := hb.nonempty s
  have hkey := hb.at_key s
  unfold queue
  cases hentries : (b.levels s).entries with
  | nil =>
      rw [hentries] at he
      exact absurd he List.not_mem_nil
  | cons e₀ l =>
      rw [hentries] at he hsorted hnonempty hkey
      obtain ⟨n₀, q, hq⟩ := List.exists_cons_of_ne_nil (hnonempty e₀ (List.mem_cons_self ..))
      have hn₀ : n₀.order.price = e₀.1 :=
        (hkey e₀ (List.mem_cons_self ..) n₀ (by rw [hq]; exact List.mem_cons_self ..)).2.1
      refine ⟨n₀, q ++ l.flatMap Prod.snd, by rw [List.flatMap_cons, hq, List.cons_append], ?_⟩
      rw [hn₀, (hkey e he n hne).2.1]
      rcases List.mem_cons.mp he with rfl | he
      · exact Side.Better.irrefl s e.1
      · exact ((List.pairwise_cons.mp hsorted).1 e he).asymm

/-- **An order that could trade at a better price than its own does.** -/
theorem exists_offered_better (hb : b.Placed) (hq : 0 < o.quantity.toInt)
    {n : Node P} (hn : n ∈ b.queue o.side.opposite)
    (hbetter : o.side.opposite.Better n.order.price o.price) :
    ∃ p ∈ b.offered o, o.side.opposite.Better p.1.order.price o.price := by
  obtain ⟨n₀, q, hqueue, hbest⟩ := hb.exists_head hn
  have hbetter₀ : o.side.opposite.Better n₀.order.price o.price := by
    rcases Side.better_trichotomy o.side.opposite n₀.order.price n.order.price with hlt | heq | hgt
    · exact hlt.trans hbetter
    · rw [heq]
      exact hbetter
    · exact absurd hgt hbest
  have hreach : Reaches o.side.opposite o n₀ := fun hblocked => hblocked.2.asymm hbetter₀
  obtain ⟨k, hk⟩ := Stock.exists_piece (L := restingStock P) (l := q) hq hreach
  rw [← hqueue] at hk
  exact ⟨(n₀, k), hk, hbetter₀⟩

end OrderBook

/-! ### Notional -/

/-- The notional of some trades. -/
def notional (ts : List (Trade ℚ)) : ℚ := (ts.map fun t => t.price * (t.quantity.toInt : ℚ)).sum

/-- The trades of some pieces are worth the pieces at the prices of the resting orders. -/
theorem notional_deals {symbol : List UInt8} {env : Env} {o : Order ℚ} :
    ∀ {ps : List (Node ℚ × ℤ)} (i : ℕ) (tradeId : Int32), (∀ p ∈ ps, 0 < p.2 ∧ p.2 < 2 ^ 31) →
      notional (deals symbol env o i tradeId ps) = (ps.map fun p => p.1.order.price * (p.2 : ℚ)).sum
  | [], _, _, _ => rfl
  | p :: ps, i, tradeId, h => by
      obtain ⟨hpos, hlt⟩ := h p (List.mem_cons_self ..)
      have hqty : (Int32.ofInt p.2).toInt = p.2 := Int32.toInt_ofInt_of_le (by omega) hlt
      have hrest : notional (deals symbol env o (i + 1) (tradeId + 1) ps) = _ :=
        notional_deals (i + 1) (tradeId + 1) fun p' hp' => h p' (List.mem_cons_of_mem p hp')
      have hdeal : notional (deals symbol env o i tradeId (p :: ps)) =
          p.1.order.price * ((Int32.ofInt p.2).toInt : ℚ) +
            notional (deals symbol env o (i + 1) (tradeId + 1) ps) := rfl
      rw [hdeal, hqty, hrest, List.map_cons, List.sum_cons]

end Aspira
