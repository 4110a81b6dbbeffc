import Aspira.Book.Strike
import Aspira.Book.Ledger

/-!
# Book — quantities

Where the quantity of the orders goes.  What is submitted on a side is traded, still rests, was taken
out by a cancel, a modification or a removed level, or was left over from a market order; nothing is
created and nothing disappears (`conserved`).

`Flow` keeps these totals beside the book as the calls are made, and the side on which each id was
submitted.  The quantity traded on a side is counted over the orders that the trades name, so that it
is a fact about the trades that both sides trade the same.
-/

namespace Aspira

variable {P : Type}

/-- What some orders have left to fill. -/
def remainingQty (q : OrderList P) : ℤ :=
  (q.map fun n => n.order.quantity.toInt - n.order.filledQty.toInt).sum

@[simp] theorem remainingQty_nil : remainingQty ([] : OrderList P) = 0 := rfl

@[simp] theorem remainingQty_cons (n : Node P) (q : OrderList P) :
    remainingQty (n :: q) =
      n.order.quantity.toInt - n.order.filledQty.toInt + remainingQty q := rfl

@[simp] theorem remainingQty_append (q q' : OrderList P) :
    remainingQty (q ++ q') = remainingQty q + remainingQty q' := by
  rw [remainingQty, List.map_append, List.sum_append]
  rfl

/-- What is taken out and what stays are all. -/
theorem remainingQty_filter (p : Node P → Bool) (q : OrderList P) :
    remainingQty (q.filter p) + remainingQty (q.filter fun n => !p n) = remainingQty q := by
  induction q with
  | nil => rfl
  | cons n q ih =>
      cases hp : p n with
      | true =>
          rw [List.filter_cons_of_pos hp, List.filter_cons_of_neg (by simp [hp]), remainingQty_cons,
            remainingQty_cons, ← ih]
          ring
      | false =>
          rw [List.filter_cons_of_neg (by simp [hp]), List.filter_cons_of_pos (by simp [hp]),
            remainingQty_cons, remainingQty_cons, ← ih]
          ring

@[simp] theorem volume_nil : volume ([] : List (Trade P)) = 0 := rfl

@[simp] theorem volume_cons (t : Trade P) (ts : List (Trade P)) :
    volume (t :: ts) = t.quantity.toInt + volume ts := rfl

@[simp] theorem volume_append (ts ts' : List (Trade P)) :
    volume (ts ++ ts') = volume ts + volume ts' := by
  rw [volume, List.map_append, List.sum_append]
  rfl

/-! ### One sweep -/

section Sweep

variable [LinearOrder P] {symbol : List UInt8} {env : Env} {s : Side} {q q' : OrderList P}
  {m m' : Matching P}

/-- **A sweep moves quantity from the queue to its trades.** -/
theorem Sweep.remainingQty (h : Sweep symbol env s q m q' m') (hm : m.order.InRange)
    (hq : ∀ n ∈ q, n.order.Resting) :
    ∃ new, m'.trades = m.trades ++ new ∧
      remainingQty q = Aspira.remainingQty q' + volume new := by
  refine Sweep.live_induction (C := fun q m q' m' => ∃ new, m'.trades = m.trades ++ new ∧
    Aspira.remainingQty q = Aspira.remainingQty q' + volume new) ?_ ?_ ?_ h hm hq
  · intro q m hm hq _
    exact ⟨[], (List.append_nil _).symm, (add_zero _).symm⟩
  · intro n q q' m m' hm hn h₀ hb hfull ih
    obtain ⟨new, htr, hleft⟩ := ih
    obtain ⟨-, hfill, -, hle, -, -⟩ := hit_spec hm h₀ hn.inRange hn.remaining_pos
    rw [Order.isFilled_iff] at hfull
    have hquant : (n.order.fill (m.qty n.order)).quantity = n.order.quantity := rfl
    have hdeal : (m.deal symbol env n.order.price n.order).quantity = m.qty n.order := rfl
    rw [hquant] at hfull
    refine ⟨m.deal symbol env n.order.price n.order :: new, ?_, ?_⟩
    · rw [htr, Matching.unindex_trades]
      exact List.append_assoc ..
    · rw [remainingQty_cons, volume_cons, hleft, hdeal]
      omega
  · intro n q m hm hn hq h₀ hb hpart
    obtain ⟨-, hfill, -, -, -, -⟩ := hit_spec hm h₀ hn.inRange hn.remaining_pos
    have hdeal : (m.deal symbol env n.order.price n.order).quantity = m.qty n.order := rfl
    refine ⟨[m.deal symbol env n.order.price n.order], rfl, ?_⟩
    rw [remainingQty_cons, remainingQty_cons, volume_cons, volume_nil, hdeal]
    show _ = n.order.quantity.toInt - (n.order.fill (m.qty n.order)).filledQty.toInt + _ + _
    omega

/-- An order struck is one that the incoming order reaches. -/
theorem not_blocked_of_mem_struck {o : Order P} {n : Node P} :
    ∀ {left : ℤ} {q : OrderList P}, n ∈ struck s o left q → n ∈ q ∧ ¬ Blocked s o n.order.price
  | _, [], h => absurd h List.not_mem_nil
  | left, a :: q, h => by
      rw [struck] at h
      split at h
      · rename_i hreach
        rcases List.mem_cons.mp h with rfl | h
        · exact ⟨List.mem_cons_self .., hreach.2⟩
        · obtain ⟨hn, hb⟩ := not_blocked_of_mem_struck h
          exact ⟨List.mem_cons_of_mem a hn, hb⟩
      · exact absurd h List.not_mem_nil

end Sweep

/-! ### Trades and their orders -/

/-- The trade is between two of the orders `live`: a buy order and a sell order, the only ones with
the ids it names, for a quantity that is positive and a price within the limits of both. -/
structure Trade.Fair [LinearOrder P] (live : List (Order P)) (t : Trade P) : Prop where
  parties : ∃ buyer ∈ live, ∃ seller ∈ live, buyer.side = .buy ∧ seller.side = .sell ∧
    t.buyOrderId = buyer.id ∧ t.sellOrderId = seller.id ∧
    (∀ o ∈ live, o.id = t.buyOrderId → o = buyer) ∧
    (∀ o ∈ live, o.id = t.sellOrderId → o = seller) ∧
    (buyer.type = .limit → t.price ≤ buyer.price) ∧
    (seller.type = .limit → seller.price ≤ t.price)
  pos : 0 < t.quantity.toInt

namespace OrderBook

variable [LinearOrder P] {b b' : OrderBook P} {env : Env} {o o' : Order P} {m' : Matching P}

/-- The orders that rest. -/
def orders (b : OrderBook P) : List (Order P) := b.nodes.map Node.order

/-- What the matching of `o` adds to the trades. -/
structure Traded (b : OrderBook P) (o : Order P) (new : List (Trade P)) (b' : OrderBook P) : Prop where
  trades : b'.trades = b.trades ++ new
  fair : ∀ t ∈ new, t.Fair (o :: b.orders)
  opposite : remainingQty (b.queue o.side.opposite) =
    remainingQty (b'.queue o.side.opposite) + volume new

/-- The ids of the resting orders and of a fresh one are different. -/
theorem Unique.eq_of_mem_live (hu : b.Unique) (hfresh : ∀ n ∈ b.nodes, n.order.id ≠ o.id)
    {x y : Order P} (hx : x ∈ o :: b.orders) (hy : y ∈ o :: b.orders) (hid : x.id = y.id) : x = y := by
  rcases List.mem_cons.mp hx with rfl | hx
  · rcases List.mem_cons.mp hy with rfl | hy
    · rfl
    · obtain ⟨n, hn, rfl⟩ := List.mem_map.mp hy
      exact absurd hid.symm (hfresh n hn)
  · obtain ⟨n, hn, rfl⟩ := List.mem_map.mp hx
    rcases List.mem_cons.mp hy with rfl | hy
    · exact absurd hid (hfresh n hn)
    · obtain ⟨n', hn', rfl⟩ := List.mem_map.mp hy
      rw [hu.eq_of_id hn hn' hid]

/-- A trade with an order that is reached is fair. -/
theorem between_fair {t : Trade P} {n : Node P}
    (h : t.Between b.symbol o n) (hu : b.Unique) (hfresh : ∀ n ∈ b.nodes, n.order.id ≠ o.id)
    (hn : n ∈ b.queue o.side.opposite) (hside : n.order.side = o.side.opposite)
    (hreach : ¬ Blocked o.side.opposite o n.order.price) :
    t.Fair (o :: b.orders) := by
  have hin : o ∈ o :: b.orders := List.mem_cons_self ..
  have hout : n.order ∈ o :: b.orders :=
    List.mem_cons_of_mem o (List.mem_map_of_mem (mem_nodes.mpr ⟨_, hn⟩))
  have hlimit : o.type = .limit → ¬ o.side.opposite.Better o.price n.order.price := fun ht hbad =>
    hreach ⟨ht, hbad⟩
  refine ⟨?_, h.pos⟩
  cases hs : o.side with
  | buy =>
      have hbuy : t.buyOrderId = o.id := by rw [h.buyOrderId, if_pos hs]
      have hsell : t.sellOrderId = n.order.id := by rw [h.sellOrderId, if_pos hs]
      rw [hs] at hside hlimit
      refine ⟨o, hin, n.order, hout, hs, hside, hbuy, hsell,
        fun x hx e => hu.eq_of_mem_live hfresh hx hin (e.trans hbuy),
        fun x hx e => hu.eq_of_mem_live hfresh hx hout (e.trans hsell), fun ht => ?_, fun _ => ?_⟩
      · rw [h.price]
        exact not_lt.mp (hlimit ht)
      · exact h.price.ge
  | sell =>
      have hne : o.side ≠ .buy := by rw [hs]; exact Side.noConfusion
      have hbuy : t.buyOrderId = n.order.id := by rw [h.buyOrderId, if_neg hne]
      have hsell : t.sellOrderId = o.id := by rw [h.sellOrderId, if_neg hne]
      rw [hs] at hside hlimit
      refine ⟨n.order, hout, o, hin, hside, hs, hbuy, hsell,
        fun x hx e => hu.eq_of_mem_live hfresh hx hout (e.trans hbuy),
        fun x hx e => hu.eq_of_mem_live hfresh hx hin (e.trans hsell), fun _ => ?_, fun ht => ?_⟩
      · exact h.price.le
      · rw [h.price]
        exact not_lt.mp (hlimit ht)

/-- **The trades of a sweep are fair.** -/
theorem Swept.traded (h : Swept env o b m' b') (hb : b.Placed) (hu : b.Unique)
    (ho : o.filledQty = 0) (hfresh : ∀ n ∈ b.nodes, n.order.id ≠ o.id) :
    ∃ new, b.Traded o new b' ∧ m'.order.filledQty.toInt = volume new := by
  have hin : (b.matching o).order.InRange := Order.inRange_of_unfilled ho
  have hrest : ∀ n ∈ b.queue o.side.opposite, n.order.Resting := fun n hn => hb.resting hn
  obtain ⟨new, hst⟩ := h.sweep.strike hin hrest
  obtain ⟨new', htr', hleft⟩ := h.sweep.remainingQty hin hrest
  obtain rfl : new = new' := List.append_cancel_left (hst.trades.symm.trans htr')
  refine ⟨new, ⟨h.trades.trans hst.trades, fun t ht => ?_, hleft⟩, ?_⟩
  · obtain ⟨n, hn, hbet⟩ := exists_of_mem_left hst.between ht
    obtain ⟨hq, hreach⟩ := not_blocked_of_mem_struck hn
    exact between_fair hbet hu hfresh hq (hb.side hq) hreach
  · rw [hst.filled]
    show o.filledQty.toInt + _ = _
    rw [ho]
    exact zero_add _

/-- What is left of a market order, which does not rest. -/
def leftover (o : Order P) : ℤ :=
  if o.type = .market then o.quantity.toInt - o.filledQty.toInt else 0

/-- **An order that is added is traded, rests, or is left over.** -/
theorem Added.traded (h : Added env o b o' b') (hb : b.Placed) (hu : b.Unique)
    (ho : o.filledQty = 0) (hq : 0 < o.quantity.toInt) (hfresh : ∀ n ∈ b.nodes, n.order.id ≠ o.id) :
    ∃ new, b.Traded o new b' ∧ o'.side = o.side ∧
      remainingQty (b.queue o.side) + o.quantity.toInt =
        volume new + remainingQty (b'.queue o.side) + leftover o' := by
  cases h with
  | @done m' b' hsw hd =>
      obtain ⟨new, htr, hfill⟩ := hsw.traded hb hu ho hfresh
      obtain ⟨st, hst⟩ := hsw.settled
      have hin := (hsw.sweep.resting (Order.inRange_of_unfilled ho) fun n hn => hb.resting hn).1.2
      obtain ⟨f, hf⟩ := hsw.sweep.order
      have hquant : m'.order.quantity = o.quantity := by rw [hf]; rfl
      have htype : m'.order.type = o.type := by rw [hf]; rfl
      rw [hquant, max_eq_right hq.le] at hin
      refine ⟨new, htr, by rw [hst], ?_⟩
      rw [hsw.own, hst, leftover]
      cases ht : o.type with
      | market =>
          rw [if_pos rfl, hfill]
          ring
      | limit =>
          have hdone : m'.order.isFilled = true := by
            rcases hd with hd | hd
            · rwa [settle_isFilled] at hd
            · cases ht.symm.trans hd
          rw [Order.isFilled_iff, hquant] at hdone
          rw [if_neg OrderType.noConfusion]
          omega
  | @rests m' b₁ b' hsw hf ht hr =>
      obtain ⟨new, htr, hfill⟩ := hsw.traded hb hu ho hfresh
      obtain ⟨st, hst⟩ := hsw.settled
      have hside : (settle m'.order).side = o.side := by rw [hst]
      obtain ⟨A, B, hA, hB, -, -⟩ := hr.own
      obtain ⟨st', hentry⟩ := (settle m'.order).entry_eq
      have hopp := hr.opposite
      rw [hside] at hA hB hopp
      refine ⟨new, ⟨hr.trades.trans htr.trades, htr.fair, by rw [hopp]; exact htr.opposite⟩, ?_, ?_⟩
      · split
        · exact hside
        · exact hside
      · have hlim : ∀ o' : Order P, o'.type = o.type → leftover o' = 0 := fun o' he => by
          rw [leftover, he, ht, if_neg OrderType.noConfusion]
        rw [hlim _ (by split <;> rw [hst]), ← hsw.own, hA, hB, hentry, hst]
        simp only [remainingQty_append, remainingQty_cons, hfill]
        ring

end OrderBook

/-! ### Totals -/

/-- The totals of the calls so far on each side, and the side on which each id was submitted. -/
structure Flow where
  side : Int32 → Option Side
  submitted : Side → ℤ
  removed : Side → ℤ
  unfilled : Side → ℤ

/-- The orders that a call takes out of the book. -/
def BookOp.takes [DecidableEq P] (op : BookOp P) (n : Node P) : Bool :=
  match op with
  | .add .. | .addMarket .. => false
  | .cancel id | .modify _ id _ _ => n.order.id = id
  | .updateLevel side price size => size = 0 ∧ n.order.side = side ∧ n.order.price = price

/-- An order has nothing filled and a positive quantity; so has a modification. -/
def BookOp.Sized : BookOp P → Prop
  | .add _ o | .addMarket _ o => o.filledQty = 0 ∧ 0 < o.quantity.toInt
  | .modify _ _ _ q => 0 < q.toInt
  | _ => True

instance (op : BookOp P) : Decidable op.Sized :=
  match op with
  | .add _ o | .addMarket _ o =>
      inferInstanceAs (Decidable (o.filledQty = 0 ∧ 0 < o.quantity.toInt))
  | .modify _ _ _ q => inferInstanceAs (Decidable (0 < q.toInt))
  | .cancel _ | .updateLevel .. => inferInstanceAs (Decidable True)

theorem BookOp.Sized.unfilled {op : BookOp P} (h : op.Sized) : op.Unfilled := by
  cases op with
  | add => exact h.1
  | addMarket => exact h.1
  | cancel => trivial
  | modify => trivial
  | updateLevel => trivial

namespace Flow

/-- Nothing yet. -/
def start : Flow := ⟨fun _ => none, fun _ => 0, fun _ => 0, fun _ => 0⟩

variable [LinearOrder P]

/-- What a call on `b` submits on a side; a modification submits the order it replaces again. -/
def submits (b : OrderBook P) (s : Side) : BookOp P → ℤ
  | .add _ o | .addMarket _ o => if o.side = s then o.quantity.toInt else 0
  | .modify _ id _ q => if ∃ n ∈ b.queue s, n.order.id = id then q.toInt else 0
  | _ => 0

/-- What the market order that a call returns has left. -/
def leaves (s : Side) : BookResult P → ℤ
  | .order o => if o.side = s then OrderBook.leftover o else 0
  | _ => 0

/-- The totals after a call on `b`. -/
def note (f : Flow) (b : OrderBook P) (op : BookOp P) (r : BookResult P) : Flow where
  side := match op with
    | .add _ o | .addMarket _ o => Function.update f.side o.id (some o.side)
    | _ => f.side
  submitted s := f.submitted s + submits b s op
  removed s := f.removed s + remainingQty ((b.queue s).filter op.takes)
  unfilled s := f.unfilled s + leaves s r

theorem note_side {f : Flow} {b : OrderBook P} {op : BookOp P} {r : BookResult P} {id : Int32}
    (h : op.newId ≠ some id) : (f.note b op r).side id = f.side id := by
  cases op with
  | add env o => exact Function.update_of_ne (fun e => h (by rw [e]; rfl)) ..
  | addMarket env o => exact Function.update_of_ne (fun e => h (by rw [e]; rfl)) ..
  | cancel => rfl
  | modify => rfl
  | updateLevel => rfl

/-- The quantity traded by the orders of a side, over the orders that the trades name. -/
def tradedOn (f : Flow) (s : Side) (ts : List (Trade P)) : ℤ :=
  (ts.map fun t => (if f.side t.buyOrderId = some s then t.quantity.toInt else 0) +
    if f.side t.sellOrderId = some s then t.quantity.toInt else 0).sum

/-- **The balance.**  What was submitted on a side was traded, rests, was removed or is left over; the
two sides traded the same; every trade is for a positive quantity. -/
structure Balances (f : Flow) (b : OrderBook P) : Prop where
  balance : ∀ s, f.submitted s =
    f.tradedOn s b.trades + remainingQty (b.queue s) + f.removed s + f.unfilled s
  sides : f.tradedOn .buy b.trades = f.tradedOn .sell b.trades
  pos : ∀ t ∈ b.trades, 0 < t.quantity.toInt

/-- The balance in terms of the trades' volume, and what its proof needs of the ids. -/
structure Flowing (f : Flow) (b : OrderBook P) : Prop where
  balance : ∀ s, f.submitted s =
    volume b.trades + remainingQty (b.queue s) + f.removed s + f.unfilled s
  named : ∀ t ∈ b.trades, f.side t.buyOrderId = some .buy ∧ f.side t.sellOrderId = some .sell ∧
    0 < t.quantity.toInt
  known : ∀ n ∈ b.nodes, f.side n.order.id = some n.order.side

variable {f f' : Flow} {b b' : OrderBook P}

omit [LinearOrder P] in
/-- Every trade names one order of each side. -/
theorem tradedOn_eq {ts : List (Trade P)} (h : ∀ t ∈ ts, f.side t.buyOrderId = some .buy ∧
    f.side t.sellOrderId = some .sell ∧ 0 < t.quantity.toInt) (s : Side) :
    f.tradedOn s ts = volume ts := by
  rw [tradedOn, volume]
  congr 1
  refine List.map_congr_left fun t ht => ?_
  obtain ⟨hbuy, hsell, -⟩ := h t ht
  rw [hbuy, hsell]
  cases s with
  | buy => simp
  | sell => simp

theorem Flowing.balances (h : f.Flowing b) : f.Balances b where
  balance s := by
    rw [tradedOn_eq h.named]
    exact h.balance s
  sides := (tradedOn_eq h.named .buy).trans (tradedOn_eq h.named .sell).symm
  pos t ht := (h.named t ht).2.2

/-- The trades of a matching, between orders whose sides are known. -/
theorem Flowing.named_append (h : f.Flowing b) {o : Order P} {new : List (Trade P)}
    (htr : b.Traded o new b') (hother : ∀ id, f.side id ≠ none → f'.side id = f.side id)
    (ho : f'.side o.id = some o.side) :
    ∀ t ∈ b'.trades, f'.side t.buyOrderId = some .buy ∧ f'.side t.sellOrderId = some .sell ∧
      0 < t.quantity.toInt := by
  intro t ht
  rw [htr.trades] at ht
  rcases List.mem_append.mp ht with ht | ht
  · obtain ⟨hbuy, hsell, hpos⟩ := h.named t ht
    refine ⟨?_, ?_, hpos⟩
    · rw [hother _ (by rw [hbuy]; exact Option.some_ne_none _), hbuy]
    · rw [hother _ (by rw [hsell]; exact Option.some_ne_none _), hsell]
  · have hlive : ∀ x ∈ o :: b.orders, f'.side x.id = some x.side := by
      intro x hx
      rcases List.mem_cons.mp hx with rfl | hx
      · exact ho
      · obtain ⟨n, hn, rfl⟩ := List.mem_map.mp hx
        rw [hother _ (by rw [h.known n hn]; exact Option.some_ne_none _), h.known n hn]
    obtain ⟨⟨buyer, hb, seller, hs, hbside, hsside, hbid, hsid, -⟩, hpos⟩ := htr.fair t ht
    rw [hbid, hsid, hlive buyer hb, hlive seller hs, hbside, hsside]
    exact ⟨rfl, rfl, hpos⟩

/-- What an order that is added does to the totals. -/
theorem Flowing.added (h : f.Flowing b) {o : Order P} {new : List (Trade P)} {left : ℤ}
    (htr : b.Traded o new b')
    (hown : remainingQty (b.queue o.side) + o.quantity.toInt =
      volume new + remainingQty (b'.queue o.side) + left)
    (hnodes : ∀ n' ∈ b'.nodes, (∃ n ∈ b.nodes, n.Same n') ∨
      n'.order.id = o.id ∧ n'.order.side = o.side)
    (hother : ∀ id, f.side id ≠ none → f'.side id = f.side id) (ho : f'.side o.id = some o.side)
    (hsub : ∀ s, f'.submitted s = f.submitted s + if o.side = s then o.quantity.toInt else 0)
    (hrem : f'.removed = f.removed)
    (hunf : ∀ s, f'.unfilled s = f.unfilled s + if o.side = s then left else 0) :
    f'.Flowing b' where
  balance s := by
    have hbal := h.balance s
    rw [hsub, hunf, hrem, htr.trades, volume_append]
    rcases s.eq_or_eq_opposite o.side with rfl | rfl
    · rw [if_pos rfl, if_pos rfl]
      omega
    · have hopp := htr.opposite
      rw [if_neg (Side.opposite_ne _).symm, if_neg (Side.opposite_ne _).symm]
      omega
  named := h.named_append htr hother ho
  known n' hn' := by
    rcases hnodes n' hn' with ⟨n, hn, hs⟩ | ⟨hid, hside⟩
    · rw [hs.id, hs.side, hother _ (by rw [h.known n hn]; exact Option.some_ne_none _)]
      exact h.known n hn
    · rw [hid, hside]
      exact ho

/-- What orders that are removed do to the totals. -/
theorem Flowing.removed (h : f.Flowing b) {keep : Node P → Bool} (hr : OrderBook.Removed keep b b')
    (hside : f'.side = f.side) (hsub : f'.submitted = f.submitted)
    (hrem : ∀ s, f'.removed s = f.removed s + remainingQty ((b.queue s).filter fun n => !keep n))
    (hunf : f'.unfilled = f.unfilled) : f'.Flowing b' where
  balance s := by
    have hbal := h.balance s
    have hsplit := remainingQty_filter keep (b.queue s)
    rw [hsub, hunf, hrem, hr.trades, hr.queue]
    omega
  named := by
    rw [hside, hr.trades]
    exact h.named
  known n hn := by
    rw [hside]
    exact h.known n (hr.mem_nodes.mp hn).1

end Flow

namespace OrderBook

variable [LinearOrder P] {b b' : OrderBook P} {env : Env} {o o' : Order P} {f : Flow}

/-- The nodes after an order is added. -/
theorem Added.back (h : Added env o b o' b') {n' : Node P} (hn : n' ∈ b'.nodes) :
    (∃ n ∈ b.nodes, n.Same n') ∨ n'.order.id = o.id ∧ n'.order.side = o.side := by
  obtain ⟨s, hs⟩ := mem_nodes.mp hn
  cases h with
  | done hsw =>
      obtain ⟨n, hn, hsame⟩ := hsw.back hs
      exact .inl ⟨n, mem_nodes.mpr ⟨s, hn⟩, hsame⟩
  | @rests m' b₁ _ hsw _ _ hr =>
      rcases hr.mem_queue.mp hs with hs | ⟨-, rfl⟩
      · obtain ⟨n, hn, hsame⟩ := hsw.back hs
        exact .inl ⟨n, mem_nodes.mpr ⟨s, hn⟩, hsame⟩
      · obtain ⟨st, hst⟩ := hsw.settled
        obtain ⟨st', hentry⟩ := (settle m'.order).entry_eq
        rw [hentry, hst]
        exact .inr ⟨rfl, rfl⟩

/-- The orders in the book while a call is matched. -/
def live [Zero P] (b : OrderBook P) : BookOp P → List (Order P)
  | .add _ o => o :: b.orders
  | .addMarket _ o => o.asMarket :: b.orders
  | .modify _ id p q =>
      b.nodes.map fun n => if n.order.id = id then resubmitted n.order p q else n.order
  | .cancel _ | .updateLevel .. => b.orders

/-- A trade that is fair among some orders is fair among the same orders in another list. -/
theorem fair_congr {live live' : List (Order P)} (h : ∀ x, x ∈ live ↔ x ∈ live') {t : Trade P}
    (ht : t.Fair live) : t.Fair live' := by
  obtain ⟨⟨buyer, hb, seller, hs, h₁, h₂, h₃, h₄, hub, hus, h₅, h₆⟩, hpos⟩ := ht
  exact ⟨⟨buyer, (h _).mp hb, seller, (h _).mp hs, h₁, h₂, h₃, h₄,
    fun x hx => hub x ((h x).mpr hx), fun x hx => hus x ((h x).mpr hx), h₅, h₆⟩, hpos⟩

/-- The node of an id is the node of its address. -/
theorem addr_eq_iff (hi : b.Indexed) (hu : b.Unique) {n n' : Node P} (hn : n ∈ b.nodes)
    (hn' : n' ∈ b.nodes) : n'.addr = n.addr ↔ n'.order.id = n.order.id := by
  constructor
  · intro ha
    rw [List.inj_on_of_nodup_map hi.addr_nodup hn' hn ha]
  · intro hid
    rw [hu.eq_of_id hn' hn hid]

theorem filter_addr (hi : b.Indexed) (hu : b.Unique) {n : Node P} (hn : n ∈ b.nodes) (s : Side) :
    ((b.queue s).filter fun x => !decide (x.addr ≠ n.addr)) =
      (b.queue s).filter fun x => decide (x.order.id = n.order.id) := by
  refine List.filter_congr fun x hx => ?_
  have hiff := addr_eq_iff hi hu hn (mem_nodes.mpr ⟨s, hx⟩)
  by_cases hid : x.order.id = n.order.id
  · simp [hid, hiff.mpr hid]
  · have ha : ¬ x.addr = n.addr := fun ha => hid (hiff.mp ha)
    simp [hid, ha]

section Steps

variable [Zero P] {op : BookOp P} {r : BookResult P}

/-- Nothing is removed and nothing is added. -/
theorem flow_of_none (h : f.Flowing b) (hside : (f.note b op r).side = f.side)
    (hsub : ∀ s, Flow.submits b s op = 0) (htake : ∀ n ∈ b.nodes, op.takes n = false)
    (hleave : ∀ s, Flow.leaves s r = 0) :
    (f.note b op r).Flowing b ∧
      ∃ new, b.trades = b.trades ++ new ∧ ∀ t ∈ new, t.Fair (b.live op) := by
  have hnone : ∀ s, (b.queue s).filter op.takes = [] := fun s => List.filter_eq_nil_iff.mpr
    fun n hn => by rw [htake n (mem_nodes.mpr ⟨s, hn⟩)]; exact Bool.false_ne_true
  refine ⟨⟨fun s => ?_, ?_, ?_⟩, [], (List.append_nil _).symm, fun t ht => absurd ht List.not_mem_nil⟩
  · show f.submitted s + _ = _ + (f.removed s + _) + (f.unfilled s + _)
    rw [hsub, hleave, hnone, remainingQty_nil, add_zero, add_zero, add_zero]
    exact h.balance s
  · rw [hside]
    exact h.named
  · rw [hside]
    exact h.known

/-- An order submitted under a new id. -/
theorem flow_of_added (h : f.Flowing b) (hp : b.Placed) (hu : b.Unique)
    (ha : Added env o b o' b') (ho : o.filledQty = 0) (hq : 0 < o.quantity.toInt)
    (hnew : f.side o.id = none)
    (hside : (f.note b op r).side = Function.update f.side o.id (some o.side))
    (hsub : ∀ s, Flow.submits b s op = if o.side = s then o.quantity.toInt else 0)
    (htake : ∀ n, op.takes n = false) (hr : r = .order o') (hlive : b.live op = o :: b.orders) :
    (f.note b op r).Flowing b' ∧
      ∃ new, b'.trades = b.trades ++ new ∧ ∀ t ∈ new, t.Fair (b.live op) := by
  have hfresh : ∀ n ∈ b.nodes, n.order.id ≠ o.id := fun n hn e => by
    have hknown := h.known n hn
    rw [e, hnew] at hknown
    cases hknown
  obtain ⟨new, htr, hside', hown⟩ := ha.traded hp hu ho hq hfresh
  refine ⟨h.added htr hown (fun n' hn' => ha.back hn') (fun id hid => ?_) ?_ (fun s => ?_) ?_
    fun s => ?_, new, htr.trades, ?_⟩
  · rw [hside, Function.update_of_ne (fun e => hid (by rw [e, hnew]))]
  · rw [hside, Function.update_self]
  · show f.submitted s + _ = _
    rw [hsub]
  · funext s
    show f.removed s + remainingQty ((b.queue s).filter op.takes) = f.removed s
    rw [List.filter_eq_nil_iff.mpr fun n _ => by rw [htake n]; exact Bool.false_ne_true]
    exact add_zero _
  · show f.unfilled s + Flow.leaves s r = _
    rw [hr, Flow.leaves, hside']
  · rw [hlive]
    exact htr.fair

/-- The orders that a modification is matched with. -/
theorem mem_live_modify (hi : b.Indexed) (hu : b.Unique) {n : Node P} (hn : n ∈ b.nodes)
    (hr : Removed (fun x => x.addr ≠ n.addr) b b') (p : P) (q : Int32) (x : Order P) :
    x ∈ resubmitted n.order p q :: b'.orders ↔ x ∈ b.live (.modify env n.order.id p q) := by
  constructor
  · intro hx
    rcases List.mem_cons.mp hx with rfl | hx
    · exact List.mem_map.mpr ⟨n, hn, if_pos rfl⟩
    · obtain ⟨n', hn', rfl⟩ := List.mem_map.mp hx
      obtain ⟨hmem, hkeep⟩ := hr.mem_nodes.mp hn'
      refine List.mem_map.mpr ⟨n', hmem, if_neg fun hid => ?_⟩
      exact of_decide_eq_true hkeep ((addr_eq_iff hi hu hn hmem).mpr hid)
  · intro hx
    obtain ⟨n', hn', rfl⟩ := List.mem_map.mp hx
    by_cases hid : n'.order.id = n.order.id
    · rw [if_pos hid, hu.eq_of_id hn' hn hid]
      exact List.mem_cons_self ..
    · rw [if_neg hid]
      refine List.mem_cons_of_mem _ (List.mem_map_of_mem (hr.mem_nodes.mpr ⟨hn', ?_⟩))
      exact decide_eq_true fun ha => hid ((addr_eq_iff hi hu hn hn').mp ha)

/-- **One call.** -/
theorem BookStep.flow (hs : BookStep b op r b') (hp : b.Placed) (hi : b.Indexed) (hu : b.Unique)
    (h : f.Flowing b) (hop : op.Sized) (hnew : ∀ id ∈ op.newId, f.side id = none) :
    (f.note b op r).Flowing b' ∧
      ∃ new, b'.trades = b.trades ++ new ∧ ∀ t ∈ new, t.Fair (b.live op) := by
  have hmiss : ∀ {id : Int32}, b.orderIndex.lookup id = none → ∀ n ∈ b.nodes, n.order.id ≠ id :=
    fun hx n hn e => by
      have hd := hu.designated n hn
      rw [e, hx] at hd
      cases hd
  cases hs with
  | @add env o o' _ ha =>
      exact flow_of_added h hp hu ha hop.1 hop.2 (hnew o.id rfl) rfl (fun _ => rfl) (fun _ => rfl) rfl
        rfl
  | @addMarket env o m' _ hsw =>
      exact flow_of_added h hp hu (.done hsw (.inr rfl)) hop.1 hop.2 (hnew o.id rfl) rfl
        (fun _ => rfl) (fun _ => rfl) rfl rfl
  | cancelMiss hx =>
      exact flow_of_none h rfl (fun _ => rfl) (fun n hn => decide_eq_false (hmiss hx n hn))
        fun _ => rfl
  | @cancelHit n _ hn hx hr =>
      refine ⟨h.removed hr rfl ?_ (fun s => ?_) ?_, [], ?_, fun t ht => absurd ht List.not_mem_nil⟩
      · funext s
        exact add_zero _
      · rw [filter_addr hi hu hn]
        rfl
      · funext s
        exact add_zero _
      · rw [hr.trades, List.append_nil]
  | modifyMiss hx =>
      refine flow_of_none h rfl (fun s => if_neg ?_) (fun n hn => decide_eq_false (hmiss hx n hn))
        fun s => ?_
      · rintro ⟨n, hn, hid⟩
        exact hmiss hx n (mem_nodes.mpr ⟨s, hn⟩) hid
      · exact ite_self 0
  | @modifyHit env n p q o' b₁ _ hn hx hr ha =>
      -- the order is taken out, and submitted again
      set f₁ : Flow := ⟨f.side, f.submitted, fun s => f.removed s +
        remainingQty ((b.queue s).filter fun x => decide (x.order.id = n.order.id)), f.unfilled⟩
      have h₁ : f₁.Flowing b₁ := h.removed hr rfl rfl (fun s => by rw [filter_addr hi hu hn]) rfl
      have hfresh : ∀ x ∈ b₁.nodes, x.order.id ≠ (resubmitted n.order p q).id := fun x hx e => by
        obtain ⟨hmem, hkeep⟩ := hr.mem_nodes.mp hx
        exact of_decide_eq_true hkeep ((addr_eq_iff hi hu hn hmem).mpr e)
      obtain ⟨new, htr, hside, hown⟩ := ha.traded hr.placed (hr.unique hu) rfl hop hfresh
      have hqueue : ∀ s, (∃ x ∈ b.queue s, x.order.id = n.order.id) ↔ n.order.side = s := by
        intro s
        constructor
        · rintro ⟨x, hx, hid⟩
          rw [hu.eq_of_id (mem_nodes.mpr ⟨s, hx⟩) hn hid] at hx
          exact hp.side hx
        · rintro rfl
          obtain ⟨s, hs⟩ := mem_nodes.mp hn
          rw [hp.side hs]
          exact ⟨n, hs, rfl⟩
      refine ⟨h₁.added htr hown (fun n' hn' => ha.back hn') (fun _ _ => rfl) (h.known n hn)
        (fun s => ?_) rfl fun s => ?_, new, htr.trades.trans (by rw [hr.trades]), fun t ht => ?_⟩
      · show f.submitted s + (if ∃ x ∈ b.queue s, x.order.id = n.order.id then q.toInt else 0) = _
        simp only [hqueue]
        rfl
      · show f.unfilled s + (if o'.side = s then leftover o' else 0) = _
        rw [hside]
      · exact fair_congr (mem_live_modify hi hu hn hr p q) (htr.fair t ht)
  | @cutLevel side price _ hr =>
      refine ⟨h.removed hr rfl ?_ (fun s => ?_) ?_, [], ?_, fun t ht => absurd ht List.not_mem_nil⟩
      · funext s
        exact add_zero _
      · show f.removed s + _ = _
        congr 2
        refine List.filter_congr fun n _ => ?_
        simp [BookOp.takes]
      · funext s
        exact add_zero _
      · rw [hr.trades, List.append_nil]
  | @keepLevel side price size hne =>
      exact flow_of_none h rfl (fun _ => rfl) (fun n _ => decide_eq_false fun e => hne e.1)
        fun _ => rfl

omit [LinearOrder P] [Zero P] in
theorem newId_ne_of_nodup {ops : List (BookOp P)}
    (h : ((op :: ops).filterMap BookOp.newId).Nodup) {i j : Int32} (hi : op.newId = some i)
    (hj : j ∈ ops.filterMap BookOp.newId) : i ≠ j := by
  rw [List.filterMap_cons, hi, List.nodup_cons] at h
  exact fun e => h.1 (e ▸ hj)

/-- A book with its totals, after a call. -/
def flowStep (s : OrderBook P × Flow) (op : BookOp P) :
    Option (BookResult P × OrderBook P × Flow) :=
  (s.1.step op).map fun r => (r.1, r.2, s.2.note s.1 op r.1)

/-- The calls `ops` can go on from a book with its totals. -/
structure FlowReady (ops : List (BookOp P)) (s : OrderBook P × Flow) : Prop where
  placed : s.1.Placed
  indexed : s.1.Indexed
  unique : s.1.Unique
  flowing : s.2.Flowing s.1
  fresh : ∀ id ∈ ops.filterMap BookOp.newId, s.2.side id = none

theorem FlowReady.always {ops : List (BookOp P)} (hid : (ops.filterMap BookOp.newId).Nodup)
    (hsize : ∀ op ∈ ops, op.Sized) :
    ∀ {s : OrderBook P × Flow}, FlowReady ops s → Run.Always flowStep (fun s op _ s' =>
      s'.2.Balances s'.1 ∧ ∃ new, s'.1.trades = s.1.trades ++ new ∧
        ∀ t ∈ new, t.Fair (s.1.live op)) s ops := by
  induction ops with
  | nil => exact fun _ => trivial
  | cons op ops ih =>
      intro s hs
      have hop := hsize op (List.mem_cons_self ..)
      have hnew : ∀ id ∈ op.newId, s.2.side id = none := fun id hid =>
        hs.fresh id (List.mem_filterMap.mpr ⟨op, List.mem_cons_self .., hid⟩)
      obtain ⟨r, b', hstep, hbs⟩ := step_bookStep hs.placed hs.indexed hop.unfilled
      obtain ⟨hflow, htrades⟩ := hbs.flow hs.placed hs.indexed hs.unique hs.flowing hop hnew
      have hflowStep : flowStep s op = some (r, b', s.2.note s.1 op r) := by
        rw [flowStep, hstep]
        rfl
      have hfresh : s.1.FreshId op := by
        refine ⟨hop.unfilled, ?_⟩
        cases op with
        | add env o =>
            intro n hn e
            have hknown := hs.flowing.known n hn
            rw [e, hnew o.id rfl] at hknown
            cases hknown
        | _ => trivial
      have hready : FlowReady ops (b', s.2.note s.1 op r) := by
        refine ⟨hbs.placed hs.placed, hbs.indexed hs.indexed, hbs.unique hs.placed hs.unique hfresh,
          hflow, fun id hmem => ?_⟩
        have hold : s.2.side id = none := hs.fresh id
          (List.mem_filterMap.mpr (by
            obtain ⟨op', hop', hid'⟩ := List.mem_filterMap.mp hmem
            exact ⟨op', List.mem_cons_of_mem op hop', hid'⟩))
        rw [Flow.note_side fun e => newId_ne_of_nodup hid e hmem rfl]
        exact hold
      have hnodup : (ops.filterMap BookOp.newId).Nodup :=
        hid.sublist ((List.sublist_cons_self op ops).filterMap _)
      simp only [Run.Always, hflowStep]
      exact ⟨⟨hflow.balances, htrades⟩,
        ih hnodup (fun op' hop' => hsize op' (List.mem_cons_of_mem op hop')) hready⟩

/-- **No quantity is created or destroyed.**  When every order is submitted under a new id, with
nothing filled and a positive quantity, the totals of each side balance after every call, and every
trade is a fair one between two of the orders in the book while the call is matched. -/
theorem conserved {symbol : List UInt8} {ops : List (BookOp P)}
    (hid : (ops.filterMap BookOp.newId).Nodup) (hsize : ∀ op ∈ ops, op.Sized) :
    Run.Always flowStep (fun s op _ s' => s'.2.Balances s'.1 ∧
      ∃ new, s'.1.trades = s.1.trades ++ new ∧ ∀ t ∈ new, t.Fair (s.1.live op))
      (init symbol, Flow.start) ops := by
  have hnil : ∀ n ∈ (init symbol : OrderBook P).nodes, False := fun n hn =>
    absurd hn List.not_mem_nil
  refine FlowReady.always hid hsize ⟨init_placed symbol, init_indexed symbol, init_unique symbol,
    ⟨fun s => ?_, fun t ht => absurd ht List.not_mem_nil, fun n hn => (hnil n hn).elim⟩,
    fun _ _ => rfl⟩
  cases s with
  | buy => rfl
  | sell => rfl

end Steps

/-- Two sell orders, of which a buy order and a market order take part; then one is modified, its
level is removed, and a cancel finds the rest of the buy order. -/
def flowingCalls : List (BookOp ℤ) :=
  let bid : Order ℤ := Order.blank
  [.add .still { bid with id := 1, side := .sell, price := 101, quantity := 5 },
    .add .still { bid with id := 2, side := .sell, price := 100, quantity := 3 },
    .add .still { bid with id := 3, price := 100, quantity := 4 },
    .addMarket .still { bid with id := 4, quantity := 2 },
    .addMarket .still { bid with id := 5, side := .sell, quantity := 3 },
    .modify .still 1 99 7,
    .add .still { bid with id := 6, price := 98, quantity := 4 },
    .updateLevel .sell 99 0,
    .cancel 6]

theorem conserved_flowingCalls :
    (flowingCalls.filterMap BookOp.newId).Nodup ∧ (∀ op ∈ flowingCalls, op.Sized) ∧
      Run.Always flowStep (fun s op _ s' => s'.2.Balances s'.1 ∧
        ∃ new, s'.1.trades = s.1.trades ++ new ∧ ∀ t ∈ new, t.Fair (s.1.live op))
        (init [], Flow.start) flowingCalls :=
  ⟨by decide, by decide, conserved (by decide) (by decide)⟩

end OrderBook

end Aspira
