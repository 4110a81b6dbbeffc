import Aspira.Support.Text
import Aspira.Book.Moves

/-!
# Book — which orders an incoming order trades with

`struck` reads off the book *before* a call which resting orders the incoming order will trade with:
those at the front of the opposite queue that it reaches, until its quantity is used up.
`Sweep.strike` says that the trades of the call are with these orders, one each and in this order,
that nothing else in the queue is touched, and that the incoming order's fill is the total of the
trades.
-/

namespace Aspira

variable {P : Type} [LinearOrder P]

instance (s : Side) (o : Order P) (p : P) : Decidable (Blocked s o p) :=
  inferInstanceAs (Decidable (_ ∧ _))

/-- The orders of a queue of side `s` that an order with `left` to fill trades with. -/
def struck (s : Side) (o : Order P) : ℤ → OrderList P → OrderList P
  | _, [] => []
  | left, n :: q =>
      if 0 < left ∧ ¬ Blocked s o n.order.price then
        n :: struck s o (left - (n.order.quantity.toInt - n.order.filledQty.toInt)) q
      else []

/-- The trade is one of the incoming order `o` with the order at `n`. -/
structure Trade.Between (symbol : List UInt8) (o : Order P) (t : Trade P) (n : Node P) : Prop where
  buyOrderId : t.buyOrderId = if o.side = .buy then o.id else n.order.id
  sellOrderId : t.sellOrderId = if o.side = .buy then n.order.id else o.id
  price : t.price = n.order.price
  symbol : ∃ stack, t.symbol = tradeSymbol symbol stack
  pos : 0 < t.quantity.toInt

theorem tradeSymbol_getElem (symbol : List UInt8) (stack : Symbol) {i : ℕ}
    (h : i < (tradeSymbol symbol stack).toList.length) :
    (tradeSymbol symbol stack).toList[i] =
      if i = symbol.length then 0
      else symbol.getD i (stack.get ⟨i, by rwa [Vector.length_toList] at h⟩) := by
  simp [tradeSymbol]

/-- The name of a trade is the book's symbol, as far as there is room for it. -/
theorem cstr_tradeSymbol (symbol : List UInt8) (stack : Symbol) :
    cstr (tradeSymbol symbol stack).toList = cstr (symbol.take 16) := by
  have hall : (tradeSymbol symbol stack).toList.length = 16 := Vector.length_toList
  have htake : (tradeSymbol symbol stack).toList.take symbol.length = symbol.take 16 := by
    refine List.ext_getElem (by rw [List.length_take, List.length_take, hall, min_comm])
      fun i h₁ h₂ => ?_
    have hi : i < symbol.length := (List.length_take_le' 16 symbol).trans_lt' h₂
    rw [List.getElem_take, tradeSymbol_getElem, if_neg hi.ne, List.getD_eq_getElem _ _ hi,
      List.getElem_take]
  by_cases hlen : symbol.length < 16
  · have hin : symbol.length < (tradeSymbol symbol stack).toList.length := by
      rw [hall]
      exact hlen
    have hdrop := List.drop_eq_getElem_cons hin
    rw [tradeSymbol_getElem, if_pos rfl] at hdrop
    rw [← List.take_append_drop symbol.length (tradeSymbol symbol stack).toList, htake, hdrop,
      cstr_append_zero]
  · rw [← htake, List.take_of_length_le (by omega)]

/-- The total quantity of some trades. -/
def volume (ts : List (Trade P)) : ℤ := (ts.map fun t => t.quantity.toInt).sum

theorem struck_of_nonpos {s : Side} {o : Order P} {left : ℤ} (h : left ≤ 0) (q : OrderList P) :
    struck s o left q = [] := by
  cases q with
  | nil => rfl
  | cons n q => exact if_neg fun hn => hn.1.not_ge h

/-- Which orders are struck depends on the type and the price of the order alone. -/
theorem struck_congr {s : Side} {o o' : Order P} (ht : o.type = o'.type) (hp : o.price = o'.price) :
    ∀ (left : ℤ) (q : OrderList P), struck s o left q = struck s o' left q
  | _, [] => rfl
  | left, n :: q => by
      have hb : Blocked s o n.order.price ↔ Blocked s o' n.order.price := by
        rw [Blocked, Blocked, ht, hp]
      rw [struck, struck, struck_congr ht hp]
      simp only [hb]

/-- What the trades of a sweep are, given the orders struck. -/
structure Struck (symbol : List UInt8) (o : Order P) (hits : OrderList P) (new : List (Trade P))
    (q : OrderList P) (m : Matching P) (q' : OrderList P) (m' : Matching P) : Prop where
  trades : m'.trades = m.trades ++ new
  between : List.Forall₂ (Trade.Between symbol o) new hits
  filled : m'.order.filledQty.toInt = m.order.filledQty.toInt + volume new
  rest : ∃ front rest, q = hits ++ rest ∧ q' = front ++ rest ∧ ∀ n' ∈ front, ∃ n ∈ hits, n.Same n'

section Sweep

variable {symbol : List UInt8} {env : Env} {s : Side} {q q' : OrderList P} {m m' : Matching P}

omit [LinearOrder P] in
theorem deal_between {n : Node P} (hm : m.order.InRange) (h₀ : 0 < m.order.remaining)
    (hn : n.order.Resting) :
    (m.deal symbol env n.order.price n.order).Between symbol m.order n :=
  ⟨rfl, rfl, rfl, ⟨_, rfl⟩, (hit_spec hm h₀ hn.inRange hn.remaining_pos).1⟩

/-- What the order of a matching has left to fill. -/
def Matching.left (m : Matching P) : ℤ := m.order.quantity.toInt - m.order.filledQty.toInt

theorem struck_of_stop (hm : m.order.InRange)
    (h : ¬ 0 < m.order.remaining ∨ ∀ n ∈ q, Blocked s m.order n.order.price) :
    struck s m.order m.left q = [] := by
  rcases h with h | h
  · rw [hm.remaining_pos, not_lt] at h
    exact struck_of_nonpos (Int.sub_nonpos_of_le h) q
  · cases q with
    | nil => rfl
    | cons n q => exact if_neg fun hn => hn.2 (h n (List.mem_cons_self ..))

/-- An order that is filled up is struck, and the rest of the incoming order goes on. -/
theorem struck_of_take (symbol : List UInt8) (env : Env) (q : OrderList P) {n : Node P}
    (hm : m.order.InRange) (hn : n.order.Resting) (h₀ : 0 < m.order.remaining)
    (hb : ¬ Blocked s m.order n.order.price)
    (hfull : (n.order.fill (m.qty n.order)).isFilled = true) :
    (m.hit symbol env n.order.price n.order).left =
      m.left - (n.order.quantity.toInt - n.order.filledQty.toInt) ∧
    struck s m.order m.left (n :: q) = n :: struck s (m.hit symbol env n.order.price n.order).order
      (m.hit symbol env n.order.price n.order).left q := by
  obtain ⟨-, hn', hm', hle, -, -⟩ := hit_spec hm h₀ hn.inRange hn.remaining_pos
  rw [Order.isFilled_iff] at hfull
  have hq : (n.order.fill (m.qty n.order)).quantity = n.order.quantity := rfl
  rw [hq] at hfull
  -- the order is filled, so the trade was for what it had left
  have hleft : (m.hit symbol env n.order.price n.order).left =
      m.left - (n.order.quantity.toInt - n.order.filledQty.toInt) := by
    show m.order.quantity.toInt - (m.order.fill (m.qty n.order)).filledQty.toInt = _
    unfold Matching.left
    omega
  have hsame : ∀ left q, struck s (m.hit symbol env n.order.price n.order).order left q =
      struck s m.order left q := struck_congr rfl rfl
  refine ⟨hleft, ?_⟩
  rw [hsame, hleft]
  exact if_pos ⟨Int.sub_pos_of_lt (hm.remaining_pos.mp h₀), hb⟩

/-- An order that is not filled up is the last one struck. -/
theorem struck_of_leave (q : OrderList P) {n : Node P} (hm : m.order.InRange) (hn : n.order.Resting)
    (h₀ : 0 < m.order.remaining) (hb : ¬ Blocked s m.order n.order.price)
    (hpart : (n.order.fill (m.qty n.order)).isFilled = false) :
    (m.qty n.order).toInt = m.left ∧ m.left < n.order.quantity.toInt - n.order.filledQty.toInt ∧
    struck s m.order m.left (n :: q) = [n] := by
  obtain ⟨-, hn', hm', -, hle, hdone⟩ := hit_spec hm h₀ hn.inRange hn.remaining_pos
  rw [Order.not_isFilled_iff] at hpart
  have hquant : (n.order.fill (m.qty n.order)).quantity = n.order.quantity := rfl
  rw [hquant] at hpart
  have hqty : (m.qty n.order).toInt = m.left := by
    unfold Matching.left
    omega
  have hlt : m.left < n.order.quantity.toInt - n.order.filledQty.toInt := by omega
  refine ⟨hqty, hlt, ?_⟩
  rw [struck, if_pos ⟨Int.sub_pos_of_lt (hm.remaining_pos.mp h₀), hb⟩,
    struck_of_nonpos (Int.sub_nonpos_of_le hlt.le)]

/-- **The trades of a sweep are with the orders struck.** -/
theorem Sweep.strike (h : Sweep symbol env s q m q' m') (hm : m.order.InRange)
    (hq : ∀ n ∈ q, n.order.Resting) :
    ∃ new, Struck symbol m.order
      (struck s m.order (m.order.quantity.toInt - m.order.filledQty.toInt) q) new q m q' m' := by
  refine Sweep.live_induction (C := fun q m q' m' => ∃ new, Struck symbol m.order
      (struck s m.order m.left q) new q m q' m')
    ?_ ?_ ?_ h hm hq
  · intro q m hm hq hstop
    rw [struck_of_stop hm hstop]
    exact ⟨[], (List.append_nil _).symm, .nil, (add_zero _).symm,
      [], q, rfl, rfl, fun n' hn' => absurd hn' List.not_mem_nil⟩
  · intro n q q' m m' hm hn h₀ hb hfull ih
    obtain ⟨new, htr, hbet, hfill, front, rest, hq, hq', hfront⟩ := ih
    obtain ⟨-, hn', hm', hle, -, -⟩ := hit_spec hm h₀ hn.inRange hn.remaining_pos
    rw [(struck_of_take symbol env q hm hn h₀ hb hfull).2]
    refine ⟨m.deal symbol env n.order.price n.order :: new, ?_, .cons (deal_between hm h₀ hn) ?_, ?_,
      front, rest, ?_, hq', fun n' hn' => ?_⟩
    · rw [htr, Matching.unindex_trades]
      exact List.append_assoc ..
    · exact hbet.imp fun t n' h => ⟨h.buyOrderId, h.sellOrderId, h.price, h.symbol, h.pos⟩
    · rw [hfill]
      show (m.order.fill _).filledQty.toInt + _ = _
      rw [hm', add_assoc]
      rfl
    · rw [List.cons_append]
      exact congrArg (List.cons n) hq
    · obtain ⟨a, ha, hs⟩ := hfront n' hn'
      exact ⟨a, List.mem_cons_of_mem n ha, hs⟩
  · intro n q m hm hn hq h₀ hb hpart
    obtain ⟨-, -, hm', -, -, -⟩ := hit_spec hm h₀ hn.inRange hn.remaining_pos
    rw [(struck_of_leave q hm hn h₀ hb hpart).2.2]
    refine ⟨[m.deal symbol env n.order.price n.order], rfl,
      .cons (deal_between hm h₀ hn) .nil, ?_,
      [{ n with order := { n.order.fill (m.qty n.order) with status := .partFilled } }], q, rfl, rfl,
      fun n' hn' => ?_⟩
    · show (m.order.fill _).filledQty.toInt = _
      rw [hm']
      simp [volume, Matching.deal]
    · exact ⟨n, List.mem_singleton_self n, by rw [List.mem_singleton.mp hn']; exact ⟨rfl, _, _, rfl⟩⟩

end Sweep

end Aspira
