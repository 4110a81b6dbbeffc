import Aspira.Book.OrderBook

/-!
# Book — what the matching loops do

`Sweep s q m q' m'` says what `match_limit_order` does to the queue `q` of side `s`, read in the
order the levels and their lists are walked: it takes orders off the front while the incoming order
has something left and reaches them, and at most the last one it meets is left partly filled.

`matchLevels_sweep` is the one place where the nested loops are unfolded; what the book keeps is
proved by induction on `Sweep`, whose three cases are the ways one pass of the inner loop ends.
-/

namespace Aspira

variable {P : Type}

/-! ### One pass of the inner loop -/

namespace Matching

/-- `match_qty`. -/
def qty (m : Matching P) (o : Order P) : Int32 := stdMin m.order.remaining o.remaining

/-- The trade of the incoming order with `o` at `price`. -/
def deal (symbol : List UInt8) (env : Env) (price : P) (m : Matching P) (o : Order P) : Trade P where
  tradeId := m.nextTradeId
  buyOrderId := if m.order.side = .buy then m.order.id else o.id
  sellOrderId := if m.order.side = .buy then o.id else m.order.id
  quantity := m.qty o
  timestampNs := (env m.trades.length).now
  price := price
  symbol := tradeSymbol symbol (env m.trades.length).stack

/-- The state after the trade with `o`. -/
def hit (symbol : List UInt8) (env : Env) (price : P) (m : Matching P) (o : Order P) :
    Matching P where
  order := m.order.fill (m.qty o)
  orderIndex := m.orderIndex
  trades := m.trades ++ [m.deal symbol env price o]
  nextTradeId := m.nextTradeId + 1

/-- The state with an id erased from the index. -/
def unindex (m : Matching P) (id : Int32) : Matching P :=
  { m with orderIndex := m.orderIndex.erase id }

@[simp] theorem unindex_order (m : Matching P) (id : Int32) : (m.unindex id).order = m.order := rfl

@[simp] theorem unindex_trades (m : Matching P) (id : Int32) : (m.unindex id).trades = m.trades :=
  rfl

end Matching

variable {symbol : List UInt8} {env : Env} {price : P} {m : Matching P} {o : Order P}

theorem matchEntry_eq : matchEntry symbol env price m o =
    (o.fill (m.qty o), m.hit symbol env price o) := by
  unfold matchEntry generateTrade Matching.hit Matching.deal Matching.qty Order.fill
  cases h : m.order.side <;> simp [Order.isBuy, h]

/-- `match_qty` is what the smaller of the two orders has left. -/
theorem qty_toInt (hm : m.order.InRange) (ho : o.InRange) :
    (m.qty o).toInt = min (m.order.quantity.toInt - m.order.filledQty.toInt)
      (o.quantity.toInt - o.filledQty.toInt) := by
  rw [Matching.qty, stdMin_toInt, hm.remaining, ho.remaining]

/-- **One trade, in integers.**  Between an incoming order with something left and a resting order,
the quantity is positive, both fills grow by it exactly, neither passes its order's quantity, and
one of the two orders is done. -/
theorem hit_spec (hm : m.order.InRange) (h₀ : 0 < m.order.remaining) (ho : o.InRange)
    (h₁ : 0 < o.remaining) :
    0 < (m.qty o).toInt ∧
    (o.fill (m.qty o)).filledQty.toInt = o.filledQty.toInt + (m.qty o).toInt ∧
    (m.order.fill (m.qty o)).filledQty.toInt = m.order.filledQty.toInt + (m.qty o).toInt ∧
    (o.fill (m.qty o)).filledQty.toInt ≤ o.quantity.toInt ∧
    (m.order.fill (m.qty o)).filledQty.toInt ≤ m.order.quantity.toInt ∧
    ((o.fill (m.qty o)).filledQty.toInt = o.quantity.toInt ∨
      (m.order.fill (m.qty o)).filledQty.toInt = m.order.quantity.toInt) := by
  rw [hm.remaining_pos] at h₀
  rw [ho.remaining_pos] at h₁
  have hq := qty_toInt hm ho
  obtain ⟨hm₀, -⟩ := hm
  obtain ⟨ho₀, -⟩ := ho
  have hmq := m.order.quantity.toInt_lt
  have hoq := o.quantity.toInt_lt
  have ho' : (o.fill (m.qty o)).filledQty.toInt = o.filledQty.toInt + (m.qty o).toInt :=
    Int32.toInt_add_exact (by omega) (by omega)
  have hm' : (m.order.fill (m.qty o)).filledQty.toInt =
      m.order.filledQty.toInt + (m.qty o).toInt :=
    Int32.toInt_add_exact (by omega) (by omega)
  refine ⟨by omega, ho', hm', by omega, by omega, by omega⟩

theorem hit_inRange (hm : m.order.InRange) (h₀ : 0 < m.order.remaining) (ho : o.InRange)
    (h₁ : 0 < o.remaining) : (m.order.fill (m.qty o)).InRange := by
  obtain ⟨hq, -, hf, -, hle, -⟩ := hit_spec hm h₀ ho h₁
  have h := hm.1
  exact ⟨by omega, le_max_of_le_right hle⟩

/-- The resting order is not filled: the incoming order is. -/
theorem hit_exhausted (hm : m.order.InRange) (h₀ : 0 < m.order.remaining) (ho : o.InRange)
    (h₁ : 0 < o.remaining) (hf : (o.fill (m.qty o)).isFilled = false) :
    ¬ 0 < (m.order.fill (m.qty o)).remaining := by
  rw [(hit_inRange hm h₀ ho h₁).remaining_pos, not_lt]
  rw [Order.not_isFilled_iff] at hf
  obtain ⟨-, -, -, -, -, h | h⟩ := hit_spec hm h₀ ho h₁
  · exact absurd hf (by rw [h]; exact lt_irrefl _)
  · exact h.ge

theorem Order.Resting.remaining_pos (h : o.Resting) : 0 < o.remaining :=
  h.inRange.remaining_pos.mpr h.filled_lt

/-- A resting order left partly filled is a resting order. -/
theorem resting_fill (hm : m.order.InRange) (h₀ : 0 < m.order.remaining) (ho : o.Resting)
    (hf : (o.fill (m.qty o)).isFilled = false) :
    Order.Resting { o.fill (m.qty o) with status := .partFilled } := by
  obtain ⟨hq, hfill, -⟩ := hit_spec hm h₀ ho.inRange ho.remaining_pos
  rw [Order.not_isFilled_iff] at hf
  have h := ho.filled_nonneg
  refine ⟨ho.type, ?_, hf, ?_⟩
  · show 0 ≤ (o.fill (m.qty o)).filledQty.toInt
    omega
  · have hne : (o.fill (m.qty o)).filledQty ≠ 0 := fun e => by
      rw [e, Int32.toInt_zero] at hfill
      omega
    exact (if_neg hne).symm

/-! ### The loops over a side's queue -/

/-- The inner loop changes nothing of the incoming order but its fill, and keeps that in range. -/
theorem matchLevel_order (symbol : List UInt8) (env : Env) (p : P) :
    ∀ {level : OrderList P} {m : Matching P}, m.order.InRange → (∀ n ∈ level, n.order.Resting) →
      (matchLevel symbol env p level m).2.order.InRange ∧
      ∃ f, (matchLevel symbol env p level m).2.order = { m.order with filledQty := f }
  | [], m, hm, _ => ⟨hm, m.order.filledQty, rfl⟩
  | n :: level, m, hm, hl => by
      have hn := hl n (List.mem_cons_self ..)
      have hl' := fun n' hn' => hl n' (List.mem_cons_of_mem n hn')
      rw [matchLevel]
      simp only [matchEntry_eq]
      by_cases h₀ : 0 < m.order.remaining
      · rw [if_pos h₀]
        have hm₁ : (m.hit symbol env p n.order).order.InRange :=
          hit_inRange hm h₀ hn.inRange hn.remaining_pos
        cases hf : (n.order.fill (m.qty n.order)).isFilled with
        | true =>
            exact matchLevel_order symbol env p (m := (m.hit symbol env p n.order).unindex n.order.id) hm₁ hl'
        | false => exact matchLevel_order symbol env p (m := m.hit symbol env p n.order) hm₁ hl'
      · rw [if_neg h₀]
        exact ⟨hm, m.order.filledQty, rfl⟩

section Sweep

variable [LinearOrder P]

/-- A limit order does not reach a resting price of side `s`. -/
def Blocked (s : Side) (o : Order P) (p : P) : Prop := o.type = .limit ∧ s.Better o.price p

/-- What the matching loops do to a side's queue and to the rest of the state. -/
inductive Sweep (symbol : List UInt8) (env : Env) (s : Side) :
    OrderList P → Matching P → OrderList P → Matching P → Prop where
  | stop {q : OrderList P} {m : Matching P}
      (h : ¬ 0 < m.order.remaining ∨ ∀ n ∈ q, Blocked s m.order n.order.price) :
      Sweep symbol env s q m q m
  | take {n : Node P} {q q' : OrderList P} {m m' : Matching P} (h₀ : 0 < m.order.remaining)
      (hb : ¬ Blocked s m.order n.order.price) (hf : (n.order.fill (m.qty n.order)).isFilled = true)
      (t : Sweep symbol env s q ((m.hit symbol env n.order.price n.order).unindex n.order.id) q' m') :
      Sweep symbol env s (n :: q) m q' m'
  | leave {n : Node P} {q : OrderList P} {m : Matching P} (h₀ : 0 < m.order.remaining)
      (hb : ¬ Blocked s m.order n.order.price)
      (hf : (n.order.fill (m.qty n.order)).isFilled = false) :
      Sweep symbol env s (n :: q) m
        ({ n with order := { n.order.fill (m.qty n.order) with status := .partFilled } } :: q)
        (m.hit symbol env n.order.price n.order)

variable {s : Side}

theorem Sweep.of_exhausted {q q' : OrderList P} {m m' : Matching P}
    (h : Sweep symbol env s q m q' m') (h₀ : ¬ 0 < m.order.remaining) : q' = q ∧ m' = m := by
  cases h with
  | stop => exact ⟨rfl, rfl⟩
  | take h => exact absurd h h₀
  | leave h => exact absurd h h₀

/-- **The inner loop is a sweep of the level's queue**: followed by a sweep of what comes after the
level, it is a sweep of both. -/
theorem matchLevel_sweep {p : P} :
    ∀ {level : OrderList P} {m : Matching P} {q q' : OrderList P} {m' : Matching P},
      m.order.InRange → ¬ Blocked s m.order p →
      (∀ n ∈ level, n.order.price = p ∧ n.order.Resting) →
      Sweep symbol env s q (matchLevel symbol env p level m).2 q' m' →
      Sweep symbol env s (level ++ q) m ((matchLevel symbol env p level m).1 ++ q') m'
  | [], _, _, _, _, _, _, _, h => h
  | n :: level, m, q, q', m', hm, hb, hl, h => by
      obtain ⟨rfl, hn⟩ := hl n (List.mem_cons_self ..)
      have hl' := fun n' hn' => hl n' (List.mem_cons_of_mem n hn')
      rw [matchLevel] at h ⊢
      simp only [matchEntry_eq] at h ⊢
      by_cases h₀ : 0 < m.order.remaining
      · rw [if_pos h₀] at h ⊢
        have hm₁ : (m.hit symbol env n.order.price n.order).order.InRange :=
          hit_inRange hm h₀ hn.inRange hn.remaining_pos
        cases hf : (n.order.fill (m.qty n.order)).isFilled with
        | true =>
            rw [hf] at h
            exact .take h₀ hb hf (matchLevel_sweep hm₁ hb hl' h)
        | false =>
            -- the incoming order is exhausted, so neither loop goes on
            rw [hf] at h
            have hx : ¬ 0 < (m.hit symbol env n.order.price n.order).order.remaining :=
              hit_exhausted hm h₀ hn.inRange hn.remaining_pos hf
            have hstop : matchLevel symbol env n.order.price level
                (m.hit symbol env n.order.price n.order) =
                (level, m.hit symbol env n.order.price n.order) := by
              cases level with
              | nil => rfl
              | cons a l => rw [matchLevel, if_neg hx]
            simp only [hstop, Bool.false_eq_true, if_false] at h ⊢
            obtain ⟨rfl, rfl⟩ := h.of_exhausted hx
            exact .leave h₀ hb hf
      · rw [if_neg h₀] at h ⊢
        obtain ⟨rfl, rfl⟩ := h.of_exhausted h₀
        exact .stop (.inl h₀)

/-- The orders of a list of levels are keyed by their price and rest. -/
def Keyed (l : List (P × OrderList P)) : Prop :=
  ∀ e ∈ l, ∀ n ∈ e.2, n.order.price = e.1 ∧ n.order.Resting

/-- **The nested loops are a sweep of the side's queue.** -/
theorem matchLevels_sweep :
    ∀ {l : List (P × OrderList P)} {m : Matching P}, m.order.InRange → Keyed l →
      l.Pairwise (fun a b => s.Better a.1 b.1) →
      Sweep symbol env s (l.flatMap Prod.snd) m
        ((matchLevels symbol env s l m).1.flatMap Prod.snd) (matchLevels symbol env s l m).2
  | [], m, _, _, _ => .stop (.inr (by simp))
  | e :: l, m, hm, hl, hs => by
      obtain ⟨he, hs'⟩ := List.pairwise_cons.mp hs
      have hl' : Keyed l := fun e' he' => hl e' (List.mem_cons_of_mem e he')
      have hlev := hl e (List.mem_cons_self ..)
      rw [matchLevels]
      by_cases h₀ : 0 < m.order.remaining
      · rw [if_pos h₀]
        by_cases hb : m.order.type = .limit ∧ s.Better m.order.price e.1
        · -- what the first level does not let through, the later ones do not either
          rw [if_pos hb]
          refine .stop (.inr fun n hn => ?_)
          obtain ⟨e', he', hn'⟩ := List.mem_flatMap.mp hn
          obtain ⟨hp, -⟩ := hl e' he' n hn'
          rcases List.mem_cons.mp he' with rfl | h
          · exact ⟨hb.1, hp ▸ hb.2⟩
          · exact ⟨hb.1, hp ▸ hb.2.trans (he e' h)⟩
        · rw [if_neg hb]
          obtain ⟨hm₁, f, hf⟩ := matchLevel_order symbol env e.1 hm (fun n hn => (hlev n hn).2)
          have ih := matchLevels_sweep hm₁ hl' hs'
          have hw := matchLevel_sweep hm hb hlev ih
          dsimp only
          rw [List.flatMap_cons]
          split
          · rename_i hempty
            rw [List.isEmpty_iff] at hempty
            rw [hempty, List.nil_append] at hw
            exact hw
          · rw [List.flatMap_cons]
            exact hw
      · rw [if_neg h₀]
        exact .stop (.inl h₀)

end Sweep

end Aspira
