import Aspira.Book.Reachable
import Aspira.Book.Fills
import Aspira.Pipeline.Limits

/-!
# Pipeline — notional

What `process_market_data` adds to `total_notional` for an order it submits, in exact arithmetic.  The
trades are made at the prices of the resting orders, and the fill is reported at the price of the
incoming one, which is never better for it.  So the booked notional is that of the trades exactly when
nothing trades at a better price (`booked_notional_iff`): each trade at one puts it off, and always in
the same direction.
-/

namespace Aspira

/-! ### The trades of an order -/

/-- What an order gains over its own price on a piece of a resting order of side `s`. -/
def improvement (s : Side) (price : ℚ) (p : Node ℚ × ℤ) : ℚ :=
  match s with
  | .buy => (p.1.order.price - price) * p.2
  | .sell => (price - p.1.order.price) * p.2

/-- Within its limit an order never loses, and gains at a better price only. -/
theorem improvement_spec {s : Side} {price : ℚ} {p : Node ℚ × ℤ} (hpos : 0 < p.2)
    (hp : ¬ s.Better price p.1.order.price) :
    0 ≤ improvement s price p ∧
      (improvement s price p = 0 ↔ ¬ s.Better p.1.order.price price) := by
  have hqty : (0 : ℚ) < p.2 := by exact_mod_cast hpos
  cases s with
  | buy =>
      have hle : 0 ≤ p.1.order.price - price := sub_nonneg.mpr (not_lt.mp hp)
      refine ⟨mul_nonneg hle hqty.le, ?_⟩
      show (p.1.order.price - price) * p.2 = 0 ↔ ¬ price < p.1.order.price
      rw [mul_eq_zero_iff_right hqty.ne', not_lt, ← sub_nonpos]
      exact hle.ge_iff_eq'.symm
  | sell =>
      have hle : 0 ≤ price - p.1.order.price := sub_nonneg.mpr (not_lt.mp hp)
      refine ⟨mul_nonneg hle hqty.le, ?_⟩
      show (price - p.1.order.price) * p.2 = 0 ↔ ¬ p.1.order.price < price
      rw [mul_eq_zero_iff_right hqty.ne', not_lt, ← sub_nonpos]
      exact hle.ge_iff_eq'.symm

/-- The pieces at `price` against the pieces at their own prices. -/
theorem sum_improvement (s : Side) (price : ℚ) (ps : List (Node ℚ × ℤ)) :
    (ps.map (improvement s price)).sum = match s with
      | .buy => (ps.map fun p => p.1.order.price * (p.2 : ℚ)).sum - price * ((ps.map Prod.snd).sum : ℤ)
      | .sell => price * ((ps.map Prod.snd).sum : ℤ) -
          (ps.map fun p => p.1.order.price * (p.2 : ℚ)).sum := by
  induction ps with
  | nil => cases s <;> simp
  | cons p ps ih =>
      rw [List.map_cons, List.sum_cons, ih]
      cases s
      · simp only [improvement, List.map_cons, List.sum_cons]
        push_cast
        ring
      · simp only [improvement, List.map_cons, List.sum_cons]
        push_cast
        ring

/-- **Pieces within the limit are worth the same at `price`** exactly when none is at a better
price. -/
theorem sum_at_price_iff (s : Side) {price : ℚ} {ps : List (Node ℚ × ℤ)}
    (h : ∀ p ∈ ps, 0 < p.2 ∧ ¬ s.Better price p.1.order.price) :
    price * ((ps.map Prod.snd).sum : ℤ) = (ps.map fun p => p.1.order.price * (p.2 : ℚ)).sum ↔
      ∀ p ∈ ps, ¬ s.Better p.1.order.price price := by
  have hsum : price * ((ps.map Prod.snd).sum : ℤ) =
      (ps.map fun p => p.1.order.price * (p.2 : ℚ)).sum ↔ (ps.map (improvement s price)).sum = 0 := by
    rw [sum_improvement]
    cases s
    · exact eq_comm.trans sub_eq_zero.symm
    · exact sub_eq_zero.symm
  have hnonneg : ∀ x ∈ ps.map (improvement s price), 0 ≤ x := by
    intro x hx
    obtain ⟨p, hp, rfl⟩ := List.mem_map.mp hx
    exact (improvement_spec (h p hp).1 (h p hp).2).1
  rw [hsum]
  constructor
  · intro hzero p hp
    have hterm := List.all_zero_of_le_zero_le_of_sum_eq_zero hnonneg hzero (List.mem_map_of_mem hp)
    exact (improvement_spec (h p hp).1 (h p hp).2).2.mp hterm
  · intro hnone
    refine List.sum_eq_zero fun x hx => ?_
    obtain ⟨p, hp, rfl⟩ := List.mem_map.mp hx
    exact (improvement_spec (h p hp).1 (h p hp).2).2.mpr (hnone p hp)

/-! ### What is booked -/

/-- The trades that a submission adds to the buffer. -/
def Submission.generated {P : Type} [LinearOrder P] (s : Submission P) : List (Trade P) :=
  s.after.trades.drop s.book.trades.length

namespace HotPath

/-- What an order adds to `total_notional` of its symbol. -/
def Arrival.booked (a : Arrival ℚ) : ℚ :=
  (a.next.riskEngine.getPosition a.order.symbol.key).totalNotional -
    (a.path.riskEngine.getPosition a.order.symbol.key).totalNotional

variable {a : Arrival ℚ}

/-- **The fill is booked at the price of the order.** -/
theorem Arrival.booked_eq (hb : a.path.orderBook.Placed) (ho : a.order.filledQty = 0)
    (hprice : 0 < a.order.price) (hacc : a.accepted = true) :
    a.booked = a.order.price * (((a.path.orderBook.offered a.order).map Prod.snd).sum : ℤ) := by
  obtain ⟨-, f, st, hres, hf⟩ := OrderBook.addOrder_offered a.amb.stamps hb ho
  have hresult : a.submission.result = { a.order with filledQty := f, status := st } := hres
  have hnonneg : 0 ≤ f.toInt := by
    rw [hf]
    refine List.sum_nonneg fun k hk => ?_
    obtain ⟨p, hp, rfl⟩ := List.mem_map.mp hk
    exact (OrderBook.mem_offered hb hp).2.2.1.le
  rw [booked, (next_of_accepted hacc).2, hresult, ← hf]
  by_cases hpos : 0 < f
  · rw [reportFill, if_pos hpos, RiskEngine.getPosition_onOrderExecuted, if_pos rfl,
      getPosition_validate, if_pos hprice]
    exact add_sub_cancel_left _ _
  · have hzero : f.toInt = 0 := by
      rw [Int32.lt_iff_toInt_lt, not_lt] at hpos
      exact le_antisymm hpos hnonneg
    rw [reportFill_of_unfilled hzero, getPosition_validate, hzero, sub_self, Int.cast_zero, mul_zero]

/-- The trades that an order adds are worth the pieces it takes. -/
theorem Arrival.notional_generated (hb : a.path.orderBook.Placed) (ho : a.order.filledQty = 0) :
    notional a.submission.generated =
      ((a.path.orderBook.offered a.order).map fun p => p.1.order.price * (p.2 : ℚ)).sum := by
  obtain ⟨htrades, -⟩ := OrderBook.addOrder_offered a.amb.stamps hb ho
  have hgen : a.submission.generated = deals a.path.orderBook.symbol a.amb.stamps a.order
      a.path.orderBook.trades.length a.path.orderBook.nextTradeId (a.path.orderBook.offered a.order) := by
    show (a.path.orderBook.addOrder a.amb.stamps a.order).2.trades.drop _ = _
    rw [htrades]
    exact List.drop_left
  rw [hgen]
  exact notional_deals _ _ fun p hp => (OrderBook.mem_offered hb hp).2.2

end HotPath

/-- **When the booked notional is that of the trades.**  Exactly when no resting order that the order
could trade with is priced better than the order itself. -/
theorem booked_notional_iff {a : HotPath.Arrival ℚ} (hb : OrderBook.Built a.path.orderBook)
    (ho : a.order.filledQty = 0) (ht : a.order.type = .limit) (hprice : 0 < a.order.price)
    (hacc : a.accepted = true) :
    a.booked = notional a.submission.generated ↔
      (0 < a.order.quantity.toInt → ∀ n ∈ a.path.orderBook.queue a.order.side.opposite,
        ¬ a.order.side.opposite.Better n.order.price a.order.price) := by
  have hpieces : ∀ p ∈ a.path.orderBook.offered a.order,
      0 < p.2 ∧ ¬ a.order.side.opposite.Better a.order.price p.1.order.price := by
    intro p hp
    obtain ⟨-, hreach, hpos, -⟩ := OrderBook.mem_offered hb.placed hp
    exact ⟨hpos, fun hbetter => hreach ⟨ht, hbetter⟩⟩
  rw [HotPath.Arrival.booked_eq hb.placed ho hprice hacc,
    HotPath.Arrival.notional_generated hb.placed ho, sum_at_price_iff a.order.side.opposite hpieces]
  constructor
  · intro hnone hq n hn hbetter
    obtain ⟨p, hp, hbetter'⟩ := OrderBook.exists_offered_better hb.placed hq hn hbetter
    exact hnone p hp hbetter'
  · intro hnone p hp
    obtain ⟨hmem, -, -, -⟩ := OrderBook.mem_offered hb.placed hp
    exact hnone (OrderBook.quantity_pos_of_mem_offered hp) p.1 hmem

/-- **The orders of every run from `init`** are limit orders with nothing filled, on books that
are built by such orders. -/
theorem arrivals_built (symbol : List UInt8) (ts : List (Tick ℚ)) {a : HotPath.Arrival ℚ}
    (ha : a ∈ (HotPath.init symbol).arrivals ts) :
    HotPath.Quote a.order ∧ OrderBook.Built a.path.orderBook := by
  refine (HotPath.arrivals_keep (I := fun b _ => OrderBook.Built b) (fun a ho hI => ?_) ts
    (fun t _ id side => HotPath.strategyOrder_quote t.msg id side) (.init symbol)).1 a ha
  cases hacc : a.accepted with
  | false =>
      rw [(HotPath.Arrival.next_of_rejected hacc).1]
      exact hI
  | true =>
      rw [(HotPath.Arrival.next_of_accepted hacc).1]
      have hop : BookOp.Unfilled (.add a.amb.stamps a.order) := ho.filledQty
      exact .drain (hI.step hop rfl)

/-- The second buy order, at 100.2, meets the first sell order at its price. -/
def meetingMarket : List (Tick ℚ) :=
  [⟨⟨0, 99, 101, aapl⟩, .still, .still⟩, ⟨⟨0, 994 / 10, 1014 / 10, aapl⟩, .still, .still⟩]

theorem booked_notional_iff_meetingMarket :
    ∃ a ∈ (HotPath.init (text "AAPL")).arrivals meetingMarket, a.accepted = true ∧
      a.submission.generated ≠ [] ∧ a.booked = notional a.submission.generated := by
  have hmeets : ∃ a ∈ (HotPath.init (text "AAPL")).arrivals meetingMarket, a.accepted = true ∧
      a.submission.generated ≠ [] ∧ 0 < a.order.price ∧
      ∀ n ∈ a.path.orderBook.queue a.order.side.opposite,
        ¬ a.order.side.opposite.Better n.order.price a.order.price := by decide +kernel
  obtain ⟨a, ha, hacc, hgen, hprice, hnone⟩ := hmeets
  obtain ⟨hquote, hbuilt⟩ := arrivals_built _ _ ha
  refine ⟨a, ha, hacc, hgen, ?_⟩
  exact (booked_notional_iff hbuilt hquote.filledQty hquote.type hprice hacc).mpr fun _ => hnone

/-- **The fill is overbooked.**  The second buy order of a rising market, at 100.8, trades at 100.2. -/
theorem risingMarket_overbooked :
    ∃ a ∈ (HotPath.init (text "AAPL")).arrivals risingMarket, a.accepted = true ∧
      0 < a.order.price ∧ a.booked ≠ notional a.submission.generated := by decide +kernel

end Aspira
