import Aspira.Pipeline.Submissions

/-!
# Pipeline — positions

Every order in the book was submitted by the pipeline itself, so a trade moves the pipeline's
position twice: once for the buy order and once for the sell order.  `PositionsAgree` says that the
risk engine's positions are the totals of the trades so counted.

`process_market_data` reports to the risk engine the fill of the order it submits and never that of
the resting orders, so the positions agree exactly as long as nothing trades: as long as no
submitted order reaches a resting one (`positions_agree_iff`).
-/

namespace Aspira

variable {P : Type}

namespace Execution

/-- What an order of the trade contributes for the symbol `k`. -/
def party (k : SymbolKey) (e : Execution P) (o : Order P) : ℤ :=
  if o.symbol.key = k then e.trade.quantity.toInt else 0

theorem party_nonneg (k : SymbolKey) {e : Execution P} (h : 0 ≤ e.trade.quantity.toInt)
    (o : Order P) : 0 ≤ e.party k o := by
  unfold party
  split
  · exact h
  · exact le_rfl

/-- What the trade adds to the net position in `k`. -/
def net (k : SymbolKey) (e : Execution P) : ℤ := e.party k e.buy - e.party k e.sell

/-- What the trade adds to the gross exposure in `k`. -/
def gross (k : SymbolKey) (e : Execution P) : ℤ := e.party k e.buy + e.party k e.sell

theorem gross_eq (k : SymbolKey) (e : Execution P) :
    e.gross k = e.party k e.incoming + e.party k e.resting := by
  rcases e.sides with ⟨hbuy, hsell⟩ | ⟨hbuy, hsell⟩
  · rw [gross, hbuy, hsell]
  · rw [gross, hbuy, hsell, add_comm]

end Execution

/-- The risk engine's positions are those of the trades. -/
def PositionsAgree [Price P] (r : RiskEngine P) (es : List (Execution P)) : Prop :=
  ∀ k, (r.getPosition k).netPosition.toInt = (es.map (Execution.net k)).sum ∧
    (r.getPosition k).grossExposure.toInt = (es.map (Execution.gross k)).sum

/-! ### The trades of one submission -/

section Trades

variable {symbol : List UInt8} {o : Order P} {ts : List (Trade P)} {hits : OrderList P}

theorem volume_nonneg (h : List.Forall₂ (Trade.Between symbol o) ts hits) : 0 ≤ volume ts := by
  induction h with
  | nil => exact le_rfl
  | cons h _ ih => exact add_nonneg h.pos.le ih

/-- What the resting orders of the trades contribute. -/
def restingGross (k : SymbolKey) (o : Order P) (ts : List (Trade P)) (hits : OrderList P) : ℤ :=
  (List.zipWith (fun t n => Execution.party k ⟨t, o, n.order⟩ n.order) ts hits).sum

theorem restingGross_nonneg (k : SymbolKey) (h : List.Forall₂ (Trade.Between symbol o) ts hits) :
    0 ≤ restingGross k o ts hits := by
  induction h with
  | nil => exact le_rfl
  | cons h _ ih =>
      exact add_nonneg (Execution.party_nonneg k h.pos.le _) ih

theorem restingGross_pos (h : List.Forall₂ (Trade.Between symbol o) ts hits) {n : Node P}
    (hn : n ∈ hits) : 0 < restingGross n.order.symbol.key o ts hits := by
  induction h with
  | nil => exact absurd hn List.not_mem_nil
  | @cons t a ts hits h hs ih =>
      have hrest := restingGross_nonneg n.order.symbol.key hs
      rcases List.mem_cons.mp hn with rfl | hn
      · have hself : Execution.party n.order.symbol.key ⟨t, o, n.order⟩ n.order = t.quantity.toInt :=
          if_pos rfl
        exact add_pos_of_pos_of_nonneg (h.pos.trans_le hself.ge) hrest
      · exact add_pos_of_nonneg_of_pos (Execution.party_nonneg _ h.pos.le _) (ih hn)

/-- Both orders count: the submitted one and the resting ones. -/
theorem gross_sum (k : SymbolKey) (h : List.Forall₂ (Trade.Between symbol o) ts hits) :
    ((List.zipWith (fun t n => (⟨t, o, n.order⟩ : Execution P)) ts hits).map
      (Execution.gross k)).sum =
      (if o.symbol.key = k then volume ts else 0) + restingGross k o ts hits := by
  induction h with
  | nil => simp [restingGross, volume]
  | @cons t n ts hits _ _ ih =>
      simp only [List.zipWith_cons_cons, List.map_cons, List.sum_cons, restingGross,
        Execution.gross_eq] at ih ⊢
      rw [ih, show volume (t :: ts) = t.quantity.toInt + volume ts from rfl]
      show (if o.symbol.key = k then t.quantity.toInt else 0) + _ + _ = _
      split <;> ring

end Trades

/-! ### What the risk engine is told -/

section Reports

variable [Price P]

theorem reportFill_frame (r : RiskEngine P) (result : Order P) (mid : P) :
    (HotPath.reportFill r result mid).limits = r.limits := by
  unfold HotPath.reportFill
  split <;> rfl

/-- A fill of nothing is not reported. -/
theorem reportFill_of_unfilled {r : RiskEngine P} {result : Order P} {mid : P}
    (h : result.filledQty.toInt = 0) : HotPath.reportFill r result mid = r := by
  refine if_neg ?_
  rw [Int32.lt_iff_toInt_lt, h]
  exact lt_irrefl _

/-- A report adds the fill to the exposure in the order's symbol. -/
theorem reportFill_gross {r : RiskEngine P} {result : Order P} {mid : P} (k : SymbolKey)
    (h₀ : 0 ≤ result.filledQty.toInt)
    (h : result.symbol.key = k → -2 ^ 31 ≤ (r.getPosition k).grossExposure.toInt ∧
      (r.getPosition k).grossExposure.toInt + result.filledQty.toInt < 2 ^ 31) :
    ((HotPath.reportFill r result mid).getPosition k).grossExposure.toInt =
      (r.getPosition k).grossExposure.toInt +
        if result.symbol.key = k then result.filledQty.toInt else 0 := by
  by_cases hpos : 0 < result.filledQty
  · rw [HotPath.reportFill, if_pos hpos, RiskEngine.getPosition_onOrderExecuted]
    by_cases hk : result.symbol.key = k
    · obtain ⟨h₁, h₂⟩ := h hk
      rw [if_pos hk.symm, if_pos hk]
      exact Int32.toInt_add_exact (by omega) h₂
    · rw [if_neg (Ne.symm hk), if_neg hk, add_zero]
  · rw [Int32.lt_iff_toInt_lt, not_lt] at hpos
    have hzero : result.filledQty.toInt = 0 := le_antisymm hpos h₀
    rw [reportFill_of_unfilled hzero, hzero, ite_self, add_zero]

/-- What holds between the book, the risk engine and the submissions so far. -/
structure Tracked (symbol : List UInt8) (b : OrderBook P) (r : RiskEngine P)
    (subs : List (Submission P)) : Prop where
  booked : Booked symbol b subs
  limits : r.limits = pipelineLimits
  gross : ∀ k, (r.getPosition k).grossExposure.toInt =
    (subs.map fun s => if s.order.symbol.key = k then volume s.after.trades else 0).sum
  gross_nonneg : ∀ k, 0 ≤ (r.getPosition k).grossExposure.toInt
  gross_le : ∀ k, (r.getPosition k).grossExposure.toInt ≤ 50000000
  idle : (∀ s ∈ subs, s.hits = []) → ∀ k, r.getPosition k = .zero

theorem tracked_init (symbol : List UInt8) :
    Tracked symbol (HotPath.init symbol : HotPath P).orderBook
      (HotPath.init symbol : HotPath P).riskEngine [] where
  booked := booked_init symbol
  limits := rfl
  gross k := rfl
  gross_nonneg k := le_rfl
  gross_le k := (by decide : (0 : ℤ) ≤ 50000000)
  idle _ k := rfl

/-- Validation leaves the positions alone. -/
theorem getPosition_validate (nowSec : UInt64) (r : RiskEngine P) (o : Order P) (mid : P)
    (k : SymbolKey) : (r.validate nowSec o mid).2.getPosition k = r.getPosition k := by
  unfold RiskEngine.getPosition
  rw [(r.validate_frame nowSec o mid).2.1]

section Step

variable {symbol : List UInt8} {b : OrderBook P} {r : RiskEngine P} {subs : List (Submission P)}

theorem Tracked.reject (h : Tracked symbol b r subs) (amb : Ambient) (o : Order P) :
    Tracked symbol b (r.validate amb.nowSec o b.midPrice).2 subs where
  booked := h.booked
  limits := (r.validate_frame _ o _).1.trans h.limits
  gross k := by rw [getPosition_validate]; exact h.gross k
  gross_nonneg k := by rw [getPosition_validate]; exact h.gross_nonneg k
  gross_le k := by rw [getPosition_validate]; exact h.gross_le k
  idle hidle k := by rw [getPosition_validate]; exact h.idle hidle k

theorem Tracked.accept (h : Tracked symbol b r subs) (amb : Ambient) {o : Order P}
    (ho : HotPath.Quote o) (hv : (r.validate amb.nowSec o b.midPrice).1 = true) :
    Tracked symbol (Submission.after ⟨b, o, amb.stamps⟩).drainTrades.2
      (HotPath.reportFill (r.validate amb.nowSec o b.midPrice).2
        (Submission.result ⟨b, o, amb.stamps⟩) b.midPrice)
      (subs ++ [⟨b, o, amb.stamps⟩]) := by
  set s : Submission P := ⟨b, o, amb.stamps⟩ with hs
  have out : s.Outcome s.result s.after :=
    Submission.outcome h.booked.placed h.booked.drained ho.filledQty
  obtain ⟨f, st, hset⟩ := out.settled
  have hkey : s.result.symbol.key = o.symbol.key := by rw [hset]
  have hfill₀ : 0 ≤ s.result.filledQty.toInt := by
    rw [out.filled]
    exact volume_nonneg out.between
  have hfill₁ : s.result.filledQty.toInt ≤ 100 := by
    have hle := out.filled_le
    rw [show s.order.quantity = 100 from ho.quantity] at hle
    exact hle
  -- the exposure check left room for the whole order
  have hroom : (r.getPosition o.symbol.key).grossExposure.toInt + 100 ≤ 50000000 := by
    have hle := RiskEngine.validate_exposure (by rw [h.limits]; rfl) hv
    have hg := h.gross_le o.symbol.key
    have hg₀ := h.gross_nonneg o.symbol.key
    rw [h.limits, ho.quantity, Int32.le_iff_toInt_le,
      Int32.toInt_add_exact (by show _ ≤ _ + (100 : ℤ); omega) (by show _ + (100 : ℤ) < _; omega)]
      at hle
    exact hle
  have hgross : ∀ k, ((HotPath.reportFill (r.validate amb.nowSec o b.midPrice).2 s.result
      b.midPrice).getPosition k).grossExposure.toInt = (r.getPosition k).grossExposure.toInt +
        if o.symbol.key = k then s.result.filledQty.toInt else 0 := by
    intro k
    have hg₀ := h.gross_nonneg k
    rw [reportFill_gross k hfill₀, getPosition_validate, hkey]
    intro hk
    rw [getPosition_validate]
    rw [hkey] at hk
    subst hk
    exact ⟨by omega, by omega⟩
  refine ⟨h.booked.accept amb ho, ?_, ?_, ?_, ?_, ?_⟩
  · rw [reportFill_frame, (r.validate_frame _ o _).1]
    exact h.limits
  · intro k
    rw [hgross, h.gross, List.map_append, List.sum_append, out.filled]
    simp [hs]
  · intro k
    rw [hgross]
    have hg := h.gross_nonneg k
    split
    · omega
    · omega
  · intro k
    rw [hgross]
    have hg := h.gross_le k
    split
    · rename_i hk
      subst hk
      omega
    · omega
  · intro hidle k
    have hnil : s.hits = [] := hidle s (List.mem_append_right _ (List.mem_singleton_self s))
    have hnone : s.after.trades = [] := by
      have hb := out.between
      rw [hnil] at hb
      exact List.forall₂_nil_right_iff.mp hb
    rw [reportFill_of_unfilled (by rw [out.filled, hnone]; rfl), getPosition_validate]
    exact h.idle (fun s' hs' => hidle s' (List.mem_append_left _ hs')) k

end Step

/-- The book, the risk engine and the submissions of every run from `init`. -/
theorem run_tracked (symbol : List UInt8) (ts : List (Tick P)) :
    Tracked symbol ((HotPath.init symbol : HotPath P).run ts).2.orderBook
      ((HotPath.init symbol : HotPath P).run ts).2.riskEngine
      ((HotPath.init symbol).submissions ts) :=
  HotPath.run_submissions (fun _ _ _ amb o _ h _ => h.reject amb o)
    (fun _ _ _ amb _ ho h hv => h.accept amb ho hv) ts (HotPath.init symbol) [] (tracked_init symbol)

/-! ### Agreement -/

/-- The trades of a run, each with its two orders. -/
def HotPath.executions (h : HotPath P) (ts : List (Tick P)) : List (Execution P) :=
  (h.submissions ts).flatMap Submission.executions

/-- The trades' exposure is what the risk engine was told and what the resting orders add. -/
theorem executions_gross {subs : List (Submission P)}
    (h : ∀ s ∈ subs, s.Outcome s.result s.after) (k : SymbolKey) :
    ((subs.flatMap Submission.executions).map (Execution.gross k)).sum =
      (subs.map fun s => if s.order.symbol.key = k then volume s.after.trades else 0).sum +
        (subs.map fun s => restingGross k s.order s.after.trades s.hits).sum := by
  induction subs with
  | nil => rfl
  | cons s subs ih =>
      have hs := gross_sum k (h s (List.mem_cons_self ..)).between
      have hrest := ih fun s' hs' => h s' (List.mem_cons_of_mem s hs')
      rw [List.flatMap_cons, List.map_append, List.sum_append, hrest, List.map_cons, List.map_cons,
        List.sum_cons, List.sum_cons]
      unfold Submission.executions
      rw [hs]
      ring

/-- **When the positions agree with the trades.**  Exactly when no submitted order reached a resting
one, that is when there was no trade. -/
theorem positions_agree_iff (symbol : List UInt8) (ts : List (Tick P)) :
    PositionsAgree ((HotPath.init symbol : HotPath P).run ts).2.riskEngine
        ((HotPath.init symbol).executions ts) ↔
      ∀ s ∈ (HotPath.init symbol : HotPath P).submissions ts, s.hits = [] := by
  have tr := run_tracked (P := P) symbol ts
  have hout := fun s hs => (tr.booked.outcome s hs).2
  constructor
  · intro h s hs
    by_contra hne
    obtain ⟨n, hn⟩ := List.exists_mem_of_ne_nil _ hne
    -- what the engine was told falls short by the resting orders' share
    have hk := (h n.order.symbol.key).2
    rw [HotPath.executions, executions_gross hout, tr.gross] at hk
    have hnonneg : ∀ x ∈ ((HotPath.init symbol : HotPath P).submissions ts).map
        (fun s => restingGross n.order.symbol.key s.order s.after.trades s.hits), 0 ≤ x := by
      intro x hx
      obtain ⟨s', hs', rfl⟩ := List.mem_map.mp hx
      exact restingGross_nonneg _ (hout s' hs').between
    have hle := List.single_le_sum hnonneg _ (List.mem_map_of_mem hs)
    have hpos := restingGross_pos (hout s hs).between hn
    omega
  · intro h k
    have hnone : (HotPath.init symbol : HotPath P).executions ts = [] := by
      refine List.flatMap_eq_nil_iff.mpr fun s hs => ?_
      rw [Submission.executions, h s hs, List.zipWith_nil_right]
    rw [hnone, tr.idle h k]
    exact ⟨rfl, rfl⟩

end Reports

/-- A market that moves up by one: the second buy order, at 100.8, reaches the first sell order, at
100.2. -/
def risingMarket : List (Tick ℚ) :=
  [⟨⟨0, 99, 101, aapl⟩, .still, .still⟩, ⟨⟨0, 100, 102, aapl⟩, .still, .still⟩]

theorem risingMarket_disagrees :
    ¬ PositionsAgree ((HotPath.init (text "AAPL")).run risingMarket).2.riskEngine
      ((HotPath.init (text "AAPL")).executions risingMarket) := fun h =>
  absurd (h aapl) (by decide +kernel)

end Aspira
