import Aspira.Risk.Operations
import Aspira.Pipeline.Positions

/-!
# Pipeline — limits

What the limits that `EventPipeline::init` installs keep over a run of `process_market_data`.

`check_position_limit`, `check_exposure_limit` and `check_notional_limit` look at an order as if it
were filled whole; what the risk engine is told after the matching is a part of it, between nothing
and all.  The part lies between the position before, which is within the limits, and the position
that was checked, so it is within the limits too (`Contained.next`).  No sum overflows on the way
(`Arrival.Exact`).

A killed engine stops the pipeline (`kill_switch_holds`) for as long as it is killed; `reset`
releases it as `kill_switch(false)` does (`reset_releases`).
-/

namespace Aspira

variable {P : Type} [Price P]

namespace HotPath

/-! ### What an order does to the positions -/

namespace Arrival

/-- The quantity that the risk engine is told of for a symbol. -/
def fill (a : Arrival P) (k : SymbolKey) : ℤ :=
  if a.accepted ∧ a.order.symbol.key = k then a.submission.result.filledQty.toInt else 0

/-- The sums of `int32_t` that the order makes the risk engine compute are exact: those of the
checks, and those of the update. -/
structure Exact (a : Arrival P) : Prop where
  checkedNet : (a.path.riskEngine.newPosition a.order).toInt =
    (a.path.riskEngine.getPosition a.order.symbol.key).netPosition.toInt +
      a.order.signed a.order.quantity.toInt
  checkedGross : ((a.path.riskEngine.getPosition a.order.symbol.key).grossExposure +
    a.order.quantity).toInt =
    (a.path.riskEngine.getPosition a.order.symbol.key).grossExposure.toInt +
      a.order.quantity.toInt
  net : ∀ k, (a.next.riskEngine.getPosition k).netPosition.toInt =
    (a.path.riskEngine.getPosition k).netPosition.toInt + a.order.signed (a.fill k)
  gross : ∀ k, (a.next.riskEngine.getPosition k).grossExposure.toInt =
    (a.path.riskEngine.getPosition k).grossExposure.toInt + a.fill k

variable {a : Arrival P}

theorem next_of_accepted (h : a.accepted = true) :
    a.next.orderBook = a.submission.after.drainTrades.2 ∧
    a.next.riskEngine = reportFill
      (a.path.riskEngine.validate a.amb.nowSec a.order a.path.orderBook.midPrice).2
      a.submission.result a.path.orderBook.midPrice :=
  ⟨(processOrder_accepted h).1, (processOrder_accepted h).2.1⟩

theorem next_of_rejected (h : a.accepted = false) :
    a.next.orderBook = a.path.orderBook ∧
    a.next.riskEngine =
      (a.path.riskEngine.validate a.amb.nowSec a.order a.path.orderBook.midPrice).2 :=
  ⟨(processOrder_rejected h).1, (processOrder_rejected h).2.1⟩

/-- The book that an order of a run finds. -/
structure Clear (b : OrderBook P) : Prop where
  placed : b.Placed
  drained : b.trades = []

theorem Clear.outcome (hb : Clear a.path.orderBook) (ho : Quote a.order) :
    a.submission.Outcome a.submission.result a.submission.after :=
  Submission.outcome hb.placed hb.drained ho.filledQty

theorem Clear.next (hb : Clear a.path.orderBook) (ho : Quote a.order) : Clear a.next.orderBook := by
  cases h : a.accepted with
  | true =>
      rw [(next_of_accepted h).1]
      exact ⟨drainTrades_placed (hb.outcome ho).placed, OrderBook.drainTrades_trades _⟩
  | false =>
      rw [(next_of_rejected h).1]
      exact hb

/-- An order is filled by no more than its quantity. -/
theorem filled_range (hb : Clear a.path.orderBook) (ho : Quote a.order) :
    0 ≤ a.submission.result.filledQty.toInt ∧ a.submission.result.filledQty.toInt ≤ 100 := by
  have out := hb.outcome ho
  constructor
  · rw [out.filled]
    exact volume_nonneg out.between
  · have hle := out.filled_le
    rw [show a.submission.order.quantity = 100 from ho.quantity] at hle
    exact hle

theorem fill_range (hb : Clear a.path.orderBook) (ho : Quote a.order) (k : SymbolKey) :
    0 ≤ a.fill k ∧ a.fill k ≤ 100 := by
  unfold fill
  split
  · exact filled_range hb ho
  · exact ⟨le_rfl, by decide⟩

/-- The position after an order: moved by its fill, or as it was. -/
inductive Moved (a : Arrival P) (k : SymbolKey) : Position P → Prop where
  | filled (h : a.accepted = true) (hk : a.order.symbol.key = k) (price : P)
      (hprice : 0 < a.order.price → price = a.order.price) :
      Moved a k (RiskEngine.executed (a.path.riskEngine.getPosition k) a.order
        a.submission.result.filledQty price)
  | kept (h : a.fill k = 0) : Moved a k (a.path.riskEngine.getPosition k)

theorem next_moved (hb : Clear a.path.orderBook) (ho : Quote a.order) (k : SymbolKey) :
    Moved a k (a.next.riskEngine.getPosition k) := by
  cases h : a.accepted with
  | false =>
      rw [(next_of_rejected h).2, getPosition_validate]
      exact .kept (if_neg fun hk => absurd (h.symm.trans hk.1) Bool.noConfusion)
  | true =>
      have out := hb.outcome ho
      obtain ⟨f, st, hset⟩ := out.settled
      have hprice : a.submission.result.price = a.order.price := by rw [hset]; rfl
      have hkey : a.submission.result.symbol.key = a.order.symbol.key := by rw [hset]; rfl
      rw [(next_of_accepted h).2]
      by_cases hpos : 0 < a.submission.result.filledQty
      · rw [reportFill, if_pos hpos, RiskEngine.getPosition_onOrderExecuted, getPosition_validate,
          hkey, hprice]
        split
        · rename_i hk
          have hside : ∀ pos q (price : P), RiskEngine.executed pos a.submission.result q price =
              RiskEngine.executed pos a.order q price := fun pos q price => by
            rw [hset]
            rfl
          rw [hside]
          exact .filled h hk.symm _ fun hp => if_pos hp
        · rename_i hk
          exact .kept (if_neg fun e => hk e.2.symm)
      · rw [Int32.lt_iff_toInt_lt, not_lt] at hpos
        have hzero := le_antisymm hpos (filled_range hb ho).1
        rw [reportFill_of_unfilled hzero, getPosition_validate]
        refine .kept ?_
        unfold fill
        split
        · exact hzero
        · rfl

end Arrival

/-! ### The limits -/

/-- The positions within the limits of the pipeline. -/
structure Contained (r : RiskEngine P) : Prop where
  limits : r.limits = pipelineLimits
  net_le_gross : ∀ k, |(r.getPosition k).netPosition.toInt| ≤ (r.getPosition k).grossExposure.toInt
  net_le : ∀ k, |(r.getPosition k).netPosition.toInt| ≤ 10000000
  gross_le : ∀ k, (r.getPosition k).grossExposure.toInt ≤ 50000000

namespace Contained

variable {a : Arrival P}

theorem init (symbol : List UInt8) : Contained (HotPath.init symbol : HotPath P).riskEngine where
  limits := rfl
  net_le_gross _ := le_rfl
  net_le _ := (by decide : |(0 : ℤ)| ≤ 10000000)
  gross_le _ := (by decide : (0 : ℤ) ≤ 50000000)

theorem gross_nonneg {r : RiskEngine P} (h : Contained r) (k : SymbolKey) :
    0 ≤ (r.getPosition k).grossExposure.toInt :=
  (abs_nonneg _).trans (h.net_le_gross k)

/-- The sums of the checks are exact. -/
theorem checked (h : Contained a.path.riskEngine) (ho : Quote a.order) :
    (a.path.riskEngine.newPosition a.order).toInt =
      (a.path.riskEngine.getPosition a.order.symbol.key).netPosition.toInt +
        a.order.signed a.order.quantity.toInt ∧
    ((a.path.riskEngine.getPosition a.order.symbol.key).grossExposure + a.order.quantity).toInt =
      (a.path.riskEngine.getPosition a.order.symbol.key).grossExposure.toInt +
        a.order.quantity.toInt := by
  obtain ⟨hlo, hhi⟩ := abs_le.mp (h.net_le a.order.symbol.key)
  have hg₀ := h.gross_nonneg a.order.symbol.key
  have hg₁ := h.gross_le a.order.symbol.key
  have hq : a.order.quantity.toInt = 100 := by rw [ho.quantity]; rfl
  constructor
  · unfold RiskEngine.newPosition Order.signed
    cases a.order.isBuy with
    | true => exact Int32.toInt_add_exact (by omega) (by omega)
    | false => exact Int32.toInt_sub_exact (by omega) (by omega)
  · exact Int32.toInt_add_exact (by omega) (by omega)

/-- The sums of the update are exact. -/
theorem updated (h : Contained a.path.riskEngine) (hb : Arrival.Clear a.path.orderBook)
    (ho : Quote a.order) (k : SymbolKey) :
    (a.next.riskEngine.getPosition k).netPosition.toInt =
      (a.path.riskEngine.getPosition k).netPosition.toInt + a.order.signed (a.fill k) ∧
    (a.next.riskEngine.getPosition k).grossExposure.toInt =
      (a.path.riskEngine.getPosition k).grossExposure.toInt + a.fill k := by
  obtain ⟨hlo, hhi⟩ := abs_le.mp (h.net_le k)
  have hg₀ := h.gross_nonneg k
  have hg₁ := h.gross_le k
  obtain ⟨hf₀, hf₁⟩ := Arrival.filled_range hb ho
  have hmoved := Arrival.next_moved hb ho k
  generalize a.next.riskEngine.getPosition k = pos at hmoved
  cases hmoved with
  | filled hacc hk price hprice =>
      have hfill : a.fill k = a.submission.result.filledQty.toInt := if_pos ⟨hacc, hk⟩
      rw [hfill]
      -- what the book computed the quantity from does not matter here
      generalize a.submission.result.filledQty = q at hf₀ hf₁ ⊢
      refine ⟨?_, Int32.toInt_add_exact (by omega) (by omega)⟩
      unfold RiskEngine.executed Order.signed
      cases a.order.isBuy with
      | true => exact Int32.toInt_add_exact (by omega) (by omega)
      | false => exact Int32.toInt_sub_exact (by omega) (by omega)
  | kept hfill =>
      rw [hfill, add_zero]
      refine ⟨?_, rfl⟩
      unfold Order.signed
      split
      · exact (add_zero _).symm
      · exact (add_zero _).symm

theorem exact (h : Contained a.path.riskEngine) (hb : Arrival.Clear a.path.orderBook)
    (ho : Quote a.order) : a.Exact :=
  ⟨(h.checked ho).1, (h.checked ho).2, fun k => (h.updated hb ho k).1, fun k => (h.updated hb ho k).2⟩

/-- What an accepted order left room for. -/
theorem room (h : Contained a.path.riskEngine) (ho : Quote a.order) (hacc : a.accepted = true) :
    |(a.path.riskEngine.getPosition a.order.symbol.key).netPosition.toInt +
      a.order.signed 100| ≤ 10000000 ∧
    (a.path.riskEngine.getPosition a.order.symbol.key).grossExposure.toInt + 100 ≤ 50000000 := by
  have he : a.path.riskEngine.limits.enabled = true := by rw [h.limits]; rfl
  have hq : a.order.quantity.toInt = 100 := by rw [ho.quantity]; rfl
  obtain ⟨hnet, hgross⟩ := h.checked ho
  have hgross_le := RiskEngine.validate_exposure he hacc
  rw [Int32.le_iff_toInt_le, hgross, hq, h.limits] at hgross_le
  refine ⟨?_, hgross_le⟩
  have hsmall := h.net_le a.order.symbol.key
  have hpos := Desk.accepted_position he hacc (by
    rw [h.limits]
    show _ + (10000 : ℤ) < 2 ^ 31
    omega)
  rw [h.limits, hq] at hpos
  exact hpos

/-- **Every order leaves the positions within the limits.** -/
theorem next (h : Contained a.path.riskEngine) (hb : Arrival.Clear a.path.orderBook)
    (ho : Quote a.order) : Contained a.next.riskEngine := by
  have hlimits : a.next.riskEngine.limits = pipelineLimits := by
    cases hacc : a.accepted with
    | true =>
        rw [(Arrival.next_of_accepted hacc).2, reportFill_frame, (RiskEngine.validate_frame ..).1]
        exact h.limits
    | false =>
        rw [(Arrival.next_of_rejected hacc).2, (RiskEngine.validate_frame ..).1]
        exact h.limits
  -- a fill lies between nothing and the quantity that was checked
  have hbound : ∀ k, |(a.path.riskEngine.getPosition k).netPosition.toInt +
      a.order.signed (a.fill k)| ≤ 10000000 ∧
      (a.path.riskEngine.getPosition k).grossExposure.toInt + a.fill k ≤ 50000000 := by
    intro k
    by_cases hk : a.accepted ∧ a.order.symbol.key = k
    · obtain ⟨hacc, rfl⟩ := hk
      obtain ⟨hnet, hgross⟩ := h.room ho hacc
      obtain ⟨hlo, hhi⟩ := abs_le.mp hnet
      obtain ⟨hlo', hhi'⟩ := abs_le.mp (h.net_le a.order.symbol.key)
      obtain ⟨hf₀, hf₁⟩ := Arrival.fill_range hb ho a.order.symbol.key
      refine ⟨abs_le.mpr ?_, by omega⟩
      unfold Order.signed at hlo hhi ⊢
      split
      · rename_i hbuy
        rw [if_pos hbuy] at hlo hhi
        exact ⟨by omega, by omega⟩
      · rename_i hsell
        rw [if_neg hsell] at hlo hhi
        exact ⟨by omega, by omega⟩
    · rw [show a.fill k = 0 from if_neg hk, add_zero]
      have hzero : a.order.signed 0 = 0 := by
        unfold Order.signed
        split <;> rfl
      rw [hzero, add_zero]
      exact ⟨h.net_le k, h.gross_le k⟩
  refine ⟨hlimits, fun k => ?_, fun k => ?_, fun k => ?_⟩
  · obtain ⟨hnet, hgross⟩ := h.updated hb ho k
    obtain ⟨hlo, hhi⟩ := abs_le.mp (h.net_le_gross k)
    have hf := (Arrival.fill_range hb ho k).1
    rw [hnet, hgross]
    refine abs_le.mpr ?_
    unfold Order.signed
    split
    · exact ⟨by omega, by omega⟩
    · exact ⟨by omega, by omega⟩
  · rw [(h.updated hb ho k).1]
    exact (hbound k).1
  · rw [(h.updated hb ho k).2]
    exact (hbound k).2

end Contained

/-! ### The notional limit -/

/-- The orders of positive quotes have positive prices: three fifths of one quote and two fifths of
the other. -/
theorem strategyOrder_price_pos {msg : FeedMsg ℚ} (hbid : 0 < msg.bidPrice)
    (hask : 0 < msg.askPrice) (id : Int32) (side : Side) : 0 < (strategyOrder msg id side).price := by
  cases side with
  | buy =>
      show 0 < (msg.bidPrice + msg.askPrice) / 2 - (msg.askPrice - msg.bidPrice) * (1 / 10)
      linarith
  | sell =>
      show 0 < (msg.bidPrice + msg.askPrice) / 2 + (msg.askPrice - msg.bidPrice) * (1 / 10)
      linarith

/-- An order with a positive price leaves the notional within the limit. -/
theorem notional_next {a : Arrival ℚ} (h : Contained a.path.riskEngine)
    (hb : Arrival.Clear a.path.orderBook) (ho : Quote a.order) (hprice : 0 < a.order.price)
    (hn : ∀ k, (a.path.riskEngine.getPosition k).totalNotional ≤ 500000000) (k : SymbolKey) :
    (a.next.riskEngine.getPosition k).totalNotional ≤ 500000000 := by
  obtain ⟨hf₀, hf₁⟩ := Arrival.filled_range hb ho
  have hmoved := Arrival.next_moved hb ho k
  generalize a.next.riskEngine.getPosition k = pos at hmoved
  cases hmoved with
  | kept => exact hn k
  | filled hacc hk price hp =>
      subst hk
      rw [hp hprice]
      have hroom := RiskEngine.validate_notional (by rw [h.limits]; rfl) hprice hacc
      rw [h.limits, ho.quantity] at hroom
      have hle : (a.submission.result.filledQty.toInt : ℚ) ≤ 100 := by exact_mod_cast hf₁
      have hpart : a.order.price * (a.submission.result.filledQty.toInt : ℚ) ≤
          a.order.price * 100 := mul_le_mul_of_nonneg_left hle hprice.le
      exact (add_le_add_right hpart _).trans hroom

end HotPath

/-- **The tracked risk stays within the limits of the pipeline.** -/
theorem risk_within_limits (symbol : List UInt8) (ts : List (Tick ℚ)) :
    (∀ k, let pos := ((HotPath.init symbol : HotPath ℚ).run ts).2.riskEngine.getPosition k
      |pos.netPosition.toInt| ≤ pos.grossExposure.toInt ∧
      |pos.netPosition.toInt| ≤ (pipelineLimits : RiskLimits ℚ).maxPosition.toInt ∧
      pos.grossExposure.toInt ≤ (pipelineLimits : RiskLimits ℚ).maxExposure.toInt) ∧
    (∀ a ∈ (HotPath.init symbol : HotPath ℚ).arrivals ts, a.Exact) ∧
    ((∀ t ∈ ts, 0 < t.msg.bidPrice ∧ 0 < t.msg.askPrice) →
      ∀ k, (((HotPath.init symbol : HotPath ℚ).run ts).2.riskEngine.getPosition k).totalNotional ≤
        (pipelineLimits : RiskLimits ℚ).maxNotional) := by
  obtain ⟨harr, -, hend⟩ := HotPath.arrivals_keep
    (I := fun (b : OrderBook ℚ) r => HotPath.Arrival.Clear b ∧ HotPath.Contained r)
    (fun a ho hI => ⟨hI.1.next ho, hI.2.next hI.1 ho⟩) ts
    (fun t _ id side => HotPath.strategyOrder_quote t.msg id side)
    ⟨⟨OrderBook.init_placed symbol, rfl⟩, HotPath.Contained.init symbol⟩
  refine ⟨fun k => ⟨hend.net_le_gross k, hend.net_le k, hend.gross_le k⟩,
    fun a ha => (harr a ha).2.2.exact (harr a ha).2.1 (harr a ha).1, fun hpos => ?_⟩
  have hkeep := HotPath.arrivals_keep (Q := fun o => HotPath.Quote o ∧ 0 < o.price)
    (I := fun (b : OrderBook ℚ) r => HotPath.Arrival.Clear b ∧ HotPath.Contained r ∧
      ∀ k, (r.getPosition k).totalNotional ≤ 500000000)
    (fun a ho hI => ⟨hI.1.next ho.1, hI.2.1.next hI.1 ho.1,
      HotPath.notional_next hI.2.1 hI.1 ho.1 ho.2 hI.2.2⟩) ts
    (fun t ht id side => ⟨HotPath.strategyOrder_quote t.msg id side,
      HotPath.strategyOrder_price_pos (hpos t ht).1 (hpos t ht).2 id side⟩)
    ⟨⟨OrderBook.init_placed symbol, rfl⟩, HotPath.Contained.init symbol,
      fun _ => (by decide +kernel : (0 : ℚ) ≤ 500000000)⟩
  exact hkeep.2.2.2

theorem risk_within_limits_risingMarket :
    (∀ t ∈ risingMarket, 0 < t.msg.bidPrice ∧ 0 < t.msg.askPrice) ∧
    ∀ k, (((HotPath.init (text "AAPL")).run risingMarket).2.riskEngine.getPosition k).totalNotional ≤
      (pipelineLimits : RiskLimits ℚ).maxNotional := by
  have hpos : ∀ t ∈ risingMarket, 0 < t.msg.bidPrice ∧ 0 < t.msg.askPrice := by
    intro t ht
    rcases List.mem_cons.mp ht with rfl | ht
    · decide +kernel
    · rw [List.mem_singleton.mp ht]
      decide +kernel
  exact ⟨hpos, (risk_within_limits (text "AAPL") risingMarket).2.2 hpos⟩

/-! ### The kill switch -/

/-- No trade is among the writes. -/
def IoWrite.NoTrade (ws : List (IoWrite P)) : Prop := ∀ t, IoWrite.trade t ∉ ws

namespace HotPath

/-- Two states of the consumer thread with the same book, positions and trades. -/
structure Idle (h h' : HotPath P) : Prop where
  orderBook : h'.orderBook = h.orderBook
  positions : h'.riskEngine.positions = h.riskEngine.positions
  trades : h'.stats.tradesGenerated = h.stats.tradesGenerated

theorem Idle.trans {h₁ h₂ h₃ : HotPath P} (h : Idle h₁ h₂) (h' : Idle h₂ h₃) : Idle h₁ h₃ :=
  ⟨h'.orderBook.trans h.orderBook, h'.positions.trans h.positions, h'.trades.trans h.trades⟩

/-- A killed engine rejects the order and stays killed. -/
theorem processOrder_of_killed (amb : Ambient) {h : HotPath P} (o : Order P)
    (hk : h.riskEngine.killed = true) :
    Idle h (h.processOrder amb o).2 ∧ (h.processOrder amb o).2.riskEngine.killed = true ∧
      IoWrite.NoTrade (h.processOrder amb o).1 := by
  obtain ⟨reject, hv⟩ :=
    RiskEngine.validate_of_killed hk amb.nowSec o h.orderBook.midPrice
  have hfst : (h.riskEngine.validate amb.nowSec o h.orderBook.midPrice).1 = false := by rw [hv]
  have hsnd : (h.riskEngine.validate amb.nowSec o h.orderBook.midPrice).2 =
      h.riskEngine.setReject reject := by rw [hv]
  simp only [processOrder, hfst, hsnd, Bool.false_eq_true, if_false]
  exact ⟨⟨rfl, rfl, rfl⟩, hk, fun t ht => by cases List.mem_singleton.mp ht⟩

/-- A killed engine stops the calls. -/
theorem run_of_killed (ts : List (Tick P)) :
    ∀ {h : HotPath P}, h.riskEngine.killed = true →
      Idle h (h.run ts).2 ∧ IoWrite.NoTrade (h.run ts).1 := by
  induction ts with
  | nil => exact fun _ => ⟨⟨rfl, rfl, rfl⟩, fun t ht => absurd ht List.not_mem_nil⟩
  | cons t ts ih =>
      intro h hk
      set s := h.countMsg.strategyOnMarketData t.msg
      obtain ⟨hidle₁, hk₁, hno₁⟩ := processOrder_of_killed t.buy (h := s.2.2) s.1 hk
      obtain ⟨hidle₂, hk₂, hno₂⟩ := processOrder_of_killed t.sell s.2.1 hk₁
      obtain ⟨hidle₃, hno₃⟩ := ih hk₂
      have hidle₀ : Idle h s.2.2 := ⟨rfl, rfl, rfl⟩
      refine ⟨((hidle₀.trans hidle₁).trans hidle₂).trans hidle₃, fun tr htr => ?_⟩
      rcases List.mem_append.mp htr with htr | htr
      · rcases List.mem_append.mp htr with htr | htr
        · exact hno₁ tr htr
        · exact hno₂ tr htr
      · exact hno₃ tr htr

end HotPath

/-- **The kill switch holds** from `kill_switch(true)` on, until a call of `kill_switch(false)` or of
`reset`: nothing is accepted, and no call of the pipeline changes the book or a position or
generates a trade. -/
theorem kill_switch_holds (r : RiskEngine P) (before after : List (RiskOp P))
    (hafter : ∀ op ∈ after, ¬ op.Releases) :
    let killed := r.runOps (before ++ .killSwitch true :: after)
    (∀ nowSec order midPrice, (killed.validate nowSec order midPrice).1 = false) ∧
    ∀ h : HotPath P, h.riskEngine = killed → ∀ ts,
      HotPath.Idle h (h.run ts).2 ∧ IoWrite.NoTrade (h.run ts).1 := by
  intro killed
  have hkilled : killed.killed = true := by
    show (r.runOps (before ++ .killSwitch true :: after)).killed = true
    rw [RiskEngine.runOps, List.foldl_append, List.foldl_cons]
    exact RiskEngine.killed_run hafter rfl
  constructor
  · intro nowSec order midPrice
    obtain ⟨reject, hv⟩ := RiskEngine.validate_of_killed hkilled nowSec order midPrice
    rw [hv]
  · intro h hr ts
    exact HotPath.run_of_killed ts (by rw [hr]; exact hkilled)

theorem kill_switch_holds_disabled :
    (∀ op ∈ [RiskOp.setLimits { (RiskLimits.default : RiskLimits ℚ) with enabled := false }],
      ¬ op.Releases) ∧
    (∀ nowSec order midPrice, ((RiskEngine.init.runOps ([] ++ .killSwitch true ::
      [.setLimits { (RiskLimits.default : RiskLimits ℚ) with enabled := false }])).validate nowSec
        order midPrice).1 = false) := by
  have hops : ∀ op ∈ [RiskOp.setLimits { (RiskLimits.default : RiskLimits ℚ) with enabled := false }],
      ¬ op.Releases := by
    intro op hop
    rw [List.mem_singleton.mp hop]
    exact id
  exact ⟨hops, (kill_switch_holds RiskEngine.init [] _ hops).1⟩

/-- **`reset` releases the kill switch.** -/
theorem reset_releases :
    ((RiskEngine.init.runOps [.killSwitch true, .reset]).validate 0 (deskOrder 1 .buy) 10).1 = true := by
  decide +kernel

end Aspira
