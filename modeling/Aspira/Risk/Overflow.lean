import Aspira.Risk.Operations

/-!
# Risk — Overflow

The `int32_t` sums of the risk engine, over runs in which every accepted order is filled, in part or
whole, before the next one is checked.

Along such a run a net position is at most the gross exposure, has its parity, and both are within the
limits (`Settled`).  So the largest sums that a check can form are known from the limits alone, and the
arithmetic is exact on all runs exactly when these fit in 31 bits (`limit_arithmetic_iff`).  Where they
do not, orders of one share reach the state from which the sum wraps (`reach_units`).
-/

namespace Aspira

variable {P : Type} [Price P]

/-- An order that is checked, and the fill reported for it if it is accepted. -/
structure Dealing (P : Type) where
  nowSec : UInt64
  order : Order P
  midPrice : P
  filledQty : Int32
  fillPrice : P

/-- The fill is a part of the order. -/
def Dealing.Filled (t : Dealing P) : Prop :=
  0 ≤ t.filledQty.toInt ∧ t.filledQty.toInt ≤ t.order.quantity.toInt

namespace RiskEngine

/-- `validate`, and `on_order_executed` if it accepts. -/
def deal (r : RiskEngine P) (t : Dealing P) : Option (Bool × RiskEngine P) :=
  let v := r.validate t.nowSec t.order t.midPrice
  some (v.1, if v.1 then v.2.onOrderExecuted t.order t.filledQty t.fillPrice else v.2)

/-- The net position of a symbol. -/
def net (r : RiskEngine P) (k : SymbolKey) : ℤ := (r.getPosition k).netPosition.toInt

/-- The gross exposure of a symbol. -/
def gross (r : RiskEngine P) (k : SymbolKey) : ℤ := (r.getPosition k).grossExposure.toInt

/-- The order gets as far as the position check. -/
structure ReachesPosition (r : RiskEngine P) (t : Dealing P) : Prop where
  killed : r.killed = false
  enabled : r.limits.enabled = true
  rate : (r.updateRateWindow t.nowSec).checkRateLimit = none
  size : r.checkOrderSize t.order = none

/-- Every sum that is formed is exact, and an accepted order is within the limits. -/
structure ExactDealing (r : RiskEngine P) (t : Dealing P) (accepted : Bool) (r' : RiskEngine P) :
    Prop where
  position : r.ReachesPosition t →
    (r.newPosition t.order).toInt =
      r.net t.order.symbol.key + t.order.signed t.order.quantity.toInt ∧
    (absInt32 (r.newPosition t.order)).toInt =
      |r.net t.order.symbol.key + t.order.signed t.order.quantity.toInt|
  exposure : r.ReachesPosition t → r.checkPositionLimit t.order t.order.symbol.key = none →
    ((r.getPosition t.order.symbol.key).grossExposure + t.order.quantity).toInt =
      r.gross t.order.symbol.key + t.order.quantity.toInt
  net : accepted = true → r'.net t.order.symbol.key =
    r.net t.order.symbol.key + t.order.signed t.filledQty.toInt
  gross : accepted = true → r'.gross t.order.symbol.key =
    r.gross t.order.symbol.key + t.filledQty.toInt
  within : accepted = true →
    |r.net t.order.symbol.key + t.order.signed t.order.quantity.toInt| ≤
      r.limits.maxPosition.toInt ∧
    r.gross t.order.symbol.key + t.order.quantity.toInt ≤ r.limits.maxExposure.toInt

end RiskEngine

namespace RiskLimits

/-- The limits on quantities are not negative. -/
structure Nonnegative (limits : RiskLimits P) : Prop where
  maxOrderQty : 0 ≤ limits.maxOrderQty.toInt
  maxPosition : 0 ≤ limits.maxPosition.toInt
  maxExposure : 0 ≤ limits.maxExposure.toInt

/-- The largest net position a run can reach. -/
def reach (limits : RiskLimits P) : ℤ := min limits.maxPosition.toInt limits.maxExposure.toInt

/-- The largest quantity the exposure check can see at the largest exposure: the order turns a position
on one side into one on the other.  A net position has the parity of the exposure. -/
def turn (limits : RiskLimits P) : ℤ :=
  min limits.maxOrderQty.toInt (limits.maxPosition.toInt + limits.reach -
    (limits.maxExposure.toInt - limits.reach) % 2)

/-- The checks are enabled, and the largest sums they form fit. -/
structure Fits (limits : RiskLimits P) : Prop where
  enabled : limits.enabled = true
  position : limits.reach + limits.maxOrderQty.toInt ≤ 2 ^ 31 - 1
  exposure : limits.maxExposure.toInt + limits.turn ≤ 2 ^ 31 - 1

end RiskLimits

namespace RiskEngine

/-- What runs keep. -/
structure Settled (l : RiskLimits P) (r : RiskEngine P) : Prop where
  limits : r.limits = l
  net_le : ∀ k, |r.net k| ≤ l.maxPosition.toInt
  net_le_gross : ∀ k, |r.net k| ≤ r.gross k
  gross_le : ∀ k, r.gross k ≤ l.maxExposure.toInt
  parity : ∀ k, (r.gross k - r.net k) % 2 = 0

variable {l : RiskLimits P} {r : RiskEngine P} {t : Dealing P}

omit [Price P] in
theorem signed_abs (o : Order P) {q : ℤ} (h : 0 ≤ q) : |o.signed q| = q := by
  unfold Order.signed
  split
  · exact abs_of_nonneg h
  · rw [abs_neg, abs_of_nonneg h]

/-- The sum of the position check is exact if it fits. -/
theorem newPosition_exact {order : Order P}
    (hfits : |r.net order.symbol.key + order.signed order.quantity.toInt| ≤ 2 ^ 31 - 1) :
    (r.newPosition order).toInt = r.net order.symbol.key + order.signed order.quantity.toInt := by
  unfold newPosition
  unfold net Order.signed at *
  rw [abs_le] at hfits
  cases hside : order.isBuy with
  | true =>
      rw [hside, if_pos rfl] at hfits
      exact Int32.toInt_add_exact (by omega) (by omega)
  | false =>
      rw [hside, if_neg Bool.false_ne_true] at hfits
      exact Int32.toInt_sub_exact (by omega) (by omega)

/-! ### Limits that fit -/

/-- A net position and the exposure together are at most what the limits and the parity allow. -/
theorem Settled.sum_le (h : Settled l r) (k : SymbolKey) :
    r.gross k + |r.net k| ≤ l.maxExposure.toInt + l.reach - (l.maxExposure.toInt - l.reach) % 2 := by
  have hnet := h.net_le k
  have hnet_gross := h.net_le_gross k
  have hgross := h.gross_le k
  have hparity := h.parity k
  rw [RiskLimits.reach]
  rcases abs_choice (r.net k) with habs | habs
  · rw [habs] at hnet hnet_gross ⊢
    omega
  · rw [habs] at hnet hnet_gross ⊢
    omega

/-- **The sums of the checks are exact.** -/
theorem Settled.checks (h : Settled l r) (hl : l.Fits) (hreach : r.ReachesPosition t) :
    (r.newPosition t.order).toInt =
      r.net t.order.symbol.key + t.order.signed t.order.quantity.toInt ∧
    (absInt32 (r.newPosition t.order)).toInt =
      |r.net t.order.symbol.key + t.order.signed t.order.quantity.toInt| ∧
    (r.checkPositionLimit t.order t.order.symbol.key = none →
      |r.net t.order.symbol.key + t.order.signed t.order.quantity.toInt| ≤
        l.maxPosition.toInt ∧
      ((r.getPosition t.order.symbol.key).grossExposure + t.order.quantity).toInt =
        r.gross t.order.symbol.key + t.order.quantity.toInt) := by
  obtain ⟨hpos, hle⟩ := checkOrderSize_eq_none_iff.mp hreach.size
  rw [h.limits] at hle
  have hnet := h.net_le t.order.symbol.key
  have hnet_gross := h.net_le_gross t.order.symbol.key
  have hgross := h.gross_le t.order.symbol.key
  have hsum := h.sum_le t.order.symbol.key
  have hroom := hl.position
  have hturn := hl.exposure
  rw [RiskLimits.turn] at hturn
  have hsigned := signed_abs t.order hpos.le
  have hfits : |r.net t.order.symbol.key + t.order.signed t.order.quantity.toInt| ≤ 2 ^ 31 - 1 := by
    refine (abs_add_le _ _).trans ?_
    rw [RiskLimits.reach] at hroom
    omega
  have hnew := newPosition_exact hfits
  have hlow := neg_le_of_abs_le hfits
  have habs : (absInt32 (r.newPosition t.order)).toInt =
      |r.net t.order.symbol.key + t.order.signed t.order.quantity.toInt| := by
    rw [Desk.absInt32_toInt (by rw [hnew]; omega), hnew]
  refine ⟨hnew, habs, fun hcheck => ?_⟩
  rw [checkPositionLimit_eq_none_iff, Int32.le_iff_toInt_le, habs, h.limits] at hcheck
  -- the order turns the position by at most what the limit and the position leave
  have hq : t.order.quantity.toInt ≤ l.maxPosition.toInt + |r.net t.order.symbol.key| := by
    have htri := abs_sub (r.net t.order.symbol.key + t.order.signed t.order.quantity.toInt)
      (r.net t.order.symbol.key)
    rw [add_sub_cancel_left, hsigned] at htri
    omega
  refine ⟨hcheck, ?_⟩
  have hgross₀ := (abs_nonneg _).trans hnet_gross
  rw [gross] at hgross hsum hgross₀ ⊢
  exact Int32.toInt_add_exact (by omega) (by omega)

omit [Price P] in
/-- A part of an order leaves the position between where it was and where the order takes it. -/
theorem abs_partial_le {o : Order P} {n f q B : ℤ} (hn : |n| ≤ B) (hq : |n + o.signed q| ≤ B)
    (hf₀ : 0 ≤ f) (hf : f ≤ q) : |n + o.signed f| ≤ B := by
  unfold Order.signed at hq ⊢
  rw [abs_le] at hn hq ⊢
  cases hside : o.isBuy with
  | true =>
      simp only [hside, if_true] at hq ⊢
      omega
  | false =>
      simp only [hside, Bool.false_eq_true, if_false] at hq ⊢
      omega

/-- **A fill is added exactly** where the position and the exposure stay within 31 bits. -/
theorem executed_exact {o : Order P} {f : Int32} (price : P)
    (hnet : |r.net o.symbol.key + o.signed f.toInt| ≤ 2 ^ 31 - 1) (hf : 0 ≤ f.toInt)
    (hgross₀ : 0 ≤ r.gross o.symbol.key) (hgross : r.gross o.symbol.key + f.toInt ≤ 2 ^ 31 - 1) :
    (r.onOrderExecuted o f price).net o.symbol.key = r.net o.symbol.key + o.signed f.toInt ∧
      (r.onOrderExecuted o f price).gross o.symbol.key = r.gross o.symbol.key + f.toInt := by
  rw [net, gross, getPosition_onOrderExecuted, if_pos rfl]
  unfold net gross Order.signed at *
  rw [abs_le] at hnet
  refine ⟨?_, Int32.toInt_add_exact (by omega) (by omega)⟩
  unfold executed
  cases hside : o.isBuy with
  | true =>
      rw [hside, if_pos rfl] at hnet
      exact Int32.toInt_add_exact (by omega) (by omega)
  | false =>
      rw [hside, if_neg Bool.false_ne_true] at hnet
      exact Int32.toInt_sub_exact (by omega) (by omega)

omit [Price P] in
theorem signed_parity (o : Order P) (g n f : ℤ) :
    (g + f - (n + o.signed f)) % 2 = (g - n) % 2 := by
  unfold Order.signed
  split <;> omega

theorem Settled.congr {r' : RiskEngine P} (h : Settled l r) (hlimits : r'.limits = l)
    (hsame : ∀ k, r'.net k = r.net k ∧ r'.gross k = r.gross k) : Settled l r' := by
  refine ⟨hlimits, fun k => ?_, fun k => ?_, fun k => ?_, fun k => ?_⟩
  · rw [(hsame k).1]
    exact h.net_le k
  · rw [(hsame k).1, (hsame k).2]
    exact h.net_le_gross k
  · rw [(hsame k).2]
    exact h.gross_le k
  · rw [(hsame k).1, (hsame k).2]
    exact h.parity k

/-- A fill within the limits keeps what runs keep. -/
theorem Settled.moved {r' : RiskEngine P} {o : Order P} {f : ℤ} (h : Settled l r) (hf : 0 ≤ f)
    (hlimits : r'.limits = l)
    (hother : ∀ k, k ≠ o.symbol.key → r'.net k = r.net k ∧ r'.gross k = r.gross k)
    (hn : r'.net o.symbol.key = r.net o.symbol.key + o.signed f)
    (hg : r'.gross o.symbol.key = r.gross o.symbol.key + f)
    (hnet : |r.net o.symbol.key + o.signed f| ≤ l.maxPosition.toInt)
    (hgross : r.gross o.symbol.key + f ≤ l.maxExposure.toInt) : Settled l r' := by
  refine ⟨hlimits, ?_, ?_, ?_, ?_⟩
  · intro k
    by_cases hk : k = o.symbol.key
    · rw [hk, hn]
      exact hnet
    · rw [(hother k hk).1]
      exact h.net_le k
  · intro k
    by_cases hk : k = o.symbol.key
    · rw [hk, hn, hg]
      refine (abs_add_le _ _).trans ?_
      rw [signed_abs o hf]
      exact Int.add_le_add_right (h.net_le_gross _) _
    · rw [(hother k hk).1, (hother k hk).2]
      exact h.net_le_gross k
  · intro k
    by_cases hk : k = o.symbol.key
    · rw [hk, hg]
      exact hgross
    · rw [(hother k hk).2]
      exact h.gross_le k
  · intro k
    by_cases hk : k = o.symbol.key
    · rw [hk, hn, hg, signed_parity]
      exact h.parity _
    · rw [(hother k hk).1, (hother k hk).2]
      exact h.parity k

/-- **One dealing under limits that fit.** -/
theorem Settled.deal (h : Settled l r) (hl : l.Fits) (ht : t.Filled) :
    ∃ ok r', r.deal t = some (ok, r') ∧ Settled l r' ∧ ExactDealing r t ok r' := by
  have he : r.limits.enabled = true := by rw [h.limits, hl.enabled]
  have hlimits := (validate_frame t.nowSec r t.order t.midPrice).1
  have hget := getPosition_validate t.nowSec r t.order t.midPrice
  refine ⟨(r.validate t.nowSec t.order t.midPrice).1, _, rfl, ?_⟩
  cases hv : (r.validate t.nowSec t.order t.midPrice).1 with
  | false =>
      rw [if_neg Bool.false_ne_true]
      refine ⟨h.congr (hlimits.trans h.limits) fun k => ?_,
        ⟨fun hr => ⟨(h.checks hl hr).1, (h.checks hl hr).2.1⟩,
          fun hr hp => ((h.checks hl hr).2.2 hp).2, Bool.false_ne_true.elim,
          Bool.false_ne_true.elim, Bool.false_ne_true.elim⟩⟩
      rw [net, gross, hget]
      exact ⟨rfl, rfl⟩
  | true =>
      obtain ⟨hrate, hsize, hp, hx⟩ := checks_of_validate he hv
      have hr : r.ReachesPosition t := ⟨killed_of_validate hv, he, hrate, hsize⟩
      obtain ⟨hnew, habs, hrest⟩ := h.checks hl hr
      obtain ⟨hpos, hexp⟩ := hrest hp
      rw [checkExposureLimit_eq_none_iff, Int32.le_iff_toInt_le, hexp, h.limits] at hx
      rw [if_pos rfl]
      have hnet : ∀ k, (r.validate t.nowSec t.order t.midPrice).2.net k = r.net k := fun k => by
        rw [net, hget]
        rfl
      have hgross : ∀ k, (r.validate t.nowSec t.order t.midPrice).2.gross k = r.gross k := fun k => by
        rw [gross, hget]
        rfl
      have hpart := abs_partial_le (h.net_le t.order.symbol.key) hpos ht.1 ht.2
      have hmax := l.maxPosition.toInt_lt
      have hmax' := l.maxExposure.toInt_lt
      have hnonneg := (abs_nonneg _).trans (h.net_le_gross t.order.symbol.key)
      have hle := ht.2
      obtain ⟨hn, hg⟩ := executed_exact t.fillPrice
        (r := (r.validate t.nowSec t.order t.midPrice).2) (o := t.order) (f := t.filledQty)
        (by rw [hnet]; omega) ht.1 (by rw [hgross]; exact hnonneg) (by rw [hgross]; omega)
      rw [hnet] at hn
      rw [hgross] at hg
      -- the other symbols keep their positions
      have hother : ∀ k, k ≠ t.order.symbol.key →
          ((r.validate t.nowSec t.order t.midPrice).2.onOrderExecuted t.order t.filledQty
            t.fillPrice).net k = r.net k ∧
          ((r.validate t.nowSec t.order t.midPrice).2.onOrderExecuted t.order t.filledQty
            t.fillPrice).gross k = r.gross k := fun k hk => by
        rw [net, gross, getPosition_onOrderExecuted, if_neg hk, hget]
        exact ⟨rfl, rfl⟩
      refine ⟨h.moved ht.1 (hlimits.trans h.limits) hother hn hg hpart (by omega),
        ⟨fun _ => ⟨hnew, habs⟩, fun _ _ => hexp, fun _ => hn, fun _ => hg, fun _ => ?_⟩⟩
      rw [h.limits]
      exact ⟨hpos, hx⟩

theorem start_settled (hl : l.Nonnegative) : Settled l (RiskEngine.init.setLimits l) where
  limits := rfl
  net_le _ := hl.maxPosition
  net_le_gross _ := le_rfl
  gross_le _ := hl.maxExposure
  parity _ := rfl

/-! ### Limits that do not fit -/

/-- A symbol without a name. -/
def plainSymbol : Symbol := Vector.replicate 16 0

/-- A limit order of that symbol for nothing: the notional and the band do not matter. -/
def plainOrder (side : Side) (quantity : Int32) : Order P where
  id := 1
  accountId := 1
  price := 0
  quantity := quantity
  filledQty := 0
  timestampNs := 0
  side := side
  type := .limit
  status := .new
  symbol := plainSymbol

/-- The order, filled whole, in the second after the last one. -/
def plainDealing (r : RiskEngine P) (side : Side) (quantity : Int32) : Dealing P :=
  ⟨r.secWindowStart + 1, plainOrder side quantity, 0, quantity, 0⟩

/-- An engine with a net position and an exposure in the symbol without a name. -/
structure At (l : RiskLimits P) (n g : ℤ) (r : RiskEngine P) : Prop where
  limits : r.limits = l
  killed : r.killed = false
  net : r.net plainSymbol.key = n
  gross : r.gross plainSymbol.key = g

variable {n g : ℤ} {side : Side} {quantity : Int32}

theorem plainOrder_key : (plainOrder side quantity : Order P).symbol.key = plainSymbol.key := rfl

theorem plainOrder_quantity : (plainOrder side quantity : Order P).quantity = quantity := rfl

theorem plain_reaches (side : Side) (h : At l n g r) (he : l.enabled = true) (hq : 0 < quantity.toInt)
    (hmax : quantity.toInt ≤ l.maxOrderQty.toInt) :
    r.ReachesPosition (plainDealing r side quantity) := by
  refine ⟨h.killed, by rw [h.limits, he], ?_, ?_⟩
  · have hwin : r.updateRateWindow (r.secWindowStart + 1) =
        { r with secWindowStart := r.secWindowStart + 1, orderCountThisSec := 0 } :=
      if_pos (by simp)
    change (r.updateRateWindow (r.secWindowStart + 1)).checkRateLimit = none
    rw [hwin, checkRateLimit]
    split
    · rfl
    · rfl
  · rw [checkOrderSize_eq_none_iff, h.limits]
    exact ⟨hq, hmax⟩

/-- **A plain order within the limits is accepted** and filled. -/
theorem plain_accepted (side : Side) (quantity : Int32) (h : At l n g r) (he : l.enabled = true) (hq : 0 < quantity.toInt)
    (hmax : quantity.toInt ≤ l.maxOrderQty.toInt) (hg₀ : 0 ≤ g)
    (hnet : |n + (plainOrder side quantity : Order P).signed quantity.toInt| ≤
      l.maxPosition.toInt) (hgross : g + quantity.toInt ≤ l.maxExposure.toInt) :
    ∃ r', r.deal (plainDealing r side quantity) = some (true, r') ∧
      At l (n + (plainOrder side quantity : Order P).signed quantity.toInt)
        (g + quantity.toInt) r' := by
  have hreach := plain_reaches side h he hq hmax
  have hmaxPos := l.maxPosition.toInt_lt
  have hmaxExp := l.maxExposure.toInt_lt
  have hnew := @newPosition_exact P _ r (plainOrder side quantity)
    (by rw [plainOrder_key, plainOrder_quantity, h.net]; omega)
  rw [plainOrder_key, plainOrder_quantity, h.net] at hnew
  have hposition : r.checkPositionLimit (plainOrder side quantity)
      (plainOrder side quantity : Order P).symbol.key = none := by
    have hlow := neg_le_of_abs_le hnet
    rw [checkPositionLimit_eq_none_iff, Int32.le_iff_toInt_le,
      Desk.absInt32_toInt (by rw [hnew]; omega), hnew, h.limits]
    exact hnet
  have hexposure : r.checkExposureLimit (plainOrder side quantity)
      (plainOrder side quantity : Order P).symbol.key = none := by
    have hg := h.gross
    rw [gross] at hg
    rw [checkExposureLimit_eq_none_iff, Int32.le_iff_toInt_le, plainOrder_key, plainOrder_quantity,
      Int32.toInt_add_exact (by omega) (by omega), hg, h.limits]
    exact hgross
  have haccepted : (r.validate (r.secWindowStart + 1) (plainOrder side quantity) 0).1 = true :=
    validate_of_unpriced hreach.killed hreach.rate hreach.size hposition hexposure rfl le_rfl
  have hframe := validate_frame (r.secWindowStart + 1) r (plainOrder side quantity) 0
  have hsame : ∀ k,
      (r.validate (r.secWindowStart + 1) (plainOrder side quantity) 0).2.net k = r.net k ∧
      (r.validate (r.secWindowStart + 1) (plainOrder side quantity) 0).2.gross k = r.gross k := by
    intro k
    rw [net, gross, getPosition_validate]
    exact ⟨rfl, rfl⟩
  obtain ⟨hn, hg⟩ := @executed_exact P _
    (r.validate (r.secWindowStart + 1) (plainOrder side quantity) 0).2 (plainOrder side quantity)
    quantity 0 (by rw [plainOrder_key, (hsame _).1, h.net]; omega) hq.le
    (by rw [plainOrder_key, (hsame _).2, h.gross]; exact hg₀)
    (by rw [plainOrder_key, (hsame _).2, h.gross]; omega)
  rw [plainOrder_key, (hsame _).1, h.net] at hn
  rw [plainOrder_key, (hsame _).2, h.gross] at hg
  refine ⟨_, by rw [deal, plainDealing, haccepted, if_pos rfl], ?_⟩
  exact ⟨hframe.1.trans h.limits, hframe.2.2.trans h.killed, hn, hg⟩

/-- A run of filled orders leads to the net position and the exposure. -/
def Reached (l : RiskLimits P) (n g : ℤ) : Prop :=
  ∃ ts rs r, (∀ t ∈ ts, Dealing.Filled t) ∧
    Run.exec deal (RiskEngine.init.setLimits l) ts = some (rs, r) ∧ At l n g r

theorem reached_start (l : RiskLimits P) : Reached l 0 0 :=
  ⟨[], [], _, fun _ ht => absurd ht List.not_mem_nil, rfl, rfl, rfl, rfl, rfl⟩

/-- One more share bought or sold. -/
theorem Reached.unit (h : Reached l n g) (he : l.enabled = true) (hQ : 1 ≤ l.maxOrderQty.toInt)
    (side : Side) (hg₀ : 0 ≤ g)
    (hnet : |n + (plainOrder side 1 : Order P).signed 1| ≤ l.maxPosition.toInt)
    (hgross : g + 1 ≤ l.maxExposure.toInt) :
    Reached l (n + (plainOrder side 1 : Order P).signed 1) (g + 1) := by
  obtain ⟨ts, rs, r, hts, hexec, hat⟩ := h
  obtain ⟨r', hdeal, hat'⟩ := plain_accepted side 1 hat he (by decide) hQ hg₀ hnet hgross
  refine ⟨ts ++ [plainDealing r side 1], rs ++ [true], r', fun t ht => ?_, ?_, hat'⟩
  · rcases List.mem_append.mp ht with ht | ht
    · exact hts t ht
    · rw [List.mem_singleton.mp ht]
      exact ⟨(by decide : (0 : ℤ) ≤ (1 : Int32).toInt), le_rfl⟩
  · exact Run.exec_append hexec (Run.exec_cons hdeal rfl)

/-- A position, built one share at a time. -/
theorem reached_buys (he : l.enabled = true) (hQ : 1 ≤ l.maxOrderQty.toInt) (m : ℕ)
    (hm : (m : ℤ) ≤ l.reach) : Reached l m m := by
  rw [RiskLimits.reach] at hm
  induction m with
  | zero => exact reached_start l
  | succ m ih =>
      have hstep := (ih (by omega)).unit he hQ .buy (by omega)
        (by change |(m : ℤ) + 1| ≤ _; rw [abs_of_nonneg (by omega)]; omega) (by omega)
      rw [Nat.cast_succ]
      exact hstep

/-- An exposure, built by selling and buying one share. -/
theorem Reached.pairs (he : l.enabled = true) (hQ : 1 ≤ l.maxOrderQty.toInt)
    (hp : 1 ≤ l.maxPosition.toInt) (hn₀ : 0 ≤ n) (hn : n ≤ l.maxPosition.toInt)
    (h : Reached l n g) (hg₀ : 0 ≤ g) (j : ℕ) (hj : g + 2 * j ≤ l.maxExposure.toInt) :
    Reached l n (g + 2 * j) := by
  induction j with
  | zero =>
      rw [Nat.cast_zero, mul_zero, add_zero]
      exact h
  | succ j ih =>
      have hsold := (ih (by omega)).unit he hQ .sell (by omega)
        (by change |n + -1| ≤ _; rw [abs_le]; omega) (by omega)
      have hbought := hsold.unit he hQ .buy (by omega)
        (by change |n + -1 + 1| ≤ _; rw [abs_le]; omega) (by omega)
      have hnet : n + (plainOrder .sell 1 : Order P).signed 1 +
          (plainOrder .buy 1 : Order P).signed 1 = n := by
        change n + -1 + 1 = n
        omega
      have hgross : g + 2 * (j : ℤ) + 1 + 1 = g + 2 * ((j + 1 : ℕ) : ℤ) := by
        rw [Nat.cast_succ]
        ring
      rw [hnet, hgross] at hbought
      exact hbought

/-- **Orders of one share reach every position and exposure** within the limits, up to parity. -/
theorem reach_units (he : l.enabled = true) (hQ : 1 ≤ l.maxOrderQty.toInt)
    (hp : 1 ≤ l.maxPosition.toInt) (hn₀ : 0 ≤ n) (hn : n ≤ l.reach) (hng : n ≤ g)
    (hg : g ≤ l.maxExposure.toInt) (hparity : (g - n) % 2 = 0) : Reached l n g := by
  have hbuys := reached_buys he hQ n.toNat (by omega)
  rw [Int.toNat_of_nonneg hn₀] at hbuys
  have hpairs := hbuys.pairs he hQ hp hn₀ (by rw [RiskLimits.reach] at hn; omega) hn₀
    ((g - n) / 2).toNat (by omega)
  have hgross : n + 2 * (((g - n) / 2).toNat : ℤ) = g := by omega
  rw [hgross] at hpairs
  exact hpairs

/-- Every run that starts with the limits, each order checked and filled, is exact. -/
def Exact (l : RiskLimits P) : Prop :=
  ∀ ts : List (Dealing P), (∀ t ∈ ts, t.Filled) →
    Run.Always deal ExactDealing (RiskEngine.init.setLimits l) ts

/-- The last order of a run that reaches a position is exact if all runs are. -/
theorem Reached.last (h : Reached l n g) (hall : Exact l) (side : Side) (quantity : Int32)
    (hq : 0 ≤ quantity.toInt) :
    ∃ r ok r', At l n g r ∧ ExactDealing r (plainDealing r side quantity) ok r' := by
  obtain ⟨ts, rs, r, hts, hexec, hat⟩ := h
  have hfilled : ∀ t ∈ ts ++ [plainDealing r side quantity], t.Filled := by
    intro t ht
    rcases List.mem_append.mp ht with ht | ht
    · exact hts t ht
    · rw [List.mem_singleton.mp ht]
      exact ⟨hq, le_rfl⟩
  have hlast := (hall _ hfilled).of_append hexec
  exact ⟨r, _, _, hat, hlast.1⟩

theorem validate_of_disabled {nowSec : UInt64} {order : Order P} {midPrice : P}
    (hk : r.killed = false) (he : r.limits.enabled = false) :
    (r.validate nowSec order midPrice).1 = true := by
  rw [validate, if_neg (by rw [hk]; exact Bool.false_ne_true), if_pos he]

theorem deal_of_disabled (hk : r.killed = false) (he : r.limits.enabled = false) (t : Dealing P) :
    ∃ r', r.deal t = some (true, r') ∧ r'.limits = r.limits ∧ r'.killed = r.killed := by
  have hframe := validate_frame t.nowSec r t.order t.midPrice
  refine ⟨(r.validate t.nowSec t.order t.midPrice).2.onOrderExecuted t.order t.filledQty
    t.fillPrice, ?_, hframe.1, hframe.2.2⟩
  rw [deal, validate_of_disabled hk he, if_pos rfl]

/-- Without the checks, two orders of the largest size are too much. -/
theorem enabled_of_exact (hall : Exact l) : l.enabled = true := by
  by_contra hne
  have he : l.enabled = false := Bool.eq_false_of_not_eq_true hne
  have hq : (2147483647 : Int32).toInt = 2 ^ 31 - 1 := by decide
  obtain ⟨r₁, hdeal₁, hlimits₁, hkilled₁⟩ := deal_of_disabled (r := init.setLimits l) rfl he
    (plainDealing init .buy 2147483647)
  obtain ⟨r₂, hdeal₂, -, -⟩ := deal_of_disabled (r := r₁) hkilled₁ (by rw [hlimits₁]; exact he)
    (plainDealing init .buy 2147483647)
  have hrun := hall [plainDealing init .buy 2147483647, plainDealing init .buy 2147483647] (by
    intro t ht
    obtain rfl : t = plainDealing init .buy 2147483647 := by simpa using ht
    exact ⟨hq ▸ (by decide), le_rfl⟩)
  simp only [Run.Always, hdeal₁, hdeal₂] at hrun
  have hnet₁ : r₁.net plainSymbol.key = 0 + (2147483647 : Int32).toInt := hrun.1.net rfl
  have hnet₂ : r₂.net plainSymbol.key = r₁.net plainSymbol.key + (2147483647 : Int32).toInt :=
    hrun.2.1.net rfl
  have hlt : r₂.net plainSymbol.key < 2 ^ 31 := (r₂.getPosition plainSymbol.key).netPosition.toInt_lt
  omega

/-- The largest position and the largest order. -/
theorem position_of_exact (hl : l.Nonnegative) (hall : Exact l) :
    l.reach + l.maxOrderQty.toInt ≤ 2 ^ 31 - 1 := by
  by_contra hover
  have he := enabled_of_exact hall
  have hmaxQty := l.maxOrderQty.toInt_lt
  have hmaxPos := l.maxPosition.toInt_lt
  have hQ := hl.maxOrderQty
  have hreach : l.reach ≤ l.maxPosition.toInt ∧ l.reach ≤ l.maxExposure.toInt := by
    rw [RiskLimits.reach]
    omega
  obtain ⟨r, ok, r', hat, hexact⟩ :=
    (reach_units (n := l.reach) (g := l.reach) he (by omega) (by omega) (by omega)
      le_rfl le_rfl (by omega) (by omega)).last hall .buy l.maxOrderQty hQ
  have hsum := (hexact.position (plain_reaches .buy hat he (by omega) le_rfl)).1
  have hlt := (r.newPosition (plainDealing r .buy l.maxOrderQty).order).toInt_lt
  rw [hsum] at hlt
  change r.net plainSymbol.key + l.maxOrderQty.toInt < 2 ^ 31 at hlt
  rw [hat.net] at hlt
  omega

/-- The largest exposure and the order that turns the position. -/
theorem exposure_of_exact (hl : l.Nonnegative) (hall : Exact l) :
    l.maxExposure.toInt + l.turn ≤ 2 ^ 31 - 1 := by
  by_contra hover
  have he := enabled_of_exact hall
  have hposition := position_of_exact hl hall
  have hmaxExp := l.maxExposure.toInt_lt
  have hmaxPos := l.maxPosition.toInt_lt
  have hP := hl.maxPosition
  have hE := hl.maxExposure
  have hreach : l.reach = l.maxPosition.toInt ∨ l.reach = l.maxExposure.toInt := by
    rw [RiskLimits.reach]
    omega
  have hreach' : l.reach ≤ l.maxPosition.toInt ∧ l.reach ≤ l.maxExposure.toInt := by
    rw [RiskLimits.reach]
    omega
  rw [RiskLimits.turn] at hover
  -- the order that takes the exposure to the first number that does not fit
  obtain ⟨q, hq⟩ : ∃ q : Int32, q.toInt = 2 ^ 31 - l.maxExposure.toInt :=
    ⟨Int32.ofInt (2 ^ 31 - l.maxExposure.toInt), Int32.toInt_ofInt_of_le (by omega) (by omega)⟩
  obtain ⟨n, hn⟩ : ∃ n, n = l.reach - (l.maxExposure.toInt - l.reach) % 2 := ⟨_, rfl⟩
  obtain ⟨r, ok, r', hat, hexact⟩ :=
    (reach_units (n := n) (g := l.maxExposure.toInt) he (by omega) (by omega) (by omega) (by omega)
      (by omega) le_rfl (by omega)).last hall .sell q (by omega)
  have hpasses := plain_reaches .sell hat he (show 0 < q.toInt by omega) (by omega)
  obtain ⟨-, habs⟩ := hexact.position hpasses
  have hcheck : r.checkPositionLimit (plainOrder .sell q)
      (plainOrder .sell q : Order P).symbol.key = none := by
    rw [checkPositionLimit_eq_none_iff, Int32.le_iff_toInt_le, hat.limits]
    refine habs.trans_le ?_
    change |r.net plainSymbol.key + -q.toInt| ≤ _
    rw [hat.net, abs_le]
    omega
  have hsum : ((r.getPosition plainSymbol.key).grossExposure + q).toInt =
      r.gross plainSymbol.key + q.toInt := hexact.exposure hpasses hcheck
  have hlt := ((r.getPosition plainSymbol.key).grossExposure + q).toInt_lt
  have hgross := hat.gross
  omega

end RiskEngine

/-- **Limit arithmetic is exact on all runs exactly when the largest sums fit.**  The runs are those in
which each order is checked and, if it is accepted, filled in part or whole. -/
theorem limit_arithmetic_iff (l : RiskLimits P) (hl : l.Nonnegative) :
    (∀ ts : List (Dealing P), (∀ t ∈ ts, t.Filled) →
      Run.Always RiskEngine.deal RiskEngine.ExactDealing (RiskEngine.init.setLimits l) ts) ↔
      l.Fits := by
  refine ⟨fun hall => ⟨RiskEngine.enabled_of_exact hall, RiskEngine.position_of_exact hl hall,
    RiskEngine.exposure_of_exact hl hall⟩, fun hfits ts hts => ?_⟩
  exact Run.always_of_step (fun r t hr ht => hr.deal hfits ht) (RiskEngine.start_settled hl)
    (Run.along_of_forall hts _)

theorem default_nonnegative : (RiskLimits.default : RiskLimits ℚ).Nonnegative := by
  constructor <;> decide +kernel

/-- The default limits fit. -/
theorem limit_arithmetic_iff_default :
    (RiskLimits.default : RiskLimits ℚ).Fits ∧
    ((∀ ts : List (Dealing ℚ), (∀ t ∈ ts, t.Filled) →
      Run.Always RiskEngine.deal RiskEngine.ExactDealing
        (RiskEngine.init.setLimits RiskLimits.default) ts) ↔
      (RiskLimits.default : RiskLimits ℚ).Fits) :=
  ⟨by constructor <;> decide +kernel, limit_arithmetic_iff RiskLimits.default default_nonnegative⟩

/-- The largest limits on quantities. -/
def wideLimits : RiskLimits ℚ :=
  { RiskLimits.default with
    maxOrderQty := 2147483647
    maxPosition := 2147483647
    maxExposure := 2147483647
    maxNotional := 1000000000000 }

/-- A purchase at 1, filled whole. -/
def purchase (quantity : Int32) : Dealing ℚ :=
  ⟨1, { deskOrder 1 .buy with price := 1, quantity := quantity }, 1, quantity, 1⟩

/-- **One share more than the limit is accepted** under the largest limits: the new position wraps to
the least word, whose absolute value is itself. -/
theorem wide_limits_wrap :
    wideLimits.Nonnegative ∧ [purchase 2147483647, purchase 1].Forall Dealing.Filled ∧
      ¬ Run.Always RiskEngine.deal RiskEngine.ExactDealing (RiskEngine.init.setLimits wideLimits)
        [purchase 2147483647, purchase 1] := by
  refine ⟨by constructor <;> decide +kernel, ?_, fun h => ?_⟩
  · simp only [List.Forall, Dealing.Filled]
    decide +kernel
  · obtain ⟨-, hsecond, -⟩ := h
    exact absurd (hsecond.within (by decide +kernel)).1 (by decide +kernel)

end Aspira
