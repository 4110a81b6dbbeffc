import Aspira.Risk.Operations

/-!
# Risk — Acceptance

What an accepted order satisfies, in exact arithmetic.  The size, position and exposure checks have no
exception, and on positions within the limits none of their sums wraps (`accepted_size`,
`accepted_exposure`; `Desk.accepted_position`).  The notional and price-band checks let an order
without a positive price pass, a limit order too.  For the notional that is harmless, since the order
adds nothing to it (`accepted_notional`); for the band it is not: the further such an order is from the
market, the more it crosses (`accepted_within_limits_iff`).
-/

namespace Aspira

/-- Enabled limits without negative fields, under which a sum of a position and an order fits. -/
structure RiskLimits.Moderate (limits : RiskLimits ℚ) : Prop where
  enabled : limits.enabled = true
  maxOrderQty : 0 ≤ limits.maxOrderQty.toInt
  maxPosition : 0 ≤ limits.maxPosition.toInt
  maxExposure : 0 ≤ limits.maxExposure.toInt
  maxNotional : 0 ≤ limits.maxNotional
  priceBandPct : 0 ≤ limits.priceBandPct
  maxOrdersPerSec : 0 ≤ limits.maxOrdersPerSec.toInt
  position_room : limits.maxPosition.toInt ≤ 2 ^ 31 - 1 - limits.maxOrderQty.toInt
  exposure_room : limits.maxExposure.toInt ≤ 2 ^ 31 - 1 - limits.maxOrderQty.toInt

namespace RiskEngine

/-- Every position respects the limits. -/
structure Respects (r : RiskEngine ℚ) : Prop where
  position : ∀ k, |(r.getPosition k).netPosition.toInt| ≤ r.limits.maxPosition.toInt
  exposure : ∀ k, (r.getPosition k).grossExposure.toInt ≤ r.limits.maxExposure.toInt
  notional : ∀ k, (r.getPosition k).totalNotional ≤ r.limits.maxNotional

/-- How far a price is from the middle of the market, in percent of it. -/
def deviation (price midPrice : ℚ) : ℚ := |price - midPrice| / midPrice * 100

/-- The order is within every configured limit. -/
structure WithinLimits (r : RiskEngine ℚ) (order : Order ℚ) (midPrice : ℚ) : Prop where
  size : 0 < order.quantity.toInt ∧ order.quantity.toInt ≤ r.limits.maxOrderQty.toInt
  position : |(r.getPosition order.symbol.key).netPosition.toInt +
    (if order.isBuy then order.quantity.toInt else -order.quantity.toInt)| ≤
      r.limits.maxPosition.toInt
  exposure : (r.getPosition order.symbol.key).grossExposure.toInt + order.quantity.toInt ≤
    r.limits.maxExposure.toInt
  notional : order.type = .limit →
    (r.getPosition order.symbol.key).totalNotional + order.price * order.quantity.toInt ≤
      r.limits.maxNotional
  band : order.type = .limit → 0 < midPrice →
    deviation order.price midPrice ≤ r.limits.priceBandPct

/-- A limit order without a positive price that is outside the band. -/
structure FarWithoutPrice (r : RiskEngine ℚ) (order : Order ℚ) (midPrice : ℚ) : Prop where
  limit : order.type = .limit
  price : order.price ≤ 0
  mid : 0 < midPrice
  far : r.limits.priceBandPct < deviation order.price midPrice

/-- The order passes the kill switch and the checks before the notional's. -/
structure PassesEarlier (r : RiskEngine ℚ) (nowSec : UInt64) (order : Order ℚ) : Prop where
  killed : r.killed = false
  rate : (r.updateRateWindow nowSec).checkRateLimit = none
  size : r.checkOrderSize order = none
  position : r.checkPositionLimit order order.symbol.key = none
  exposure : r.checkExposureLimit order order.symbol.key = none

/-! ### The checks, one by one -/

variable {r : RiskEngine ℚ} {nowSec : UInt64} {order : Order ℚ} {midPrice : ℚ}

theorem accepted_exposure (hl : r.limits.Moderate) (hr : r.Respects)
    (h : (r.validate nowSec order midPrice).1 = true) :
    (r.getPosition order.symbol.key).grossExposure.toInt + order.quantity.toInt ≤
      r.limits.maxExposure.toInt := by
  obtain ⟨hpos, hle⟩ := validate_size hl.enabled h
  have hcheck := validate_exposure hl.enabled h
  have hexp := hr.exposure order.symbol.key
  have hroom := hl.exposure_room
  have hmin := (r.getPosition order.symbol.key).grossExposure.le_toInt
  rw [Int32.le_iff_toInt_le, Int32.toInt_add_exact (by omega) (by omega)] at hcheck
  exact hcheck

/-- An order without a positive price adds nothing to the notional. -/
theorem accepted_notional (hl : r.limits.Moderate) (hr : r.Respects)
    (h : (r.validate nowSec order midPrice).1 = true) :
    (r.getPosition order.symbol.key).totalNotional + order.price * order.quantity.toInt ≤
      r.limits.maxNotional := by
  by_cases hprice : 0 < order.price
  · exact validate_notional hl.enabled hprice h
  · have hqty : (0 : ℚ) ≤ order.quantity.toInt := by
      exact_mod_cast (validate_size hl.enabled h).1.le
    have hadds : order.price * order.quantity.toInt ≤ 0 :=
      mul_nonpos_of_nonpos_of_nonneg (not_lt.mp hprice) hqty
    have hrespects := hr.notional order.symbol.key
    linarith

theorem accepted_band (hl : r.limits.Moderate) (hprice : 0 < order.price)
    (h : (r.validate nowSec order midPrice).1 = true) (hlimit : order.type = .limit)
    (hmid : 0 < midPrice) : deviation order.price midPrice ≤ r.limits.priceBandPct := by
  have hband := (passed_of_validate hl.enabled h).band
  have hcheck : ¬ (midPrice ≤ 0 ∨ order.price ≤ 0) := by
    rintro (hle | hle)
    · exact absurd hmid (not_lt.mpr hle)
    · exact absurd hprice (not_lt.mpr hle)
  rw [checkPriceBand, if_neg hcheck, if_neg (by rw [hlimit]; exact OrderType.noConfusion)] at hband
  simp only [updateRateWindow_limits] at hband
  split at hband
  · cases hband
  · exact not_lt.mp ‹_›

/-! ### All together -/

/-- **An accepted order is within every configured limit, but for one kind**: a limit order without a
positive price, outside the band, that passes the kill switch and the rate, size, position and
exposure checks. -/
theorem accepted_within_limits_iff (hl : r.limits.Moderate) (hr : r.Respects) (nowSec : UInt64)
    (order : Order ℚ) (midPrice : ℚ) :
    ((r.validate nowSec order midPrice).1 = true → r.WithinLimits order midPrice) ↔
      ¬ (r.FarWithoutPrice order midPrice ∧ r.PassesEarlier nowSec order) := by
  constructor
  · rintro hall ⟨hfar, hearlier⟩
    have hwithin := hall (validate_of_unpriced hearlier.killed hearlier.rate hearlier.size
      hearlier.position hearlier.exposure hfar.limit hfar.price)
    exact absurd (hwithin.band hfar.limit hfar.mid) (not_le.mpr hfar.far)
  · intro hnot h
    refine ⟨validate_size hl.enabled h, ?_, accepted_exposure hl hr h,
      fun _ => accepted_notional hl hr h, fun hlimit hmid => ?_⟩
    · refine Desk.accepted_position hl.enabled h ?_
      have hpos := hr.position order.symbol.key
      have hroom := hl.position_room
      omega
    · by_cases hprice : 0 < order.price
      · exact accepted_band hl hprice h hlimit hmid
      · by_contra hfar
        obtain ⟨hrate, hsize, hposition, hexposure⟩ := checks_of_validate hl.enabled h
        exact hnot ⟨⟨hlimit, not_lt.mp hprice, hmid, not_le.mp hfar⟩,
          ⟨killed_of_validate h, hrate, hsize, hposition, hexposure⟩⟩

/-! ### The default limits -/

theorem default_moderate : (RiskLimits.default : RiskLimits ℚ).Moderate := by
  constructor <;> decide +kernel

theorem init_respects : (RiskEngine.init : RiskEngine ℚ).Respects := by
  have hzero : ∀ k, (RiskEngine.init : RiskEngine ℚ).getPosition k = Position.zero := fun _ => rfl
  constructor
  · intro k
    rw [hzero]
    decide +kernel
  · intro k
    rw [hzero]
    decide +kernel
  · intro k
    rw [hzero]
    decide +kernel

theorem accepted_within_limits_iff_deskOrder :
    ((RiskEngine.init.validate 1 (deskOrder 1 .buy) 10).1 = true →
        RiskEngine.init.WithinLimits (deskOrder 1 .buy) 10) ↔
      ¬ (RiskEngine.init.FarWithoutPrice (deskOrder 1 .buy) 10 ∧
        RiskEngine.init.PassesEarlier 1 (deskOrder 1 .buy)) :=
  accepted_within_limits_iff default_moderate init_respects 1 (deskOrder 1 .buy) 10

/-- A limit order to sell 100 for nothing. -/
def freeSale : Order ℚ := { deskOrder 1 .sell with price := 0 }

/-- **A limit order to sell for nothing is accepted**, under the default limits, while the market is
at 10. -/
theorem accepts_free_sale :
    (RiskEngine.init : RiskEngine ℚ).limits.Moderate ∧ (RiskEngine.init : RiskEngine ℚ).Respects ∧
      (RiskEngine.init.validate 1 freeSale 10).1 = true ∧
      ¬ RiskEngine.init.WithinLimits freeSale 10 := by
  refine ⟨default_moderate, init_respects, by decide +kernel, fun h => ?_⟩
  exact absurd (h.band rfl (by decide +kernel)) (by decide +kernel)

end RiskEngine

end Aspira
