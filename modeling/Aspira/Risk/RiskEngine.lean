import Aspira.Support.Text
import Aspira.Book.Order

/-!
# Risk — RiskEngine

`src/risk_engine.cpp`, check by check.  A check returns the text it writes to `last_reject_` when it
fails; `validate` runs the checks in the order of the source and stops at the first one that does.

`Price` is what the program asks of a `double`: an order, the four operations, the literals, the
conversion from `int32_t` and `%.nf`.  No law is assumed of the operations, so the results hold
whatever the rounding; not-a-numbers are left out.  `ℚ` is the instance of exact arithmetic.

The clock that `update_rate_window` reads is an argument.
-/

namespace Aspira

/-- The operations of the program on prices. -/
class Price (P : Type) extends LinearOrder P, Zero P, Add P, Sub P, Mul P, Div P where
  /-- A literal of the source. -/
  lit : ℚ → P
  /-- `(double)` of an `int32_t`. -/
  ofInt : Int32 → P
  /-- `std::abs`. -/
  abs : P → P
  /-- `%.nf`. -/
  fixed : ℕ → P → List UInt8

instance : Price ℚ where
  lit q := q
  ofInt n := n.toInt
  abs x := |x|
  fixed := showFixed

/-! ### Symbols -/

/-- The string in a 16-byte symbol field. -/
def Symbol.name (s : Symbol) : List UInt8 := cstr s.toList

/-- `struct SymbolKey`. -/
abbrev SymbolKey := Vector UInt8 16

/-- `SymbolKey(const char *)`, on a symbol field: the bytes up to the first NUL, then zeros. -/
def Symbol.key (s : Symbol) : SymbolKey :=
  Vector.ofFn fun i => if i.val < s.name.length then s.get i else 0

/-! ### The state -/

/-- `struct Position`. -/
structure Position (P : Type) where
  netPosition : Int32
  grossExposure : Int32
  totalNotional : P
  deriving DecidableEq, Repr

/-- `Position{}`. -/
def Position.zero {P : Type} [Zero P] : Position P := ⟨0, 0, 0⟩

/-- `struct RiskLimits`. -/
structure RiskLimits (P : Type) where
  maxOrderQty : Int32
  maxPosition : Int32
  maxExposure : Int32
  maxNotional : P
  priceBandPct : P
  maxOrdersPerSec : Int32
  enabled : Bool

/-- The default limits. -/
def RiskLimits.default {P : Type} [Price P] : RiskLimits P where
  maxOrderQty := 10000
  maxPosition := 100000
  maxExposure := 500000
  maxNotional := Price.lit 10000000
  priceBandPct := Price.lit 5
  maxOrdersPerSec := 1000
  enabled := true

/-- `class RiskEngine`.  `lastReject` is the string in `last_reject_`. -/
structure RiskEngine (P : Type) where
  limits : RiskLimits P
  lastReject : List UInt8
  positions : AList (fun _ : SymbolKey => Position P)
  orderCountThisSec : Int32
  secWindowStart : UInt64
  killed : Bool

/-- A quantity with the sign of the order's side. -/
def Order.signed {P : Type} (o : Order P) (q : ℤ) : ℤ := if o.isBuy then q else -q

namespace RiskEngine

variable {P : Type} [Price P]

/-- `RiskEngine()`. -/
def init : RiskEngine P where
  limits := .default
  lastReject := []
  positions := ∅
  orderCountThisSec := 0
  secWindowStart := 0
  killed := false

/-- The engine with another text in `last_reject_`. -/
def setReject (r : RiskEngine P) (reject : List UInt8) : RiskEngine P := { r with lastReject := reject }

/-- `set_limits`. -/
def setLimits (r : RiskEngine P) (limits : RiskLimits P) : RiskEngine P := { r with limits := limits }

/-- `reset`. -/
def reset (r : RiskEngine P) : RiskEngine P :=
  { r with positions := ∅, orderCountThisSec := 0, secWindowStart := 0, killed := false }

/-- `kill_switch`. -/
def killSwitch (r : RiskEngine P) (enabled : Bool) : RiskEngine P := { r with killed := enabled }

/-- `get_position`, of a key. -/
def getPosition (r : RiskEngine P) (sym : SymbolKey) : Position P :=
  (r.positions.lookup sym).getD .zero

/-- `update_rate_window`, at the clock's second. -/
def updateRateWindow (nowSec : UInt64) (r : RiskEngine P) : RiskEngine P :=
  if nowSec ≠ r.secWindowStart then { r with secWindowStart := nowSec, orderCountThisSec := 0 } else r

/-! ### The checks -/

/-- `std::abs` of an `int32_t`. -/
def absInt32 (x : Int32) : Int32 := if x < 0 then -x else x

/-- `%.16s` of a key. -/
def showKey (sym : SymbolKey) : List UInt8 := cstr sym.toList

/-- `check_rate_limit`. -/
def checkRateLimit (r : RiskEngine P) : Option (List UInt8) :=
  if r.limits.maxOrdersPerSec ≤ 0 then none
  else if r.limits.maxOrdersPerSec ≤ r.orderCountThisSec then
    some (text "Rate limit exceeded: " ++ showInt r.orderCountThisSec.toInt ++
      text " orders in current second")
  else none

/-- `check_order_size`. -/
def checkOrderSize (r : RiskEngine P) (order : Order P) : Option (List UInt8) :=
  if r.limits.maxOrderQty < order.quantity then
    some (text "Order size " ++ showInt order.quantity.toInt ++ text " exceeds limit " ++
      showInt r.limits.maxOrderQty.toInt)
  else if order.quantity ≤ 0 then some (text "Order quantity must be positive")
  else none

/-- `check_position_limit`. -/
def checkPositionLimit (r : RiskEngine P) (order : Order P) (sym : SymbolKey) :
    Option (List UInt8) :=
  let currentPos := (r.getPosition sym).netPosition
  let newPos := if order.isBuy then currentPos + order.quantity else currentPos - order.quantity
  if r.limits.maxPosition < absInt32 newPos then
    some (text "Position " ++ showInt newPos.toInt ++ text " exceeds limit " ++
      showInt r.limits.maxPosition.toInt ++ text " for " ++ showKey sym)
  else none

/-- `check_exposure_limit`. -/
def checkExposureLimit (r : RiskEngine P) (order : Order P) (sym : SymbolKey) :
    Option (List UInt8) :=
  let newExp := (r.getPosition sym).grossExposure + order.quantity
  if r.limits.maxExposure < newExp then
    some (text "Gross exposure " ++ showInt newExp.toInt ++ text " exceeds limit " ++
      showInt r.limits.maxExposure.toInt ++ text " for " ++ showKey sym)
  else none

/-- `check_notional_limit`. -/
def checkNotionalLimit (r : RiskEngine P) (order : Order P) (sym : SymbolKey) :
    Option (List UInt8) :=
  if order.price ≤ 0 ∧ order.type = .limit then none
  else
    let price := if 0 < order.price then order.price else Price.lit 1
    let notional := price * Price.ofInt order.quantity
    if r.limits.maxNotional < (r.getPosition sym).totalNotional + notional then
      some (text "Notional value " ++ Price.fixed 2 notional ++ text " exceeds limit " ++
        Price.fixed 2 r.limits.maxNotional ++ text " for " ++ showKey sym)
    else none

/-- `check_price_band`. -/
def checkPriceBand (r : RiskEngine P) (order : Order P) (midPrice : P) : Option (List UInt8) :=
  if midPrice ≤ 0 ∨ order.price ≤ 0 then none
  else if order.type = .market then none
  else
    let deviation := Price.abs (order.price - midPrice) / midPrice * Price.lit 100
    if r.limits.priceBandPct < deviation then
      some (text "Price " ++ Price.fixed 4 order.price ++ text " deviates " ++
        Price.fixed 2 deviation ++ text "% from mid " ++ Price.fixed 4 midPrice ++
        text " (limit " ++ Price.fixed 2 r.limits.priceBandPct ++ text "%)")
    else none

/-- The checks of `validate`, in their order: the text of the first that fails. -/
def firstReject (r : RiskEngine P) (order : Order P) (midPrice : P) : Option (List UInt8) :=
  let sym := order.symbol.key
  (r.checkRateLimit <|> r.checkOrderSize order <|> r.checkPositionLimit order sym <|>
    r.checkExposureLimit order sym <|> r.checkNotionalLimit order sym <|>
    r.checkPriceBand order midPrice)

/-! ### Operations -/

/-- `validate`. -/
def validate (nowSec : UInt64) (r : RiskEngine P) (order : Order P) (midPrice : P) :
    Bool × RiskEngine P :=
  if r.killed then
    (false, r.setReject (snprintf 256 (text "Risk engine killed — all orders rejected")))
  else if r.limits.enabled = false then (true, r.setReject [])
  else
    let r := r.updateRateWindow nowSec
    match r.firstReject order midPrice with
    | some reason => (false, r.setReject (snprintf 256 reason))
    | none => (true, { r.setReject [] with orderCountThisSec := r.orderCountThisSec + 1 })

/-- The update of a position in `on_order_executed`. -/
def executed (pos : Position P) (order : Order P) (filledQty : Int32) (fillPrice : P) :
    Position P where
  netPosition := if order.isBuy then pos.netPosition + filledQty else pos.netPosition - filledQty
  grossExposure := pos.grossExposure + filledQty
  totalNotional := pos.totalNotional + fillPrice * Price.ofInt filledQty

/-- `on_order_executed`. -/
def onOrderExecuted (r : RiskEngine P) (order : Order P) (filledQty : Int32) (fillPrice : P) :
    RiskEngine P :=
  let sym := order.symbol.key
  { r with
    positions := r.positions.insert sym (executed (r.getPosition sym) order filledQty fillPrice) }

/-- `on_order_cancelled`. -/
def onOrderCancelled (r : RiskEngine P) (_ : Order P) : RiskEngine P := r

/-! ### What the operations change -/

variable {r : RiskEngine P} {nowSec : UInt64} {order : Order P} {midPrice : P}

omit [Price P] in
@[simp] theorem updateRateWindow_limits : (r.updateRateWindow nowSec).limits = r.limits := by
  unfold updateRateWindow
  split <;> rfl

omit [Price P] in
@[simp] theorem updateRateWindow_positions :
    (r.updateRateWindow nowSec).positions = r.positions := by
  unfold updateRateWindow
  split <;> rfl

omit [Price P] in
@[simp] theorem updateRateWindow_killed : (r.updateRateWindow nowSec).killed = r.killed := by
  unfold updateRateWindow
  split <;> rfl

/-- `validate` leaves the limits, the positions and the kill switch alone. -/
theorem validate_frame (nowSec : UInt64) (r : RiskEngine P) (order : Order P) (midPrice : P) :
    (r.validate nowSec order midPrice).2.limits = r.limits ∧
    (r.validate nowSec order midPrice).2.positions = r.positions ∧
    (r.validate nowSec order midPrice).2.killed = r.killed := by
  unfold validate
  split
  · exact ⟨rfl, rfl, rfl⟩
  · split
    · exact ⟨rfl, rfl, rfl⟩
    · dsimp only
      split
      · exact ⟨updateRateWindow_limits, updateRateWindow_positions, updateRateWindow_killed⟩
      · exact ⟨updateRateWindow_limits, updateRateWindow_positions, updateRateWindow_killed⟩

theorem getPosition_validate (nowSec : UInt64) (r : RiskEngine P) (order : Order P) (midPrice : P)
    (k : SymbolKey) : (r.validate nowSec order midPrice).2.getPosition k = r.getPosition k := by
  rw [getPosition, (validate_frame nowSec r order midPrice).2.1]
  rfl

/-- An accepted order passed every check, if checks are made at all. -/
theorem firstReject_of_validate (he : r.limits.enabled = true)
    (h : (r.validate nowSec order midPrice).1 = true) :
    (r.updateRateWindow nowSec).firstReject order midPrice = none := by
  unfold validate at h
  split at h
  · cases h
  · rw [if_neg (by rw [he]; exact Bool.noConfusion)] at h
    dsimp only at h
    split at h
    · cases h
    · assumption

/-- What an accepted order passed. -/
structure Passed (r : RiskEngine P) (order : Order P) (midPrice : P) : Prop where
  rate : r.checkRateLimit = none
  size : r.checkOrderSize order = none
  position : r.checkPositionLimit order order.symbol.key = none
  exposure : r.checkExposureLimit order order.symbol.key = none
  notional : r.checkNotionalLimit order order.symbol.key = none
  band : r.checkPriceBand order midPrice = none

theorem firstReject_eq_none_iff : r.firstReject order midPrice = none ↔ r.Passed order midPrice := by
  simp only [firstReject, Option.orElse_eq_orElse, Option.orElse_eq_or, Option.or_eq_none_iff]
  constructor
  · rintro ⟨h₁, h₂, h₃, h₄, h₅, h₆⟩
    exact ⟨h₁, h₂, h₃, h₄, h₅, h₆⟩
  · rintro ⟨h₁, h₂, h₃, h₄, h₅, h₆⟩
    exact ⟨h₁, h₂, h₃, h₄, h₅, h₆⟩

theorem passed_of_validate (he : r.limits.enabled = true)
    (h : (r.validate nowSec order midPrice).1 = true) :
    (r.updateRateWindow nowSec).Passed order midPrice :=
  firstReject_eq_none_iff.mp (firstReject_of_validate he h)

/-- The rate window is not in the other checks. -/
theorem updateRateWindow_checks (nowSec : UInt64) (r : RiskEngine P) (order : Order P) :
    (r.updateRateWindow nowSec).checkOrderSize order = r.checkOrderSize order ∧
    (r.updateRateWindow nowSec).checkPositionLimit order order.symbol.key =
      r.checkPositionLimit order order.symbol.key ∧
    (r.updateRateWindow nowSec).checkExposureLimit order order.symbol.key =
      r.checkExposureLimit order order.symbol.key := by
  unfold updateRateWindow
  split
  · exact ⟨rfl, rfl, rfl⟩
  · exact ⟨rfl, rfl, rfl⟩

/-- Orders that pass every check are accepted. -/
theorem validate_of_passed (hk : r.killed = false)
    (h : (r.updateRateWindow nowSec).Passed order midPrice) :
    (r.validate nowSec order midPrice).1 = true := by
  have hfirst := firstReject_eq_none_iff.mpr h
  unfold validate
  rw [if_neg (by rw [hk]; exact Bool.false_ne_true)]
  split
  · rfl
  · simp only [hfirst]

/-- **A limit order without a positive price passes the last two checks.** -/
theorem validate_of_unpriced (hk : r.killed = false)
    (hrate : (r.updateRateWindow nowSec).checkRateLimit = none)
    (hsize : r.checkOrderSize order = none)
    (hposition : r.checkPositionLimit order order.symbol.key = none)
    (hexposure : r.checkExposureLimit order order.symbol.key = none)
    (hlimit : order.type = .limit) (hprice : order.price ≤ 0) :
    (r.validate nowSec order midPrice).1 = true := by
  obtain ⟨hs, hp, he⟩ := updateRateWindow_checks nowSec r order
  refine validate_of_passed hk
    ⟨hrate, hs.trans hsize, hp.trans hposition, he.trans hexposure, ?_, ?_⟩
  · rw [checkNotionalLimit, if_pos ⟨hprice, hlimit⟩]
  · rw [checkPriceBand, if_pos (.inr hprice)]

theorem killed_of_validate (h : (r.validate nowSec order midPrice).1 = true) : r.killed = false := by
  cases hk : r.killed with
  | false => rfl
  | true =>
      rw [validate, if_pos hk] at h
      cases h

/-- What an accepted order passed before the notional check. -/
theorem checks_of_validate (he : r.limits.enabled = true)
    (h : (r.validate nowSec order midPrice).1 = true) :
    (r.updateRateWindow nowSec).checkRateLimit = none ∧ r.checkOrderSize order = none ∧
      r.checkPositionLimit order order.symbol.key = none ∧
      r.checkExposureLimit order order.symbol.key = none := by
  have hpassed := passed_of_validate he h
  obtain ⟨hsize, hposition, hexposure⟩ := updateRateWindow_checks nowSec r order
  exact ⟨hpassed.rate, hsize.symm.trans hpassed.size, hposition.symm.trans hpassed.position,
    hexposure.symm.trans hpassed.exposure⟩

/-- The position check of an order, in words. -/
def newPosition (r : RiskEngine P) (order : Order P) : Int32 :=
  let currentPos := (r.getPosition order.symbol.key).netPosition
  if order.isBuy then currentPos + order.quantity else currentPos - order.quantity

omit [Price P] in
theorem checkOrderSize_eq_none_iff : r.checkOrderSize order = none ↔
    0 < order.quantity.toInt ∧ order.quantity.toInt ≤ r.limits.maxOrderQty.toInt := by
  have hzero : (0 : Int32).toInt = 0 := rfl
  simp only [checkOrderSize, Int32.lt_iff_toInt_lt, Int32.le_iff_toInt_le, hzero]
  split
  · rename_i hlt
    exact iff_of_false (by simp) fun h => absurd h.2 (not_le.mpr hlt)
  · rename_i hle
    split
    · rename_i hnonpos
      exact iff_of_false (by simp) fun h => absurd h.1 (not_lt.mpr hnonpos)
    · rename_i hpos
      exact iff_of_true rfl ⟨not_le.mp hpos, not_lt.mp hle⟩

theorem checkPositionLimit_eq_none_iff : r.checkPositionLimit order order.symbol.key = none ↔
    absInt32 (r.newPosition order) ≤ r.limits.maxPosition := by
  simp only [checkPositionLimit, ite_eq_right_iff, reduceCtorEq, imp_false]
  exact Int32.not_lt

theorem checkExposureLimit_eq_none_iff : r.checkExposureLimit order order.symbol.key = none ↔
    (r.getPosition order.symbol.key).grossExposure + order.quantity ≤ r.limits.maxExposure := by
  simp only [checkExposureLimit, ite_eq_right_iff, reduceCtorEq, imp_false]
  exact Int32.not_lt

/-- **An accepted order has a positive quantity within the size limit.** -/
theorem validate_size (he : r.limits.enabled = true)
    (h : (r.validate nowSec order midPrice).1 = true) :
    0 < order.quantity.toInt ∧ order.quantity.toInt ≤ r.limits.maxOrderQty.toInt := by
  exact checkOrderSize_eq_none_iff.mp (checks_of_validate he h).2.1

/-- **An accepted order fits the position limit.** -/
theorem validate_position (he : r.limits.enabled = true)
    (h : (r.validate nowSec order midPrice).1 = true) :
    absInt32 (r.newPosition order) ≤ r.limits.maxPosition := by
  exact checkPositionLimit_eq_none_iff.mp (checks_of_validate he h).2.2.1

/-- **An accepted order fits the exposure limit.** -/
theorem validate_exposure (he : r.limits.enabled = true)
    (h : (r.validate nowSec order midPrice).1 = true) :
    (r.getPosition order.symbol.key).grossExposure + order.quantity ≤ r.limits.maxExposure := by
  exact checkExposureLimit_eq_none_iff.mp (checks_of_validate he h).2.2.2

/-- **An accepted order with a positive price fits the notional limit.** -/
theorem validate_notional (he : r.limits.enabled = true) (hprice : 0 < order.price)
    (h : (r.validate nowSec order midPrice).1 = true) :
    (r.getPosition order.symbol.key).totalNotional + order.price * Price.ofInt order.quantity ≤
      r.limits.maxNotional := by
  have hnot := (passed_of_validate he h).notional
  rw [checkNotionalLimit, if_neg fun hle => hle.1.not_gt hprice] at hnot
  simp only [getPosition, updateRateWindow_positions, updateRateWindow_limits, if_pos hprice] at hnot
  split at hnot
  · cases hnot
  · rename_i hle
    exact not_lt.mp hle

/-- An order that fails the notional check fails. -/
theorem firstReject_of_notional (midPrice : P) {reason : List UInt8}
    (h : r.checkNotionalLimit order order.symbol.key = some reason) :
    ∃ reason', r.firstReject order midPrice = some reason' := by
  rw [← Option.ne_none_iff_exists']
  intro hnone
  have hnotional := (firstReject_eq_none_iff.mp hnone).notional
  rw [h] at hnotional
  cases hnotional

/-- A check fails: the window is brought up to date, and the text is set. -/
theorem validate_rejects {reason : List UInt8} (hk : r.killed = false) (he : r.limits.enabled = true)
    (h : (r.updateRateWindow nowSec).firstReject order midPrice = some reason) :
    r.validate nowSec order midPrice =
      (false, (r.updateRateWindow nowSec).setReject (snprintf 256 reason)) := by
  simp only [validate, hk, he, h, Bool.false_eq_true, if_false]
  rfl

/-- Every check passes: the order counts in the window. -/
theorem validate_accepts (hk : r.killed = false) (he : r.limits.enabled = true)
    (h : (r.updateRateWindow nowSec).firstReject order midPrice = none) :
    r.validate nowSec order midPrice = (true, { (r.updateRateWindow nowSec).setReject [] with
      orderCountThisSec := (r.updateRateWindow nowSec).orderCountThisSec + 1 }) := by
  simp only [validate, hk, he, h, Bool.false_eq_true, if_false]
  rfl

/-- A rejection within the current second changes only the text. -/
theorem validate_of_reject (nowSec : UInt64) {reason : List UInt8} (hk : r.killed = false)
    (he : r.limits.enabled = true) (hw : r.secWindowStart = nowSec)
    (h : r.firstReject order midPrice = some reason) :
    r.validate nowSec order midPrice = (false, r.setReject (snprintf 256 reason)) := by
  have hwin : r.updateRateWindow nowSec = r := if_neg (by rw [hw]; exact fun h => h rfl)
  rw [← hwin] at h
  rw [validate_rejects hk he h, hwin]

omit [Price P] in
theorem setReject_updateRateWindow (x : List UInt8) :
    (r.setReject x).updateRateWindow nowSec = (r.updateRateWindow nowSec).setReject x := by
  unfold updateRateWindow
  split <;> simp_all [setReject]

/-- The verdict depends neither on the last text nor on the order's id. -/
theorem validate_verdict (nowSec : UInt64) (r : RiskEngine P) (order : Order P) (midPrice : P)
    (x : List UInt8) (id : Int32) :
    ((r.setReject x).validate nowSec { order with id := id } midPrice).1 =
      (r.validate nowSec order midPrice).1 := by
  have hfirst : ((r.setReject x).updateRateWindow nowSec).firstReject { order with id := id }
      midPrice = (r.updateRateWindow nowSec).firstReject order midPrice := by
    rw [setReject_updateRateWindow]
    rfl
  have hkilled : (r.setReject x).killed = r.killed := rfl
  have henabled : (r.setReject x).limits.enabled = r.limits.enabled := rfl
  simp only [validate, hfirst, hkilled, henabled]
  split
  · rfl
  · split
    · rfl
    · split <;> rfl

theorem getPosition_onOrderExecuted (sym : SymbolKey) (filledQty : Int32) (fillPrice : P) :
    (r.onOrderExecuted order filledQty fillPrice).getPosition sym =
      if sym = order.symbol.key then executed (r.getPosition sym) order filledQty fillPrice
      else r.getPosition sym := by
  by_cases h : sym = order.symbol.key
  · subst h
    rw [if_pos rfl, getPosition, onOrderExecuted, AList.lookup_insert]
    rfl
  · rw [if_neg h, getPosition, onOrderExecuted, AList.lookup_insert_ne h]
    rfl

end RiskEngine

end Aspira
