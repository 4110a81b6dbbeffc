import Aspira.Support.Run
import Aspira.Risk.RiskEngine

/-!
# Risk — sequences of operations

What a run of calls on one `RiskEngine` keeps.

* The kill switch (`killed_run`): after `kill_switch(true)` the engine stays killed as long as it is
  neither released nor reset; `reset` releases it too.
* The position limit when fills come later than the checks.  `check_position_limit` sees the filled
  position only, so what it overlooks at each acceptance is the open quantity of the orders accepted
  before on the same side.  The position stays within the limit and the most that was ever
  overlooked (`position_bounded`), and can exceed the limit alone (`position_exceeds`).
-/

namespace Aspira

variable {P : Type} [Price P]

/-! ### The kill switch -/

/-- A call on the engine. -/
inductive RiskOp (P : Type) where
  | validate (nowSec : UInt64) (order : Order P) (midPrice : P)
  | executed (order : Order P) (filledQty : Int32) (fillPrice : P)
  | cancelled (order : Order P)
  | setLimits (limits : RiskLimits P)
  | reset
  | killSwitch (enabled : Bool)

namespace RiskEngine

/-- The engine after a call. -/
def apply (r : RiskEngine P) : RiskOp P → RiskEngine P
  | .validate nowSec order midPrice => (r.validate nowSec order midPrice).2
  | .executed order filledQty fillPrice => r.onOrderExecuted order filledQty fillPrice
  | .cancelled order => r.onOrderCancelled order
  | .setLimits limits => r.setLimits limits
  | .reset => r.reset
  | .killSwitch enabled => r.killSwitch enabled

/-- The engine after some calls. -/
def runOps (r : RiskEngine P) (ops : List (RiskOp P)) : RiskEngine P := ops.foldl apply r

end RiskEngine

/-- The call takes the engine out of the killed state. -/
def RiskOp.Releases : RiskOp P → Prop
  | .reset => True
  | .killSwitch enabled => enabled = false
  | _ => False

namespace RiskEngine

variable {r : RiskEngine P}

theorem killed_apply {op : RiskOp P} (h : r.killed = true) (hop : ¬ op.Releases) :
    (r.apply op).killed = true := by
  cases op with
  | validate nowSec order midPrice => exact (validate_frame nowSec r order midPrice).2.2.trans h
  | executed => exact h
  | cancelled => exact h
  | setLimits => exact h
  | reset => exact absurd trivial hop
  | killSwitch enabled =>
      cases enabled with
      | true => rfl
      | false => exact absurd rfl hop

/-- **A killed engine stays killed** until a call releases it. -/
theorem killed_run {ops : List (RiskOp P)} (hops : ∀ op ∈ ops, ¬ op.Releases) :
    ∀ {r : RiskEngine P}, r.killed = true → (r.runOps ops).killed = true := by
  induction ops with
  | nil => exact fun h => h
  | cons op ops ih =>
      intro r h
      exact ih (fun op' hop' => hops op' (List.mem_cons_of_mem op hop'))
        (killed_apply h (hops op (List.mem_cons_self ..)))

/-- A killed engine rejects everything, and changes only its text. -/
theorem validate_of_killed (h : r.killed = true) (nowSec : UInt64) (order : Order P) (midPrice : P) :
    ∃ reject, r.validate nowSec order midPrice = (false, r.setReject reject) :=
  ⟨_, if_pos h⟩

end RiskEngine

/-! ### Fills that come later -/

/-- An engine, and the orders it accepted with what is left of each. -/
structure Desk (P : Type) where
  engine : RiskEngine P
  accepted : List (Order P × ℤ)

/-- A call of `validate`, or a fill of the `i`th accepted order. -/
inductive DeskEvent (P : Type) where
  | validate (nowSec : UInt64) (order : Order P) (midPrice : P)
  | fill (i : ℕ) (filledQty : Int32) (fillPrice : P)

namespace Desk

/-- A new engine with limits of its own. -/
def start (limits : RiskLimits P) : Desk P := ⟨RiskEngine.init.setLimits limits, []⟩

/-- One call, with what `validate` returns. -/
def step (d : Desk P) : DeskEvent P → Option (Bool × Desk P)
  | .validate nowSec order midPrice =>
      let v := d.engine.validate nowSec order midPrice
      some (v.1, ⟨v.2, if v.1 then d.accepted ++ [(order, order.quantity.toInt)] else d.accepted⟩)
  | .fill i filledQty fillPrice => do
      let a ← d.accepted[i]?
      return (true, ⟨d.engine.onOrderExecuted a.1 filledQty fillPrice,
        d.accepted.set i (a.1, a.2 - filledQty.toInt)⟩)

/-- What an accepted order of a symbol and side has open. -/
def part (k : SymbolKey) (s : Side) (a : Order P × ℤ) : ℤ :=
  if a.1.symbol.key = k ∧ a.1.side = s then a.2 else 0

/-- The open quantity of the accepted orders of a symbol and side. -/
def openQty (d : Desk P) (k : SymbolKey) (s : Side) : ℤ := (d.accepted.map (part k s)).sum

/-- The fills of an order are of what is left of it. -/
def Covered (d : Desk P) : DeskEvent P → Prop
  | .validate .. => True
  | .fill i filledQty _ => ∃ a ∈ d.accepted[i]?, 0 ≤ filledQty.toInt ∧ filledQty.toInt ≤ a.2

/-- An order is accepted with at most `K` open before it, on its symbol and side. -/
def Overlooks (K : ℤ) (d : Desk P) : DeskEvent P → Prop
  | .validate nowSec order midPrice => (d.engine.validate nowSec order midPrice).1 = true →
      d.openQty order.symbol.key order.side ≤ K
  | .fill .. => True

/-- The net position of a symbol. -/
def net (d : Desk P) (k : SymbolKey) : ℤ := (d.engine.getPosition k).netPosition.toInt

instance (d : Desk P) : ∀ e, Decidable (d.Covered e)
  | .validate .. => inferInstanceAs (Decidable True)
  | .fill i filledQty _ => inferInstanceAs
      (Decidable (∃ a ∈ d.accepted[i]?, 0 ≤ filledQty.toInt ∧ filledQty.toInt ≤ a.2))

instance (K : ℤ) (d : Desk P) : ∀ e, Decidable (d.Overlooks K e)
  | .validate .. => inferInstanceAs (Decidable (_ → _))
  | .fill .. => inferInstanceAs (Decidable True)

/-- What the checks and the open orders leave of the bound. -/
structure Within (limits : RiskLimits P) (B : ℤ) (d : Desk P) : Prop where
  limits : d.engine.limits = limits
  left : ∀ a ∈ d.accepted, 0 ≤ a.2
  upper : ∀ k, d.net k + d.openQty k .buy ≤ B
  lower : ∀ k, -B ≤ d.net k - d.openQty k .sell

variable {limits : RiskLimits P} {B K : ℤ} {d : Desk P}

omit [Price P] in
theorem part_nonneg {a : Order P × ℤ} (h : 0 ≤ a.2) (k : SymbolKey) (s : Side) : 0 ≤ part k s a := by
  unfold part
  split
  · exact h
  · exact le_rfl

omit [Price P] in
theorem openQty_nonneg (h : ∀ a ∈ d.accepted, 0 ≤ a.2) (k : SymbolKey) (s : Side) :
    0 ≤ d.openQty k s := by
  refine List.sum_nonneg fun x hx => ?_
  obtain ⟨a, ha, rfl⟩ := List.mem_map.mp hx
  exact part_nonneg (h a ha) k s

omit [Price P] in
/-- The open quantity covers each order. -/
theorem part_le_openQty (h : ∀ a ∈ d.accepted, 0 ≤ a.2) {a : Order P × ℤ} (ha : a ∈ d.accepted)
    (k : SymbolKey) (s : Side) : part k s a ≤ d.openQty k s := by
  refine List.single_le_sum (fun x hx => ?_) _ (List.mem_map_of_mem ha)
  obtain ⟨a', ha', rfl⟩ := List.mem_map.mp hx
  exact part_nonneg (h a' ha') k s

theorem Within.abs_net_le (h : d.Within limits B) (k : SymbolKey) : |d.net k| ≤ B := by
  have hbuy := openQty_nonneg h.left k .buy
  have hsell := openQty_nonneg h.left k .sell
  have hupper := h.upper k
  have hlower := h.lower k
  exact abs_le.mpr ⟨by omega, by omega⟩

/-- The absolute value is exact, but for the least word. -/
theorem absInt32_toInt {x : Int32} (h : -2 ^ 31 < x.toInt) :
    (RiskEngine.absInt32 x).toInt = |x.toInt| := by
  have hlt := x.toInt_lt
  unfold RiskEngine.absInt32
  split
  · rename_i hneg
    rw [Int32.lt_iff_toInt_lt, Int32.toInt_zero] at hneg
    rw [Int32.toInt_neg, Int.bmod_eq_of_le (by omega) (by omega), abs_of_neg hneg]
  · rename_i hneg
    rw [Int32.lt_iff_toInt_lt, Int32.toInt_zero, not_lt] at hneg
    rw [abs_of_nonneg hneg]

/-- What the position check says of an accepted order, when nothing overflows. -/
theorem accepted_position {r : RiskEngine P} {nowSec : UInt64} {order : Order P} {midPrice : P}
    (he : r.limits.enabled = true) (h : (r.validate nowSec order midPrice).1 = true)
    (hp : |(r.getPosition order.symbol.key).netPosition.toInt| + r.limits.maxOrderQty.toInt < 2 ^ 31) :
    |(r.getPosition order.symbol.key).netPosition.toInt +
      (if order.isBuy then order.quantity.toInt else -order.quantity.toInt)| ≤
      r.limits.maxPosition.toInt := by
  obtain ⟨hpos, hle⟩ := RiskEngine.validate_size he h
  have hnew := RiskEngine.validate_position he h
  obtain ⟨hlo, hhi⟩ := abs_le.mp (le_refl |(r.getPosition order.symbol.key).netPosition.toInt|)
  have hexact : (r.newPosition order).toInt = (r.getPosition order.symbol.key).netPosition.toInt +
      (if order.isBuy then order.quantity.toInt else -order.quantity.toInt) := by
    unfold RiskEngine.newPosition
    cases order.isBuy with
    | true => exact Int32.toInt_add_exact (by omega) (by omega)
    | false => exact Int32.toInt_sub_exact (by omega) (by omega)
  have hmin : -2 ^ 31 < (r.newPosition order).toInt := by
    rw [hexact]
    split <;> omega
  rw [Int32.le_iff_toInt_le, absInt32_toInt hmin, hexact] at hnew
  exact hnew

/-- **An acceptance** adds the order to what is open. -/
theorem Within.validate (h : d.Within limits B) (he : limits.enabled = true)
    (hB : B = max 0 limits.maxPosition.toInt + K)
    (hsum : max 0 limits.maxPosition.toInt + max 0 limits.maxOrderQty.toInt + K < 2 ^ 31)
    {nowSec : UInt64} {order : Order P} {midPrice : P}
    (hK : d.Overlooks K (.validate nowSec order midPrice)) :
    ∃ r d', d.step (.validate nowSec order midPrice) = some (r, d') ∧ d'.Within limits B := by
  refine ⟨_, _, rfl, ?_⟩
  have hlim := (RiskEngine.validate_frame nowSec d.engine order midPrice).1
  have hget := RiskEngine.getPosition_validate nowSec d.engine order midPrice
  cases hv : (d.engine.validate nowSec order midPrice).1 with
  | false =>
      refine ⟨hlim.trans h.limits, h.left, fun k => ?_, fun k => ?_⟩
      · rw [net, hget]
        exact h.upper k
      · rw [net, hget]
        exact h.lower k
  | true =>
      have henabled : d.engine.limits.enabled = true := by rw [h.limits, he]
      obtain ⟨hq, hle⟩ := RiskEngine.validate_size henabled hv
      have hnet := h.abs_net_le order.symbol.key
      have hcheck := accepted_position henabled hv (by
        rw [h.limits]
        rw [net] at hnet
        omega)
      rw [h.limits] at hcheck
      obtain ⟨hlo, hhi⟩ := abs_le.mp hcheck
      have hover := hK hv
      have hopen : ∀ k s, openQty (⟨(d.engine.validate nowSec order midPrice).2,
          d.accepted ++ [(order, order.quantity.toInt)]⟩ : Desk P) k s =
          d.openQty k s + part k s (order, order.quantity.toInt) := fun k s => by
        simp [openQty]
      simp only [if_true]
      refine ⟨hlim.trans h.limits, fun a ha => ?_, fun k => ?_, fun k => ?_⟩
      · rcases List.mem_append.mp ha with ha | ha
        · exact h.left a ha
        · rw [List.mem_singleton.mp ha]
          exact hq.le
      · rw [hopen, net, hget]
        have hupper := h.upper k
        rw [net] at hupper
        by_cases hpart : order.symbol.key = k ∧ order.side = .buy
        · obtain ⟨rfl, hside⟩ := hpart
          rw [part, if_pos ⟨rfl, hside⟩]
          simp only [Order.isBuy, hside, decide_true, if_true] at hhi
          rw [hside] at hover
          omega
        · rw [part, if_neg hpart]
          omega
      · rw [hopen, net, hget]
        have hlower := h.lower k
        rw [net] at hlower
        by_cases hpart : order.symbol.key = k ∧ order.side = .sell
        · obtain ⟨rfl, hside⟩ := hpart
          rw [part, if_pos ⟨rfl, hside⟩]
          simp only [Order.isBuy, hside, reduceCtorEq, decide_false, Bool.false_eq_true,
            if_false] at hlo
          rw [hside] at hover
          omega
        · rw [part, if_neg hpart]
          omega

omit [Price P] in
theorem sum_map_set {A : Type} (f : A → ℤ) (x : A) :
    ∀ {l : List A} {i : ℕ} {a : A}, l[i]? = some a →
      ((l.set i x).map f).sum = (l.map f).sum - f a + f x
  | [], i, a, h => by cases h
  | b :: l, 0, a, h => by
      obtain rfl : b = a := Option.some.inj h
      simp only [List.set_cons_zero, List.map_cons, List.sum_cons]
      ring
  | b :: l, i + 1, a, h => by
      simp only [List.set_cons_succ, List.map_cons, List.sum_cons, sum_map_set f x (l := l) h]
      ring

/-- **A fill** moves as much from what is open to the position. -/
theorem Within.fill (h : d.Within limits B) (hB : B < 2 ^ 31) {i : ℕ} {filledQty : Int32}
    {fillPrice : P} (hcov : d.Covered (.fill i filledQty fillPrice)) :
    ∃ r d', d.step (.fill i filledQty fillPrice) = some (r, d') ∧ d'.Within limits B := by
  obtain ⟨⟨o, left⟩, ha, h₀, hle⟩ := hcov
  rw [Option.mem_def] at ha
  refine ⟨true, ⟨d.engine.onOrderExecuted o filledQty fillPrice,
    d.accepted.set i (o, left - filledQty.toInt)⟩, by simp only [step, ha]; rfl, ?_⟩
  have hmem : (o, left) ∈ d.accepted := List.mem_of_getElem? ha
  have hopen : ∀ k s, openQty (⟨d.engine.onOrderExecuted o filledQty fillPrice,
      d.accepted.set i (o, left - filledQty.toInt)⟩ : Desk P) k s =
      d.openQty k s - if o.symbol.key = k ∧ o.side = s then filledQty.toInt else 0 := fun k s => by
    rw [openQty, openQty, sum_map_set _ _ ha]
    unfold part
    split <;> omega
  have hnet : ∀ k, net (⟨d.engine.onOrderExecuted o filledQty fillPrice,
      d.accepted.set i (o, left - filledQty.toInt)⟩ : Desk P) k = d.net k +
      (if o.symbol.key = k ∧ o.side = .buy then filledQty.toInt else 0) -
      if o.symbol.key = k ∧ o.side = .sell then filledQty.toInt else 0 := fun k => by
    rw [net, RiskEngine.getPosition_onOrderExecuted]
    by_cases hk : o.symbol.key = k
    · subst hk
      have hbound := abs_le.mp (h.abs_net_le o.symbol.key)
      have hcover := part_le_openQty h.left hmem o.symbol.key o.side
      have hupper := h.upper o.symbol.key
      have hlower := h.lower o.symbol.key
      rw [part, if_pos ⟨rfl, rfl⟩] at hcover
      rw [net] at hbound hupper hlower
      rw [if_pos rfl, RiskEngine.executed, Order.isBuy]
      by_cases hside : o.side = .buy
      · rw [hside] at hcover
        simp only [hside, decide_true, true_and, if_true, reduceCtorEq, if_false, sub_zero]
        exact Int32.toInt_add_exact (by omega) (by omega)
      · have hsell : o.side = .sell := by
          cases hs : o.side with
          | buy => exact absurd hs hside
          | sell => rfl
        rw [hsell] at hcover
        simp only [hsell, reduceCtorEq, decide_false, Bool.false_eq_true, true_and, if_false, if_true,
          add_zero]
        exact Int32.toInt_sub_exact (by omega) (by omega)
    · rw [if_neg (Ne.symm hk), if_neg fun e => hk e.1, if_neg fun e => hk e.1, add_zero, sub_zero]
      rfl
  refine ⟨h.limits, fun a' ha' => ?_, fun k => ?_, fun k => ?_⟩
  · rcases List.mem_or_eq_of_mem_set ha' with ha' | rfl
    · exact h.left a' ha'
    · exact Int.sub_nonneg_of_le hle
  · rw [hopen, hnet]
    have hupper := h.upper k
    split <;> split <;> omega
  · rw [hopen, hnet]
    have hlower := h.lower k
    split <;> split <;> omega

theorem start_within (hB : 0 ≤ B) : (start limits).Within limits B where
  limits := rfl
  left _ ha := absurd ha List.not_mem_nil
  upper _ := hB
  lower _ := Int.neg_nonpos_of_nonneg hB

end Desk

/-- **The position limit with fills that come later.**  If every order is accepted with at most `K`
open before it on its symbol and side, no position ever passes the limit by more than `K`. -/
theorem position_bounded {limits : RiskLimits P} {K : ℤ} {es : List (DeskEvent P)} (hK : 0 ≤ K)
    (he : limits.enabled = true)
    (hsum : max 0 limits.maxPosition.toInt + max 0 limits.maxOrderQty.toInt + K < 2 ^ 31)
    (h : Run.Along Desk.step (fun d e => d.Covered e ∧ d.Overlooks K e) (Desk.start limits) es) :
    Run.Always Desk.step
      (fun _ _ _ d => ∀ k, |d.net k| ≤ max 0 limits.maxPosition.toInt + K) (Desk.start limits) es := by
  refine Run.always_of_step
    (I := Desk.Within limits (max 0 limits.maxPosition.toInt + K)) (fun d e hd hc => ?_)
    (Desk.start_within (by omega)) h
  have hnext : ∃ r d', d.step e = some (r, d') ∧
      d'.Within limits (max 0 limits.maxPosition.toInt + K) := by
    cases e with
    | validate nowSec order midPrice => exact hd.validate he rfl hsum hc.2
    | fill i filledQty fillPrice => exact hd.fill (by omega) hc.1
  obtain ⟨r, d', hstep, hd'⟩ := hnext
  exact ⟨r, d', hstep, hd', fun k => hd'.abs_net_le k⟩

/-- Limits of 100 on the order and on the position. -/
def tightLimits : RiskLimits ℚ := { RiskLimits.default with maxOrderQty := 100, maxPosition := 100 }

/-- An order for 100 at 10. -/
def deskOrder (id : Int32) (side : Side) : Order ℚ where
  id := id
  accountId := 1
  price := 10
  quantity := 100
  filledQty := 0
  timestampNs := 0
  side := side
  type := .limit
  status := .new
  symbol := (Vector.replicate 16 0).set 0 65 Symbol.size_pos

/-- An order to buy, filled in parts; a second one, rejected meanwhile; and one to sell. -/
def patientDesk : List (DeskEvent ℚ) :=
  [.validate 1 (deskOrder 1 .buy) 10, .fill 0 30 10, .validate 1 (deskOrder 2 .buy) 10,
    .fill 0 30 10, .validate 1 (deskOrder 3 .sell) 10, .fill 0 40 10, .fill 1 100 10]

theorem position_bounded_patientDesk :
    Run.Along Desk.step (fun d e => d.Covered e ∧ d.Overlooks 0 e) (Desk.start tightLimits)
      patientDesk ∧
    Run.Always Desk.step (fun _ _ _ d => ∀ k, |d.net k| ≤ 100 + 0) (Desk.start tightLimits)
      patientDesk := by
  have h : Run.Along Desk.step (fun d e => d.Covered e ∧ d.Overlooks 0 e)
      (Desk.start tightLimits) patientDesk := by decide +kernel
  exact ⟨h, position_bounded le_rfl rfl (by decide) h⟩

/-- Two orders to buy 100 are both accepted before either is filled. -/
def eagerDesk : List (DeskEvent ℚ) :=
  [.validate 1 (deskOrder 1 .buy) 10, .validate 1 (deskOrder 2 .buy) 10, .fill 0 100 10,
    .fill 1 100 10]

/-- **The check overlooks open orders.**  Within the limits of the desk and of its orders, the
position reaches twice the limit. -/
theorem position_exceeds :
    tightLimits.enabled = true ∧
    tightLimits.maxPosition.toInt + tightLimits.maxOrderQty.toInt < 2 ^ 31 ∧
    Run.Along Desk.step Desk.Covered (Desk.start tightLimits) eagerDesk ∧
    ¬ Run.Always Desk.step (fun _ _ _ d => |d.net (deskOrder 1 .buy).symbol.key| ≤
      tightLimits.maxPosition.toInt) (Desk.start tightLimits) eagerDesk := by decide +kernel

end Aspira
