import Aspira.Risk.Operations

/-!
# Risk — Rate

`check_rate_limit` along a run of calls.  The window is one second of the clock, and what is counted
in it are the orders that pass every check.

`Metered` keeps, beside the engine, what each call of `validate` did: as long as the clock does not go
back, `order_count_this_sec_` is the number of orders accepted in the second of the latest call, and no
second has more than `max_orders_per_sec` of them (`rate_exact`).
-/

namespace Aspira

variable {P : Type} [Price P]

/-- What is seen of a call of `validate`: the second it was made in, its verdict, and
`last_reject_reason()` and `current_rate()` after it. -/
structure RateCall where
  sec : UInt64
  accepted : Bool
  reason : List UInt8
  rate : Int32

/-- The number of orders accepted in a second. -/
def acceptedIn (t : UInt64) (cs : List RateCall) : ℕ :=
  cs.countP fun c => c.sec = t ∧ c.accepted = true

/-- The text of `check_rate_limit`. -/
def rateText (count : Int32) : List UInt8 :=
  snprintf 256 (text "Rate limit exceeded: " ++ showInt count.toInt ++ text " orders in current second")

/-- The call was rejected by `check_rate_limit`. -/
def RateCall.Limited (c : RateCall) : Prop := c.accepted = false ∧ ∃ count, c.reason = rateText count

/-- A call that is neither a change of the limits, nor a reset or kill. -/
def RiskOp.Plain : RiskOp P → Prop
  | .validate .. | .executed .. | .cancelled _ => True
  | _ => False

/-- The clock that a call of `validate` reads. -/
def RiskOp.sec : RiskOp P → Option UInt64
  | .validate nowSec _ _ => some nowSec
  | _ => none

namespace RiskEngine

/-- What is seen of the calls of `validate` along a run. -/
def rateCalls : RiskEngine P → List (RiskOp P) → List RateCall
  | _, [] => []
  | r, .validate nowSec order midPrice :: ops =>
      let v := r.validate nowSec order midPrice
      ⟨nowSec, v.1, v.2.lastReject, v.2.orderCountThisSec⟩ :: rateCalls v.2 ops
  | r, op :: ops => rateCalls (r.apply op) ops

/-! ### One call -/

variable {r : RiskEngine P} {nowSec : UInt64} {order : Order P} {midPrice : P}

omit [Price P] in
/-- A text that starts with `c`. -/
theorem snprintf_head {c : UInt8} {printed : List UInt8} (h : printed.head? = some c) (hc : c ≠ 0) :
    (snprintf 256 printed).head? = some c := by
  cases printed with
  | nil => cases h
  | cons a l =>
      obtain rfl := Option.some.inj h
      rw [snprintf, List.take_succ_cons, cstr, List.takeWhile_cons_of_pos (by simpa using hc)]
      rfl

/-- The texts of the other checks start with another letter. -/
theorem firstReject_head {reason : List UInt8} (hrate : r.checkRateLimit = none)
    (h : r.firstReject order midPrice = some reason) :
    ∃ c, reason.head? = some c ∧ c ≠ 0 ∧ c ≠ 82 := by
  have horder : (text "Order size ").head? = some 79 := by decide
  have hquantity : (text "Order quantity must be positive").head? = some 79 := by decide
  have hposition : (text "Position ").head? = some 80 := by decide
  have hgross : (text "Gross exposure ").head? = some 71 := by decide
  have hnotional : (text "Notional value ").head? = some 78 := by decide
  have hprice : (text "Price ").head? = some 80 := by decide
  simp only [firstReject, hrate, Option.orElse_eq_orElse, Option.orElse_eq_or, Option.none_or,
    Option.or_eq_some_iff] at h
  rcases h with h | ⟨-, h | ⟨-, h | ⟨-, h | ⟨-, h⟩⟩⟩⟩
  · simp only [checkOrderSize] at h
    split at h
    · exact ⟨79, by rw [← Option.some.inj h]; simp [horder], by decide, by decide⟩
    · obtain ⟨-, h⟩ := Option.ite_none_right_eq_some.mp h
      exact ⟨79, by rw [← Option.some.inj h, hquantity], by decide, by decide⟩
  · obtain ⟨-, h⟩ := Option.ite_none_right_eq_some.mp h
    exact ⟨80, by rw [← Option.some.inj h]; simp [hposition], by decide, by decide⟩
  · obtain ⟨-, h⟩ := Option.ite_none_right_eq_some.mp h
    exact ⟨71, by rw [← Option.some.inj h]; simp [hgross], by decide, by decide⟩
  · obtain ⟨-, h⟩ := Option.ite_none_left_eq_some.mp h
    obtain ⟨-, h⟩ := Option.ite_none_right_eq_some.mp h
    exact ⟨78, by rw [← Option.some.inj h]; simp [hnotional], by decide, by decide⟩
  · obtain ⟨-, h⟩ := Option.ite_none_left_eq_some.mp h
    obtain ⟨-, h⟩ := Option.ite_none_left_eq_some.mp h
    obtain ⟨-, h⟩ := Option.ite_none_right_eq_some.mp h
    exact ⟨80, by rw [← Option.some.inj h]; simp [hprice], by decide, by decide⟩

/-- The text of another check is not that of the rate check. -/
theorem reason_ne_rateText {reason : List UInt8} (hrate : r.checkRateLimit = none)
    (h : r.firstReject order midPrice = some reason) (count : Int32) :
    snprintf 256 reason ≠ rateText count := by
  intro heq
  obtain ⟨c, hhead, hzero, hne⟩ := firstReject_head hrate h
  have hrates : (text "Rate limit exceeded: ").head? = some 82 := by decide
  have hleft := snprintf_head hhead hzero
  have hright : (rateText count).head? = some 82 := snprintf_head (by simp [hrates]) (by decide)
  rw [heq, hright] at hleft
  exact hne (Option.some.inj hleft).symm

omit [Price P] in
theorem checkRateLimit_of_pos (hm : 0 < r.limits.maxOrdersPerSec.toInt) : r.checkRateLimit =
    if r.limits.maxOrdersPerSec.toInt ≤ r.orderCountThisSec.toInt then
      some (text "Rate limit exceeded: " ++ showInt r.orderCountThisSec.toInt ++
        text " orders in current second")
    else none := by
  have hpos : ¬ r.limits.maxOrdersPerSec ≤ 0 := by
    rw [Int32.le_iff_toInt_le, Int32.toInt_zero, not_le]
    exact hm
  rw [checkRateLimit, if_neg hpos]
  simp only [Int32.le_iff_toInt_le]

end RiskEngine

/-! ### The invariant -/

theorem acceptedIn_snoc (t : UInt64) (cs : List RateCall) (c : RateCall) :
    acceptedIn t (cs ++ [c]) = acceptedIn t cs + if c.sec = t ∧ c.accepted = true then 1 else 0 := by
  simp only [acceptedIn, List.countP_append, List.countP_singleton, decide_eq_true_eq]

/-- **The engine counts the orders accepted in its window**, and no second has too many. -/
structure Metered (limits : RiskLimits P) (cs : List RateCall) (r : RiskEngine P) : Prop where
  fixed : r.limits = limits
  killed : r.killed = false
  past : ∀ c ∈ cs, c.sec ≤ r.secWindowStart
  count : r.orderCountThisSec.toInt = acceptedIn r.secWindowStart cs
  bound : ∀ t, (acceptedIn t cs : ℤ) ≤ limits.maxOrdersPerSec.toInt

namespace Metered

variable {limits : RiskLimits P} {cs : List RateCall} {r : RiskEngine P} {nowSec : UInt64}

omit [Price P] in
/-- A new window starts in a second in which nothing was accepted yet. -/
theorem updateRateWindow (h : Metered limits cs r) (hclock : r.secWindowStart ≤ nowSec) :
    Metered limits cs (r.updateRateWindow nowSec) ∧
      (r.updateRateWindow nowSec).secWindowStart = nowSec := by
  by_cases hsame : nowSec = r.secWindowStart
  · have hkeep : r.updateRateWindow nowSec = r := if_neg (not_not.mpr hsame)
    rw [hkeep]
    exact ⟨h, hsame.symm⟩
  · have hnew : r.updateRateWindow nowSec =
        { r with secWindowStart := nowSec, orderCountThisSec := 0 } := if_pos hsame
    have hnone : acceptedIn nowSec cs = 0 := by
      refine List.countP_eq_zero.mpr fun c hc hat => hsame ?_
      have hsec : c.sec = nowSec := (of_decide_eq_true hat).1
      exact UInt64.le_antisymm (hsec ▸ h.past c hc) hclock
    rw [hnew]
    refine ⟨⟨h.fixed, h.killed, fun c hc => UInt64.le_trans (h.past c hc) hclock, ?_, h.bound⟩, rfl⟩
    show (0 : Int32).toInt = (acceptedIn nowSec cs : ℤ)
    rw [hnone]
    rfl

omit [Price P] in
/-- A call in the window that is accepted, if there is room, or rejected. -/
theorem snoc (h : Metered limits cs r) {c : RateCall} (hsec : c.sec = r.secWindowStart)
    {r' : RiskEngine P} (hfixed : r'.limits = r.limits) (hkilled : r'.killed = r.killed)
    (hwin : r'.secWindowStart = r.secWindowStart)
    (hcount : r'.orderCountThisSec.toInt =
      r.orderCountThisSec.toInt + if c.accepted = true then 1 else 0)
    (hroom : c.accepted = true → r.orderCountThisSec.toInt < limits.maxOrdersPerSec.toInt) :
    Metered limits (cs ++ [c]) r' where
  fixed := hfixed.trans h.fixed
  killed := hkilled.trans h.killed
  past := by
    intro c' hc'
    rw [hwin]
    rcases List.mem_append.mp hc' with hmem | hmem
    · exact h.past c' hmem
    · rw [List.mem_singleton.mp hmem, hsec]
      exact UInt64.le_refl _
  count := by
    rw [hcount, h.count, hwin, acceptedIn_snoc]
    simp only [hsec, true_and]
    push_cast
    rfl
  bound := by
    intro t
    have hbound := h.bound t
    rw [acceptedIn_snoc]
    split
    · rename_i hat
      obtain rfl : r.secWindowStart = t := hsec.symm.trans hat.1
      have hlt := hroom hat.2
      rw [h.count] at hlt
      push_cast
      omega
    · exact hbound

/-- **One call of `validate`.**  It counts if it is accepted, and the rate check stops it exactly when
the second has its `m` orders. -/
theorem validate (h : Metered limits cs r) (he : limits.enabled = true)
    (hm : 0 < limits.maxOrdersPerSec.toInt) (hclock : r.secWindowStart ≤ nowSec) (order : Order P)
    (midPrice : P) {v : Bool × RiskEngine P} (hv : r.validate nowSec order midPrice = v)
    {c : RateCall} (hc : c = ⟨nowSec, v.1, v.2.lastReject, v.2.orderCountThisSec⟩) :
    Metered limits (cs ++ [c]) v.2 ∧ v.2.secWindowStart = nowSec ∧
      (c.Limited ↔ (acceptedIn nowSec cs : ℤ) = limits.maxOrdersPerSec.toInt) := by
  obtain ⟨hw, hwin⟩ := h.updateRateWindow hclock
  have henabled : r.limits.enabled = true := by rw [h.fixed, he]
  set w := r.updateRateWindow nowSec with hwdef
  have hsec : c.sec = w.secWindowStart := by rw [hc, hwin]
  have hcount := hw.count
  have hbound := hw.bound nowSec
  have hlt := limits.maxOrdersPerSec.toInt_lt
  have hrate := RiskEngine.checkRateLimit_of_pos (r := w) (by rw [hw.fixed]; exact hm)
  rw [hwin] at hcount
  rw [hw.fixed, hcount] at hrate
  by_cases hfull : limits.maxOrdersPerSec.toInt ≤ acceptedIn nowSec cs
  · -- the second is full: the first check fails
    rw [if_pos hfull, ← hcount] at hrate
    have hfirst : w.firstReject order midPrice = some (text "Rate limit exceeded: " ++
        showInt w.orderCountThisSec.toInt ++ text " orders in current second") := by
      simp only [RiskEngine.firstReject, hrate]
      rfl
    rw [RiskEngine.validate_rejects h.killed henabled hfirst, ← hwdef] at hv
    subst hv hc
    refine ⟨hw.snoc hsec rfl rfl rfl (by simp [RiskEngine.setReject]) (by simp), hwin, ?_⟩
    exact iff_of_true ⟨rfl, _, rfl⟩ (le_antisymm hbound hfull)
  · rw [if_neg hfull] at hrate
    rw [not_le] at hfull
    cases hfirst : w.firstReject order midPrice with
    | some reason =>
        -- another check fails, and nothing is counted
        rw [RiskEngine.validate_rejects h.killed henabled hfirst, ← hwdef] at hv
        subst hv hc
        refine ⟨hw.snoc hsec rfl rfl rfl (by simp [RiskEngine.setReject]) (by simp), hwin, ?_⟩
        refine iff_of_false (fun hlim => ?_) hfull.ne
        obtain ⟨-, count, htext⟩ := hlim
        exact RiskEngine.reason_ne_rateText hrate hfirst count htext
    | none =>
        rw [RiskEngine.validate_accepts h.killed henabled hfirst, ← hwdef] at hv
        subst hv hc
        have hone : (w.orderCountThisSec + 1).toInt = w.orderCountThisSec.toInt + 1 :=
          Int32.toInt_add_exact (by rw [hcount]; exact le_trans (by decide) (Int.natCast_nonneg _))
            (by rw [hcount]; exact lt_of_lt_of_le (Int.add_lt_add_right hfull 1) (by omega))
        refine ⟨hw.snoc hsec rfl rfl rfl (by simpa using hone) (fun _ => ?_), hwin, ?_⟩
        · rw [hcount]
          exact hfull
        · exact iff_of_false (fun hlim => Bool.noConfusion hlim.1) hfull.ne

/-- **A run of calls**: each verdict is right for the calls before it. -/
theorem run (he : limits.enabled = true) (hm : 0 < limits.maxOrdersPerSec.toInt) :
    ∀ (ops : List (RiskOp P)) {cs : List RateCall} {r : RiskEngine P}, Metered limits cs r →
      (∀ op ∈ ops, op.Plain) → (ops.filterMap RiskOp.sec).Pairwise (· ≤ ·) →
      (∀ t ∈ ops.filterMap RiskOp.sec, r.secWindowStart ≤ t) →
      (∀ t, (acceptedIn t (cs ++ r.rateCalls ops) : ℤ) ≤ limits.maxOrdersPerSec.toInt) ∧
      ∀ (before : List RateCall) (c : RateCall) (after : List RateCall),
        r.rateCalls ops = before ++ c :: after →
        c.rate.toInt = acceptedIn c.sec (cs ++ before ++ [c]) ∧
        (c.Limited ↔ (acceptedIn c.sec (cs ++ before) : ℤ) = limits.maxOrdersPerSec.toInt) := by
  intro ops
  induction ops with
  | nil =>
      intro cs r h _ _ _
      refine ⟨fun t => ?_, fun before c after hat => ?_⟩
      · rw [RiskEngine.rateCalls, List.append_nil]
        exact h.bound t
      · exact absurd hat.symm (by simp [RiskEngine.rateCalls])
  | cons op ops ih =>
      intro cs r h hplain hclock hahead
      have hrest : ∀ op' ∈ ops, op'.Plain := fun op' hop' => hplain op' (List.mem_cons_of_mem op hop')
      cases op with
      | validate nowSec order midPrice =>
          have hsecs : (RiskOp.validate nowSec order midPrice :: ops).filterMap RiskOp.sec =
              nowSec :: ops.filterMap RiskOp.sec := rfl
          rw [hsecs] at hclock hahead
          obtain ⟨hlater, hclock⟩ := List.pairwise_cons.mp hclock
          obtain ⟨hnext, hwin, hlim⟩ := h.validate he hm (hahead nowSec (List.mem_cons_self ..)) order
            midPrice rfl rfl
          have hrate := hnext.count
          rw [hwin] at hrate
          obtain ⟨hbound, hverdicts⟩ := ih hnext hrest hclock (by rw [hwin]; exact hlater)
          refine ⟨fun t => ?_, fun before c after hat => ?_⟩
          · have := hbound t
            rwa [List.append_assoc] at this
          · cases before with
            | nil =>
                obtain ⟨rfl, -⟩ := List.cons.inj hat
                rw [List.append_nil]
                exact ⟨hrate, hlim⟩
            | cons first before =>
                obtain ⟨rfl, htail⟩ := List.cons.inj hat
                have := hverdicts before c after htail
                rwa [List.append_assoc cs, List.singleton_append] at this
      | executed => exact ih ⟨h.fixed, h.killed, h.past, h.count, h.bound⟩ hrest hclock hahead
      | cancelled => exact ih h hrest hclock hahead
      | setLimits => exact (hplain _ (List.mem_cons_self ..)).elim
      | reset => exact (hplain _ (List.mem_cons_self ..)).elim
      | killSwitch => exact (hplain _ (List.mem_cons_self ..)).elim

theorem start (hm : 0 < limits.maxOrdersPerSec.toInt) :
    Metered limits [] (RiskEngine.init.setLimits limits) where
  fixed := rfl
  killed := rfl
  past _ hc := absurd hc List.not_mem_nil
  count := rfl
  bound _ := hm.le

end Metered

/-- **Rate limiting is exact.**  Along a clock that does not go back, no second has more than
`max_orders_per_sec` accepted orders, `current_rate()` counts those of the call's second, and the rate
check rejects exactly the calls that find their second full. -/
theorem rate_exact (limits : RiskLimits P) (he : limits.enabled = true)
    (hm : 0 < limits.maxOrdersPerSec.toInt) (ops : List (RiskOp P)) (hplain : ∀ op ∈ ops, op.Plain)
    (hclock : (ops.filterMap RiskOp.sec).Pairwise (· ≤ ·)) :
    (∀ t, (acceptedIn t ((RiskEngine.init.setLimits limits).rateCalls ops) : ℤ) ≤
      limits.maxOrdersPerSec.toInt) ∧
    ∀ (before : List RateCall) (c : RateCall) (after : List RateCall),
      (RiskEngine.init.setLimits limits).rateCalls ops = before ++ c :: after →
      c.rate.toInt = acceptedIn c.sec (before ++ [c]) ∧
      (c.Limited ↔ (acceptedIn c.sec before : ℤ) = limits.maxOrdersPerSec.toInt) := by
  have hzero : ∀ t ∈ ops.filterMap RiskOp.sec,
      (RiskEngine.init.setLimits limits).secWindowStart ≤ t := fun t _ => by
    rw [UInt64.le_iff_toNat_le]
    exact Nat.zero_le _
  exact Metered.run he hm ops (Metered.start hm) hplain hclock hzero

/-- Two orders a second. -/
def throttled : RiskLimits ℚ := { tightLimits with maxOrdersPerSec := 2, maxPosition := 1000 }

/-- Four orders in one second, the second of them too large, and one in a later second. -/
def busySecond : List (RiskOp ℚ) :=
  [.validate 5 (deskOrder 1 .buy) 10, .validate 5 { deskOrder 2 .buy with quantity := 101 } 10,
    .executed (deskOrder 1 .buy) 100 10, .validate 5 (deskOrder 3 .buy) 10,
    .validate 5 (deskOrder 4 .buy) 10, .validate 9 (deskOrder 5 .buy) 10]

theorem rate_exact_busySecond :
    ((RiskEngine.init.setLimits throttled).rateCalls busySecond).map
      (fun c => (c.accepted, c.rate)) =
      [(true, 1), (false, 1), (true, 2), (false, 2), (true, 1)] ∧
    ∀ t, (acceptedIn t ((RiskEngine.init.setLimits throttled).rateCalls busySecond) : ℤ) ≤
      throttled.maxOrdersPerSec.toInt := by
  refine ⟨by decide +kernel, ?_⟩
  exact (rate_exact throttled rfl (by decide) busySecond (by simp [busySecond, RiskOp.Plain])
    (by decide +kernel)).1

end Aspira
