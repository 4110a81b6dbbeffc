import Aspira.Support.Decimal
import Aspira.Pipeline.Gateway

/-!
# Gateway — Message

`gw_serialize_order` of `src/execution_gateway.c`, for any buffer.  A message is

  `ORDER|<id>|<symbol>|<side>|<type>|<price>|<qty>|<timestamp>`

and the symbol may hold separators itself.  None of the other fields does, so the id is what comes
before the first separator, the last five fields are cut off from the right, and what is left is the
symbol (`gwMessage_injective`).

`snprintf` returns an `int`: a message longer than that can hold is refused whatever the buffer, and
this is the only one that is refused for lack of anything but room (`gwSerialize_eq_zero_iff`).
-/

namespace Aspira

/-! ### Serialising -/

/-- What `snprintf` returns for a text of `n` bytes: `n`, or a negative number if no `int` is `n`. -/
def snprintfResult (n : ℕ) : Int32 := if n < 2 ^ 31 then Int32.ofNat n else -1

/-- The arguments of `gw_serialize_order` besides the buffer; `symbol` is the memory at the
pointer. -/
structure GwFields (P : Type) where
  orderId : Int32
  symbol : List UInt8
  side : UInt8
  orderType : UInt8
  price : P
  quantity : Int32
  timestampNs : UInt64

section Serialize

variable {P : Type} [Price P]

/-- The text that is printed. -/
def GwFields.message (f : GwFields P) : List UInt8 :=
  text "ORDER|" ++ showInt f.orderId.toInt ++ text "|" ++ cstr f.symbol ++ text "|" ++
    (if f.side = 66 then text "BUY" else text "SELL") ++ text "|" ++
    (if f.orderType = 76 then text "LIMIT" else text "MARKET") ++ text "|" ++
    Price.fixed 4 f.price ++ text "|" ++ showInt f.quantity.toInt ++ text "|" ++
    decimal f.timestampNs.toNat

/-- `gw_serialize_order` into a buffer of `bufSize` bytes, 0 for `NULL`: what it returns, and the
bytes in the buffer up to the terminator. -/
def gwSerialize (bufSize : UInt32) (f : GwFields P) : Int32 × List UInt8 :=
  if bufSize = 0 then (-1, [])
  else
    let written := snprintfResult f.message.length
    (if 0 < written ∧ written.toUInt32 < bufSize then 0 else -1,
      f.message.take (bufSize.toNat - 1) ++ [0])

/-- The arguments that `process_market_data` passes for an order. -/
def Order.gwFields (past : List UInt8) (o : Order P) : GwFields P where
  orderId := o.id
  symbol := o.symbol.toList ++ past
  side := if o.isBuy then 66 else 83
  orderType := if o.type = .limit then 76 else 77
  price := o.price
  quantity := o.quantity
  timestampNs := o.timestampNs

/-- The message, cut at its separators from the right. -/
theorem GwFields.message_eq (f : GwFields P) : f.message =
    (((((text "ORDER|" ++ (showInt f.orderId.toInt ++ bar :: cstr f.symbol)) ++
      bar :: (if f.side = 66 then text "BUY" else text "SELL")) ++
      bar :: (if f.orderType = 76 then text "LIMIT" else text "MARKET")) ++
      bar :: Price.fixed 4 f.price) ++ bar :: showInt f.quantity.toInt) ++
      bar :: decimal f.timestampNs.toNat := by
  simp only [message, text_bar, List.append_assoc, List.cons_append, List.nil_append]

theorem snprintfResult_spec {n : ℕ} {bufSize : UInt32} (hn : 0 < n) :
    0 < snprintfResult n ∧ (snprintfResult n).toUInt32 < bufSize ↔
      n < bufSize.toNat ∧ n < 2 ^ 31 := by
  unfold snprintfResult
  split
  · rename_i hlt
    have hint : (Int32.ofNat n).toInt = n := Int32.toInt_ofNat_of_lt hlt
    have hnat : (Int32.ofNat n).toUInt32.toNat = n := by
      show n % 2 ^ 32 = n
      omega
    rw [Int32.lt_iff_toInt_lt, hint, UInt32.lt_iff_toNat_lt, hnat, Int32.toInt_zero]
    omega
  · rename_i hge
    refine iff_of_false (fun h => absurd h.1 (by decide)) fun h => hge h.2

theorem GwFields.message_pos (f : GwFields P) : 0 < f.message.length := by
  have hhead : 0 < (text "ORDER|").length := by decide
  rw [f.message_eq]
  simp only [List.length_append]
  omega

/-- **When an order is serialised**: the message and its terminator fit, and an `int` counts it. -/
theorem gwSerialize_eq_zero_iff (bufSize : UInt32) (f : GwFields P) :
    (gwSerialize bufSize f).1 = 0 ↔
      f.message.length + 1 ≤ bufSize.toNat ∧ f.message.length < 2 ^ 31 := by
  unfold gwSerialize
  split
  · rename_i hzero
    rw [hzero]
    exact iff_of_false (by decide) fun h => absurd h.1 (Nat.not_succ_le_zero _)
  · dsimp only
    rw [← Nat.lt_iff_add_one_le, ← snprintfResult_spec f.message_pos]
    split
    · rename_i h
      exact iff_of_true rfl h
    · rename_i h
      exact iff_of_false (by decide) h

/-- What is in the buffer is the whole message. -/
theorem gwSerialize_buffer {bufSize : UInt32} {f : GwFields P} (h : (gwSerialize bufSize f).1 = 0) :
    (gwSerialize bufSize f).2 = f.message ++ [0] := by
  have hfit := ((gwSerialize_eq_zero_iff bufSize f).mp h).1
  have hne : bufSize ≠ 0 := by
    rintro rfl
    exact absurd hfit (Nat.not_succ_le_zero _)
  rw [gwSerialize, if_neg hne, List.take_of_length_le (Nat.le_sub_one_of_lt hfit)]

/-- What the hot path sends is a message of this form. -/
theorem gwSerializeOrder_gwSerialize (past : List UInt8) (o : Order P) :
    (gwSerializeOrder past o).1 = decide ((gwSerialize 512 (o.gwFields past)).1 = 0) := by
  have hside : (if (o.gwFields past).side = 66 then text "BUY" else text "SELL") =
      if o.isBuy then text "BUY" else text "SELL" := by
    unfold Order.gwFields
    cases o.isBuy <;> rfl
  have htype : (if (o.gwFields past).orderType = 76 then text "LIMIT" else text "MARKET") =
      if o.type = .limit then text "LIMIT" else text "MARKET" := by
    unfold Order.gwFields
    cases o.type <;> rfl
  have hmsg : (o.gwFields past).message = gwText past o := by
    rw [GwFields.message, hside, htype]
    simp only [gwText, gwFront, text_bar, List.append_assoc, List.cons_append, List.nil_append]
    rfl
  have hpos := (o.gwFields past).message_pos
  rw [hmsg] at hpos
  have h512 : (512 : UInt32).toNat = 512 := rfl
  rw [gwSerializeOrder_eq, decide_eq_decide, gwSerialize_eq_zero_iff, hmsg, h512, gwMaxMsgSize]
  omega

end Serialize

/-! ### Telling messages apart -/

/-- Arguments of the documented form: a string, the letters of the sides and types, and a price with
4 fractional digits. -/
structure GwFields.Proper (f : GwFields ℚ) : Prop where
  symbol : 0 ∉ f.symbol
  side : f.side = 66 ∨ f.side = 83
  orderType : f.orderType = 76 ∨ f.orderType = 77
  price : ExactDecimal 4 f.price

theorem bar_notMem_showFixed {x : ℚ} (h : ExactDecimal 4 x) : bar ∉ showFixed 4 x := by
  obtain ⟨k, hk⟩ := h
  rw [showFixed_of_exact hk]
  intro hmem
  rcases List.mem_append.mp hmem with hmem | hmem
  · revert hmem
    split <;> decide
  · exact absurd (mem_showUnits hmem).2 (by decide)

/-- Two letters that print differently. -/
theorem letter_of_text {c c' x y : UInt8} {s t : String} (hc : c = x ∨ c = y) (hc' : c' = x ∨ c' = y)
    (hst : text s ≠ text t)
    (h : (if c = x then text s else text t) = if c' = x then text s else text t) : c = c' := by
  by_cases h₁ : c = x <;> by_cases h₂ : c' = x
  · rw [h₁, h₂]
  · rw [if_pos h₁, if_neg h₂] at h
    exact absurd h hst
  · rw [if_neg h₁, if_pos h₂] at h
    exact absurd h.symm hst
  · rw [hc.resolve_left h₁, hc'.resolve_left h₂]

/-- **A message determines its fields.** -/
theorem gwMessage_injective {f f' : GwFields ℚ} (hf : f.Proper) (hf' : f'.Proper)
    (h : f.message = f'.message) : f = f' := by
  have hside : ∀ c : UInt8, bar ∉ (if c = 66 then text "BUY" else text "SELL") := fun c => by
    split <;> decide
  have htype : ∀ c : UInt8, bar ∉ (if c = 76 then text "LIMIT" else text "MARKET") := fun c => by
    split <;> decide
  rw [f.message_eq, f'.message_eq] at h
  obtain ⟨h, hts⟩ := split_last (bar_notMem_decimal _) (bar_notMem_decimal _) h
  obtain ⟨h, hqty⟩ := split_last (bar_notMem_showInt _) (bar_notMem_showInt _) h
  obtain ⟨h, hprice⟩ := split_last (bar_notMem_showFixed hf.price) (bar_notMem_showFixed hf'.price) h
  obtain ⟨h, htyp⟩ := split_last (htype _) (htype _) h
  obtain ⟨h, hsid⟩ := split_last (hside _) (hside _) h
  obtain ⟨hid, hsym⟩ := split_first (bar_notMem_showInt _) (bar_notMem_showInt _)
    (List.append_cancel_left h)
  rw [cstr_of_notMem hf.symbol, cstr_of_notMem hf'.symbol] at hsym
  have hts : f.timestampNs = f'.timestampNs := UInt64.toNat_inj.mp (decimal_injective hts)
  have hqty : f.quantity = f'.quantity := Int32.toInt_inj.mp (showInt_injective hqty)
  have hid : f.orderId = f'.orderId := Int32.toInt_inj.mp (showInt_injective hid)
  have hprice : f.price = f'.price := showFixed_injective hf.price hf'.price hprice
  have htyp : f.orderType = f'.orderType := letter_of_text hf.orderType hf'.orderType (by decide) htyp
  have hsid : f.side = f'.side := letter_of_text hf.side hf'.side (by decide) hsid
  obtain ⟨id, symbol, side, orderType, price, quantity, ts⟩ := f
  obtain ⟨id', symbol', side', orderType', price', quantity', ts'⟩ := f'
  cases hid
  cases hsym
  cases hsid
  cases htyp
  cases hprice
  cases hqty
  cases hts
  rfl

/-! ### How long messages are -/

theorem showInt_int32_length (x : Int32) : (showInt x.toInt).length ≤ 11 := by
  have hlt := x.toInt_lt
  have hle := x.le_toInt
  exact showInt_length_le (k := 10) (by decide) (by omega)

theorem decimal_uint64_length (x : UInt64) : (decimal x.toNat).length ≤ 20 := by
  have hlt := x.toNat_lt
  exact decimal_length_le (by decide) (by omega)

/-- A price of at most `k` digits before the point, with its sign. -/
theorem showFixed_length_le {x : ℚ} {k : ℕ} (hk : 0 < k) (hx : ExactDecimal 4 x)
    (h : |x| < 10 ^ k) : (showFixed 4 x).length ≤ k + 6 := by
  obtain ⟨j, hj⟩ := hx
  have hunits : j.natAbs < 10 ^ (k + 4) := by
    have habs : |x| * 10 ^ 4 < 10 ^ k * 10 ^ 4 := mul_lt_mul_of_pos_right h (by norm_num)
    rw [← abs_of_pos (show (0 : ℚ) < 10 ^ 4 by norm_num), ← abs_mul, hj,
      abs_of_pos (show (0 : ℚ) < 10 ^ 4 by norm_num), ← pow_add] at habs
    have hcast : ((j.natAbs : ℤ) : ℚ) < ((10 ^ (k + 4) : ℕ) : ℚ) := by
      rw [Int.natCast_natAbs, Int.cast_abs]
      exact_mod_cast habs
    exact_mod_cast hcast
  have hlen := showUnits_length_le (n := 4) (by decide) hk hunits
  rw [showFixed_of_exact hj, List.length_append]
  have hsign : (if x < 0 then text "-" else []).length ≤ 1 := by split <;> decide
  omega

/-- **Messages of short symbols fit** into a buffer of `GW_MAX_MSG_SIZE` bytes. -/
theorem gwMessage_length {f : GwFields ℚ} (hf : f.Proper) (hsym : f.symbol.length ≤ 16)
    (hprice : |f.price| < 10 ^ 309) : f.message.length ≤ 395 := by
  have hid := showInt_int32_length f.orderId
  have hqty := showInt_int32_length f.quantity
  have hts := decimal_uint64_length f.timestampNs
  have hfix : (Price.fixed 4 f.price).length ≤ 309 + 6 :=
    showFixed_length_le (by decide) hf.price hprice
  have hside : (if f.side = 66 then text "BUY" else text "SELL").length ≤ 4 := by split <;> decide
  have htype : (if f.orderType = 76 then text "LIMIT" else text "MARKET").length ≤ 6 := by
    split <;> decide
  have hhead : (text "ORDER|").length = 6 := by decide
  rw [f.message_eq, cstr_of_notMem hf.symbol]
  simp only [List.length_append, List.length_cons]
  omega

/-- A message in its buffer is a string. -/
theorem cstr_gwSerialize {bufSize : UInt32} {f : GwFields ℚ} (h : (gwSerialize bufSize f).1 = 0) :
    cstr (gwSerialize bufSize f).2 = f.message := by
  have hside : 0 ∉ (if f.side = 66 then text "BUY" else text "SELL") := by split <;> decide
  have htype : 0 ∉ (if f.orderType = 76 then text "LIMIT" else text "MARKET") := by
    split <;> decide
  have hprice : 0 ∉ Price.fixed 4 f.price := zero_notMem_showFixed 4 f.price
  have hhead : 0 ∉ text "ORDER|" := by decide
  have hbar : (0 : UInt8) ≠ bar := by decide
  have hnul : 0 ∉ f.message := by
    rw [f.message_eq]
    simp only [List.mem_append, List.mem_cons, hhead, hside, htype, hprice, hbar, notMem_cstr,
      zero_notMem_showInt, zero_notMem_decimal, or_self, not_false_eq_true]
  rw [gwSerialize_buffer h, cstr_append_of_notMem hnul]
  exact List.append_nil _

/-- **Gateway messages are unambiguous and fit.**  Different arguments are serialised differently,
into buffers of whatever sizes; serialising succeeds exactly when the message and its terminator fit
into the buffer and the message has no more bytes than an `int` counts; and symbols of at most 16
characters and prices of at most 309 digits fit into `GW_MAX_MSG_SIZE` bytes. -/
theorem gateway_messages :
    (∀ (bufSize bufSize' : UInt32) (f f' : GwFields ℚ), f.Proper → f'.Proper →
      (gwSerialize bufSize f).1 = 0 → (gwSerialize bufSize' f').1 = 0 →
      cstr (gwSerialize bufSize f).2 = cstr (gwSerialize bufSize' f').2 → f = f') ∧
    (∀ (bufSize : UInt32) (f : GwFields ℚ), f.Proper → ((gwSerialize bufSize f).1 = 0 ↔
      f.message.length + 1 ≤ bufSize.toNat ∧ f.message.length < 2 ^ 31)) ∧
    ∀ f : GwFields ℚ, f.Proper → f.symbol.length ≤ 16 → |f.price| < 10 ^ 309 →
      (gwSerialize (UInt32.ofNat gwMaxMsgSize) f).1 = 0 := by
  refine ⟨fun n n' f f' hf hf' h h' heq => ?_, fun n f _ => gwSerialize_eq_zero_iff n f,
    fun f hf hsym hprice => ?_⟩
  · rw [cstr_gwSerialize h, cstr_gwSerialize h'] at heq
    exact gwMessage_injective hf hf' heq
  · have hlen := gwMessage_length hf hsym hprice
    have hsize : (UInt32.ofNat gwMaxMsgSize).toNat = 512 := rfl
    rw [gwSerialize_eq_zero_iff, hsize]
    omega

/-- An order to buy 100 at 10, of a symbol of `k` characters. -/
def repeatedSymbol (k : ℕ) : GwFields ℚ := ⟨1, List.replicate k 65, 66, 76, 10, 100, 0⟩

theorem repeatedSymbol_proper (k : ℕ) : (repeatedSymbol k).Proper where
  symbol h := absurd (List.eq_of_mem_replicate h) (by decide)
  side := .inl rfl
  orderType := .inl rfl
  price := ⟨100000, by norm_num [repeatedSymbol]⟩

theorem repeatedSymbol_length (k : ℕ) : (repeatedSymbol k).message.length = k + 32 := by
  have hhead : (text "ORDER|").length = 6 := by decide
  have hid : (showInt (repeatedSymbol k).orderId.toInt).length = 1 := by
    show (showInt 1).length = 1
    decide
  have hsym : (repeatedSymbol k).symbol.length = k := List.length_replicate
  have hside : (if (repeatedSymbol k).side = 66 then text "BUY" else text "SELL").length = 3 := by
    show (text "BUY").length = 3
    decide
  have htype : (if (repeatedSymbol k).orderType = 76 then text "LIMIT" else text "MARKET").length =
      5 := by
    show (text "LIMIT").length = 5
    decide
  have hprice : (Price.fixed 4 (repeatedSymbol k).price).length = 7 := by
    show (showFixed 4 10).length = 7
    decide +kernel
  have hqty : (showInt (repeatedSymbol k).quantity.toInt).length = 3 := by
    show (showInt 100).length = 3
    decide
  have hts : (decimal (repeatedSymbol k).timestampNs.toNat).length = 1 := by
    show (decimal 0).length = 1
    decide
  rw [GwFields.message_eq, cstr_of_notMem (repeatedSymbol_proper k).symbol]
  simp only [List.length_append, List.length_cons, hhead, hid, hsym, hside, htype, hprice, hqty, hts]
  omega

theorem gateway_messages_repeatedSymbol :
    (gwSerialize (UInt32.ofNat gwMaxMsgSize) (repeatedSymbol 4)).1 = 0 ∧
      (cstr (gwSerialize 37 (repeatedSymbol 4)).2 = cstr (gwSerialize 512 (repeatedSymbol 5)).2 →
        repeatedSymbol 4 = repeatedSymbol 5) := by
  obtain ⟨hdiff, hexact, hfit⟩ := gateway_messages
  have hprice : |(repeatedSymbol 4).price| < 10 ^ 309 := by
    show |(10 : ℚ)| < 10 ^ 309
    rw [abs_of_pos (by norm_num)]
    exact lt_self_pow₀ (by norm_num) (by norm_num)
  refine ⟨hfit _ (repeatedSymbol_proper 4) (by decide) hprice, fun h => ?_⟩
  refine hdiff 37 512 _ _ (repeatedSymbol_proper 4) (repeatedSymbol_proper 5) ?_ ?_ h
  · rw [hexact 37 _ (repeatedSymbol_proper 4), repeatedSymbol_length]
    decide
  · rw [hexact 512 _ (repeatedSymbol_proper 5), repeatedSymbol_length]
    decide

/-- A message that fits into the buffer, and that no `int` counts. -/
theorem long_message_refused :
    (repeatedSymbol (2 ^ 31)).Proper ∧
      (repeatedSymbol (2 ^ 31)).message.length + 1 ≤ (4294967295 : UInt32).toNat ∧
      (gwSerialize 4294967295 (repeatedSymbol (2 ^ 31))).1 ≠ 0 := by
  refine ⟨repeatedSymbol_proper _, ?_, ?_⟩
  · rw [repeatedSymbol_length]
    decide
  · rw [Ne, gwSerialize_eq_zero_iff, repeatedSymbol_length]
    decide

end Aspira
