import Aspira.Pipeline.Limits

/-!
# Pipeline — gateway

What is sent to the gateway for an order beside what the book already filled.  The message carries
`result.quantity`, the whole of the order, and is prepared for a result that is `NEW` or `PARTIAL`;
so it would be too much for an order filled in part.  The strategy deals in lots of 100, and so does
the book of a run: every order in it is whole (`Lots`), an order submitted to it is filled whole or
not at all (`Lots.submitted`), and fill and message add up to the order (`gateway_split`).

The quantity is read back off the bytes of the message (`gwQuantity`), as its last field but one.
-/

namespace Aspira

/-! ### Messages -/

/-- The byte between the fields of a message. -/
def bar : UInt8 := 124

/-- The last field but one of a message. -/
def lastButOne (msg : List UInt8) : List UInt8 :=
  ((msg.reverse.dropWhile (· ≠ bar)).tail.takeWhile (· ≠ bar)).reverse

/-- The quantity field of a gateway message in memory. -/
def gwQuantity (msg : List UInt8) : ℤ := readInt (lastButOne (cstr msg))

theorem lastButOne_append {front a b : List UInt8} (ha : bar ∉ a) (hb : bar ∉ b) :
    lastButOne (front ++ bar :: (a ++ bar :: b)) = a := by
  have hneq : ∀ {l : List UInt8}, bar ∉ l → ∀ c ∈ l.reverse, decide (c ≠ bar) = true := by
    intro l hl c hc
    refine decide_eq_true fun hcb => hl ?_
    rw [← hcb]
    exact List.mem_reverse.mp hc
  have hstop : ∀ l, (bar :: l).dropWhile (· ≠ bar) = bar :: l := fun l => rfl
  have hnone : ∀ l, (bar :: l).takeWhile (· ≠ bar) = [] := fun l => rfl
  rw [lastButOne]
  simp only [List.reverse_append, List.reverse_cons, List.append_assoc, List.singleton_append]
  rw [List.dropWhile_append_of_pos (hneq hb), List.cons_append, hstop, List.tail_cons,
    List.takeWhile_append_of_pos (hneq ha), hnone, List.append_nil, List.reverse_reverse]

variable {P : Type} [Price P]

theorem zero_notMem_showInt (z : ℤ) : 0 ∉ showInt z := fun h => absurd (mem_showInt h).1 (by decide)

theorem bar_notMem_showInt (z : ℤ) : bar ∉ showInt z := fun h => absurd (mem_showInt h).2 (by decide)

theorem zero_notMem_decimal (n : ℕ) : 0 ∉ decimal n := fun h => absurd (mem_decimal h).1 (by decide)

theorem bar_notMem_decimal (n : ℕ) : bar ∉ decimal n := fun h => absurd (mem_decimal h).2 (by decide)

/-- The fields of a message before the quantity. -/
def gwFront (past : List UInt8) (o : Order P) : List UInt8 :=
  text "ORDER|" ++ showInt o.id.toInt ++ text "|" ++ cstr (o.symbol.toList ++ past) ++ text "|" ++
    (if o.isBuy then text "BUY" else text "SELL") ++ text "|" ++
    (if o.type = .limit then text "LIMIT" else text "MARKET") ++ text "|" ++ Price.fixed 4 o.price

/-- A whole message: the fields before the quantity, the quantity and the time. -/
def gwText (past : List UInt8) (o : Order P) : List UInt8 :=
  gwFront past o ++ bar :: (showInt o.quantity.toInt ++ bar :: decimal o.timestampNs.toNat)

theorem text_bar : text "|" = [bar] := by decide

theorem gwSerializeOrder_eq (past : List UInt8) (o : Order P) :
    gwSerializeOrder past o =
      (decide (0 < (gwText past o).length ∧ (gwText past o).length < gwMaxMsgSize),
        (gwText past o).take (gwMaxMsgSize - 1) ++ [0]) := by
  have hprinted : gwFront past o ++ text "|" ++ showInt o.quantity.toInt ++ text "|" ++
      decimal o.timestampNs.toNat = gwText past o := by
    simp only [gwText, text_bar, List.append_assoc, List.nil_append, List.cons_append]
  rw [← hprinted]
  rfl

/-- A message has no NUL in it, if no printed price has. -/
theorem zero_notMem_gwText (hprint : ∀ x : P, 0 ∉ Price.fixed 4 x) (past : List UInt8)
    (o : Order P) : 0 ∉ gwText past o := by
  have hside : 0 ∉ (if o.isBuy then text "BUY" else text "SELL") := by split <;> decide
  have htype : 0 ∉ (if o.type = .limit then text "LIMIT" else text "MARKET") := by split <;> decide
  have hhead : 0 ∉ text "ORDER|" := by decide
  have hbar : (0 : UInt8) ≠ bar := by decide
  simp only [gwText, gwFront, text_bar, List.mem_append, List.mem_cons, List.not_mem_nil, hhead, hside,
    htype, hbar, hprint, notMem_cstr, zero_notMem_showInt, zero_notMem_decimal, or_self,
    not_false_eq_true]

/-- **The quantity field of a message is the order's quantity.** -/
theorem gwQuantity_gwMsgBytes {past : List UInt8} {o : Order P}
    (hprint : ∀ x : P, 0 ∉ Price.fixed 4 x) (h : (gwSerializeOrder past o).1 = true) :
    gwQuantity (gwMsgBytes past o) = o.quantity.toInt := by
  have hcstr : cstr (gwText past o ++ [0]) = gwText past o := by
    rw [cstr_append_of_notMem (zero_notMem_gwText hprint past o)]
    exact List.append_nil _
  have hbytes : (gwSerializeOrder past o).2 = gwText past o ++ [0] := by
    simp only [gwSerializeOrder_eq, decide_eq_true_eq] at h
    simp only [gwSerializeOrder_eq, List.take_of_length_le (Nat.le_sub_one_of_lt h.2)]
  have hmsg : gwMsgBytes past o = gwText past o ++ [0] := by
    simp only [gwMsgBytes, h, if_true, hbytes, hcstr]
    exact List.take_of_length_le (by simp)
  rw [gwQuantity, hmsg, hcstr, gwText,
    lastButOne_append (bar_notMem_showInt _) (bar_notMem_decimal _), readInt_showInt]

/-! ### Lots -/

/-- An order of a lot of 100, none of it filled. -/
structure Lot (o : Order P) : Prop where
  quantity : o.quantity = 100
  filledQty : o.filledQty = 0

omit [Price P] in
theorem Lot.isFilled {o : Order P} (h : Lot o) : o.isFilled = false := by
  rw [Order.isFilled, h.quantity, h.filledQty]
  rfl

omit [Price P] in
theorem Lot.remaining {o : Order P} (h : Lot o) : o.remaining = 100 := by
  rw [Order.remaining, h.quantity, h.filledQty]
  rfl

/-- **A lot meets lots.**  It takes none of the queue, or the first of it whole. -/
theorem Sweep.lots {symbol : List UInt8} {env : Env} {s : Side} {q q' : OrderList P}
    {m m' : Matching P} (h : Sweep symbol env s q m q' m') (hm : Lot m.order)
    (hq : ∀ n ∈ q, Lot n.order) :
    q' = q ∧ m' = m ∨ (∃ n, q = n :: q') ∧ m'.order = { m.order with filledQty := 100 } ∧
      m'.trades.length = m.trades.length + 1 := by
  cases h with
  | stop => exact .inl ⟨rfl, rfl⟩
  | @take n q q' m m' h₀ hb hf t =>
      have hqty : m.qty n.order = 100 := by
        rw [Matching.qty, hm.remaining, (hq n (List.mem_cons_self ..)).remaining]
        rfl
      have hfilled : ((m.hit symbol env n.order.price n.order).unindex n.order.id).order =
          { m.order with filledQty := 100 } := by
        rw [Matching.unindex_order]
        show m.order.fill (m.qty n.order) = _
        rw [hqty, Order.fill, hm.filledQty]
        rfl
      -- nothing is left to trade
      have hdone : ¬ 0 < ((m.hit symbol env n.order.price n.order).unindex n.order.id).order.remaining :=
        by
          rw [hfilled, Order.remaining, hm.quantity]
          exact (by decide : ¬ (0 : Int32) < 100 - 100)
      refine .inr ?_
      cases t with
      | stop => exact ⟨⟨n, rfl⟩, hfilled, List.length_append⟩
      | take h₀ => exact absurd h₀ hdone
      | leave h₀ => exact absurd h₀ hdone
  | @leave n q m h₀ hb hf =>
      have hn := hq n (List.mem_cons_self ..)
      have hqty : m.qty n.order = 100 := by
        rw [Matching.qty, hm.remaining, hn.remaining]
        rfl
      rw [hqty, Order.fill, Order.isFilled, hn.quantity, hn.filledQty] at hf
      exact absurd (show decide ((100 : Int32) ≤ 0 + 100) = false from hf) (by decide)

/-- A book of lots. -/
structure Lots (b : OrderBook P) : Prop where
  clear : HotPath.Arrival.Clear b
  whole : ∀ side, ∀ n ∈ b.queue side, Lot n.order

/-- What the strategy submits. -/
structure NewLot (o : Order P) : Prop where
  lot : Lot o
  type : o.type = .limit
  status : o.status = .new

omit [Price P] in
theorem NewLot.quote {o : Order P} (h : NewLot o) : HotPath.Quote o :=
  ⟨h.lot.filledQty, h.lot.quantity, h.type⟩

/-- The sweep of a submission among lots. -/
theorem Lots.swept {s : Submission P} (hb : Lots s.book) (ho : NewLot s.order) {m' : Matching P}
    {b' : OrderBook P} (h : OrderBook.Swept s.stamps s.order s.book m' b') :
    (m'.order = s.order ∨ m'.order = { s.order with filledQty := 100 }) ∧
      (∀ side, ∀ n ∈ b'.queue side, Lot n.order) ∧ b'.trades.length ≤ 1 := by
  have hlots := Sweep.lots h.sweep ho.lot (hb.whole _)
  have hnone : (s.book.matching s.order).trades = [] := hb.clear.drained
  refine ⟨?_, fun side n hn => ?_, ?_⟩
  · rcases hlots with ⟨-, h⟩ | ⟨-, h, -⟩
    · exact .inl (congrArg Matching.order h)
    · exact .inr h
  · rcases Side.eq_or_eq_opposite side s.order.side with rfl | rfl
    · rw [h.own] at hn
      exact hb.whole _ n hn
    · refine hb.whole s.order.side.opposite n ?_
      rcases hlots with ⟨hq, -⟩ | ⟨⟨n', hq⟩, -, -⟩
      · rw [← hq]
        exact hn
      · rw [hq]
        exact List.mem_cons_of_mem n' hn
  · rw [h.trades]
    rcases hlots with ⟨-, hm⟩ | ⟨-, -, hlen⟩
    · rw [hm, hnone]
      exact Nat.zero_le 1
    · rw [hlen, hnone]
      exact Nat.le_refl 1

/-- **An order of a lot is filled whole or not at all**, and is to be sent exactly if it is not
filled.  It makes one trade at most. -/
theorem Lots.submitted {s : Submission P} (hb : Lots s.book) (ho : NewLot s.order) :
    (s.result = s.order ∧ s.result.sendToGw = true ∨
      s.result = { s.order with filledQty := 100, status := .filled } ∧ s.result.sendToGw = false) ∧
    (∀ side, ∀ n ∈ s.after.queue side, Lot n.order) ∧ s.after.trades.length ≤ 1 := by
  have hadd : OrderBook.Added s.stamps s.order s.book s.result s.after :=
    OrderBook.addOrder_added s.stamps hb.clear.placed ho.lot.filledQty
  generalize s.result = o' at hadd
  generalize s.after = b' at hadd
  have hstatus : s.order.sendToGw = true := by
    rw [Order.sendToGw, ho.status]
    rfl
  cases hadd with
  | @done m' b' h hd =>
      obtain ⟨hfill, hwhole⟩ := hb.swept ho h
      refine ⟨?_, hwhole⟩
      rw [settle_isFilled] at hd
      rcases hfill with hm | hm
      · rw [hm, ho.lot.isFilled, ho.type] at hd
        rcases hd with hd | hd
        · cases hd
        · cases hd
      · have hfilled : m'.order.isFilled = true := by
          rw [hm, Order.isFilled, ho.lot.quantity]
          rfl
        refine .inr ?_
        rw [settle, if_pos hfilled, hm]
        exact ⟨rfl, rfl⟩
  | @rests m' b₁ _ h hf ht hr =>
      obtain ⟨hfill, hwhole, htrades⟩ := hb.swept ho h
      rw [settle_isFilled] at hf
      rcases hfill with hm | hm
      · have hsettle : settle m'.order = s.order := by
          rw [hm, settle, if_neg (by rw [ho.lot.isFilled]; exact Bool.noConfusion),
            if_neg (by rw [ho.lot.filledQty]; exact (by decide : ¬ (0 : Int32) < 0))]
        have hnone : ¬ 0 < m'.order.filledQty := by
          rw [hm, ho.lot.filledQty]
          exact (by decide : ¬ (0 : Int32) < 0)
        rw [if_neg hnone, hsettle]
        rw [hsettle] at hr
        rw [← hr.trades] at htrades
        refine ⟨.inl ⟨rfl, hstatus⟩, fun side n hn => ?_, htrades⟩
        rcases Side.eq_or_eq_opposite side s.order.side with rfl | rfl
        · obtain ⟨A, B, hA, hB, -, -⟩ := hr.own
          rw [hB] at hn
          rcases List.mem_append.mp hn with hn | hn
          · exact hwhole _ n (by rw [hA]; exact List.mem_append_left _ hn)
          · rcases List.mem_cons.mp hn with rfl | hn
            · obtain ⟨st, he⟩ := s.order.entry_eq
              show Lot s.order.entry
              rw [he]
              exact ⟨ho.lot.quantity, ho.lot.filledQty⟩
            · exact hwhole _ n (by rw [hA]; exact List.mem_append_right _ hn)
        · rw [hr.opposite] at hn
          exact hwhole _ n hn
      · rw [hm, Order.isFilled, ho.lot.quantity] at hf
        cases hf

/-! ### Runs -/

/-- The gateway message of a write. -/
def IoWrite.gwMsg : IoWrite P → Option (List UInt8)
  | .result _ gwMsg => gwMsg
  | _ => none

namespace HotPath

namespace Arrival

/-- The gateway message prepared for an order, if one is. -/
def gatewayMsg (a : Arrival P) : Option (List UInt8) :=
  (a.path.processOrder a.amb a.order).1.findSome? IoWrite.gwMsg

/-- The quantity field of the gateway message, and 0 if there is none. -/
def gatewayQty (a : Arrival P) : ℤ := (a.gatewayMsg.map gwQuantity).getD 0

variable {a : Arrival P}

theorem gatewayMsg_of_accepted (hacc : a.accepted = true) :
    a.gatewayMsg = if a.submission.result.sendToGw then
      some (gwMsgBytes a.amb.pastSymbol a.submission.result) else none := by
  have htrades : (a.submission.after.trades.map IoWrite.trade).findSome? IoWrite.gwMsg = none := by
    rw [List.findSome?_eq_none_iff]
    intro w hw
    obtain ⟨t, -, rfl⟩ := List.mem_map.mp hw
    rfl
  rw [gatewayMsg, processOrder_writes hacc rfl, List.findSome?_cons, show
    (⟨a.path.orderBook, a.order, a.amb.stamps⟩ : Submission P) = a.submission from rfl, htrades]
  cases a.submission.result.sendToGw with
  | true => rfl
  | false => rfl

end Arrival

theorem strategyOrder_newLot (msg : FeedMsg P) (id : Int32) (side : Side) :
    NewLot (strategyOrder msg id side) := ⟨⟨rfl, rfl⟩, rfl, rfl⟩

theorem lots_init (symbol : List UInt8) : Lots (HotPath.init symbol : HotPath P).orderBook :=
  ⟨⟨OrderBook.init_placed symbol, rfl⟩, fun side n hn => by cases side <;> cases hn⟩

theorem lots_next {a : Arrival P} (hb : Lots a.path.orderBook) (ho : NewLot a.order) :
    Lots a.next.orderBook := by
  refine ⟨hb.clear.next ho.quote, fun side n hn => ?_⟩
  cases h : a.accepted with
  | true =>
      rw [(Arrival.next_of_accepted h).1, OrderBook.drainTrades_queue] at hn
      exact (Lots.submitted (s := a.submission) hb ho).2.1 side n hn
  | false =>
      rw [(Arrival.next_of_rejected h).1] at hn
      exact hb.whole side n hn

end HotPath

/-- **What the book fills and what is sent add up.**  For every order that the risk engine accepts,
the quantity filled by the book and the quantity field of the gateway message are the quantity of
the order. -/
theorem gateway_split (hprint : ∀ x : P, 0 ∉ Price.fixed 4 x) (symbol : List UInt8)
    (ts : List (Tick P)) {a : HotPath.Arrival P}
    (ha : a ∈ (HotPath.init symbol : HotPath P).arrivals ts) (hacc : a.accepted = true)
    (hser : a.submission.result.sendToGw = true →
      (gwSerializeOrder a.amb.pastSymbol a.submission.result).1 = true) :
    a.submission.result.filledQty.toInt + a.gatewayQty = a.order.quantity.toInt := by
  have hkeep := HotPath.arrivals_keep (I := fun b _ => Lots b) (Q := NewLot)
    (fun a ho hb => HotPath.lots_next hb ho) ts (h := (HotPath.init symbol : HotPath P))
    (fun t _ id side => HotPath.strategyOrder_newLot t.msg id side) (HotPath.lots_init symbol)
  obtain ⟨ho, hb⟩ := hkeep.1 a ha
  have hmsg := HotPath.Arrival.gatewayMsg_of_accepted hacc
  rw [HotPath.Arrival.gatewayQty]
  rcases (Lots.submitted (s := a.submission) hb ho).1 with ⟨hr, hsend⟩ | ⟨hr, hsend⟩
  · rw [hmsg, hsend, if_pos rfl, Option.map_some, Option.getD_some,
      gwQuantity_gwMsgBytes hprint (hser hsend), hr, show a.submission.order = a.order from rfl,
      ho.lot.filledQty]
    exact zero_add _
  · rw [hmsg, hsend, hr, show a.submission.order = a.order from rfl, ho.lot.quantity]
    rfl

theorem zero_notMem_showFixed (n : ℕ) (x : ℚ) : 0 ∉ showFixed n x := by
  have hsign : 0 ∉ (if x < 0 then text "-" else []) := by split <;> decide
  have hpoint : 0 ∉ text "." := by decide
  have hpad : ∀ k, (0 : UInt8) ∉ List.replicate k 48 := fun k hk =>
    absurd (List.eq_of_mem_replicate hk) (by decide)
  simp only [showFixed, List.mem_append, hsign, hpoint, hpad, zero_notMem_decimal, or_self,
    not_false_eq_true]

theorem gateway_split_risingMarket :
    ((HotPath.init (text "AAPL")).arrivals risingMarket).Forall fun a =>
      a.accepted = true ∧ a.submission.result.filledQty.toInt + a.gatewayQty = 100 := by
  have hok : ∀ a ∈ (HotPath.init (text "AAPL")).arrivals risingMarket, a.accepted = true ∧
      a.order.quantity = 100 ∧ (a.submission.result.sendToGw = true →
        (gwSerializeOrder a.amb.pastSymbol a.submission.result).1 = true) := by decide +kernel
  refine List.forall_iff_forall_mem.mpr fun a ha => ?_
  obtain ⟨hacc, hq, hser⟩ := hok a ha
  have hsplit := gateway_split (zero_notMem_showFixed 4) (text "AAPL") risingMarket ha hacc hser
  rw [hq] at hsplit
  exact ⟨hacc, hsplit⟩

end Aspira
