import Aspira.Pipeline.Gateway

/-!
# Pipeline — one book, many symbols

The strategy takes the symbol of its orders from each message, the book matches orders by price and
labels their trades with its own symbol.  `OneInstrument` is what keeping instruments apart would
mean of one submission.  Nothing in the code keeps them apart but the messages: a run whose messages
all carry the pipeline's symbol does (`Named`).  A message of another symbol does no harm as long as
its orders, and those that come after it, do not meet: an order meets the first resting order of the
other side if the risk engine accepts it and its price reaches that order (`Arrival.Meets`).
-/

namespace Aspira

variable {P : Type}

/-! ### The label of a trade -/

/-- `t.symbol` holds the book's symbol, if that leaves room for a terminator. -/
theorem tradeSymbol_name {symbol : List UInt8} (h : symbol.length ≤ 15) (stack : Symbol) :
    (tradeSymbol symbol stack).name = cstr symbol := by
  rw [Symbol.name, cstr_tradeSymbol, List.take_of_length_le (by omega)]

/-! ### One submission -/

section Submission

variable [LinearOrder P] {s : Submission P}

/-- The orders of one name in a queue. -/
def named (name : List UInt8) (q : OrderList P) : OrderList P :=
  q.filter fun n => n.order.symbol.name = name

/-- The trades are between orders of one symbol and carry that symbol, and the orders of the other
symbols stay as they are. -/
structure Submission.OneInstrument (s : Submission P) : Prop where
  trades : ∀ e ∈ s.executions, e.buy.symbol.name = e.sell.symbol.name ∧
    e.buy.symbol.name = e.trade.symbol.name
  queues : ∀ side name, name ≠ s.order.symbol.name →
    named name (s.after.queue side) = named name (s.book.queue side)

omit [LinearOrder P] in
theorem named_of_forall_ne {name : List UInt8} {q : OrderList P}
    (h : ∀ n ∈ q, n.order.symbol.name ≠ name) : named name q = [] :=
  List.filter_eq_nil_iff.mpr fun n hn => by simpa using h n hn

omit [LinearOrder P] in
theorem named_append (name : List UInt8) (q q' : OrderList P) :
    named name (q ++ q') = named name q ++ named name q' := List.filter_append ..

/-- The orders of other symbols than the submitted one's stay as they are, if those it reaches have
its symbol. -/
theorem queues_of_hits (out : s.Outcome s.result s.after)
    (h : ∀ n ∈ s.hits, n.order.symbol.name = s.order.symbol.name) (side : Side) {name : List UInt8}
    (hname : name ≠ s.order.symbol.name) :
    named name (s.after.queue side) = named name (s.book.queue side) := by
  rcases side.eq_or_eq_opposite s.order.side with rfl | rfl
  · obtain ⟨A, new, B, hq, hq', hnew⟩ := out.own
    have hnone : named name new = [] := named_of_forall_ne fun n hn => by
      rw [hnew n hn]
      exact hname.symm
    rw [hq, hq', named_append, named_append, named_append, hnone, List.append_nil]
  · obtain ⟨front, rest, hq, hq', hfront⟩ := out.opposite
    have hhits : named name s.hits = [] := named_of_forall_ne fun n hn => by
      rw [h n hn]
      exact hname.symm
    have hnone : named name front = [] := named_of_forall_ne fun n' hn' => by
      obtain ⟨n, hn, hsame⟩ := hfront n' hn'
      rw [hsame.symbol, h n hn]
      exact hname.symm
    rw [hq, hq', named_append, named_append, hhits, hnone]

/-- A submission brings no symbol into the book but its own. -/
theorem symbol_of_mem (out : s.Outcome s.result s.after) {side : Side} {n : Node P}
    (hn : n ∈ s.after.queue side) : n.order.symbol = s.order.symbol ∨
      ∃ n' ∈ s.book.queue side, n.order.symbol = n'.order.symbol := by
  rcases side.eq_or_eq_opposite s.order.side with rfl | rfl
  · obtain ⟨A, new, B, hq, hq', hnew⟩ := out.own
    rw [hq', List.mem_append, List.mem_append] at hn
    rcases hn with (hA | hhere) | hB
    · exact .inr ⟨n, by rw [hq]; exact List.mem_append_left B hA, rfl⟩
    · exact .inl (hnew n hhere)
    · exact .inr ⟨n, by rw [hq]; exact List.mem_append_right A hB, rfl⟩
  · obtain ⟨front, rest, hq, hq', hfront⟩ := out.opposite
    rw [hq', List.mem_append] at hn
    rcases hn with hhit | hrest
    · obtain ⟨n', hn', hsame⟩ := hfront n hhit
      exact .inr ⟨n', by rw [hq]; exact List.mem_append_left rest hn', hsame.symbol⟩
    · exact .inr ⟨n, by rw [hq]; exact List.mem_append_right _ hrest, rfl⟩

/-- **When one submission keeps to one instrument.** -/
theorem oneInstrument_iff (out : s.Outcome s.result s.after) (hlen : s.book.symbol.length ≤ 15) :
    s.OneInstrument ↔ ∀ n ∈ s.hits, n.order.symbol.name = s.order.symbol.name ∧
      s.order.symbol.name = cstr s.book.symbol := by
  constructor
  · intro h n hn
    obtain ⟨e, he, hin, hres, hbet⟩ := out.exists_execution hn
    obtain ⟨stack, hlabel⟩ := hbet.symbol
    obtain ⟨hsame, htrade⟩ := h.trades e he
    rw [hlabel, tradeSymbol_name hlen] at htrade
    rcases e.sides with ⟨hbuy, hsell⟩ | ⟨hbuy, hsell⟩
    · rw [hbuy, hin] at hsame htrade
      rw [hsell, hres] at hsame
      exact ⟨hsame.symm, htrade⟩
    · rw [hbuy, hres] at hsame htrade
      rw [hsell, hin] at hsame
      exact ⟨hsame, hsame.symm.trans htrade⟩
  · intro h
    refine ⟨fun e he => ?_, fun side name hname => ?_⟩
    · obtain ⟨n, hn, hin, hres, hbet⟩ := out.mem_executions he
      obtain ⟨stack, hlabel⟩ := hbet.symbol
      obtain ⟨hname, hpipe⟩ := h n hn
      rw [hlabel, tradeSymbol_name hlen]
      rcases e.sides with ⟨hbuy, hsell⟩ | ⟨hbuy, hsell⟩
      · rw [hbuy, hsell, hin, hres]
        exact ⟨hname.symm, hpipe⟩
      · rw [hbuy, hsell, hin, hres]
        exact ⟨hname, hname.trans hpipe⟩
    · exact queues_of_hits out (fun n hn => (h n hn).1) side hname

end Submission

/-! ### The orders of a run -/

namespace HotPath

variable [Price P] {symbol : List UInt8}

/-- The submissions of a run are those of its accepted orders. -/
theorem submissions_eq (ts : List (Tick P)) : ∀ h : HotPath P,
    h.submissions ts = ((h.arrivals ts).filter Arrival.accepted).map Arrival.submission := by
  have hone : ∀ a : Arrival P, a.path.submitted a.amb a.order =
      (List.filter Arrival.accepted [a]).map Arrival.submission := by
    intro a
    cases hacc : a.accepted with
    | true =>
        rw [List.filter_cons_of_pos hacc]
        exact if_pos hacc
    | false =>
        rw [List.filter_cons_of_neg (by rw [hacc]; exact Bool.false_ne_true)]
        exact if_neg (by rw [Arrival.accepted] at hacc; rw [hacc]; exact Bool.false_ne_true)
  induction ts with
  | nil => exact fun h => rfl
  | cons t ts ih =>
      intro h
      set s := h.countMsg.strategyOnMarketData t.msg
      have hbuy := hone ⟨s.2.2, t.buy, s.1⟩
      have hsell := hone ⟨(s.2.2.processOrder t.buy s.1).2, t.sell, s.2.1⟩
      rw [submissions, arrivals, ih, ← List.singleton_append, List.filter_append, List.map_append,
        ← hbuy, ← List.singleton_append, List.filter_append, List.map_append, ← hsell,
        List.append_assoc]

namespace Arrival

variable {a : Arrival P}

/-- The order meets a resting order: that is the first of the other side, the risk engine accepts the
order, and its price reaches it. -/
structure Meets (a : Arrival P) (n : Node P) : Prop where
  accepted : a.accepted = true
  first : (a.path.orderBook.queue a.order.side.opposite).head? = some n
  reaches : ¬ a.order.side.opposite.Better a.order.price n.order.price

/-- Among lots, an order hits the first order of the other side or none. -/
theorem mem_hits_iff (hb : Lots a.path.orderBook) (ho : NewLot a.order) (hacc : a.accepted = true)
    {n : Node P} : n ∈ a.submission.hits ↔ a.Meets n := by
  have hall : a.submission.order.quantity.toInt = 100 := by
    rw [show a.submission.order.quantity = 100 from ho.lot.quantity]
    rfl
  rw [Submission.hits, hall]
  cases hq : a.path.orderBook.queue a.order.side.opposite with
  | nil =>
      refine iff_of_false ?_ fun h => ?_
      · rw [show a.submission.book.queue a.submission.order.side.opposite = [] from hq]
        exact List.not_mem_nil
      · have hfirst := h.first
        rw [hq] at hfirst
        cases hfirst
  | cons n' q =>
      have hlot := hb.whole _ n' (by rw [hq]; exact List.mem_cons_self ..)
      -- what is left after the first is nothing
      have hone : struck a.submission.order.side.opposite a.submission.order 100 (n' :: q) =
          if ¬ a.order.side.opposite.Better a.order.price n'.order.price then [n'] else [] := by
        rw [struck, hlot.quantity, hlot.filledQty, struck_of_nonpos (by decide)]
        refine if_congr ?_ rfl rfl
        have htype : a.submission.order.type = .limit := ho.type
        simp only [Blocked, htype, true_and]
        exact and_iff_right (by decide)
      rw [show a.submission.book.queue a.submission.order.side.opposite = n' :: q from hq, hone]
      by_cases hreach : a.order.side.opposite.Better a.order.price n'.order.price
      · rw [if_neg (not_not_intro hreach)]
        refine iff_of_false List.not_mem_nil fun h => ?_
        have hfirst := h.first
        rw [hq] at hfirst
        obtain rfl := Option.some.inj hfirst
        exact h.reaches hreach
      · rw [if_pos hreach, List.mem_singleton]
        constructor
        · rintro rfl
          exact ⟨hacc, by rw [hq]; rfl, hreach⟩
        · intro h
          have hfirst := h.first
          rw [hq] at hfirst
          exact (Option.some.inj hfirst).symm

end Arrival

theorem symbol_next {a : Arrival P} (hb : Lots a.path.orderBook) (ho : NewLot a.order)
    (hlabel : a.path.orderBook.symbol = symbol) : a.next.orderBook.symbol = symbol := by
  cases hacc : a.accepted with
  | true =>
      have out := hb.clear.outcome ho.quote
      rw [(Arrival.next_of_accepted hacc).1, OrderBook.drainTrades_symbol, out.symbol]
      exact hlabel
  | false =>
      rw [(Arrival.next_of_rejected hacc).1]
      exact hlabel

/-- A book of lots, all of them of the pipeline's symbol. -/
structure Named (symbol : List UInt8) (b : OrderBook P) : Prop where
  lots : Lots b
  resting : ∀ side, ∀ n ∈ b.queue side, n.order.symbol.name = cstr symbol

theorem named_init (symbol : List UInt8) :
    Named symbol (HotPath.init symbol : HotPath P).orderBook :=
  ⟨lots_init symbol, fun side n hn => by cases side <;> cases hn⟩

/-- An order of the pipeline's symbol keeps it so. -/
theorem Named.next {a : Arrival P} (h : Named symbol a.path.orderBook) (ho : NewLot a.order)
    (hname : a.order.symbol.name = cstr symbol) : Named symbol a.next.orderBook := by
  refine ⟨lots_next h.lots ho, ?_⟩
  cases hacc : a.accepted with
  | false =>
    rw [(Arrival.next_of_rejected hacc).1]
    exact h.resting
  | true =>
    have out := h.lots.clear.outcome ho.quote
    intro side n hn
    rw [(Arrival.next_of_accepted hacc).1, OrderBook.drainTrades_queue] at hn
    rcases symbol_of_mem out hn with hsym | ⟨n', hn', hsym⟩
    · rw [hsym]
      exact hname
    · rw [hsym]
      exact h.resting side n' hn'

/-- An order keeps to one instrument exactly when it and the order it meets have the pipeline's
symbol. -/
theorem Arrival.oneInstrument_iff {a : Arrival P} (hb : Lots a.path.orderBook) (ho : NewLot a.order)
    (hlabel : a.path.orderBook.symbol = symbol) (hlen : symbol.length ≤ 15)
    (hacc : a.accepted = true) :
    a.submission.OneInstrument ↔ ∀ n, a.Meets n →
      a.order.symbol.name = cstr symbol ∧ n.order.symbol.name = cstr symbol := by
  have out := hb.clear.outcome ho.quote
  have hbook : a.submission.book.symbol = symbol := hlabel
  rw [Aspira.oneInstrument_iff out (by rw [hbook]; exact hlen), hbook]
  refine forall_congr' fun n => ?_
  rw [mem_hits_iff hb ho hacc]
  refine forall_congr' fun _ => ?_
  constructor
  · rintro ⟨hsame, hpipe⟩
    exact ⟨hpipe, hsame.trans hpipe⟩
  · rintro ⟨hpipe, hrest⟩
    exact ⟨hrest.trans hpipe.symm, hpipe⟩

end HotPath

/-! ### Runs -/

/-- **When a run keeps instruments apart.**  It does if every message has the pipeline's symbol, and
exactly if whenever an order meets a resting one both have it. -/
theorem one_instrument [Price P] {symbol : List UInt8} (hlen : symbol.length ≤ 15)
    (ts : List (Tick P)) :
    ((∀ t ∈ ts, t.msg.symbol.name = cstr symbol) →
      ∀ s ∈ (HotPath.init symbol : HotPath P).submissions ts, s.OneInstrument) ∧
    ((∀ s ∈ (HotPath.init symbol : HotPath P).submissions ts, s.OneInstrument) ↔
      ∀ a ∈ (HotPath.init symbol : HotPath P).arrivals ts, ∀ n, a.Meets n →
        a.order.symbol.name = cstr symbol ∧ n.order.symbol.name = cstr symbol) := by
  have hkeep := HotPath.arrivals_keep (I := fun b _ => Lots b ∧ b.symbol = symbol) (Q := NewLot)
    (fun a ho hb => ⟨HotPath.lots_next hb.1 ho, HotPath.symbol_next hb.1 ho hb.2⟩) ts
    (h := (HotPath.init symbol : HotPath P))
    (fun t _ id side => HotPath.strategyOrder_newLot t.msg id side)
    ⟨HotPath.lots_init symbol, rfl⟩
  have hiff : (∀ s ∈ (HotPath.init symbol : HotPath P).submissions ts, s.OneInstrument) ↔
      ∀ a ∈ (HotPath.init symbol : HotPath P).arrivals ts, ∀ n, a.Meets n →
        a.order.symbol.name = cstr symbol ∧ n.order.symbol.name = cstr symbol := by
    rw [HotPath.submissions_eq]
    constructor
    · intro h a ha n hmeets
      obtain ⟨ho, hb, hlabel⟩ := hkeep.1 a ha
      refine (HotPath.Arrival.oneInstrument_iff hb ho hlabel hlen hmeets.accepted).mp ?_ n hmeets
      exact h _ (List.mem_map_of_mem (List.mem_filter.mpr ⟨ha, hmeets.accepted⟩))
    · intro h s hs
      obtain ⟨a, ha, rfl⟩ := List.mem_map.mp hs
      obtain ⟨ha, hacc⟩ := List.mem_filter.mp ha
      obtain ⟨ho, hb, hlabel⟩ := hkeep.1 a ha
      exact (HotPath.Arrival.oneInstrument_iff hb ho hlabel hlen hacc).mpr (h a ha)
  refine ⟨fun hname => hiff.mpr fun a ha n hmeets => ?_, hiff⟩
  obtain ⟨⟨-, ha'⟩, hb⟩ := (HotPath.arrivals_keep (I := fun b _ => HotPath.Named symbol b)
    (Q := fun o => NewLot o ∧ o.symbol.name = cstr symbol)
    (fun a ho hb => hb.next ho.1 ho.2) ts (h := (HotPath.init symbol : HotPath P))
    (fun t ht id side => ⟨HotPath.strategyOrder_newLot t.msg id side, hname t ht⟩)
    (HotPath.named_init symbol)).1 a ha
  exact ⟨ha', hb.resting _ n (List.mem_of_head? hmeets.first)⟩

/-- Two messages, of which the second is for another symbol and moves the market up by one. -/
def strayMessage : List (Tick ℚ) :=
  let msft : Symbol := #v[77, 83, 70, 84, 0, 0, 0, 0, 0, 0, 0, 0, 0, 0, 0, 0]
  [⟨⟨0, 99, 101, aapl⟩, .still, .still⟩, ⟨⟨0, 100, 102, msft⟩, .still, .still⟩]

theorem one_instrument_risingMarket :
    (∀ s ∈ (HotPath.init (text "AAPL")).submissions risingMarket, s.OneInstrument) ∧
    ((∀ s ∈ (HotPath.init (text "AAPL")).submissions strayMessage, s.OneInstrument) ↔
      ∀ a ∈ (HotPath.init (text "AAPL")).arrivals strayMessage, ∀ n, a.Meets n →
        a.order.symbol.name = cstr (text "AAPL") ∧ n.order.symbol.name = cstr (text "AAPL")) :=
  ⟨(one_instrument (by decide) risingMarket).1 (by decide),
    (one_instrument (by decide) strayMessage).2⟩

theorem strayMessage_crosses :
    ¬ ∀ s ∈ (HotPath.init (text "AAPL")).submissions strayMessage, s.OneInstrument := by
  have hcross : ∃ s ∈ (HotPath.init (text "AAPL")).submissions strayMessage,
      ∃ e ∈ s.executions, e.buy.symbol.name ≠ e.sell.symbol.name := by decide +kernel
  intro h
  obtain ⟨s, hs, e, he, hne⟩ := hcross
  exact hne ((h s hs).trades e he).1

end Aspira
