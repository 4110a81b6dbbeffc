import Aspira.Support.Greedy
import Aspira.Book.Fills
import Aspira.Book.Reachable

/-!
# Book — best execution

What an incoming order gets, against all that it could have got.  An `Allocation` is any way to serve
it from the resting orders of the other side, within its limit, its quantity and theirs.

The queue of a side is in the order of its prices, so taking it from the front is the best of all
allocations (`Support/Greedy`): no allocation fills more of the order, and none that fills as much is
cheaper for a buy order, or brings more for a sell order (`best_execution`).  Prices are exact.
-/

namespace Aspira

namespace OrderBook

section Queue

variable {P : Type} [LinearOrder P] {b : OrderBook P} {s : Side}

/-- **A queue is in the order of its prices.** -/
theorem Placed.queue_sorted (hb : b.Placed) (s : Side) :
    (b.queue s).Pairwise fun n n' => ¬ s.Better n'.order.price n.order.price := by
  have hkey := hb.at_key s
  have hsorted := (b.levels s).sorted
  unfold queue
  generalize (b.levels s).entries = l at hkey hsorted
  induction l with
  | nil => exact List.Pairwise.nil
  | cons e l ih =>
      obtain ⟨he, hl⟩ := List.pairwise_cons.mp hsorted
      have hhead := hkey e (List.mem_cons_self ..)
      rw [List.flatMap_cons, List.pairwise_append]
      refine ⟨?_, ih (fun e' he' => hkey e' (List.mem_cons_of_mem e he')) hl, ?_⟩
      · refine List.Pairwise.imp_of_mem (fun hn hn' _ => ?_) (List.pairwise_of_forall fun _ _ => trivial)
        rw [(hhead _ hn).2.1, (hhead _ hn').2.1]
        exact Side.Better.irrefl s e.1
      · intro n hn n' hn'
        obtain ⟨e', he', hmem⟩ := List.mem_flatMap.mp hn'
        rw [(hhead n hn).2.1, (hkey e' (List.mem_cons_of_mem e he') n' hmem).2.1]
        exact (he e' he').asymm

/-- The orders within reach come first. -/
theorem Placed.reaches_first (hb : b.Placed) (s : Side) (o : Order P) :
    (b.queue s).Pairwise fun n n' => Reaches s o n' → Reaches s o n := by
  refine (hb.queue_sorted s).imp fun {n n'} hle hreach hblocked => ?_
  refine hreach ⟨hblocked.1, ?_⟩
  rcases Side.better_trichotomy s n.order.price n'.order.price with hlt | heq | hgt
  · exact hblocked.2.trans hlt
  · exact heq ▸ hblocked.2
  · exact absurd hgt hle

end Queue

/-- A way to serve an order from the resting orders of the other side. -/
structure Allocation (b : OrderBook ℚ) (o : Order ℚ) (c : List (Node ℚ × ℤ)) : Prop where
  choice : (restingStock ℚ).Choice (b.queue o.side.opposite) c
  reach : ∀ p ∈ c, 0 < p.2 → Reaches o.side.opposite o p.1
  le : Stock.amount c ≤ o.quantity.toInt

/-- What an allocation is worth. -/
def worth (c : List (Node ℚ × ℤ)) : ℚ := Stock.cost (fun n => n.order.price) c

/-- Prices, the better the smaller: what an order from the other side would rather have. -/
def rank (s : Side) (n : Node ℚ) : ℚ :=
  match s with
  | .buy => -n.order.price
  | .sell => n.order.price

theorem Placed.rank_sorted {b : OrderBook ℚ} (hb : b.Placed) (s : Side) :
    (b.queue s).Pairwise fun n n' => rank s n ≤ rank s n' := by
  refine (hb.queue_sorted s).imp fun {n n'} hle => ?_
  cases s with
  | buy => exact neg_le_neg (not_lt.mp hle)
  | sell => exact not_lt.mp hle

theorem cost_rank (s : Side) (c : List (Node ℚ × ℤ)) : Stock.cost (rank s) c =
    match s with
    | .buy => -worth c
    | .sell => worth c := by
  cases s with
  | sell => rfl
  | buy =>
      induction c with
      | nil => exact neg_zero.symm
      | cons p c ih =>
          show -p.1.order.price * (p.2 : ℚ) + Stock.cost (rank .buy) c =
            -(p.1.order.price * (p.2 : ℚ) + worth c)
          rw [ih]
          ring

/-- **Best execution.**  On every reachable book, an incoming order with nothing filled is filled as
much as any allocation fills it, and at the best price for what is filled: no allocation that fills as
much costs a buy order less, or brings a sell order more. -/
theorem best_execution {b : OrderBook ℚ} (hb : Built b) (env : Env) {o : Order ℚ}
    (ho : o.filledQty = 0) {c : List (Node ℚ × ℤ)} (hc : b.Allocation o c) :
    Stock.amount c ≤ (b.addOrder env o).1.filledQty.toInt ∧
      (Stock.amount c = (b.addOrder env o).1.filledQty.toInt →
        match o.side with
        | .buy => notional ((b.addOrder env o).2.trades.drop b.trades.length) ≤ worth c
        | .sell => worth c ≤ notional ((b.addOrder env o).2.trades.drop b.trades.length)) := by
  obtain ⟨htrades, f, st, hres, hf⟩ := addOrder_offered env hb.placed ho
  have hlots : ∀ n ∈ b.queue o.side.opposite, (restingStock ℚ).Lot n :=
    fun n hn => hb.placed.resting hn
  have hfill : (b.addOrder env o).1.filledQty.toInt = Stock.amount (b.offered o) := by
    rw [hres]
    exact hf
  have hworth : notional ((b.addOrder env o).2.trades.drop b.trades.length) = worth (b.offered o) := by
    rw [htrades, List.drop_left]
    exact notional_deals _ _ fun p hp => (mem_offered hb.placed hp).2.2
  rw [hfill, hworth]
  refine ⟨Stock.amount_le_pieces hlots (hb.placed.reaches_first _ o) hc.choice hc.reach hc.le,
    fun heq => ?_⟩
  have hcost : Stock.cost (rank o.side.opposite) (b.offered o) ≤
      Stock.cost (rank o.side.opposite) c :=
    Stock.cost_pieces_le (hb.placed.rank_sorted _) hlots hc.choice heq
  rw [cost_rank, cost_rank] at hcost
  cases hs : o.side with
  | buy =>
      rw [hs] at hcost
      exact hcost
  | sell =>
      rw [hs] at hcost
      exact neg_le_neg_iff.mp hcost

/-- Two asks of five at different prices. -/
def askSteps : List (BookOp ℚ) :=
  let ask := { (Order.blank : Order ℚ) with side := .sell, quantity := 5 }
  [.add .still { ask with id := 1, price := 100 }, .add .still { ask with id := 2, price := 101 }]

/-- A buy order for seven, within its limit. -/
def bidForSeven : Order ℚ :=
  { (Order.blank : Order ℚ) with id := 3, price := 101, quantity := 7 }

/-- Two of the cheaper ask and all of the other one do. -/
theorem best_execution_bidForSeven : ∃ rs b, (init []).run askSteps = some (rs, b) ∧
    ((b.addOrder .still bidForSeven).1.filledQty.toInt = 7 ∧
      notional ((b.addOrder .still bidForSeven).2.trades.drop b.trades.length) ≤
        worth ((b.queue .sell).zip [2, 5])) := by
  refine ⟨_, _, rfl, by decide +kernel, ?_⟩
  refine (best_execution ((Built.init []).run (by decide : ∀ op ∈ askSteps, op.Unfilled) rfl) .still
    (o := bidForSeven) rfl ⟨⟨rfl, ?_, ?_⟩, ?_, ?_⟩).2 ?_
  · decide +kernel
  · decide +kernel
  · decide +kernel
  · decide +kernel
  · decide +kernel

end OrderBook

end Aspira
