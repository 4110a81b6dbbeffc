import Aspira.Book.Quantity

/-!
# Book — Depth

`get_bid_levels`, `get_ask_levels`, `bid_size` and `ask_size`.  The levels come out best first, each
with the total of what its orders have left, summed up in an `int32_t`.

The number of orders at a price is not bounded, and neither is their total.  The sum is the total
modulo `2^32` (`toInt_levelSize`), so a depth view is exact exactly when the total at each of the
levels it shows is below `2^31` (`depth_exact_iff`).
-/

namespace Aspira

variable {P : Type}

/-- The sum over one level: `total += entry.order.remaining()`. -/
def levelSize (level : OrderList P) : Int32 :=
  level.foldl (fun total n => total + n.order.remaining) 0

theorem levelSize_append (q q' : OrderList P) :
    levelSize (q ++ q') = levelSize q + levelSize q' := by
  have hfrom : ∀ (q : OrderList P) (t : Int32),
      q.foldl (fun total n => total + n.order.remaining) t = t + levelSize q := by
    intro q
    induction q with
    | nil => exact fun t => (Int32.add_zero t).symm
    | cons n q ih =>
        intro t
        rw [levelSize, List.foldl_cons, List.foldl_cons, ih, ih (0 + _), Int32.zero_add,
          Int32.add_assoc]
  rw [levelSize, List.foldl_append, hfrom]
  rfl

theorem levelSize_singleton (n : Node P) : levelSize [n] = n.order.remaining := Int32.zero_add _

theorem levelSize_cons (n : Node P) (q : OrderList P) :
    levelSize (n :: q) = n.order.remaining + levelSize q := by
  rw [← List.singleton_append, levelSize_append, levelSize_singleton]

/-- **The sum wraps.** -/
theorem toInt_levelSize {q : OrderList P} (h : ∀ n ∈ q, n.order.Resting) :
    (levelSize q).toInt = (remainingQty q).bmod (2 ^ 32) := by
  induction q with
  | nil => rfl
  | cons n q ih =>
      have hn := (h n (List.mem_cons_self ..)).inRange.remaining
      rw [levelSize_cons, Int32.toInt_add, hn, ih fun x hx => h x (List.mem_cons_of_mem n hx),
        remainingQty_cons, Int.add_bmod_bmod]

theorem remainingQty_pos {q : OrderList P} (h : ∀ n ∈ q, n.order.Resting) (hne : q ≠ []) :
    0 < remainingQty q := by
  induction q with
  | nil => exact absurd rfl hne
  | cons n q ih =>
      have hn := (h n (List.mem_cons_self ..)).filled_lt
      rw [remainingQty_cons]
      by_cases hq : q = []
      · rw [hq, remainingQty_nil]
        omega
      · have := ih (fun x hx => h x (List.mem_cons_of_mem n hx)) hq
        omega

/-- **The sum is exact exactly when the total fits.** -/
theorem levelSize_exact_iff {q : OrderList P} (h : ∀ n ∈ q, n.order.Resting) (hne : q ≠ []) :
    (0 < (levelSize q).toInt ∧ (levelSize q).toInt = remainingQty q) ↔
      remainingQty q < 2 ^ 31 := by
  have hpos := remainingQty_pos h hne
  have hlt := (levelSize q).toInt_lt
  have hwrap := toInt_levelSize h
  constructor
  · rintro ⟨-, heq⟩
    omega
  · intro hfit
    have heq : (levelSize q).toInt = remainingQty q := by
      rw [hwrap]
      exact Int.bmod_eq_of_le (by omega) (by omega)
    exact ⟨by omega, heq⟩

namespace OrderBook

variable [LinearOrder P]

/-- The loop of `get_bid_levels` and `get_ask_levels` over the levels of one side. -/
def getLevels (b : OrderBook P) (s : Side) (depth : ℕ) : List (P × Int32) :=
  ((b.levels s).entries.take depth).map fun e => (e.1, levelSize e.2)

/-- `get_bid_levels`. -/
def getBidLevels (b : OrderBook P) (depth : ℕ) : List (P × Int32) := b.getLevels .buy depth

/-- `get_ask_levels`. -/
def getAskLevels (b : OrderBook P) (depth : ℕ) : List (P × Int32) := b.getLevels .sell depth

/-- The sum over the first level of side `s`, 0 if there is none. -/
def bestSize (b : OrderBook P) (s : Side) : Int32 :=
  match (b.levels s).entries with
  | [] => 0
  | e :: _ => levelSize e.2

/-- `bid_size()`. -/
def bidSize (b : OrderBook P) : Int32 := b.bestSize .buy

/-- `ask_size()`. -/
def askSize (b : OrderBook P) : Int32 := b.bestSize .sell

/-- The orders that rest on side `s` at `p`. -/
def restingAt (b : OrderBook P) (s : Side) (p : P) : OrderList P :=
  (b.queue s).filter fun n => n.order.price = p

variable {b : OrderBook P} {s : Side}

/-- The orders at a price are the queue of its level. -/
theorem Placed.restingAt (h : b.Placed) {e : P × OrderList P} (he : e ∈ (b.levels s).entries) :
    b.restingAt s e.1 = e.2 := (h.grouped s).filter (b.levels s).sorted he

/-- `view` is a depth view of side `s`: its first `depth` levels, best first, each with a positive
size that is the total left at its price, and the first of them is what `best` and `size` say. -/
structure ExactView (b : OrderBook P) (s : Side) (depth : ℕ) (view : List (P × Int32)) (best : P)
    (size : Int32) : Prop where
  length : view.length = min depth (b.levels s).entries.length
  prices : view.map Prod.fst <+: (b.levels s).entries.map Prod.fst
  sorted : view.Pairwise fun a c => s.Better a.1 c.1
  sizes : ∀ a ∈ view, 0 < a.2.toInt ∧ a.2.toInt = remainingQty (b.restingAt s a.1)
  head : ∀ a ∈ view.head?, a = (best, size)

theorem getLevels_head [Zero P] (b : OrderBook P) (s : Side) (depth : ℕ) :
    ∀ a ∈ (b.getLevels s depth).head?, a = (b.best s, b.bestSize s) := by
  unfold getLevels best bestSize
  cases (b.levels s).entries with
  | nil => simp
  | cons e l =>
      cases depth with
      | zero => simp
      | succ depth =>
          rintro a (_ | _)
          rfl

/-- **A side's depth view is exact exactly when its totals fit.** -/
theorem Placed.exactView_iff [Zero P] (h : b.Placed) (s : Side) (depth : ℕ) :
    b.ExactView s depth (b.getLevels s depth) (b.best s) (b.bestSize s) ↔
      ∀ e ∈ (b.levels s).entries.take depth, remainingQty e.2 < 2 ^ 31 := by
  have hmem : ∀ e ∈ (b.levels s).entries.take depth, e ∈ (b.levels s).entries :=
    fun e he => List.mem_of_mem_take he
  -- a level's size is exact exactly when its total fits
  have hsize : ∀ e ∈ (b.levels s).entries.take depth,
      ((0 < (levelSize e.2).toInt ∧ (levelSize e.2).toInt = remainingQty (b.restingAt s e.1)) ↔
        remainingQty e.2 < 2 ^ 31) := by
    intro e he
    rw [h.restingAt (hmem e he)]
    exact levelSize_exact_iff (fun n hn => (h.at_key s e (hmem e he) n hn).2.2)
      (h.nonempty s e (hmem e he))
  constructor
  · intro hview e he
    exact (hsize e he).mp (hview.sizes _ (List.mem_map_of_mem he))
  · intro hfit
    refine ⟨?_, ?_, ?_, fun a ha => ?_, getLevels_head b s depth⟩
    · rw [getLevels, List.length_map, List.length_take]
    · rw [getLevels, List.map_map]
      exact (List.take_prefix depth _).map Prod.fst
    · exact List.pairwise_map.mpr ((b.levels s).sorted.sublist (List.take_sublist depth _))
    · obtain ⟨e, he, rfl⟩ := List.mem_map.mp ha
      exact (hsize e he).mpr (hfit e he)

/-- **Depth views are exact exactly when the total at each level they show fits in an `int32_t`.** -/
theorem depth_exact_iff [Zero P] (h : Built b) (depth : ℕ) :
    (b.ExactView .buy depth (b.getBidLevels depth) b.bestBid b.bidSize ∧
      b.ExactView .sell depth (b.getAskLevels depth) b.bestAsk b.askSize) ↔
    ∀ s, ∀ e ∈ (b.levels s).entries.take depth, remainingQty e.2 < 2 ^ 31 := by
  have hbids := h.placed.exactView_iff .buy depth
  have hasks := h.placed.exactView_iff .sell depth
  constructor
  · rintro ⟨hbuy, hsell⟩ s
    cases s
    · exact hbids.mp hbuy
    · exact hasks.mp hsell
  · intro hfit
    exact ⟨hbids.mpr (hfit .buy), hasks.mpr (hfit .sell)⟩

/-- Three bids at two prices, the better two of them cut into by a sell order. -/
def shallowBids : List (BookOp ℤ) :=
  let bid := { (Order.blank : Order ℤ) with price := 100, quantity := 5 }
  [.add .still { bid with id := 1 }, .add .still { bid with id := 2 },
    .add .still { bid with id := 3, price := 99 },
    .add .still { bid with id := 4, side := .sell, quantity := 7 }]

theorem depth_exact_iff_shallowBids :
    (∀ op ∈ shallowBids, op.Unfilled) ∧ ∃ rs b, (init []).run shallowBids = some (rs, b) ∧
      b.getBidLevels 2 = [(100, 3), (99, 5)] ∧
      b.ExactView .buy 2 (b.getBidLevels 2) b.bestBid b.bidSize ∧
      b.ExactView .sell 2 (b.getAskLevels 2) b.bestAsk b.askSize := by
  refine ⟨by decide, _, _, rfl, by decide +kernel, (depth_exact_iff ?_ 2).mpr ?_⟩
  · exact (Built.init []).run (by decide : ∀ op ∈ shallowBids, op.Unfilled) rfl
  · intro s
    cases s <;> decide +kernel

/-- Two bids at one price, of `2147483647` each. -/
def deepBid : List (BookOp ℤ) :=
  let bid := { (Order.blank : Order ℤ) with price := 100, quantity := 2147483647 }
  [.add .still { bid with id := 1 }, .add .still { bid with id := 2 }]

/-- **The size of a level can be negative.** -/
theorem deepBid_size :
    (∀ op ∈ deepBid, op.Sized) ∧ Run.Along step FreshId (init []) deepBid ∧
      ∃ rs b, (init []).run deepBid = some (rs, b) ∧ b.getBidLevels 1 = [(100, -2)] ∧
        b.bidSize = -2 ∧ remainingQty (b.restingAt .buy 100) = 4294967294 ∧
        ¬ b.ExactView .buy 1 (b.getBidLevels 1) b.bestBid b.bidSize := by
  refine ⟨by decide, by decide, _, _, rfl, by decide, by decide, by decide, fun h => ?_⟩
  have hsize := h.sizes (100, -2) (by decide)
  exact absurd hsize.1 (by decide)

end OrderBook

end Aspira
