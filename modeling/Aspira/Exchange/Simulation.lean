import Aspira.Book.Reachable
import Aspira.Exchange.Reference

/-!
# Exchange — the book simulates the reference

`Sim num x b`: the nodes of the book `b` are the resting orders of the exchange `x`, where `num`
gives the submission number of each node address, and the queue of each side lists them in priority
order (`Queued`).  Node addresses are handed out when an order rests and submission numbers when it
is submitted, so the two differ, but `num` is increasing.

`Sweep.fill` is the heart of it: taking orders off the front of a queue is trading with the best
order of the set, each time.  `run_simulates` puts the calls together.
-/

namespace Aspira

variable {P : Type} [LinearOrder P]

/-! ### Queues are in priority order -/

/-- `n` is reached before `n'` among the orders of side `s`. -/
def Node.Before (s : Side) (n n' : Node P) : Prop :=
  s.Better n.order.price n'.order.price ∨ n.order.price = n'.order.price ∧ n.addr < n'.addr

theorem before_of_same {s : Side} {l l' : OrderList P} (h : List.Forall₂ Node.Same l l')
    (hl : l.Pairwise (Node.Before s)) : l'.Pairwise (Node.Before s) := by
  -- the relation looks at prices and addresses only
  set rank : Node P → P × ℕ := fun n => (n.order.price, n.addr)
  set R : P × ℕ → P × ℕ → Prop := fun x y => s.Better x.1 y.1 ∨ x.1 = y.1 ∧ x.2 < y.2
  have hmap : l'.map rank = l.map rank :=
    forall₂_same_map rank (fun n n' hs => Prod.ext hs.price hs.1) h
  have hR : (l'.map rank).Pairwise R := by
    rw [hmap]
    exact List.pairwise_map.mpr hl
  rw [List.pairwise_map] at hR
  exact hR

namespace OrderBook

variable {b b' : OrderBook P}

/-- Both queues are in priority order, age read off the addresses. -/
def Queued (b : OrderBook P) : Prop := ∀ s, (b.queue s).Pairwise (Node.Before s)

section Queued

variable {env : Env} {o o' : Order P} {m' : Matching P}

theorem Swept.queued (h : Swept env o b m' b') (hb : b.Queued) : b'.Queued := by
  intro s
  rcases s.eq_or_eq_opposite o.side with rfl | rfl
  · rw [h.own]
    exact hb _
  · obtain ⟨gone, kept, hq, hk, -⟩ := h.split
    have := hb o.side.opposite
    rw [hq] at this
    exact before_of_same hk (List.pairwise_append.mp this).2.1

theorem Rested.queued (h : Rested o b b') (hi : b.Indexed) (hb : b.Queued) : b'.Queued := by
  intro s
  rcases s.eq_or_eq_opposite o.side with rfl | rfl
  · obtain ⟨A, B, hq, hq', hA, hB⟩ := h.own
    have hprice : o.entry.price = o.price := (o.entry_same b.nextNode).price
    have hAB := hb o.side
    rw [hq, List.pairwise_append] at hAB
    rw [hq', List.pairwise_append, List.pairwise_cons]
    refine ⟨hAB.1, ⟨fun n hn => .inl ?_, hAB.2.1⟩, fun n hn n' hn' => ?_⟩
    · show o.side.Better o.entry.price _
      rw [hprice]
      exact hB n hn
    · rcases List.mem_cons.mp hn' with rfl | hn'
      · have hlt : n.addr < b.nextNode :=
          hi.addr_lt o.side n (by rw [hq]; exact List.mem_append_left _ hn)
        show o.side.Better _ o.entry.price ∨ _ = o.entry.price ∧ _
        rw [hprice]
        rcases Side.better_trichotomy o.side n.order.price o.price with hp | hp | hp
        · exact .inl hp
        · exact .inr ⟨hp, hlt⟩
        · exact absurd hp (hA n hn)
      · exact hAB.2.2 n hn n' hn'
  · rw [h.opposite]
    exact hb _

theorem Removed.queued {keep : Node P → Bool} (h : Removed keep b b') (hb : b.Queued) :
    b'.Queued := by
  intro s
  rw [h.queue]
  exact (hb s).sublist List.filter_sublist

end Queued

end OrderBook

/-! ### Orders as tickets -/

/-- The resting order of a node, under a submission number. -/
def Node.ticket (n : Node P) (seq : ℕ) : Ticket P where
  seq := seq
  id := n.order.id
  side := n.order.side
  price := n.order.price
  quantity := n.order.quantity.toInt
  filled := n.order.filledQty.toInt

/-- The resting orders of some nodes. -/
def tickets (num : ℕ → ℕ) (l : OrderList P) : Set (Ticket P) :=
  {t | ∃ n ∈ l, n.ticket (num n.addr) = t}

/-- The parties, quantity and price of a trade. -/
def Trade.deal (t : Trade P) : Deal P := ⟨t.buyOrderId, t.sellOrderId, t.quantity.toInt, t.price⟩

variable {num : ℕ → ℕ}

omit [LinearOrder P] in
theorem tickets_cons (n : Node P) (l : OrderList P) :
    tickets num (n :: l) = insert (n.ticket (num n.addr)) (tickets num l) := by
  ext t
  simp only [tickets, List.mem_cons, Set.mem_ofPred_eq, Set.mem_insert_iff, exists_eq_or_imp]
  exact or_congr_left eq_comm

/-- A later node of a queue is a later ticket. -/
theorem prior_of_before {s : Side} {n n' : Node P} (hs : n.order.side = s) (h : n.Before s n')
    (hnum : n.addr < n'.addr → num n.addr < num n'.addr) :
    (n.ticket (num n.addr)).Prior (n'.ticket (num n'.addr)) := by
  rcases h with h | ⟨hp, hlt⟩
  · exact .inl (by rw [← hs] at h; exact h)
  · exact .inr ⟨hp, hnum hlt⟩

/-! ### A sweep is a fill -/

section Fill

open Exchange (taker)

variable {symbol : List UInt8} {env : Env} {s : Side} {q q' : OrderList P} {m m' : Matching P}
  {n : Node P} {O : Set (Ticket P)}

/-- What the resting orders `q` of side `s`, in queue order, are besides `O` in the set. -/
structure Fronts (num : ℕ → ℕ) (s : Side) (q : OrderList P) (O : Set (Ticket P)) : Prop where
  side : ∀ n ∈ q, n.order.side = s
  before : q.Pairwise (Node.Before s)
  num_lt : ∀ n ∈ q, ∀ n' ∈ q, n.addr < n'.addr → num n.addr < num n'.addr
  other : ∀ t ∈ O, t.side ≠ s

theorem Fronts.tail (h : Fronts num s (n :: q) O) : Fronts num s q O where
  side n' hn' := h.side n' (List.mem_cons_of_mem n hn')
  before := (List.pairwise_cons.mp h.before).2
  num_lt n₁ h₁ n₂ h₂ := h.num_lt n₁ (List.mem_cons_of_mem n h₁) n₂ (List.mem_cons_of_mem n h₂)
  other := h.other

/-- The first order of the queue comes before every other order of its side in the set. -/
theorem Fronts.first (h : Fronts num s (n :: q) O) {t : Ticket P}
    (ht : t ∈ tickets num q ∪ O) (hs : t.side = s) : (n.ticket (num n.addr)).Prior t := by
  rcases ht with ⟨n', hn', rfl⟩ | ht
  · have hmem : n' ∈ n :: q := List.mem_cons_of_mem n hn'
    exact prior_of_before (h.side n (List.mem_cons_self ..))
      ((List.pairwise_cons.mp h.before).1 n' hn')
      (h.num_lt n (List.mem_cons_self ..) n' hmem)
  · exact absurd hs (h.other t ht)

theorem Fronts.first_notMem (h : Fronts num s (n :: q) O) :
    n.ticket (num n.addr) ∉ tickets num q ∪ O := by
  intro ht
  have hp := h.first ht (h.side n (List.mem_cons_self ..))
  exact hp.asymm rfl hp

/-- Taking the first order off the queue, in the set. -/
theorem Fronts.diff (h : Fronts num s (n :: q) O) (A : Set (Ticket P)) :
    (tickets num (n :: q) ∪ O) \ {n.ticket (num n.addr)} ∪ A = A ∪ (tickets num q ∪ O) := by
  rw [tickets_cons, Set.insert_union, Set.insert_sdiff_self_of_notMem h.first_notMem, Set.union_comm]

theorem reaches_iff (hk : m.order.side = s.opposite) (hs : n.order.side = s) (seq : ℕ) :
    (taker m.order).Reaches (n.ticket seq) ↔ ¬ Blocked s m.order n.order.price := by
  have hside : (n.ticket seq).side = (taker m.order).side.opposite := by
    show n.order.side = m.order.side.opposite
    rw [hs, hk, Side.opposite_opposite]
  unfold Taker.Reaches Blocked
  rw [and_iff_right hside]
  show (∀ p, (if m.order.type = .limit then some m.order.price else none) = some p →
    ¬ n.order.side.Better p n.order.price) ↔ _
  rw [hs]
  by_cases ht : m.order.type = .limit
  · simp [ht]
  · simp [ht]

/-- **One trade.**  The first order of the queue is the best one of the set. -/
theorem fill_trade (hk : m.order.side = s.opposite) (hf : Fronts num s (n :: q) O)
    (hm : m.order.InRange) (hn : n.order.Resting) (h₀ : 0 < m.order.remaining)
    (hb : ¬ Blocked s m.order n.order.price) {ds : List (Deal P)} {R' : Set (Ticket P)} {f' : ℤ}
    (rest : Fill (taker m.order)
      ((n.ticket (num n.addr)).after (m.qty n.order).toInt ∪ (tickets num q ∪ O))
      (m.order.fill (m.qty n.order)).filledQty.toInt ds R' f') :
    Fill (taker m.order) (tickets num (n :: q) ∪ O) m.order.filledQty.toInt
      ((m.deal symbol env n.order.price n.order).deal :: ds) R' f' := by
  have hdeal : (m.deal symbol env n.order.price n.order).deal =
      (taker m.order).deal (n.ticket (num n.addr)) (m.qty n.order).toInt := rfl
  rw [(hit_spec hm h₀ hn.inRange hn.remaining_pos).2.2.1] at rest
  rw [hdeal]
  refine .trade (hm.remaining_pos.mp h₀) ?_ ((reaches_iff hk (hf.side n (List.mem_cons_self ..)) _).mpr hb) ?_
    (qty_toInt hm hn.inRange) (by rw [hf.diff]; exact rest)
  · rw [tickets_cons]
    exact .inl (Set.mem_insert _ _)
  · intro t ht hr hne
    rw [tickets_cons, Set.insert_union] at ht
    refine hf.first (ht.resolve_left hne) ?_
    rw [hr.1]
    show m.order.side.opposite = s
    rw [hk, Side.opposite_opposite]

/-- **A sweep of the queue is a fill against the set.** -/
theorem Sweep.fill (h : Sweep symbol env s q m q' m') (hm : m.order.InRange)
    (hq : ∀ n ∈ q, n.order.Resting) (hk : m.order.side = s.opposite) (hf : Fronts num s q O) :
    ∃ new, m'.trades = m.trades ++ new ∧
      Fill (taker m.order) (tickets num q ∪ O) m.order.filledQty.toInt (new.map Trade.deal)
        (tickets num q' ∪ O) m'.order.filledQty.toInt := by
  revert hk hf
  refine Sweep.live_induction (C := fun q m q' m' => m.order.side = s.opposite →
    Fronts num s q O → ∃ new, m'.trades = m.trades ++ new ∧
      Fill (taker m.order) (tickets num q ∪ O) m.order.filledQty.toInt (new.map Trade.deal)
        (tickets num q' ∪ O) m'.order.filledQty.toInt) ?_ ?_ ?_ h hm hq
  · intro q m hm hq hstop hk hf
    refine ⟨[], (List.append_nil _).symm, .done ?_⟩
    refine hstop.imp (fun h => ?_) (fun h t ht hr => ?_)
    · rw [hm.remaining_pos, not_lt] at h
      exact h
    · rcases ht with ⟨n, hn, rfl⟩ | ht
      · exact (reaches_iff hk (hf.side n hn) _).mp hr (h n hn)
      · refine hf.other t ht (hr.1.trans ?_)
        show m.order.side.opposite = s
        rw [hk, Side.opposite_opposite]
  · intro n q q' m m' hm hn h₀ hb hfull ih hk hf
    obtain ⟨new, hnew, hfill⟩ := ih hk hf.tail
    refine ⟨m.deal symbol env n.order.price n.order :: new, ?_, fill_trade hk hf hm hn h₀ hb ?_⟩
    · rw [hnew, Matching.unindex_trades]
      exact List.append_assoc ..
    · -- the order is filled: nothing of it is left in the set
      have hnone : (n.ticket (num n.addr)).after (m.qty n.order).toInt = ∅ := by
        rw [Order.isFilled_iff, (hit_spec hm h₀ hn.inRange hn.remaining_pos).2.1] at hfull
        exact Set.eq_empty_of_forall_notMem fun t ht => absurd ht.1 hfull.not_gt
      rw [hnone, Set.empty_union]
      exact hfill
  · intro n q m hm hn hq h₀ hb hpart hk hf
    refine ⟨[m.deal symbol env n.order.price n.order], rfl, fill_trade hk hf hm hn h₀ hb ?_⟩
    have hx := hit_exhausted hm h₀ hn.inRange hn.remaining_pos hpart
    have hin := hit_inRange hm h₀ hn.inRange hn.remaining_pos
    have hone : (n.ticket (num n.addr)).after (m.qty n.order).toInt =
        {({ n with order := { n.order.fill (m.qty n.order) with status := .partFilled } } :
          Node P).ticket (num n.addr)} := by
      have hfill := (hit_spec hm h₀ hn.inRange hn.remaining_pos).2.1
      rw [Order.not_isFilled_iff, hfill] at hpart
      ext t
      simp only [Ticket.after, Node.ticket, Set.mem_ofPred_eq, Set.mem_singleton_iff]
      rw [hfill]
      exact and_iff_right hpart
    rw [hone, tickets_cons, ← Set.union_assoc, Set.singleton_union]
    refine .done (.inl ?_)
    rw [hin.remaining_pos, not_lt] at hx
    exact hx

end Fill

/-! ### The simulation -/

open Exchange (taker remainder Submit Step Lists)
open OrderBook (Swept Rested Removed Added BookStep mem_nodes)

/-- The exchange `x` and the book `b` hold the same orders; `num` gives the submission number of the
order at an address. -/
structure Sim (num : ℕ → ℕ) (x : Exchange P) (b : OrderBook P) : Prop where
  placed : b.Placed
  indexed : b.Indexed
  unique : b.Unique
  queued : b.Queued
  num_lt : ∀ a a', a < a' → a' < b.nextNode → num a < num a'
  num_next : ∀ a, a < b.nextNode → num a < x.next
  resting : x.resting = tickets num b.nodes

omit [LinearOrder P] in
theorem tickets_append (l l' : OrderList P) :
    tickets num (l ++ l') = tickets num l ∪ tickets num l' := by
  ext t
  simp only [tickets, List.mem_append, Set.mem_ofPred_eq, Set.mem_union, or_and_right, exists_or]

theorem tickets_nodes (b : OrderBook P) (s : Side) :
    tickets num b.nodes = tickets num (b.queue s) ∪ tickets num (b.queue s.opposite) := by
  rw [OrderBook.nodes, tickets_append]
  cases s
  · rfl
  · exact Set.union_comm _ _

omit [LinearOrder P] in
theorem tickets_filter {keep : Node P → Bool} {C : Ticket P → Prop} (l : OrderList P)
    (h : ∀ n ∈ l, keep n = true ↔ C (n.ticket (num n.addr))) :
    tickets num (l.filter keep) = {t ∈ tickets num l | C t} := by
  ext t
  simp only [tickets, List.mem_filter, Set.mem_ofPred_eq]
  constructor
  · rintro ⟨n, ⟨hn, hk⟩, rfl⟩
    exact ⟨⟨n, hn, rfl⟩, (h n hn).mp hk⟩
  · rintro ⟨⟨n, hn, rfl⟩, hc⟩
    exact ⟨n, ⟨hn, (h n hn).mpr hc⟩, rfl⟩

namespace Sim

variable {x : Exchange P} {b b' : OrderBook P} {env : Env} {o o' : Order P} {m' : Matching P}

theorem fronts (h : Sim num x b) (s : Side) :
    Fronts num s (b.queue s) (tickets num (b.queue s.opposite)) where
  side n hn := h.placed.side hn
  before := h.queued s
  num_lt n _ n' hn' hlt := h.num_lt _ _ hlt (h.indexed.addr_lt s n' hn')
  other := by
    rintro _ ⟨n, hn, rfl⟩ hs
    exact Side.opposite_ne s ((h.placed.side hn).symm.trans hs)

/-- Matching an incoming order is filling it. -/
theorem fill (h : Sim num x b) (hsw : Swept env o b m' b') (ho : o.filledQty = 0) :
    ∃ new, b'.trades = b.trades ++ new ∧
      Fill (taker o) x.resting 0 (new.map Trade.deal) (tickets num b'.nodes)
        m'.order.filledQty.toInt := by
  have hf := h.fronts o.side.opposite
  rw [Side.opposite_opposite] at hf
  obtain ⟨new, hnew, hfill⟩ := hsw.sweep.fill (Order.inRange_of_unfilled ho)
    (fun n hn => h.placed.resting hn) (Side.opposite_opposite _).symm hf
  refine ⟨new, hsw.trades.trans hnew, ?_⟩
  have hzero : (b.matching o).order.filledQty.toInt = 0 := by
    show o.filledQty.toInt = 0
    rw [ho]
    exact Int32.toInt_zero
  rw [h.resting, tickets_nodes b o.side.opposite, tickets_nodes b' o.side.opposite,
    Side.opposite_opposite, hsw.own]
  rw [hzero] at hfill
  exact hfill

/-- The exchange after the trades of an order that does not rest. -/
theorem swept (h : Sim num x b) (hsw : Swept env o b m' b') {x' : Exchange P}
    (hx : x'.resting = tickets num b'.nodes) (hn : x.next ≤ x'.next) : Sim num x' b' where
  placed := hsw.placed
  indexed := hsw.indexed h.indexed
  unique := hsw.unique h.placed h.unique
  queued := hsw.queued h.queued
  num_lt a a' hlt ha' := h.num_lt a a' hlt (hsw.nextNode ▸ ha')
  num_next a ha := (h.num_next a (hsw.nextNode ▸ ha)).trans_le hn
  resting := hx

/-- The exchange after an order joined the book under the number `x.next`. -/
theorem rested (h : Sim num x b) (hr : Rested o b b')
    (hfresh : ∀ n ∈ b.nodes, n.order.id ≠ o.id) {x' : Exchange P}
    (hx : x'.resting =
      insert ((⟨b.nextNode, o.entry⟩ : Node P).ticket x.next) x.resting)
    (hn : x'.next = x.next + 1) : Sim (Function.update num b.nextNode x.next) x' b' where
  placed := hr.placed
  indexed := hr.indexed h.indexed
  unique := hr.unique h.unique hfresh
  queued := hr.queued h.indexed h.queued
  num_lt a a' hlt ha' := by
    rw [hr.nextNode] at ha'
    rcases (Nat.lt_succ_iff.mp ha').eq_or_lt with rfl | ha'
    · rw [Function.update_self, Function.update_of_ne hlt.ne]
      exact h.num_next a hlt
    · rw [Function.update_of_ne (hlt.trans ha').ne, Function.update_of_ne ha'.ne]
      exact h.num_lt a a' hlt ha'
  num_next a ha := by
    rw [hr.nextNode] at ha
    rw [hn]
    rcases (Nat.lt_succ_iff.mp ha).eq_or_lt with rfl | ha
    · rw [Function.update_self]
      exact Nat.lt_succ_self _
    · rw [Function.update_of_ne ha.ne]
      exact (h.num_next a ha).trans (Nat.lt_succ_self _)
  resting := by
    -- the numbers of the nodes that were there stay
    have hold : tickets (Function.update num b.nextNode x.next) b.nodes = tickets num b.nodes := by
      ext t
      refine exists_congr fun n => and_congr_right fun hn => ?_
      obtain ⟨s, hs⟩ := mem_nodes.mp hn
      rw [Function.update_of_ne (h.indexed.addr_lt s n hs).ne]
    rw [hx, h.resting, ← hold]
    have hperm : tickets (Function.update num b.nextNode x.next) b'.nodes =
        tickets (Function.update num b.nextNode x.next) (⟨b.nextNode, o.entry⟩ :: b.nodes) := by
      ext t
      exact exists_congr fun n => and_congr_left fun _ => hr.nodes_perm.mem_iff
    rw [hperm, tickets_cons, Function.update_self]

/-- The exchange without the orders that leave the book. -/
theorem removed (h : Sim num x b) {keep : Node P → Bool} (hr : Removed keep b b')
    {C : Ticket P → Prop} (hC : ∀ n ∈ b.nodes, keep n = true ↔ C (n.ticket (num n.addr))) :
    Sim num { x with resting := {t ∈ x.resting | C t} } b' where
  placed := hr.placed
  indexed := hr.indexed h.indexed
  unique := hr.unique h.unique
  queued := hr.queued h.queued
  num_lt a a' hlt ha' := h.num_lt a a' hlt (hr.nextNode ▸ ha')
  num_next a ha := h.num_next a (hr.nextNode ▸ ha)
  resting := by rw [hr.nodes, tickets_filter b.nodes hC, h.resting]

theorem without (h : Sim num x b) {n : Node P} (hn : n ∈ b.nodes)
    (hr : Removed (fun x => x.addr ≠ n.addr) b b') : Sim num (x.without n.order.id) b' := by
  refine h.removed hr fun n' hn' => ?_
  show decide (n'.addr ≠ n.addr) = true ↔ n'.order.id ≠ n.order.id
  rw [decide_eq_true_iff]
  refine not_congr ⟨fun ha => ?_, fun hid => ?_⟩
  · rw [h.indexed.eq_of_addr hn' hn ha]
  · rw [h.unique.eq_of_id hn' hn hid]

/-- A submission after which nothing rests. -/
theorem finished (h : Sim num x b) (hsw : Swept env o b m' b') (ho : o.filledQty = 0)
    (hd : (settle m'.order).isFilled = true ∨ o.type = .market) :
    ∃ new x', b'.trades = b.trades ++ new ∧
      Submit x (taker o) (new.map Trade.deal) (settle m'.order).filledQty.toInt x' ∧
      Sim num x' b' := by
  obtain ⟨new, hnew, hfill⟩ := h.fill hsw ho
  obtain ⟨f, hf⟩ := hsw.sweep.order
  have hnone : remainder (taker o) x.next m'.order.filledQty.toInt = ∅ := by
    refine Set.eq_empty_of_forall_notMem ?_
    rintro t ⟨hlt, p, hp, -⟩
    rcases hd with hd | hd
    · rw [settle_isFilled, Order.isFilled_iff] at hd
      have hq : m'.order.quantity = o.quantity := by rw [hf]; rfl
      rw [hq] at hd
      exact hlt.not_ge hd
    · have hmarket : (taker o).limit = none := if_neg (by rw [hd]; decide)
      rw [hmarket] at hp
      cases hp
  have hsub := Submit.intro hfill
  rw [hnone, Set.union_empty] at hsub
  rw [settle_filledQty]
  exact ⟨new, _, hnew, hsub, h.swept hsw rfl (Nat.le_succ _)⟩

/-- A submission to the book is a submission to the exchange. -/
theorem added (h : Sim num x b) (ha : Added env o b o' b') (ho : o.filledQty = 0)
    (hfresh : ∀ n ∈ b.nodes, n.order.id ≠ o.id) :
    ∃ num' new x', b'.trades = b.trades ++ new ∧
      Submit x (taker o) (new.map Trade.deal) o'.filledQty.toInt x' ∧ Sim num' x' b' := by
  cases ha with
  | done hsw hd => exact ⟨num, h.finished hsw ho hd⟩
  | @rests m' b₁ _ hsw hpart ht hr =>
      obtain ⟨new, hnew, hfill⟩ := h.fill hsw ho
      obtain ⟨f, hf⟩ := hsw.sweep.order
      obtain ⟨st, hst⟩ := hsw.settled
      obtain ⟨st', hst'⟩ := (settle m'.order).entry_eq
      have hid : (settle m'.order).id = o.id := by rw [hst]
      have hone : remainder (taker o) x.next m'.order.filledQty.toInt =
          {(⟨b₁.nextNode, (settle m'.order).entry⟩ : Node P).ticket x.next} := by
        have hlim : (taker o).limit = some o.price := if_pos ht
        rw [settle_isFilled, Order.not_isFilled_iff] at hpart
        have hlt : m'.order.filledQty.toInt < (taker o).quantity := by rw [hf] at hpart ⊢; exact hpart
        ext t
        unfold remainder
        rw [Set.mem_ofPred_eq, Set.mem_singleton_iff, and_iff_right hlt, hlim, hst', hst]
        simp only [Option.some.injEq, exists_eq_left']
        exact Iff.rfl
      refine ⟨Function.update num b₁.nextNode x.next, new,
        ⟨tickets num b₁.nodes ∪ remainder (taker o) x.next m'.order.filledQty.toInt, x.next + 1⟩,
        hr.trades.trans hnew, ?_, ?_⟩
      · have hfilled : (if 0 < m'.order.filledQty then { settle m'.order with status := .partFilled }
            else settle m'.order).filledQty = m'.order.filledQty := by
          split
          · exact settle_filledQty _
          · exact settle_filledQty _
        rw [hfilled]
        exact .intro hfill
      · have h₁ : Sim num ⟨tickets num b₁.nodes, x.next⟩ b₁ := h.swept hsw rfl le_rfl
        refine h₁.rested hr (by rw [hid]; exact hsw.fresh hfresh) ?_ rfl
        show _ ∪ _ = _
        rw [hone, Set.union_singleton]

/-- Every node is a ticket, and every ticket a node. -/
theorem mem_resting (h : Sim num x b) {t : Ticket P} :
    t ∈ x.resting ↔ ∃ n ∈ b.nodes, n.ticket (num n.addr) = t := by
  rw [h.resting]
  exact Iff.rfl

theorem id_ne_of_lookup (h : Sim num x b) {id : Int32} (hx : b.orderIndex.lookup id = none) :
    ∀ t ∈ x.resting, t.id ≠ id := by
  intro t ht hid
  obtain ⟨n, hn, rfl⟩ := h.mem_resting.mp ht
  have := h.unique.designated n hn
  rw [show n.order.id = id from hid, hx] at this
  cases this

theorem id_inj (h : Sim num x b) : ∀ t ∈ x.resting, ∀ t' ∈ x.resting, t.id = t'.id → t = t' := by
  intro t ht t' ht' hid
  obtain ⟨n, hn, rfl⟩ := h.mem_resting.mp ht
  obtain ⟨n', hn', rfl⟩ := h.mem_resting.mp ht'
  rw [h.unique.eq_of_id hn hn' hid]

end Sim

/-- A call on the book and the call on the exchange return the same. -/
def Reports : BookResult P → Outcome → Prop
  | .order o, .filled f => o.filledQty.toInt = f
  | .order o, .rejected => o.id = invalidOrderId ∧ o.status = .rejected ∧ o.filledQty = 0
  | .flag c, .flag c' => c = c'
  | .done, .done => True
  | _, _ => False

/-- **One call.** -/
theorem Sim.step [Zero P] {x : Exchange P} {b b' : OrderBook P} {op : BookOp P} {r : BookResult P}
    (h : Sim num x b) (hop : b.FreshId op) (hs : BookStep b op r b') :
    ∃ num' new y x', b'.trades = b.trades ++ new ∧ Step x op (new.map Trade.deal) y x' ∧
      Reports r y ∧ Sim num' x' b' := by
  cases hs with
  | add ha =>
      obtain ⟨num', new, x', hnew, hsub, hsim⟩ := h.added ha hop.1 hop.2
      exact ⟨num', new, _, x', hnew, .add hsub, rfl, hsim⟩
  | @addMarket _ o m' _ hsw =>
      obtain ⟨new, x', hnew, hsub, hsim⟩ := h.finished hsw hop.1 (.inr rfl)
      exact ⟨num, new, _, x', hnew, .addMarket hsub, rfl, hsim⟩
  | cancelMiss hx =>
      exact ⟨num, [], _, x, (List.append_nil _).symm, .cancelMiss (h.id_ne_of_lookup hx), rfl, h⟩
  | @cancelHit n _ hn _ hr =>
      exact ⟨num, [], _, _, hr.trades.trans (List.append_nil _).symm,
        .cancelHit (h.mem_resting.mpr ⟨n, hn, rfl⟩) rfl, rfl, h.without hn hr⟩
  | modifyMiss hx =>
      exact ⟨num, [], _, x, (List.append_nil _).symm, .modifyMiss (h.id_ne_of_lookup hx),
        ⟨rfl, rfl, rfl⟩, h⟩
  | @modifyHit _ n p q _ b₁ _ hn _ hr ha =>
      have hfresh : ∀ n' ∈ b₁.nodes, n'.order.id ≠ n.order.id := fun n' hn' hid => by
        obtain ⟨hn', hk⟩ := hr.mem_nodes.mp hn'
        rw [h.unique.eq_of_id hn' hn hid] at hk
        simp at hk
      obtain ⟨num', new, x', hnew, hsub, hsim⟩ := (h.without hn hr).added ha rfl hfresh
      obtain ⟨s, hs⟩ := mem_nodes.mp hn
      have htaker : taker (OrderBook.resubmitted n.order p q) =
          ⟨n.order.id, n.order.side, some p, q.toInt⟩ := by
        simp [taker, OrderBook.resubmitted, (h.placed.resting hs).type]
      rw [htaker] at hsub
      exact ⟨num', new, _, x', by rw [hnew, hr.trades],
        .modifyHit (h.mem_resting.mpr ⟨n, hn, rfl⟩) rfl hsub, rfl, hsim⟩
  | @cutLevel side price _ hr =>
      refine ⟨num, [], _, _, hr.trades.trans (List.append_nil _).symm, .cutLevel, trivial,
        h.removed hr fun n hn => ?_⟩
      exact decide_eq_true_iff
  | keepLevel hne =>
      exact ⟨num, [], _, x, (List.append_nil _).symm, .keepLevel hne, trivial, h⟩

/-! ### Runs -/

/-- The queues of the book list the resting orders of the exchange in priority order. -/
def Shows (x : Exchange P) (b : OrderBook P) : Prop :=
  ∀ s, ∃ l, Lists x s l ∧ List.Forall₂ (fun n t => t = n.ticket t.seq) (b.queue s) l

theorem Sim.shows {x : Exchange P} {b : OrderBook P} (h : Sim num x b) : Shows x b := by
  intro s
  refine ⟨(b.queue s).map fun n => n.ticket (num n.addr), ⟨?_, fun t => ?_⟩, ?_⟩
  · rw [List.pairwise_map]
    refine List.Pairwise.imp_of_mem (fun hn hn' hlt => ?_) (h.queued s)
    exact prior_of_before (h.placed.side hn) hlt
      fun ha => h.num_lt _ _ ha (h.indexed.addr_lt s _ hn')
  · rw [List.mem_map, h.mem_resting]
    constructor
    · rintro ⟨n, hn, rfl⟩
      exact ⟨⟨n, mem_nodes.mpr ⟨s, hn⟩, rfl⟩, h.placed.side hn⟩
    · rintro ⟨⟨n, hn, rfl⟩, hs⟩
      obtain ⟨s', hs'⟩ := mem_nodes.mp hn
      obtain rfl : s' = s := (h.placed.side hs').symm.trans hs
      exact ⟨n, hs', rfl⟩
  · rw [List.forall₂_map_right_iff, List.forall₂_same]
    exact fun n _ => rfl

/-- The book and the exchange agree along the calls: at every step both have one outcome, the trades
it adds are the same in the same order, the call returns the same, and the queues of the book list
the orders of the exchange. -/
def Agrees [Zero P] : OrderBook P → Exchange P → List (BookOp P) → Prop
  | b, x, [] => Shows x b
  | b, x, op :: ops => Shows x b ∧ ∃ r b' new y x',
      b.step op = some (r, b') ∧ b'.trades = b.trades ++ new ∧
      Step x op (new.map Trade.deal) y x' ∧ Reports r y ∧
      (∀ ds₂ y₂ x₂, Step x op ds₂ y₂ x₂ → ds₂ = new.map Trade.deal ∧ y₂ = y ∧ x₂ = x') ∧
      Agrees b' x' ops

theorem Sim.agrees [Zero P] : ∀ {ops : List (BookOp P)} {num : ℕ → ℕ} {x : Exchange P}
    {b : OrderBook P}, Sim num x b → Run.Along OrderBook.step OrderBook.FreshId b ops → Agrees b x ops
  | [], _, _, _, h, _ => h.shows
  | op :: ops, num, x, b, h, ha => by
      obtain ⟨r, b', hstep, hs⟩ := OrderBook.step_bookStep h.placed h.indexed ha.1.1
      obtain ⟨num', new, y, x', hnew, hx, hr, hsim⟩ := h.step ha.1 hs
      refine ⟨h.shows, r, b', new, y, x', hstep, hnew, hx, hr,
        fun ds₂ y₂ x₂ h₂ => hx.functional h.id_inj h₂, hsim.agrees ?_⟩
      exact ha.tail hstep

theorem sim_init (num : ℕ → ℕ) (symbol : List UInt8) :
    Sim (P := P) num Exchange.empty (OrderBook.init symbol) where
  placed := OrderBook.init_placed symbol
  indexed := OrderBook.init_indexed symbol
  unique := OrderBook.init_unique symbol
  queued s := by cases s <;> exact List.Pairwise.nil
  num_lt a a' _ h := absurd h (Nat.not_lt_zero _)
  num_next a h := absurd h (Nat.not_lt_zero _)
  resting := by
    refine (Set.eq_empty_of_forall_notMem ?_).symm
    rintro t ⟨n, hn, -⟩
    exact absurd hn List.not_mem_nil

/-- **Price-time priority.**  From an empty book, on every sequence of calls in which no order is
added under the id of a resting one, the book agrees with the reference exchange at every step. -/
theorem book_agrees_exchange [Zero P] {symbol : List UInt8} {ops : List (BookOp P)}
    (h : Run.Along OrderBook.step OrderBook.FreshId (.init symbol) ops) :
    Agrees (.init symbol) Exchange.empty ops :=
  (sim_init id symbol).agrees h

theorem book_agrees_exchange_mixedCalls :
    Run.Along OrderBook.step OrderBook.FreshId (.init []) OrderBook.mixedCalls ∧
      Agrees (.init []) Exchange.empty OrderBook.mixedCalls :=
  ⟨by decide, book_agrees_exchange (by decide)⟩

end Aspira
