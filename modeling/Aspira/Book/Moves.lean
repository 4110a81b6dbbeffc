import Aspira.Book.Sweep

/-!
# Book — the three moves

Every call on the book is made of three moves on the queues of its two sides:

* `Swept`: an incoming order sweeps the opposite queue (`match_limit_order`);
* `Rested`: what is left of it joins its own queue behind the orders at its price (`rest`);
* `Removed`: the orders a predicate rejects leave both queues and the index (`cancel_order`,
  `update_level`).

Each move also says what it leaves alone.  `Placed` is what the moves need of a book, and keep: no
level is empty, and every order rests on its own side at its own price.
-/

namespace Aspira

variable {P : Type}

/-- The same node, up to what a trade changes of its order. -/
def Node.Same (n n' : Node P) : Prop :=
  n'.addr = n.addr ∧ ∃ f st, n'.order = { n.order with filledQty := f, status := st }

namespace Node.Same

variable {n n' : Node P}

theorem refl (n : Node P) : n.Same n := ⟨rfl, n.order.filledQty, n.order.status, rfl⟩

theorem id (h : n.Same n') : n'.order.id = n.order.id := by obtain ⟨-, f, st, h⟩ := h; rw [h]

theorem side (h : n.Same n') : n'.order.side = n.order.side := by obtain ⟨-, f, st, h⟩ := h; rw [h]

theorem price (h : n.Same n') : n'.order.price = n.order.price := by
  obtain ⟨-, f, st, h⟩ := h; rw [h]

theorem quantity (h : n.Same n') : n'.order.quantity = n.order.quantity := by
  obtain ⟨-, f, st, h⟩ := h; rw [h]

theorem symbol (h : n.Same n') : n'.order.symbol = n.order.symbol := by
  obtain ⟨-, f, st, h⟩ := h; rw [h]

end Node.Same

/-! ### Queues with the same nodes -/

theorem forall₂_same_map {A : Type} (f : Node P → A) (hf : ∀ n n', n.Same n' → f n' = f n)
    {l l' : OrderList P} (h : List.Forall₂ Node.Same l l') : l'.map f = l.map f := by
  induction h with
  | nil => rfl
  | cons hn _ ih => rw [List.map_cons, List.map_cons, hf _ _ hn, ih]

/-- Related lists have related elements. -/
theorem exists_of_mem_left {A B : Type} {R : A → B → Prop} {l : List A} {l' : List B}
    (h : List.Forall₂ R l l') {a : A} (ha : a ∈ l) : ∃ a' ∈ l', R a a' := by
  induction h with
  | nil => exact absurd ha List.not_mem_nil
  | @cons _ a' _ _ hr _ ih =>
      rcases List.mem_cons.mp ha with rfl | ha
      · exact ⟨a', List.mem_cons_self .., hr⟩
      · obtain ⟨x, hx, hs⟩ := ih ha
        exact ⟨x, List.mem_cons_of_mem a' hx, hs⟩

theorem exists_same_of_mem {l l' : OrderList P} (h : List.Forall₂ Node.Same l l') {n' : Node P}
    (hn : n' ∈ l') : ∃ n ∈ l, n.Same n' := exists_of_mem_left h.flip hn

theorem exists_same_of_mem_left {l l' : OrderList P} (h : List.Forall₂ Node.Same l l') {n : Node P}
    (hn : n ∈ l) : ∃ n' ∈ l', n.Same n' := exists_of_mem_left h hn

/-! ### What joins the book -/

theorem Order.entry_resting {o : Order P} (ho : o.InRange) (hf : o.isFilled = false)
    (ht : o.type = .limit) : o.entry.Resting := by
  rw [Order.not_isFilled_iff] at hf
  unfold Order.entry
  split
  · rename_i h
    rw [Int32.lt_iff_toInt_lt, Int32.toInt_zero] at h
    have hne : o.filledQty ≠ 0 := fun e => by rw [e] at h; exact lt_irrefl _ h
    exact ⟨ht, ho.1, hf, (if_neg hne).symm⟩
  · rename_i h
    rw [Int32.lt_iff_toInt_lt, Int32.toInt_zero, not_lt] at h
    have he : o.filledQty = 0 := Int32.toInt_inj.mp (by rw [Int32.toInt_zero]; exact le_antisymm h ho.1)
    exact ⟨ht, ho.1, hf, (if_pos he).symm⟩

theorem Order.entry_eq (o : Order P) : ∃ st, o.entry = { o with status := st } := by
  unfold Order.entry
  split <;> exact ⟨_, rfl⟩

theorem Order.entry_same (o : Order P) (a : Nat) : Node.Same ⟨a, o⟩ ⟨a, o.entry⟩ := by
  obtain ⟨st, h⟩ := o.entry_eq
  exact ⟨rfl, o.filledQty, st, h⟩

theorem settle_eq (o : Order P) : ∃ st, settle o = { o with status := st } := by
  unfold settle
  split
  · exact ⟨_, rfl⟩
  · split <;> exact ⟨_, rfl⟩

@[simp] theorem settle_type (o : Order P) : (settle o).type = o.type := by
  obtain ⟨st, h⟩ := settle_eq o
  rw [h]

@[simp] theorem settle_filledQty (o : Order P) : (settle o).filledQty = o.filledQty := by
  obtain ⟨st, h⟩ := settle_eq o
  rw [h]

@[simp] theorem settle_inRange {o : Order P} : (settle o).InRange ↔ o.InRange := by
  obtain ⟨st, h⟩ := settle_eq o
  rw [h]
  exact Iff.rfl

@[simp] theorem settle_isFilled (o : Order P) : (settle o).isFilled = o.isFilled := by
  obtain ⟨st, h⟩ := settle_eq o
  rw [h]
  rfl

/-! ### The index after erasures -/

/-- The index with the ids of some orders erased. -/
def eraseIds (ix : OrderIndex) (l : OrderList P) : OrderIndex :=
  l.foldl (fun ix n => ix.erase n.order.id) ix

theorem lookup_eraseIds (id : Int32) : ∀ (l : OrderList P) (ix : OrderIndex),
    (eraseIds ix l).lookup id = if ∃ n ∈ l, n.order.id = id then none else ix.lookup id
  | [], ix => by simp [eraseIds]
  | n :: l, ix => by
      show (eraseIds (ix.erase n.order.id) l).lookup id = _
      rw [lookup_eraseIds id l]
      by_cases hl : ∃ n ∈ l, n.order.id = id
      · obtain ⟨n', hn', he⟩ := hl
        rw [if_pos ⟨n', hn', he⟩, if_pos ⟨n', List.mem_cons_of_mem n hn', he⟩]
      · rw [if_neg hl]
        by_cases hn : n.order.id = id
        · rw [if_pos ⟨n, List.mem_cons_self .., hn⟩, hn, AList.lookup_erase]
        · have : ¬ ∃ n' ∈ n :: l, n'.order.id = id := by
            rintro ⟨n', hn', he⟩
            rcases List.mem_cons.mp hn' with rfl | h
            · exact hn he
            · exact hl ⟨n', h, he⟩
          rw [if_neg this, AList.lookup_erase_ne (Ne.symm hn)]

/-! ### What a sweep does to nodes and index -/

section Sweep

variable [LinearOrder P] {symbol : List UInt8} {env : Env} {s : Side} {q q' : OrderList P}
  {m m' : Matching P}

/-- **A sweep takes a prefix off the queue.**  The orders it takes leave the index; the others stay
in place, at most the first of them with another fill. -/
theorem Sweep.split (h : Sweep symbol env s q m q' m') :
    ∃ gone kept, q = gone ++ kept ∧ List.Forall₂ Node.Same kept q' ∧
      m'.orderIndex = eraseIds m.orderIndex gone := by
  induction h with
  | @stop q _ _ =>
      exact ⟨[], q, rfl, List.forall₂_same.mpr fun n _ => Node.Same.refl n, rfl⟩
  | @take n _ _ _ _ _ _ _ _ ih =>
      obtain ⟨gone, kept, rfl, hk, hix⟩ := ih
      exact ⟨n :: gone, kept, rfl, hk, hix⟩
  | @leave n q _ _ _ _ =>
      exact ⟨[], n :: q, rfl, .cons ⟨rfl, _, _, rfl⟩
        (List.forall₂_same.mpr fun n _ => Node.Same.refl n), rfl⟩

/-- A sweep appends its trades to the buffer and counts them. -/
theorem Sweep.tradeIds (h : Sweep symbol env s q m q' m') :
    ∃ new, m'.trades = m.trades ++ new ∧
      m'.nextTradeId = m.nextTradeId + Int32.ofNat new.length := by
  induction h with
  | stop => exact ⟨[], (List.append_nil _).symm, (Int32.add_zero _).symm⟩
  | @take n q q' m m' _ _ _ _ ih =>
      obtain ⟨new, htr, hid⟩ := ih
      refine ⟨m.deal symbol env n.order.price n.order :: new, ?_, ?_⟩
      · rw [htr]
        exact List.append_assoc ..
      · rw [hid, List.length_cons, Int32.ofNat_add, Int32.add_comm (Int32.ofNat _), ← Int32.add_assoc]
        rfl
  | @leave n q m => exact ⟨[m.deal symbol env n.order.price n.order], rfl, rfl⟩

/-- **Induction on a sweep of resting orders.**  The incoming order stays within its quantity, and
every order it meets rests. -/
theorem Sweep.live_induction
    {C : OrderList P → Matching P → OrderList P → Matching P → Prop}
    (stop : ∀ q m, m.order.InRange → (∀ n ∈ q, n.order.Resting) →
      (¬ 0 < m.order.remaining ∨ ∀ n ∈ q, Blocked s m.order n.order.price) → C q m q m)
    (take : ∀ n q q' m m', m.order.InRange → n.order.Resting → 0 < m.order.remaining →
      ¬ Blocked s m.order n.order.price → (n.order.fill (m.qty n.order)).isFilled = true →
      C q ((m.hit symbol env n.order.price n.order).unindex n.order.id) q' m' → C (n :: q) m q' m')
    (leave : ∀ n q m, m.order.InRange → n.order.Resting → (∀ n ∈ q, n.order.Resting) →
      0 < m.order.remaining → ¬ Blocked s m.order n.order.price →
      (n.order.fill (m.qty n.order)).isFilled = false →
      C (n :: q) m
        ({ n with order := { n.order.fill (m.qty n.order) with status := .partFilled } } :: q)
        (m.hit symbol env n.order.price n.order))
    (h : Sweep symbol env s q m q' m') (hm : m.order.InRange) (hq : ∀ n ∈ q, n.order.Resting) :
    C q m q' m' := by
  induction h with
  | stop h => exact stop _ _ hm hq h
  | @take n _ _ _ _ h₀ hb hf _ ih =>
      have hn := hq n (List.mem_cons_self ..)
      exact take _ _ _ _ _ hm hn h₀ hb hf
        (ih (hit_inRange hm h₀ hn.inRange hn.remaining_pos)
          fun n' hn' => hq n' (List.mem_cons_of_mem n hn'))
  | @leave n _ _ h₀ hb hf =>
      exact leave _ _ _ hm (hq n (List.mem_cons_self ..))
        (fun n' hn' => hq n' (List.mem_cons_of_mem n hn')) h₀ hb hf

/-- The incoming order stays within its quantity, and what stays in the queue rests. -/
theorem Sweep.resting (h : Sweep symbol env s q m q' m') (hm : m.order.InRange)
    (hq : ∀ n ∈ q, n.order.Resting) : m'.order.InRange ∧ ∀ n ∈ q', n.order.Resting := by
  refine Sweep.live_induction (C := fun _ _ q' m' => m'.order.InRange ∧ ∀ n ∈ q', n.order.Resting)
    (fun q m hm hq _ => ⟨hm, hq⟩) (fun _ _ _ _ _ _ _ _ _ _ ih => ih) ?_ h hm hq
  intro n q m hm hn hq h₀ _ hf
  refine ⟨hit_inRange hm h₀ hn.inRange hn.remaining_pos, fun n' hn' => ?_⟩
  rcases List.mem_cons.mp hn' with rfl | h
  · exact resting_fill hm h₀ hn hf
  · exact hq n' h

/-- A sweep changes nothing of the incoming order but its fill. -/
theorem Sweep.order (h : Sweep symbol env s q m q' m') :
    ∃ f, m'.order = { m.order with filledQty := f } := by
  induction h with
  | @stop _ m _ => exact ⟨m.order.filledQty, rfl⟩
  | take _ _ _ _ ih =>
      obtain ⟨f, hf⟩ := ih
      exact ⟨f, hf⟩
  | leave => exact ⟨_, rfl⟩

/-- **Why a sweep ends**: the incoming order is exhausted, or it reaches no order that is left. -/
theorem Sweep.exit (h : Sweep symbol env s q m q' m') (hm : m.order.InRange)
    (hq : ∀ n ∈ q, n.order.Resting) :
    ¬ 0 < m'.order.remaining ∨ ∀ n ∈ q', Blocked s m'.order n.order.price :=
  Sweep.live_induction
    (C := fun _ _ q' m' => ¬ 0 < m'.order.remaining ∨ ∀ n ∈ q', Blocked s m'.order n.order.price)
    (fun _ _ _ _ h => h) (fun _ _ _ _ _ _ _ _ _ _ ih => ih)
    (fun _ _ _ hm hn _ h₀ _ hf => .inl (hit_exhausted hm h₀ hn.inRange hn.remaining_pos hf)) h hm hq

end Sweep

theorem matchLevel_same (symbol : List UInt8) (env : Env) (p : P) :
    ∀ (level : OrderList P) (m : Matching P), ∀ n' ∈ (matchLevel symbol env p level m).1,
      ∃ n ∈ level, n.Same n'
  | [], _, n', h => absurd h List.not_mem_nil
  | n :: level, m, n', h => by
      rw [matchLevel] at h
      simp only [matchEntry_eq] at h
      split at h
      · split at h
        · obtain ⟨a, ha, hs⟩ := matchLevel_same symbol env p level _ n' h
          exact ⟨a, List.mem_cons_of_mem n ha, hs⟩
        · rcases List.mem_cons.mp h with rfl | h
          · exact ⟨n, List.mem_cons_self .., rfl, _, _, rfl⟩
          · obtain ⟨a, ha, hs⟩ := matchLevel_same symbol env p level _ n' h
            exact ⟨a, List.mem_cons_of_mem n ha, hs⟩
      · exact ⟨n', h, Node.Same.refl n'⟩

/-- A level that is left after matching is one of the levels there were, not empty, with some of its
nodes. -/
theorem matchLevels_same [LinearOrder P] (symbol : List UInt8) (env : Env) (s : Side) :
    ∀ (l : List (P × OrderList P)) (m : Matching P), (∀ e ∈ l, e.2 ≠ []) →
      ∀ e' ∈ (matchLevels symbol env s l m).1, e'.2 ≠ [] ∧
        ∃ e ∈ l, e.1 = e'.1 ∧ ∀ n' ∈ e'.2, ∃ n ∈ e.2, n.Same n'
  | [], _, _, e', h => absurd h List.not_mem_nil
  | e :: l, m, hne, e', h => by
      have keep : ∀ e' ∈ e :: l, e'.2 ≠ [] ∧
          ∃ a ∈ e :: l, a.1 = e'.1 ∧ ∀ n' ∈ e'.2, ∃ n ∈ a.2, n.Same n' := fun e' he' =>
        ⟨hne e' he', e', he', rfl, fun n' hn' => ⟨n', hn', Node.Same.refl n'⟩⟩
      have later : ∀ m₁, e' ∈ (matchLevels symbol env s l m₁).1 → e'.2 ≠ [] ∧
          ∃ a ∈ e :: l, a.1 = e'.1 ∧ ∀ n' ∈ e'.2, ∃ n ∈ a.2, n.Same n' := fun m₁ he' => by
        obtain ⟨h₁, a, ha, h₂⟩ := matchLevels_same symbol env s l m₁
          (fun a ha => hne a (List.mem_cons_of_mem e ha)) e' he'
        exact ⟨h₁, a, List.mem_cons_of_mem e ha, h₂⟩
      rw [matchLevels] at h
      split at h
      · split at h
        · exact keep e' h
        · dsimp only at h
          split at h
          · exact later _ h
          · rename_i hne'
            rcases List.mem_cons.mp h with rfl | h
            · exact ⟨by simpa using hne', e, List.mem_cons_self .., rfl,
                matchLevel_same symbol env e.1 e.2 m⟩
            · exact later _ h
      · exact keep e' h

namespace OrderBook

variable [LinearOrder P] {b : OrderBook P} {s : Side} {n : Node P}

@[simp] theorem levels_setLevels (b : OrderBook P) (s : Side) (m : LevelMap P s) :
    (b.setLevels s m).levels s = m := by cases s <;> rfl

theorem levels_setLevels_of_ne {s t : Side} (m : LevelMap P s) (h : t ≠ s) :
    (b.setLevels s m).levels t = b.levels t := by
  cases s <;> cases t <;> first | rfl | exact absurd rfl h

theorem levels_congr {b c : OrderBook P} (h₁ : b.bids = c.bids) (h₂ : b.asks = c.asks) :
    b.levels s = c.levels s := by
  cases s
  · exact h₁
  · exact h₂

theorem queue_congr {b c : OrderBook P} (h : b.levels s = c.levels s) : b.queue s = c.queue s := by
  rw [queue, queue, h]

@[simp] theorem trades_setTrades (b : OrderBook P) (ts : List (Trade P)) :
    (b.setTrades ts).trades = ts := by
  unfold trades setTrades
  cases b.activeA <;> rfl

theorem drainTrades_trades (b : OrderBook P) : b.drainTrades.2.trades = [] := by
  show (if (!b.activeA) = true then ([] : List (Trade P)) else []) = []
  exact ite_self []

-- Draining is about the trade lists alone.
theorem drainTrades_symbol (b : OrderBook P) : b.drainTrades.2.symbol = b.symbol := rfl

theorem drainTrades_nextTradeId (b : OrderBook P) : b.drainTrades.2.nextTradeId = b.nextTradeId :=
  rfl

theorem drainTrades_queue (b : OrderBook P) (s : Side) : b.drainTrades.2.queue s = b.queue s :=
  queue_congr (levels_congr rfl rfl)

theorem mem_queue : n ∈ b.queue s ↔ ∃ e ∈ (b.levels s).entries, n ∈ e.2 := List.mem_flatMap

theorem mem_nodes : n ∈ b.nodes ↔ ∃ s, n ∈ b.queue s := by
  rw [nodes, List.mem_append]
  exact ⟨fun h => h.elim (fun h => ⟨.buy, h⟩) (fun h => ⟨.sell, h⟩), fun ⟨s, h⟩ => by
    cases s
    · exact .inl h
    · exact .inr h⟩

/-- No level is empty, and every order rests on its own side at its own price. -/
structure Placed (b : OrderBook P) : Prop where
  nonempty : ∀ s, ∀ e ∈ (b.levels s).entries, e.2 ≠ []
  at_key : ∀ s, ∀ e ∈ (b.levels s).entries, ∀ n ∈ e.2,
    n.order.side = s ∧ n.order.price = e.1 ∧ n.order.Resting

theorem Placed.entries (h : b.Placed) (s : Side) : ∀ e ∈ (b.levels s).entries, e.2 ≠ [] ∧
    ∀ n ∈ e.2, n.order.side = s ∧ n.order.price = e.1 ∧ n.order.Resting :=
  fun e he => ⟨h.nonempty s e he, h.at_key s e he⟩

theorem Placed.keyed (h : b.Placed) (s : Side) : Keyed (b.levels s).entries :=
  fun e he n hn => (h.at_key s e he n hn).2

theorem Placed.grouped (h : b.Placed) (s : Side) :
    OrdMap.Grouped (fun n : Node P => n.order.price) (b.levels s).entries :=
  ⟨h.nonempty s, fun e he n hn => (h.at_key s e he n hn).2.1⟩

/-- The levels of a side are told from its queue. -/
theorem Placed.levels_eq {c : OrderBook P} (h : b.Placed) (h' : c.Placed)
    (hq : b.queue s = c.queue s) : b.levels s = c.levels s :=
  OrdMap.ext ((h.grouped s).ext (h'.grouped s) (b.levels s).sorted (c.levels s).sorted hq)

theorem Placed.side (h : b.Placed) (hn : n ∈ b.queue s) : n.order.side = s := by
  obtain ⟨e, he, hn⟩ := mem_queue.mp hn
  exact (h.at_key s e he n hn).1

theorem Placed.resting (h : b.Placed) (hn : n ∈ b.queue s) : n.order.Resting := by
  obtain ⟨e, he, hn⟩ := mem_queue.mp hn
  exact (h.at_key s e he n hn).2.2

theorem Placed.congr {b c : OrderBook P} (h : b.Placed) (h₁ : c.bids = b.bids)
    (h₂ : c.asks = b.asks) : c.Placed :=
  ⟨fun s e he => h.nonempty s e (by rwa [← levels_congr h₁ h₂]),
    fun s e he => h.at_key s e (by rwa [← levels_congr h₁ h₂])⟩

/-- A book both of whose sides are placed. -/
theorem placed_of_sides (t : Side)
    (h : ∀ s, s = t ∨ s = t.opposite → ∀ e ∈ (b.levels s).entries, e.2 ≠ [] ∧ ∀ n ∈ e.2,
      n.order.side = s ∧ n.order.price = e.1 ∧ n.order.Resting) : b.Placed :=
  ⟨fun s e he => (h s (s.eq_or_eq_opposite t) e he).1,
    fun s e he => (h s (s.eq_or_eq_opposite t) e he).2⟩

theorem init_placed (symbol : List UInt8) : (init symbol : OrderBook P).Placed := by
  refine ⟨fun s e he => ?_, fun s e he => ?_⟩ <;> cases s <;> exact absurd he List.not_mem_nil

/-! ### Matching -/

/-- `match_limit_order` on `o`: the opposite queue is swept, the own one is left alone. -/
structure Swept (env : Env) (o : Order P) (b : OrderBook P) (m' : Matching P)
    (b' : OrderBook P) : Prop where
  sweep : Sweep b.symbol env o.side.opposite (b.queue o.side.opposite) (b.matching o)
    (b'.queue o.side.opposite) m'
  own : b'.queue o.side = b.queue o.side
  orderIndex : b'.orderIndex = m'.orderIndex
  trades : b'.trades = m'.trades
  nextTradeId : b'.nextTradeId = m'.nextTradeId
  nextNode : b'.nextNode = b.nextNode
  symbol : b'.symbol = b.symbol
  placed : b'.Placed

/-- The order `match_limit_order` returns. -/
theorem Swept.settled {env : Env} {o : Order P} {b' : OrderBook P} {m' : Matching P}
    (h : Swept env o b m' b') :
    ∃ st, settle m'.order = { o with filledQty := m'.order.filledQty, status := st } := by
  obtain ⟨f, hf⟩ := h.sweep.order
  obtain ⟨st, hst⟩ := settle_eq m'.order
  refine ⟨st, ?_⟩
  rw [hst, hf]
  rfl

theorem matchLimitOrder_swept (env : Env) {o : Order P} (hb : b.Placed) (ho : o.InRange) :
    ∃ m', (b.matchLimitOrder env o).1 = settle m'.order ∧
      Swept env o b m' (b.matchLimitOrder env o).2 := by
  set s := o.side.opposite with hs
  set r := matchLevels b.symbol env s (b.levels s).entries (b.matching o) with hr
  have hopp : ((b.matchLimitOrder env o).2.levels s).entries = r.1 := by
    rw [levels_congr (b := (b.matchLimitOrder env o).2) (c := b.setLevels s _) rfl rfl,
      levels_setLevels]
    rfl
  have hown : (b.matchLimitOrder env o).2.levels o.side = b.levels o.side := by
    rw [levels_congr (b := (b.matchLimitOrder env o).2) (c := b.setLevels s _) rfl rfl,
      levels_setLevels_of_ne _ (Side.opposite_ne _).symm]
  have hq : (b.matchLimitOrder env o).2.queue s = r.1.flatMap Prod.snd :=
    congrArg (List.flatMap Prod.snd) hopp
  have hsw : Sweep b.symbol env s (b.queue s) (b.matching o) (r.1.flatMap Prod.snd) r.2 :=
    matchLevels_sweep ho (hb.keyed s) (b.levels s).sorted
  refine ⟨r.2, rfl, ?_, ?_, rfl, ?_, rfl, rfl, rfl, placed_of_sides s fun t ht e he => ?_⟩
  · rw [hq]
    exact hsw
  · exact queue_congr hown
  · exact trades_setTrades (b.setLevels s _) r.2.trades
  · rcases ht with rfl | rfl
    · rw [hopp] at he
      obtain ⟨hne, e₀, he₀, hk, hsame⟩ :=
        matchLevels_same b.symbol env s _ _ (hb.nonempty s) e he
      refine ⟨hne, fun n hn => ?_⟩
      obtain ⟨n₀, hn₀, hn'⟩ := hsame n hn
      obtain ⟨h₁, h₂, -⟩ := hb.at_key s e₀ he₀ n₀ hn₀
      exact ⟨hn'.side.trans h₁, hn'.price.trans (h₂.trans hk),
        (hsw.resting ho fun n hn => hb.resting hn).2 n (List.mem_flatMap.mpr ⟨e, he, hn⟩)⟩
    · rw [hs, Side.opposite_opposite] at he ⊢
      rw [hown] at he
      exact hb.entries _ e he

/-! ### Resting -/

theorem levels_rest (b : OrderBook P) (o : Order P) :
    (b.rest o).2.levels o.side = (b.levels o.side).alter o.price
      fun l => some (l.getD [] ++ [⟨b.nextNode, o.entry⟩]) := by
  rw [levels_congr (b := (b.rest o).2) (c := b.setLevels o.side _) rfl rfl, levels_setLevels]

theorem levels_rest_opposite (b : OrderBook P) (o : Order P) :
    (b.rest o).2.levels o.side.opposite = b.levels o.side.opposite := by
  rw [levels_congr (b := (b.rest o).2) (c := b.setLevels o.side _) rfl rfl,
    levels_setLevels_of_ne _ (Side.opposite_ne _)]

/-- What is left of `o` joins its queue behind every order that is not worse priced. -/
structure Rested (o : Order P) (b b' : OrderBook P) : Prop where
  own : ∃ A B, b.queue o.side = A ++ B ∧ b'.queue o.side = A ++ ⟨b.nextNode, o.entry⟩ :: B ∧
    (∀ n ∈ A, ¬ o.side.Better o.price n.order.price) ∧
    ∀ n ∈ B, o.side.Better o.price n.order.price
  opposite : b'.queue o.side.opposite = b.queue o.side.opposite
  orderIndex : b'.orderIndex = b.orderIndex.insert o.id b.nextNode
  trades : b'.trades = b.trades
  nextTradeId : b'.nextTradeId = b.nextTradeId
  nextNode : b'.nextNode = b.nextNode + 1
  symbol : b'.symbol = b.symbol
  placed : b'.Placed

theorem rest_rested {o : Order P} (hb : b.Placed) (ho : o.InRange) (hf : o.isFilled = false)
    (ht : o.type = .limit) : Rested o b (b.rest o).2 := by
  set f : Option (OrderList P) → Option (OrderList P) :=
    fun l => some (l.getD [] ++ [⟨b.nextNode, o.entry⟩]) with hfdef
  have hown : (b.rest o).2.levels o.side = (b.levels o.side).alter o.price f := levels_rest b o
  have hopp := levels_rest_opposite b o
  have hsame := o.entry_same b.nextNode
  refine ⟨?_, queue_congr hopp, rfl, rfl, rfl, rfl, rfl,
    placed_of_sides o.side fun t ht' e he => ?_⟩
  · obtain ⟨A, B, hA, hB, hm, halt⟩ := (b.levels o.side).exists_split o.price
    refine ⟨A.flatMap Prod.snd ++ ((b.levels o.side).find o.price).getD [], B.flatMap Prod.snd,
      ?_, ?_, fun n hn => ?_, fun n hn => ?_⟩
    · rw [queue, hm]
      cases (b.levels o.side).find o.price <;> simp
    · rw [queue, hown, halt f]
      cases (b.levels o.side).find o.price <;> simp [hfdef]
    · rcases List.mem_append.mp hn with hn | hn
      · obtain ⟨e, he, hn⟩ := List.mem_flatMap.mp hn
        have hk := (hb.at_key o.side e (by rw [hm]; simp [he]) n hn).2.1
        rw [hk]
        exact (hA e he).asymm
      · cases hfind : (b.levels o.side).find o.price with
        | none => rw [hfind] at hn; exact absurd hn List.not_mem_nil
        | some l =>
            rw [hfind] at hn
            have hk := (hb.at_key o.side _ (OrdMap.find_eq_some_iff.mp hfind) n hn).2.1
            rw [hk]
            exact Side.Better.irrefl _ _
    · obtain ⟨e, he, hn⟩ := List.mem_flatMap.mp hn
      have hk := (hb.at_key o.side e (by rw [hm]; simp [he]) n hn).2.1
      rw [hk]
      exact hB e he
  · rcases ht' with rfl | rfl
    · rw [hown] at he
      exact OrdMap.forall_alter_join
        (T := fun k n => n.order.side = o.side ∧ n.order.price = k ∧ n.order.Resting)
        (hb.entries o.side) ⟨hsame.side, hsame.price, Order.entry_resting ho hf ht⟩ e he
    · rw [hopp] at he
      exact hb.entries _ e he

/-! ### Removing -/

/-- The orders `keep` rejects leave both queues, and their ids the index. -/
structure Removed (keep : Node P → Bool) (b b' : OrderBook P) : Prop where
  queue : ∀ s, b'.queue s = (b.queue s).filter keep
  lookup : ∀ id, b'.orderIndex.lookup id =
    if ∃ n ∈ b.nodes, keep n = false ∧ n.order.id = id then none else b.orderIndex.lookup id
  trades : b'.trades = b.trades
  nextTradeId : b'.nextTradeId = b.nextTradeId
  nextNode : b'.nextNode = b.nextNode
  symbol : b'.symbol = b.symbol
  placed : b'.Placed

/-- Cutting a level down to the orders `keep` lets stay removes the others from the queues. -/
theorem cutLevel_spec (keep : Node P → Bool) {k : P} {level : OrderList P} (hb : b.Placed)
    (hl : (b.levels s).find k = some level)
    (hk : ∀ t, ∀ n ∈ b.queue t, keep n = false → t = s ∧ n.order.price = k) :
    (∀ t, (b.cutLevel s k (level.filter keep)).queue t = (b.queue t).filter keep) ∧
      (b.cutLevel s k (level.filter keep)).Placed := by
  set rest := level.filter keep with hrest
  have hown : (b.cutLevel s k rest).levels s =
      (b.levels s).alter k fun _ => if rest.isEmpty then none else some rest :=
    levels_setLevels b s _
  have hopp : (b.cutLevel s k rest).levels s.opposite = b.levels s.opposite :=
    levels_setLevels_of_ne _ (Side.opposite_ne s)
  obtain ⟨A, B, hA, hB, hm, halt⟩ := (b.levels s).exists_split k
  rw [hl] at hm
  have stays : ∀ l : List (P × OrderList P), (∀ e ∈ l, e ∈ (b.levels s).entries ∧ e.1 ≠ k) →
      (l.flatMap Prod.snd).filter keep = l.flatMap Prod.snd := fun l hl' => by
    refine List.filter_eq_self.mpr fun n hn => ?_
    obtain ⟨e, he, hn⟩ := List.mem_flatMap.mp hn
    obtain ⟨he, hne⟩ := hl' e he
    by_contra hkeep
    obtain ⟨-, hp⟩ := hk s n (mem_queue.mpr ⟨e, he, hn⟩) (by simpa using hkeep)
    exact hne ((hb.at_key s e he n hn).2.1.symm.trans hp)
  refine ⟨fun t => ?_, placed_of_sides s fun t ht e he => ?_⟩
  · rcases t.eq_or_eq_opposite s with rfl | rfl
    · rw [OrderBook.queue, OrderBook.queue, hown, halt, hm]
      simp only [List.flatMap_append, List.filter_append]
      rw [stays A fun e he => ⟨by rw [hm]; simp [he], fun h => Side.Better.irrefl _ _ (h ▸ hA e he)⟩,
        stays B fun e he => ⟨by rw [hm]; simp [he], fun h => Side.Better.irrefl _ _ (h ▸ hB e he)⟩]
      congr 2
      cases h : rest.isEmpty with
      | true => simpa [hrest] using (List.isEmpty_iff.mp h).symm
      | false => simp [hrest]
    · rw [queue_congr hopp]
      refine (List.filter_eq_self.mpr fun n hn => ?_).symm
      by_contra hkeep
      exact Side.opposite_ne s (hk _ n hn (by simpa using hkeep)).1
  · rcases ht with rfl | rfl
    · rw [hown] at he
      have hlevel := hb.at_key t _ (OrdMap.find_eq_some_iff.mp hl)
      exact OrdMap.forall_alter_cut
        (T := fun k n => n.order.side = t ∧ n.order.price = k ∧ n.order.Resting)
        (hb.entries t) (fun n hn => hlevel n (List.mem_of_mem_filter hn)) e he
    · rw [hopp] at he
      exact hb.entries _ e he

/-- Addresses tell the nodes apart, the next one is new, and an iterator of the index designates a
live node that holds the id it is stored under. -/
structure Indexed (b : OrderBook P) : Prop where
  addr_lt : ∀ s, ∀ n ∈ b.queue s, n.addr < b.nextNode
  addr_nodup : (b.nodes.map Node.addr).Nodup
  live : ∀ id a, b.orderIndex.lookup id = some a → ∃ n ∈ b.nodes, n.addr = a ∧ n.order.id = id

theorem Indexed.eq_of_addr (h : b.Indexed) {n n' : Node P} (hn : n ∈ b.nodes) (hn' : n' ∈ b.nodes)
    (ha : n.addr = n'.addr) : n = n' :=
  List.inj_on_of_nodup_map h.addr_nodup hn hn' ha

theorem Indexed.deref (h : b.Indexed) (hn : n ∈ b.nodes) : b.deref n.addr = some n.order := by
  obtain ⟨n', hn'⟩ : ∃ n', b.nodes.find? (fun x => x.addr = n.addr) = some n' := by
    rw [← Option.isSome_iff_exists, List.find?_isSome]
    exact ⟨n, hn, by simp⟩
  have ha : n'.addr = n.addr := by simpa using List.find?_some hn'
  rw [OrderBook.deref, hn', h.eq_of_addr (List.mem_of_find?_eq_some hn') hn ha]
  rfl

/-- **Cancelling an indexed order** removes exactly the node its iterator designates; the level it
is erased from is the one that holds it. -/
theorem cancelOrder_removed (hb : b.Placed) (hi : b.Indexed) (hn : n ∈ b.nodes)
    (hx : b.orderIndex.lookup n.order.id = some n.addr) :
    ∃ b', b.cancelOrder n.order.id = some (true, b') ∧ Removed (fun x => x.addr ≠ n.addr) b b' := by
  obtain ⟨s, hs⟩ := mem_nodes.mp hn
  obtain ⟨e, he, hne⟩ := mem_queue.mp hs
  obtain ⟨hside, hprice, -⟩ := hb.at_key s e he n hne
  have hfind : (b.levels n.order.side).find n.order.price = some e.2 := by
    rw [hside, hprice]
    exact OrdMap.find_eq_some_iff.mpr he
  have hany : e.2.any (fun x => decide (x.addr = n.addr)) = true :=
    List.any_eq_true.mpr ⟨n, hne, by simp⟩
  -- the one rejected node is `n`
  have honly : ∀ x ∈ b.nodes, decide (x.addr ≠ n.addr) = false → x = n := fun x hx' h =>
    hi.eq_of_addr hx' hn (by simpa using h)
  obtain ⟨hq, hp⟩ := cutLevel_spec (fun x => x.addr ≠ n.addr) hb hfind fun t x hxt h => by
      obtain rfl := honly x (mem_nodes.mpr ⟨t, hxt⟩) h
      exact ⟨(hb.side hxt).symm, rfl⟩
  refine ⟨(b.cutLevel n.order.side n.order.price (e.2.filter fun x => x.addr ≠ n.addr)).setIndex
      (b.orderIndex.erase n.order.id), by
        simp only [cancelOrder, hx, hi.deref hn, hfind, hany, if_true],
    fun t => (queue_congr (levels_congr rfl rfl)).trans (hq t), fun id => ?_, rfl, rfl, rfl, rfl,
    hp.congr rfl rfl⟩
  by_cases hid : n.order.id = id
  · rw [if_pos ⟨n, hn, by simp, hid⟩, ← hid]
    exact AList.lookup_erase _ _
  · have : ¬ ∃ x ∈ b.nodes, decide (x.addr ≠ n.addr) = false ∧ x.order.id = id := by
      rintro ⟨x, hx', hk, hid'⟩
      exact hid (honly x hx' hk ▸ hid')
    rw [if_neg this]
    exact AList.lookup_erase_ne (Ne.symm hid)

theorem cancelOrder_unknown {id : Int32} (h : b.orderIndex.lookup id = none) :
    b.cancelOrder id = some (false, b) := by
  rw [cancelOrder, h]

/-- **Removing a level** removes the orders at its price and side. -/
theorem updateLevel_removed (hb : b.Placed) (side : Side) (price : P) :
    Removed (fun n => ¬ (n.order.side = side ∧ n.order.price = price)) b
      (b.updateLevel side price 0) := by
  have hat : ∀ t, ∀ n ∈ b.queue t,
      decide (¬ (n.order.side = side ∧ n.order.price = price)) = false →
        t = side ∧ n.order.price = price := fun t n hn h => by
    simp only [decide_eq_false_iff_not, not_not] at h
    exact ⟨(hb.side hn).symm.trans h.1, h.2⟩
  rw [updateLevel, if_pos rfl]
  cases hfind : (b.levels side).find price with
  | none =>
      -- no level, hence no order, at that price
      have hnone : ∀ t, ∀ n ∈ b.queue t,
          decide (¬ (n.order.side = side ∧ n.order.price = price)) = true := fun t n hn => by
        by_contra h
        obtain ⟨rfl, hp⟩ := hat t n hn (by simpa using h)
        obtain ⟨e, he, hne⟩ := mem_queue.mp hn
        have hk := (hb.at_key t e he n hne).2.1
        have : (b.levels t).find price = some e.2 :=
          OrdMap.find_eq_some_iff.mpr (by rw [← hp, hk]; exact he)
        rw [hfind] at this
        cases this
      refine ⟨fun t => (List.filter_eq_self.mpr (hnone t)).symm, fun id => ?_, rfl, rfl, rfl, rfl, hb⟩
      rw [if_neg]
      rintro ⟨n, hn, hk, -⟩
      obtain ⟨t, ht⟩ := mem_nodes.mp hn
      rw [hnone t n ht] at hk
      cases hk
  | some level =>
      have hmem := OrdMap.find_eq_some_iff.mp hfind
      have hlev : ∀ n ∈ level, n.order.side = side ∧ n.order.price = price := fun n hn =>
        ⟨(hb.at_key side _ hmem n hn).1, (hb.at_key side _ hmem n hn).2.1⟩
      have hcut : level.filter (fun n => ¬ (n.order.side = side ∧ n.order.price = price)) = [] :=
        List.filter_eq_nil_iff.mpr fun n hn => by simp [hlev n hn]
      obtain ⟨hq, hp⟩ := cutLevel_spec _ hb hfind hat
      rw [hcut] at hq hp
      refine ⟨fun t => (queue_congr (levels_congr rfl rfl)).trans (hq t), fun id => ?_, rfl, rfl, rfl,
        rfl, hp.congr rfl rfl⟩
      refine (lookup_eraseIds id level b.orderIndex).trans (if_congr ?_ rfl rfl)
      constructor
      · rintro ⟨n, hn, hid⟩
        exact ⟨n, mem_nodes.mpr ⟨side, mem_queue.mpr ⟨_, hmem, hn⟩⟩, by simp [hlev n hn], hid⟩
      · rintro ⟨n, hn, hk, hid⟩
        obtain ⟨t, ht⟩ := mem_nodes.mp hn
        obtain ⟨rfl, hp'⟩ := hat t n ht hk
        obtain ⟨e, he, hne⟩ := mem_queue.mp ht
        have hk' := (hb.at_key t e he n hne).2.1
        have : (b.levels t).find price = some e.2 :=
          OrdMap.find_eq_some_iff.mpr (by rw [← hp', hk']; exact he)
        rw [hfind] at this
        cases Option.some.inj this
        exact ⟨n, hne, hid⟩

theorem updateLevel_of_ne {size : Int32} (h : size ≠ 0) (side : Side) (price : P) :
    b.updateLevel side price size = b := if_neg h

end OrderBook

end Aspira
