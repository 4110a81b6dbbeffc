import Aspira.Book.Reachable

/-!
# Book — fills and trades

`filled_qty` against the trades that name an order's id.  `Sweep.ledger` says that one sweep adds to
each order's fill what the trades it generates say, and takes no order past its quantity; over a run
the fills are the ledger of the trades (`run_ledger`).

`modify_order` cancels and submits again, with nothing filled: the ledger of an id starts anew there
(`Accounts.mark`), and trades from before its latest modification are in no fill
(`modify_restarts_ledger`).
-/

namespace Aspira

variable {P : Type}

/-- The trade names the order `id`. -/
def Trade.Names (t : Trade P) (id : Int32) : Prop := t.buyOrderId = id ∨ t.sellOrderId = id

instance (t : Trade P) (id : Int32) : Decidable (t.Names id) :=
  inferInstanceAs (Decidable (_ ∨ _))

/-- The total quantity of the trades that name `id`. -/
def traded (id : Int32) (ts : List (Trade P)) : ℤ :=
  (ts.map fun t => if t.Names id then t.quantity.toInt else 0).sum

@[simp] theorem traded_nil (id : Int32) : traded id ([] : List (Trade P)) = 0 := rfl

theorem traded_cons (id : Int32) (t : Trade P) (ts : List (Trade P)) :
    traded id (t :: ts) = (if t.Names id then t.quantity.toInt else 0) + traded id ts := rfl

@[simp] theorem traded_append (id : Int32) (ts ts' : List (Trade P)) :
    traded id (ts ++ ts') = traded id ts + traded id ts' := by
  rw [traded, List.map_append, List.sum_append]
  rfl

/-! ### One sweep -/

section Deal

variable {symbol : List UInt8} {env : Env} {price : P} {m : Matching P} {o : Order P} {id : Int32}

/-- The trade of an incoming order with `o` names these two. -/
theorem deal_names : (m.deal symbol env price o).Names id ↔ id = m.order.id ∨ id = o.id := by
  unfold Trade.Names Matching.deal
  by_cases h : m.order.side = .buy
  · simp only [h, if_true]
    exact or_congr eq_comm eq_comm
  · simp only [h, if_false]
    exact or_comm.trans (or_congr eq_comm eq_comm)

theorem traded_deal (ts : List (Trade P)) (hid : id = m.order.id ∨ id = o.id) :
    traded id (m.deal symbol env price o :: ts) = (m.qty o).toInt + traded id ts := by
  rw [traded_cons, if_pos (deal_names.mpr hid)]
  rfl

theorem traded_deal_of_ne (ts : List (Trade P)) (hm : id ≠ m.order.id) (ho : id ≠ o.id) :
    traded id (m.deal symbol env price o :: ts) = traded id ts := by
  have hnot : ¬ (m.deal symbol env price o).Names id := fun h => (deal_names.mp h).elim hm ho
  rw [traded_cons, if_neg hnot, zero_add]

end Deal

section Sweep

/-- What the trades `new` of a sweep say of the fills: those of the incoming order, of the orders in
the queue, and of no other. -/
structure Entered (new : List (Trade P)) (q : OrderList P) (m : Matching P) (q' : OrderList P)
    (m' : Matching P) : Prop where
  trades : m'.trades = m.trades ++ new
  taker : m'.order.filledQty.toInt = m.order.filledQty.toInt + traded m.order.id new
  others : ∀ id, id ≠ m.order.id → (∀ n ∈ q, n.order.id ≠ id) → traded id new = 0
  kept : ∀ n' ∈ q', ∃ n ∈ q, n.Same n' ∧
    n'.order.filledQty.toInt = n.order.filledQty.toInt + traded n.order.id new
  bound : ∀ n ∈ q, n.order.filledQty.toInt + traded n.order.id new ≤ n.order.quantity.toInt

variable {symbol : List UInt8} {env : Env} {q q' : OrderList P} {m m' : Matching P}

/-- The first order of the queue is filled and goes; the sweep of the others is the rest of it. -/
theorem Entered.taken {n : Node P} {new : List (Trade P)} (hm : m.order.InRange)
    (hn : n.order.Resting) (h₀ : 0 < m.order.remaining) (hfirst : n.order.id ≠ m.order.id)
    (hne : ∀ x ∈ q, x.order.id ≠ m.order.id) (hlater : ∀ x ∈ q, x.order.id ≠ n.order.id)
    (h : Entered new q ((m.hit symbol env n.order.price n.order).unindex n.order.id) q' m') :
    Entered (m.deal symbol env n.order.price n.order :: new) (n :: q) m q' m' := by
  obtain ⟨htr, htk, hoth, hkept, hbound⟩ := h
  obtain ⟨-, hfill, htake, hle, -, -⟩ := hit_spec hm h₀ hn.inRange hn.remaining_pos
  refine ⟨?_, ?_, ?_, ?_, ?_⟩
  · rw [htr, Matching.unindex_trades]
    exact List.append_assoc ..
  · rw [htk, traded_deal new (.inl rfl)]
    show (m.order.fill _).filledQty.toInt + traded m.order.id new = _
    rw [htake, add_assoc]
  · intro id hid hnot
    rw [traded_deal_of_ne new hid (hnot n (List.mem_cons_self ..)).symm]
    exact hoth id hid fun x hx => hnot x (List.mem_cons_of_mem n hx)
  · intro x' hx'
    obtain ⟨x, hx, hs, hf⟩ := hkept x' hx'
    refine ⟨x, List.mem_cons_of_mem n hx, hs, ?_⟩
    rw [hf, traded_deal_of_ne new (hne x hx) (hlater x hx)]
  · intro x hx
    rcases List.mem_cons.mp hx with rfl | hx
    · rw [traded_deal new (.inr rfl), hoth x.order.id hfirst hlater, add_zero, ← hfill]
      exact hle
    · rw [traded_deal_of_ne new (hne x hx) (hlater x hx)]
      exact hbound x hx

/-- The first order of the queue is filled in part, and the sweep ends there. -/
theorem Entered.left {n : Node P} (hm : m.order.InRange) (hn : n.order.Resting)
    (hq : ∀ x ∈ q, x.order.Resting) (h₀ : 0 < m.order.remaining)
    (hne : ∀ x ∈ q, x.order.id ≠ m.order.id) (hlater : ∀ x ∈ q, x.order.id ≠ n.order.id) :
    Entered [m.deal symbol env n.order.price n.order] (n :: q) m
      ({ n with order := { n.order.fill (m.qty n.order) with status := .partFilled } } :: q)
      (m.hit symbol env n.order.price n.order) := by
  obtain ⟨-, hfill, htake, hle, -, -⟩ := hit_spec hm h₀ hn.inRange hn.remaining_pos
  refine ⟨rfl, ?_, ?_, ?_, ?_⟩
  · rw [traded_deal [] (.inl rfl), traded_nil, add_zero]
    exact htake
  · intro id hid hnot
    rw [traded_deal_of_ne [] hid (hnot n (List.mem_cons_self ..)).symm, traded_nil]
  · intro x' hx'
    rcases List.mem_cons.mp hx' with rfl | hx
    · refine ⟨n, List.mem_cons_self .., ⟨rfl, _, _, rfl⟩, ?_⟩
      rw [traded_deal [] (.inr rfl), traded_nil, add_zero]
      exact hfill
    · refine ⟨x', List.mem_cons_of_mem n hx, .refl x', ?_⟩
      rw [traded_deal_of_ne [] (hne x' hx) (hlater x' hx), traded_nil, add_zero]
  · intro x hx
    rcases List.mem_cons.mp hx with rfl | hx
    · rw [traded_deal [] (.inr rfl), traded_nil, add_zero, ← hfill]
      exact hle
    · rw [traded_deal_of_ne [] (hne x hx) (hlater x hx), traded_nil, add_zero]
      exact (hq x hx).filled_lt.le

/-- **Fills are what the trades say**, as long as the ids are different. -/
theorem Sweep.ledger [LinearOrder P] {s : Side} (h : Sweep symbol env s q m q' m')
    (hm : m.order.InRange) (hq : ∀ n ∈ q, n.order.Resting)
    (hnd : (q.map fun n => n.order.id).Nodup) (hne : ∀ n ∈ q, n.order.id ≠ m.order.id) :
    ∃ new, Entered new q m q' m' := by
  have hlater : ∀ {n : Node P} {q : OrderList P}, ((n :: q).map fun n => n.order.id).Nodup →
      ∀ x ∈ q, x.order.id ≠ n.order.id := fun hnd x hx hid =>
    (List.nodup_cons.mp hnd).1 (List.mem_map.mpr ⟨x, hx, hid⟩)
  revert hnd hne
  refine Sweep.live_induction (C := fun q m q' m' => (q.map fun n => n.order.id).Nodup →
    (∀ n ∈ q, n.order.id ≠ m.order.id) → ∃ new, Entered new q m q' m') ?_ ?_ ?_ h hm hq
  · intro q m hm hq _ _ _
    refine ⟨[], (List.append_nil _).symm, by simp, by simp, fun n hn => ⟨n, hn, .refl n, by simp⟩, ?_⟩
    intro n hn
    simpa using (hq n hn).filled_lt.le
  · intro n q q' m m' hm hn h₀ hb hfull ih hnd hne
    have hrest : ∀ x ∈ q, x.order.id ≠ m.order.id := fun x hx => hne x (List.mem_cons_of_mem n hx)
    obtain ⟨new, hent⟩ := ih (List.nodup_cons.mp hnd).2 hrest
    exact ⟨_, hent.taken hm hn h₀ (hne n (List.mem_cons_self ..)) hrest (hlater hnd)⟩
  · intro n q m hm hn hq h₀ hb hpart hnd hne
    exact ⟨_, .left hm hn hq h₀ (fun x hx => hne x (List.mem_cons_of_mem n hx)) (hlater hnd)⟩

end Sweep

/-! ### Accounts -/

/-- What the calls so far say of each id: how many trades there were at its latest modification, 0
if it was never modified, and the quantity it was last submitted with. -/
structure Accounts where
  mark : Int32 → ℕ
  size : Int32 → ℤ

namespace Accounts

/-- No call yet. -/
def start : Accounts := ⟨fun _ => 0, fun _ => 0⟩

variable [LinearOrder P]

/-- The accounts after a call on `b`. -/
def note (acc : Accounts) (b : OrderBook P) : BookOp P → Accounts
  | .add _ o | .addMarket _ o =>
      { acc with size := Function.update acc.size o.id o.quantity.toInt }
  | .modify _ id _ q =>
      if ∃ n ∈ b.nodes, n.order.id = id then
        ⟨Function.update acc.mark id b.trades.length, Function.update acc.size id q.toInt⟩
      else acc
  | _ => acc

/-- What `id` traded since its latest modification. -/
def since (acc : Accounts) (b : OrderBook P) (id : Int32) : ℤ :=
  traded id (b.trades.drop (acc.mark id))

end Accounts

namespace OrderBook

variable [LinearOrder P] {b b' : OrderBook P} {acc acc' : Accounts}

/-- Every fill is what the trades say, and no id traded more than its quantity. -/
structure Balanced (acc : Accounts) (b : OrderBook P) : Prop where
  fills : ∀ n ∈ b.nodes, n.order.filledQty.toInt = acc.since b n.order.id
  bound : ∀ id, acc.since b id ≤ acc.size id

/-- `Balanced`, and what its proof needs of the ids submitted so far. -/
structure Booked (used : Set Int32) (acc : Accounts) (b : OrderBook P) : Prop
    extends Balanced acc b where
  size : ∀ n ∈ b.nodes, n.order.quantity.toInt = acc.size n.order.id
  known : ∀ n ∈ b.nodes, n.order.id ∈ used
  unknown : ∀ id, id ∉ used → traded id b.trades = 0 ∧ acc.mark id = 0
  mark_le : ∀ id, acc.mark id ≤ b.trades.length

section Booked

variable {used : Set Int32} {env : Env} {o o' : Order P} {m' : Matching P} {id : Int32}

theorem Booked.since_append (h : Booked used acc b) {new : List (Trade P)}
    (hnew : b'.trades = b.trades ++ new) (id : Int32) :
    acc.since b' id = acc.since b id + traded id new := by
  rw [Accounts.since, hnew, List.drop_append_of_le_length (h.mark_le id), traded_append]
  rfl

/-- An id that does not rest gets a new account. -/
theorem Booked.opened (h : Booked used acc b) (hfresh : ∀ n ∈ b.nodes, n.order.id ≠ id)
    (hother : ∀ i, i ≠ id → acc'.mark i = acc.mark i ∧ acc'.size i = acc.size i)
    (hmark : acc'.mark id ≤ b.trades.length) (hzero : acc'.since b id = 0)
    (hsize : 0 ≤ acc'.size id) : Booked (insert id used) acc' b := by
  have hsince : ∀ i, i ≠ id → acc'.since b i = acc.since b i := fun i hi => by
    rw [Accounts.since, (hother i hi).1]
    rfl
  refine ⟨⟨fun n hn => ?_, fun i => ?_⟩, fun n hn => ?_, fun n hn => .inr (h.known n hn),
    fun i hi => ?_, fun i => ?_⟩
  · rw [hsince _ (hfresh n hn)]
    exact h.fills n hn
  · by_cases hi : i = id
    · rw [hi, hzero]
      exact hsize
    · rw [hsince i hi, (hother i hi).2]
      exact h.bound i
  · rw [(hother _ (hfresh n hn)).2]
    exact h.size n hn
  · rw [Set.mem_insert_iff, not_or] at hi
    rw [(hother i hi.1).1]
    exact h.unknown i hi.2
  · by_cases hi : i = id
    · rw [hi]
      exact hmark
    · rw [(hother i hi).1]
      exact h.mark_le i

/-- An incoming order whose account is open. -/
structure Opened (used : Set Int32) (acc : Accounts) (b : OrderBook P) (o : Order P) : Prop where
  unfilled : o.filledQty = 0
  fresh : ∀ n ∈ b.nodes, n.order.id ≠ o.id
  mem : o.id ∈ used
  zero : acc.since b o.id = 0
  size : acc.size o.id = o.quantity.toInt
  pos : 0 < o.quantity.toInt

/-- Matching enters its trades in the accounts. -/
theorem Swept.booked (hsw : Swept env o b m' b') (hp : b.Placed) (hu : b.Unique)
    (h : Booked used acc b) (ho : Opened used acc b o) :
    Booked used acc b' ∧ m'.order.filledQty.toInt = acc.since b' o.id := by
  have hin : (b.matching o).order.InRange := Order.inRange_of_unfilled ho.unfilled
  have hrest : ∀ n ∈ b.queue o.side.opposite, n.order.Resting := fun n hn => hp.resting hn
  have hopp : ∀ n ∈ b.queue o.side.opposite, n ∈ b.nodes := fun n hn => mem_nodes.mpr ⟨_, hn⟩
  obtain ⟨new, hent⟩ := hsw.sweep.ledger hin hrest (hu.queue_id_nodup _)
    fun n hn => ho.fresh n (hopp n hn)
  have htrades : b'.trades = b.trades ++ new := hsw.trades.trans hent.trades
  have hsince := h.since_append htrades
  -- the incoming order's fill is its account
  have htaker : m'.order.filledQty.toInt = acc.since b' o.id := by
    have hzero : (b.matching o).order.filledQty.toInt = 0 := by
      show o.filledQty.toInt = 0
      rw [ho.unfilled]
      exact Int32.toInt_zero
    rw [hsince, ho.zero, zero_add, hent.taker, hzero, zero_add]
    rfl
  refine ⟨⟨⟨fun n' hn' => ?_, fun i => ?_⟩, fun n' hn' => ?_, fun n' hn' => ?_, fun i hi => ?_,
    fun i => ?_⟩, htaker⟩
  · obtain ⟨s, hs⟩ := mem_nodes.mp hn'
    rw [hsince]
    rcases s.eq_or_eq_opposite o.side with rfl | rfl
    · -- an order on the incoming order's own side is in no trade
      rw [hsw.own] at hs
      have hmem : n' ∈ b.nodes := mem_nodes.mpr ⟨_, hs⟩
      rw [hent.others _ (ho.fresh n' hmem), add_zero]
      · exact h.fills n' hmem
      · intro n hn hid
        rw [hu.eq_of_id (hopp n hn) hmem hid] at hn
        exact Side.opposite_ne o.side ((hp.side hn).symm.trans (hp.side hs))
    · obtain ⟨n, hn, hsame, hf⟩ := hent.kept n' hs
      rw [hf, hsame.id, h.fills n (hopp n hn)]
  · by_cases hi : i = o.id
    · rw [hi, ho.size, ← htaker]
      have hle := (hsw.sweep.resting hin hrest).1.2
      obtain ⟨f, hf⟩ := hsw.sweep.order
      have hq : m'.order.quantity.toInt = o.quantity.toInt := by rw [hf]; rfl
      rw [hq, max_eq_right ho.pos.le] at hle
      exact hle
    · rw [hsince]
      by_cases hq : ∃ n ∈ b.queue o.side.opposite, n.order.id = i
      · obtain ⟨n, hn, rfl⟩ := hq
        rw [← h.fills n (hopp n hn), ← h.size n (hopp n hn)]
        exact hent.bound n hn
      · rw [hent.others i hi fun n hn hid => hq ⟨n, hn, hid⟩, add_zero]
        exact h.bound i
  · obtain ⟨s, hs⟩ := mem_nodes.mp hn'
    obtain ⟨n, hn, hsame⟩ := hsw.back hs
    rw [hsame.quantity, hsame.id]
    exact h.size n (mem_nodes.mpr ⟨s, hn⟩)
  · obtain ⟨s, hs⟩ := mem_nodes.mp hn'
    obtain ⟨n, hn, hsame⟩ := hsw.back hs
    rw [hsame.id]
    exact h.known n (mem_nodes.mpr ⟨s, hn⟩)
  · obtain ⟨h₁, h₂⟩ := h.unknown i hi
    have hne : i ≠ o.id := fun e => hi (e ▸ ho.mem)
    rw [htrades, traded_append, h₁, hent.others i hne fun n hn e => hi (e ▸ h.known n (hopp n hn))]
    exact ⟨rfl, h₂⟩
  · rw [htrades, List.length_append]
    exact (h.mark_le i).trans (Nat.le_add_right _ _)

theorem Removed.booked {keep : Node P → Bool} (hr : Removed keep b b') (h : Booked used acc b) :
    Booked used acc b' := by
  have hsince : ∀ i, acc.since b' i = acc.since b i := fun i => by
    rw [Accounts.since, hr.trades]
    rfl
  have hmem : ∀ n ∈ b'.nodes, n ∈ b.nodes := fun n hn => (hr.mem_nodes.mp hn).1
  refine ⟨⟨fun n hn => ?_, fun i => ?_⟩, fun n hn => h.size n (hmem n hn),
    fun n hn => h.known n (hmem n hn), fun i hi => ?_, fun i => ?_⟩
  · rw [hsince]
    exact h.fills n (hmem n hn)
  · rw [hsince]
    exact h.bound i
  · rw [hr.trades]
    exact h.unknown i hi
  · rw [hr.trades]
    exact h.mark_le i

theorem Rested.booked (hr : Rested o b b') (h : Booked used acc b) (hid : o.id ∈ used)
    (hsize : o.quantity.toInt = acc.size o.id) (hf : o.filledQty.toInt = acc.since b o.id) :
    Booked used acc b' := by
  have hsince : ∀ i, acc.since b' i = acc.since b i := fun i => by
    rw [Accounts.since, hr.trades]
    rfl
  obtain ⟨st, hst⟩ := o.entry_eq
  have hmem : ∀ n ∈ b'.nodes, n = ⟨b.nextNode, o.entry⟩ ∨ n ∈ b.nodes := fun n hn =>
    List.mem_cons.mp (hr.nodes_perm.mem_iff.mp hn)
  refine ⟨⟨fun n hn => ?_, fun i => ?_⟩, fun n hn => ?_, fun n hn => ?_, fun i hi => ?_, fun i => ?_⟩
  · rw [hsince]
    rcases hmem n hn with rfl | hn
    · rw [hst]
      exact hf
    · exact h.fills n hn
  · rw [hsince]
    exact h.bound i
  · rcases hmem n hn with rfl | hn
    · rw [hst]
      exact hsize
    · exact h.size n hn
  · rcases hmem n hn with rfl | hn
    · rw [hst]
      exact hid
    · exact h.known n hn
  · rw [hr.trades]
    exact h.unknown i hi
  · rw [hr.trades]
    exact h.mark_le i

theorem Added.booked (ha : Added env o b o' b') (hp : b.Placed) (hu : b.Unique)
    (h : Booked used acc b) (ho : Opened used acc b o) :
    Booked used acc b' ∧ o'.filledQty.toInt = acc.since b' o'.id := by
  cases ha with
  | done hsw =>
      obtain ⟨h', hf⟩ := hsw.booked hp hu h ho
      obtain ⟨st, hst⟩ := hsw.settled
      rw [hst]
      exact ⟨h', hf⟩
  | @rests m' b₁ _ hsw _ _ hr =>
      obtain ⟨h', hf⟩ := hsw.booked hp hu h ho
      obtain ⟨st, hst⟩ := hsw.settled
      rw [hst] at hr ⊢
      refine ⟨hr.booked h' ho.mem ho.size.symm hf, ?_⟩
      have hsince : acc.since b' o.id = acc.since b₁ o.id := by
        rw [Accounts.since, hr.trades]
        rfl
      split
      · exact hf.trans hsince.symm
      · exact hf.trans hsince.symm

end Booked

/-! ### Runs -/

/-- Orders are submitted with nothing filled and a positive quantity, and a modification is of a
resting order, to a positive quantity. -/
def Sound (b : OrderBook P) : BookOp P → Prop
  | .add _ o | .addMarket _ o => o.filledQty = 0 ∧ 0 < o.quantity.toInt
  | .modify _ id _ q => 0 < q.toInt ∧ ∃ n ∈ b.nodes, n.order.id = id
  | _ => True

instance (b : OrderBook P) (op : BookOp P) : Decidable (b.Sound op) :=
  match op with
  | .add _ o | .addMarket _ o =>
      inferInstanceAs (Decidable (o.filledQty = 0 ∧ 0 < o.quantity.toInt))
  | .modify _ id _ q =>
      inferInstanceAs (Decidable (0 < q.toInt ∧ ∃ n ∈ b.nodes, n.order.id = id))
  | .cancel _ | .updateLevel .. => inferInstanceAs (Decidable True)

end OrderBook

/-- The id a call submits an order under. -/
def BookOp.newId : BookOp P → Option Int32
  | .add _ o | .addMarket _ o => some o.id
  | _ => none

/-- The ids used once the call is made. -/
def BookOp.uses (used : Set Int32) (op : BookOp P) : Set Int32 :=
  match op.newId with
  | some id => insert id used
  | none => used

namespace OrderBook

variable [LinearOrder P] {b b' : OrderBook P} {acc : Accounts} {used : Set Int32} {op : BookOp P}
  {r : BookResult P}

/-- The order a call returns, if it returns one, is filled as its account says. -/
def Returned (acc : Accounts) (b : OrderBook P) (r : BookResult P) : Prop :=
  ∀ o, r = .order o → o.filledQty.toInt = acc.since b o.id

/-- A submission under an id not used before. -/
theorem Booked.submitted (h : Booked used acc b) {o : Order P} (hid : o.id ∉ used)
    (ho : o.filledQty = 0) (hq : 0 < o.quantity.toInt) {acc' : Accounts}
    (hacc : acc' = { acc with size := Function.update acc.size o.id o.quantity.toInt }) :
    Booked (insert o.id used) acc' b ∧ Opened (insert o.id used) acc' b o := by
  subst hacc
  have hfresh : ∀ n ∈ b.nodes, n.order.id ≠ o.id := fun n hn e => hid (e ▸ h.known n hn)
  have hzero : ({ acc with size := Function.update acc.size o.id o.quantity.toInt } : Accounts).since
      b o.id = 0 := by
    show traded o.id (b.trades.drop (acc.mark o.id)) = 0
    rw [(h.unknown o.id hid).2, List.drop_zero]
    exact (h.unknown o.id hid).1
  have hsize : Function.update acc.size o.id o.quantity.toInt o.id = o.quantity.toInt :=
    Function.update_self ..
  exact ⟨h.opened hfresh (fun i hi => ⟨rfl, Function.update_of_ne hi ..⟩) (h.mark_le o.id) hzero
      (hq.le.trans hsize.ge), ho, hfresh, Set.mem_insert _ _, hzero, hsize, hq⟩

/-- A resting order is taken out, and its account starts anew. -/
theorem Booked.resubmitted (h : Booked used acc b) {n : Node P} (hn : n ∈ b.nodes) (hu : b.Unique)
    (hr : Removed (fun x => x.addr ≠ n.addr) b b') {p : P} {q : Int32} (hq : 0 < q.toInt)
    {acc' : Accounts} (hacc : acc' = ⟨Function.update acc.mark n.order.id b.trades.length,
      Function.update acc.size n.order.id q.toInt⟩) :
    Booked used acc' b' ∧ Opened used acc' b' (OrderBook.resubmitted n.order p q) := by
  have hfresh : ∀ x ∈ b'.nodes, x.order.id ≠ n.order.id := fun x hx e => by
    obtain ⟨hx, hk⟩ := hr.mem_nodes.mp hx
    rw [hu.eq_of_id hx hn e] at hk
    simp at hk
  have hmark : acc'.mark n.order.id = b'.trades.length := by
    rw [hacc, hr.trades]
    exact Function.update_self ..
  have hsize : acc'.size n.order.id = q.toInt := by
    rw [hacc]
    exact Function.update_self ..
  have hzero : acc'.since b' n.order.id = 0 := by
    rw [Accounts.since, hmark, List.drop_length, traded_nil]
  have hother : ∀ i, i ≠ n.order.id → acc'.mark i = acc.mark i ∧ acc'.size i = acc.size i := by
    intro i hi
    rw [hacc]
    exact ⟨Function.update_of_ne hi .., Function.update_of_ne hi ..⟩
  have h' := (hr.booked h).opened hfresh hother hmark.le hzero (hq.le.trans hsize.ge)
  rw [Set.insert_eq_of_mem (h.known n hn)] at h'
  exact ⟨h', rfl, hfresh, h.known n hn, hzero, hsize, hq⟩

/-- **One call.** -/
theorem BookStep.booked [Zero P] (hs : BookStep b op r b') (hp : b.Placed) (hu : b.Unique)
    (h : Booked used acc b) (hop : b.Sound op) (hnew : ∀ id ∈ op.newId, id ∉ used) :
    Booked (op.uses used) (acc.note b op) b' ∧ Returned (acc.note b op) b' r := by
  have noOrder : ∀ {acc : Accounts} {c : OrderBook P} {r : BookResult P},
      (∀ o, r ≠ .order o) → Returned acc c r := fun hne o e => absurd e (hne o)
  cases hs with
  | @add _ o o' _ ha =>
      obtain ⟨h₁, ho⟩ := h.submitted (hnew o.id rfl) hop.1 hop.2 rfl
      obtain ⟨h', hf⟩ := ha.booked hp hu h₁ ho
      refine ⟨h', fun _ e => ?_⟩
      cases e
      exact hf
  | @addMarket _ o m' _ hsw =>
      obtain ⟨h₁, ho⟩ := h.submitted (o := o.asMarket) (hnew o.id rfl) hop.1 hop.2 rfl
      obtain ⟨h', hf⟩ := (Added.done hsw (.inr rfl)).booked hp hu h₁ ho
      refine ⟨h', fun _ e => ?_⟩
      cases e
      exact hf
  | cancelMiss => exact ⟨h, noOrder fun _ => nofun⟩
  | cancelHit _ _ hr => exact ⟨hr.booked h, noOrder fun _ => nofun⟩
  | modifyMiss hx =>
      -- the order that is modified rests
      obtain ⟨n, hn, rfl⟩ := hop.2
      rw [hu.designated n hn] at hx
      cases hx
  | @modifyHit env n p q _ _ _ hn _ hr ha =>
      have hacc : acc.note b (.modify env n.order.id p q) = _ := if_pos ⟨n, hn, rfl⟩
      obtain ⟨h₁, ho⟩ := h.resubmitted hn hu hr hop.1 hacc
      obtain ⟨h', hf⟩ := ha.booked hr.placed (hr.unique hu) h₁ ho
      refine ⟨h', fun _ e => ?_⟩
      cases e
      exact hf
  | cutLevel hr => exact ⟨hr.booked h, noOrder fun _ => nofun⟩
  | keepLevel => exact ⟨h, noOrder fun _ => nofun⟩

/-- The fills are the ledger of the trades along the calls: in every book, and for every order a
call returns. -/
def Ledgered [Zero P] : OrderBook P → Accounts → List (BookOp P) → Prop
  | b, acc, [] => Balanced acc b
  | b, acc, op :: ops => Balanced acc b ∧ ∃ r b', b.step op = some (r, b') ∧
      Returned (acc.note b op) b' r ∧ Ledgered b' (acc.note b op) ops

omit [LinearOrder P] in
/-- An id that is used later is not used now. -/
theorem notMem_uses {ops : List (BookOp P)}
    (hid : ((op :: ops).filterMap BookOp.newId).Nodup)
    (hused : ∀ id ∈ (op :: ops).filterMap BookOp.newId, id ∉ used) :
    ∀ id ∈ ops.filterMap BookOp.newId, id ∉ op.uses used := by
  intro id hmem
  unfold BookOp.uses
  cases e : op.newId with
  | none =>
      rw [List.filterMap_cons_none e] at hused
      exact hused id hmem
  | some i =>
      rw [List.filterMap_cons_some e] at hid hused
      rintro (rfl | h)
      · exact (List.nodup_cons.mp hid).1 hmem
      · exact hused id (List.mem_cons_of_mem i hmem) h

theorem Booked.ledgered [Zero P] : ∀ {ops : List (BookOp P)} {b : OrderBook P} {acc : Accounts}
    {used : Set Int32}, Booked used acc b → b.Placed → b.Indexed → b.Unique →
      (ops.filterMap BookOp.newId).Nodup → (∀ id ∈ ops.filterMap BookOp.newId, id ∉ used) →
      Run.Along step Sound b ops → Ledgered b acc ops
  | [], _, _, _, h, _, _, _, _, _, _ => h.toBalanced
  | op :: ops, b, acc, used, h, hp, hi, hu, hid, hused, ha => by
      have hnew : ∀ id ∈ op.newId, id ∉ used := fun id e =>
        hused id (by rw [List.filterMap_cons_some e]; exact List.mem_cons_self ..)
      have hfresh : b.FreshId op := by
        cases op with
        | add _ o => exact ⟨ha.1.1, fun n hn e => hnew o.id rfl (e ▸ h.known n hn)⟩
        | addMarket _ o => exact ⟨ha.1.1, trivial⟩
        | cancel _ => exact ⟨trivial, trivial⟩
        | modify _ _ _ _ => exact ⟨trivial, trivial⟩
        | updateLevel _ _ _ => exact ⟨trivial, trivial⟩
      obtain ⟨r, b', hstep, hs⟩ := step_bookStep hp hi hfresh.1
      obtain ⟨h', hret⟩ := hs.booked hp hu h ha.1 hnew
      refine ⟨h.toBalanced, r, b', hstep, hret, h'.ledgered (hs.placed hp) (hs.indexed hi)
        (hs.unique hp hu hfresh) ?_ (notMem_uses hid hused) ?_⟩
      · exact hid.sublist ((List.sublist_cons_self op ops).filterMap _)
      · exact ha.tail hstep

/-- **Fills are the ledger of the trades since the latest modification.**  When every order is
submitted under a new id, at every point of the run each resting order is filled by what the trades
that name its id say, counted from its latest modification, and no id traded more than its quantity
since then. -/
theorem run_ledger [Zero P] {symbol : List UInt8} {ops : List (BookOp P)}
    (hid : (ops.filterMap BookOp.newId).Nodup) (h : Run.Along step Sound (init symbol) ops) :
    Ledgered (init symbol) Accounts.start ops := by
  have hnil : ∀ n ∈ (init symbol : OrderBook P).nodes, False := fun n hn =>
    absurd hn List.not_mem_nil
  have hstart : Booked ∅ Accounts.start (init symbol : OrderBook P) :=
    { fills := fun n hn => (hnil n hn).elim
      bound := fun _ => le_rfl
      size := fun n hn => (hnil n hn).elim
      known := fun n hn => (hnil n hn).elim
      unknown := fun _ _ => ⟨rfl, rfl⟩
      mark_le := fun _ => le_rfl }
  exact hstart.ledgered (init_placed symbol) (init_indexed symbol) (init_unique symbol) hid
    (fun _ _ h => h) h

/-- A sell order of ten is filled by four, modified to ten again, and filled by nine. -/
def refilledCalls : List (BookOp ℤ) :=
  let bid : Order ℤ := Order.blank
  [.add .still { bid with id := 1, side := .sell, price := 100, quantity := 10 },
    .add .still { bid with id := 2, price := 100, quantity := 4 },
    .modify .still 1 100 10,
    .add .still { bid with id := 3, price := 100, quantity := 9 }]

theorem run_ledger_refilledCalls :
    (refilledCalls.filterMap BookOp.newId).Nodup ∧ Run.Along step Sound (init []) refilledCalls ∧
      Ledgered (init []) Accounts.start refilledCalls :=
  ⟨by decide, by decide, run_ledger (by decide) (by decide)⟩

/-- **A modified order's fill is not the ledger of all its trades**, and it trades more than ever was
its quantity. -/
theorem modify_restarts_ledger :
    (refilledCalls.filterMap BookOp.newId).Nodup ∧ Run.Along step Sound (init []) refilledCalls ∧
      ∃ rs b, (init []).run refilledCalls = some (rs, b) ∧ ∃ n ∈ b.nodes,
        n.order.filledQty.toInt = 9 ∧ traded n.order.id b.trades = 13 ∧ n.order.quantity = 10 :=
  ⟨by decide, by decide, _, _, rfl, by decide⟩

end OrderBook

end Aspira
