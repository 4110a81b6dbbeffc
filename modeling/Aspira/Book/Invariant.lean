import Aspira.Book.Moves

/-!
# Book — the representation invariant

What every call keeps of a book, whatever the ids: `Placed`, and `Indexed` (an iterator stored in
`order_index_` designates a live node with that id).  `BookStep` says what one call does as a
composition of the moves of `Moves.lean`, and `step_bookStep` that from a placed and indexed book
every call returns and does that: no call reads or erases through a dead iterator.

When no id is added while it rests, the index is also complete (`Unique`): each id designates the one
node that holds it, and each node is designated.
-/

namespace Aspira

/-- The incoming order of a call has nothing filled yet. -/
def BookOp.Unfilled {P : Type} : BookOp P → Prop
  | .add _ o | .addMarket _ o => o.filledQty = 0
  | _ => True

instance {P : Type} (op : BookOp P) : Decidable op.Unfilled :=
  match op with
  | .add _ o | .addMarket _ o => inferInstanceAs (Decidable (o.filledQty = 0))
  | .cancel _ | .modify .. | .updateLevel .. => inferInstanceAs (Decidable True)

namespace OrderBook

variable {P : Type} [LinearOrder P] {b b' : OrderBook P}

/-! ### The nodes of both sides -/

theorem map_nodes_sublist {A : Type} (f : Node P → A)
    (h : ∀ s, ((b'.queue s).map f).Sublist ((b.queue s).map f)) :
    (b'.nodes.map f).Sublist (b.nodes.map f) := by
  rw [nodes, nodes, List.map_append, List.map_append]
  exact (h .buy).append (h .sell)

/-- **Nodes may leave an indexed book** with the index entries that designate them. -/
theorem Indexed.of_kept (hi : b.Indexed)
    (hsub : ∀ s, ((b'.queue s).map Node.addr).Sublist ((b.queue s).map Node.addr))
    (hlook : ∀ id a, b'.orderIndex.lookup id = some a → b.orderIndex.lookup id = some a)
    (hkeep : ∀ s, ∀ n ∈ b.queue s, b'.orderIndex.lookup n.order.id = some n.addr →
      ∃ n' ∈ b'.queue s, n.Same n')
    (hnext : b'.nextNode = b.nextNode) : b'.Indexed := by
  refine ⟨fun s n' hn' => ?_, ?_, fun id a hx => ?_⟩
  · obtain ⟨n, hn, ha⟩ := List.mem_map.mp ((hsub s).subset (List.mem_map_of_mem hn'))
    rw [hnext, ← ha]
    exact hi.addr_lt s n hn
  · exact hi.addr_nodup.sublist (map_nodes_sublist Node.addr hsub)
  · obtain ⟨n, hn, rfl, rfl⟩ := hi.live id a (hlook id a hx)
    obtain ⟨s, hs⟩ := mem_nodes.mp hn
    obtain ⟨n', hn', hsame⟩ := hkeep s n hs hx
    exact ⟨n', mem_nodes.mpr ⟨s, hn'⟩, hsame.1, hsame.id⟩

/-- **A node may join an indexed book** at the next address. -/
theorem Indexed.of_joined (hi : b.Indexed) {x : Node P} (hperm : b'.nodes.Perm (x :: b.nodes))
    (haddr : x.addr = b.nextNode)
    (hix : b'.orderIndex = b.orderIndex.insert x.order.id b.nextNode)
    (hnext : b'.nextNode = b.nextNode + 1) : b'.Indexed := by
  have hlt : ∀ n ∈ b.nodes, n.addr < b.nextNode := fun n hn => by
    obtain ⟨s, hs⟩ := mem_nodes.mp hn
    exact hi.addr_lt s n hs
  refine ⟨fun s n hn => ?_, ?_, fun id a hx => ?_⟩
  · rw [hnext]
    rcases List.mem_cons.mp (hperm.mem_iff.mp (mem_nodes.mpr ⟨s, hn⟩)) with rfl | hn
    · exact haddr ▸ Nat.lt_succ_self _
    · exact (hlt n hn).trans (Nat.lt_succ_self _)
  · rw [(hperm.map Node.addr).nodup_iff, List.map_cons, List.nodup_cons]
    refine ⟨fun hmem => ?_, hi.addr_nodup⟩
    obtain ⟨n, hn, ha⟩ := List.mem_map.mp hmem
    exact Nat.lt_irrefl _ ((ha.trans haddr) ▸ hlt n hn)
  · rw [hix] at hx
    by_cases hid : id = x.order.id
    · subst hid
      rw [AList.lookup_insert] at hx
      exact ⟨x, hperm.mem_iff.mpr (List.mem_cons_self ..), haddr.trans (Option.some.inj hx), rfl⟩
    · rw [AList.lookup_insert_ne hid] at hx
      obtain ⟨n, hn, ha⟩ := hi.live id a hx
      exact ⟨n, hperm.mem_iff.mpr (List.mem_cons_of_mem _ hn), ha⟩

section Swept

variable {env : Env} {o : Order P} {m' : Matching P}

/-- The orders a sweep takes, and the ones it leaves. -/
theorem Swept.split (h : Swept env o b m' b') :
    ∃ gone kept, b.queue o.side.opposite = gone ++ kept ∧
      List.Forall₂ Node.Same kept (b'.queue o.side.opposite) ∧
      b'.orderIndex = eraseIds b.orderIndex gone := by
  obtain ⟨gone, kept, hq, hk, hix⟩ := h.sweep.split
  exact ⟨gone, kept, hq, hk, h.orderIndex.trans hix⟩

theorem Swept.map_sublist (h : Swept env o b m' b') {A : Type} (f : Node P → A)
    (hf : ∀ n n', n.Same n' → f n' = f n) (s : Side) :
    ((b'.queue s).map f).Sublist ((b.queue s).map f) := by
  rcases s.eq_or_eq_opposite o.side with rfl | rfl
  · rw [h.own]
  · obtain ⟨gone, kept, hq, hk, -⟩ := h.split
    rw [forall₂_same_map f hf hk, hq, List.map_append]
    exact List.sublist_append_right _ _

/-- A node after the sweep was there before it, with another fill at most. -/
theorem Swept.back (h : Swept env o b m' b') {s : Side} {n' : Node P} (hn : n' ∈ b'.queue s) :
    ∃ n ∈ b.queue s, n.Same n' := by
  rcases s.eq_or_eq_opposite o.side with rfl | rfl
  · rw [h.own] at hn
    exact ⟨n', hn, Node.Same.refl n'⟩
  · obtain ⟨gone, kept, hq, hk, -⟩ := h.split
    obtain ⟨n, hn', hs⟩ := exists_same_of_mem hk hn
    exact ⟨n, by rw [hq]; exact List.mem_append_right _ hn', hs⟩

/-- A node whose id no longer looks up the same was taken; any other is still there. -/
theorem Swept.forth (h : Swept env o b m' b') {s : Side} {n : Node P} (hn : n ∈ b.queue s)
    {a : Nat} (hx : b'.orderIndex.lookup n.order.id = some a) :
    b.orderIndex.lookup n.order.id = some a ∧ ∃ n' ∈ b'.queue s, n.Same n' := by
  obtain ⟨gone, kept, hq, hk, hix⟩ := h.split
  rw [hix, lookup_eraseIds] at hx
  split at hx
  · cases hx
  · rename_i hgone
    refine ⟨hx, ?_⟩
    rcases s.eq_or_eq_opposite o.side with rfl | rfl
    · exact ⟨n, by rw [h.own]; exact hn, Node.Same.refl n⟩
    · rw [hq] at hn
      rcases List.mem_append.mp hn with hn | hn
      · exact absurd ⟨n, hn, rfl⟩ hgone
      · exact exists_same_of_mem_left hk hn

theorem Swept.lookup_back (h : Swept env o b m' b') {id : Int32} {a : Nat}
    (hx : b'.orderIndex.lookup id = some a) : b.orderIndex.lookup id = some a := by
  obtain ⟨gone, kept, -, -, hix⟩ := h.split
  rw [hix, lookup_eraseIds] at hx
  split at hx
  · cases hx
  · exact hx

theorem Swept.indexed (h : Swept env o b m' b') (hi : b.Indexed) : b'.Indexed :=
  hi.of_kept (fun s => h.map_sublist Node.addr (fun _ _ hs => hs.1) s)
    (fun _ _ hx => h.lookup_back hx) (fun _ _ hn hx => (h.forth hn hx).2) h.nextNode

end Swept

/-- The nodes after one joined the queue of a side. -/
theorem nodes_perm_of_join {t : Side} {x : Node P} {A B : OrderList P} (hq : b.queue t = A ++ B)
    (hq' : b'.queue t = A ++ x :: B) (hopp : b'.queue t.opposite = b.queue t.opposite) :
    b'.nodes.Perm (x :: b.nodes) := by
  unfold nodes
  cases t with
  | buy =>
      rw [show b'.queue .sell = b.queue .sell from hopp, hq, hq', List.append_assoc,
        List.append_assoc]
      exact List.perm_middle
  | sell =>
      rw [show b'.queue .buy = b.queue .buy from hopp, hq, hq', ← List.append_assoc,
        ← List.append_assoc]
      exact List.perm_middle

theorem Rested.nodes_perm {o : Order P} (h : Rested o b b') :
    b'.nodes.Perm (⟨b.nextNode, o.entry⟩ :: b.nodes) := by
  obtain ⟨A, B, hq, hq', -, -⟩ := h.own
  exact nodes_perm_of_join hq hq' h.opposite

theorem Rested.mem_queue {o : Order P} (h : Rested o b b') {s : Side} {n : Node P} :
    n ∈ b'.queue s ↔ n ∈ b.queue s ∨ s = o.side ∧ n = ⟨b.nextNode, o.entry⟩ := by
  rcases s.eq_or_eq_opposite o.side with rfl | rfl
  · obtain ⟨A, B, hq, hq', -, -⟩ := h.own
    rw [hq, hq']
    simp only [List.mem_append, List.mem_cons, true_and]
    tauto
  · rw [h.opposite]
    exact ⟨.inl, fun h => h.elim id fun h => absurd h.1 (Side.opposite_ne _)⟩

theorem Rested.indexed {o : Order P} (h : Rested o b b') (hi : b.Indexed) : b'.Indexed := by
  refine hi.of_joined h.nodes_perm rfl ?_ h.nextNode
  rw [h.orderIndex, (o.entry_same b.nextNode).id]

section Removed

variable {keep : Node P → Bool}

theorem Removed.mem_nodes (h : Removed keep b b') {n : Node P} :
    n ∈ b'.nodes ↔ n ∈ b.nodes ∧ keep n = true := by
  simp only [OrderBook.mem_nodes, h.queue, List.mem_filter]
  exact ⟨fun ⟨s, hn, hk⟩ => ⟨⟨s, hn⟩, hk⟩, fun ⟨⟨s, hn⟩, hk⟩ => ⟨s, hn, hk⟩⟩

theorem Removed.nodes (h : Removed keep b b') : b'.nodes = b.nodes.filter keep := by
  rw [OrderBook.nodes, OrderBook.nodes, h.queue, h.queue, List.filter_append]

theorem Removed.lookup_back (h : Removed keep b b') {id : Int32} {a : Nat}
    (hx : b'.orderIndex.lookup id = some a) : b.orderIndex.lookup id = some a := by
  rw [h.lookup] at hx
  split at hx
  · cases hx
  · exact hx

theorem Removed.indexed (h : Removed keep b b') (hi : b.Indexed) : b'.Indexed := by
  refine hi.of_kept (fun s => ?_) (fun _ _ hx => h.lookup_back hx) (fun s n hn hx => ?_) h.nextNode
  · rw [h.queue]
    exact List.filter_sublist.map _
  · refine ⟨n, ?_, Node.Same.refl n⟩
    rw [h.queue, List.mem_filter]
    refine ⟨hn, ?_⟩
    by_contra hk
    rw [h.lookup, if_pos ⟨n, OrderBook.mem_nodes.mpr ⟨s, hn⟩, by simpa using hk, rfl⟩] at hx
    cases hx

end Removed

/-! ### One call -/

/-- `add_order`: the sweep, and then the order rests if it is a limit order with something left. -/
inductive Added (env : Env) (o : Order P) (b : OrderBook P) : Order P → OrderBook P → Prop where
  | done {m' : Matching P} {b' : OrderBook P} (h : Swept env o b m' b')
      (hd : (settle m'.order).isFilled = true ∨ o.type = .market) :
      Added env o b (settle m'.order) b'
  | rests {m' : Matching P} {b₁ b' : OrderBook P} (h : Swept env o b m' b₁)
      (hf : (settle m'.order).isFilled = false) (ht : o.type = .limit)
      (hr : Rested (settle m'.order) b₁ b') :
      Added env o b
        (if 0 < m'.order.filledQty then { settle m'.order with status := .partFilled }
          else settle m'.order) b'

/-- What `add_order` or `modify_order` submits for a resting order it replaces. -/
def resubmitted (o : Order P) (newPrice : P) (newQty : Int32) : Order P :=
  { o with price := newPrice, quantity := newQty, filledQty := 0, status := .new }

/-- What one call does, as moves. -/
inductive BookStep [Zero P] (b : OrderBook P) :
    BookOp P → BookResult P → OrderBook P → Prop where
  | add {env : Env} {o o' : Order P} {b' : OrderBook P} (h : Added env o b o' b') :
      BookStep b (.add env o) (.order o') b'
  | addMarket {env : Env} {o : Order P} {m' : Matching P} {b' : OrderBook P}
      (h : Swept env o.asMarket b m' b') :
      BookStep b (.addMarket env o) (.order (settle m'.order)) b'
  | cancelMiss {id : Int32} (h : b.orderIndex.lookup id = none) :
      BookStep b (.cancel id) (.flag false) b
  | cancelHit {n : Node P} {b' : OrderBook P} (hn : n ∈ b.nodes)
      (hx : b.orderIndex.lookup n.order.id = some n.addr)
      (h : Removed (fun x => x.addr ≠ n.addr) b b') :
      BookStep b (.cancel n.order.id) (.flag true) b'
  | modifyMiss {env : Env} {id : Int32} {p : P} {q : Int32} (h : b.orderIndex.lookup id = none) :
      BookStep b (.modify env id p q)
        (.order { Order.blank with id := invalidOrderId, status := .rejected }) b
  | modifyHit {env : Env} {n : Node P} {p : P} {q : Int32} {o' : Order P} {b₁ b' : OrderBook P}
      (hn : n ∈ b.nodes) (hx : b.orderIndex.lookup n.order.id = some n.addr)
      (h : Removed (fun x => x.addr ≠ n.addr) b b₁)
      (ha : Added env (resubmitted n.order p q) b₁ o' b') :
      BookStep b (.modify env n.order.id p q) (.order o') b'
  | cutLevel {side : Side} {price : P} {b' : OrderBook P}
      (h : Removed (fun n => ¬ (n.order.side = side ∧ n.order.price = price)) b b') :
      BookStep b (.updateLevel side price 0) .done b'
  | keepLevel {side : Side} {price : P} {size : Int32} (h : size ≠ 0) :
      BookStep b (.updateLevel side price size) .done b

section Calls

variable {env : Env} {o o' : Order P}

theorem addOrder_added (env : Env) (hb : b.Placed) (ho : o.filledQty = 0) :
    Added env o b (b.addOrder env o).1 (b.addOrder env o).2 := by
  have hr := Order.inRange_of_unfilled ho
  obtain ⟨m', h₁, hsw⟩ := matchLimitOrder_swept env hb hr
  obtain ⟨f, hf⟩ := hsw.sweep.order
  have htype : (settle m'.order).type = o.type := by rw [settle_type, hf]; rfl
  unfold addOrder
  dsimp only
  split
  · rename_i h
    rw [h₁] at h ⊢
    have hin : (settle m'.order).InRange :=
      settle_inRange.mpr (hsw.sweep.resting hr fun n hn => hb.resting hn).1
    have := Added.rests hsw h.1 (htype ▸ h.2) (rest_rested hsw.placed hin h.1 h.2)
    rwa [← settle_filledQty] at this
  · rename_i h
    rw [h₁] at h ⊢
    refine .done hsw ?_
    by_contra hno
    rw [not_or] at hno
    refine h ⟨by simpa using hno.1, ?_⟩
    rw [htype]
    cases ht : o.type with
    | limit => rfl
    | market => exact absurd ht hno.2

theorem Added.placed (h : Added env o b o' b') : b'.Placed := by
  cases h with
  | done h => exact h.placed
  | rests _ _ _ hr => exact hr.placed

theorem Added.indexed (h : Added env o b o' b') (hi : b.Indexed) : b'.Indexed := by
  cases h with
  | done h => exact h.indexed hi
  | rests h _ _ hr => exact hr.indexed (h.indexed hi)

end Calls

section Steps

variable [Zero P] {op : BookOp P} {r : BookResult P}

/-- **Every call returns, and does what `BookStep` says.** -/
theorem step_bookStep (hb : b.Placed) (hi : b.Indexed) (ho : op.Unfilled) :
    ∃ r b', b.step op = some (r, b') ∧ BookStep b op r b' := by
  cases op with
  | add env o => exact ⟨_, _, step_add b env o, .add (addOrder_added env hb ho)⟩
  | addMarket env o =>
      obtain ⟨m', h₁, hsw⟩ := matchLimitOrder_swept env (o := o.asMarket) hb
        (Order.inRange_of_unfilled ho)
      refine ⟨_, _, step_addMarket b env o, ?_⟩
      show BookStep b _ (.order (b.matchLimitOrder env _).1) _
      rw [h₁]
      exact .addMarket hsw
  | cancel id =>
      cases hx : b.orderIndex.lookup id with
      | none => exact ⟨_, _, by rw [step, cancelOrder_unknown hx]; rfl, .cancelMiss hx⟩
      | some a =>
          obtain ⟨n, hn, rfl, rfl⟩ := hi.live id a hx
          obtain ⟨b', hc, hrem⟩ := cancelOrder_removed hb hi hn hx
          exact ⟨_, _, by rw [step, hc]; rfl, .cancelHit hn hx hrem⟩
  | modify env id p q =>
      cases hx : b.orderIndex.lookup id with
      | none => exact ⟨_, _, by rw [step, modifyOrder, hx]; rfl, .modifyMiss hx⟩
      | some a =>
          obtain ⟨n, hn, rfl, rfl⟩ := hi.live id a hx
          obtain ⟨b₁, hc, hrem⟩ := cancelOrder_removed hb hi hn hx
          refine ⟨_, _, ?_, .modifyHit hn hx hrem
            (addOrder_added env (o := resubmitted n.order p q) hrem.placed rfl)⟩
          simp only [step, modifyOrder, hx, hi.deref hn, hc, Option.bind_eq_bind, Option.bind_some]
          rfl
  | updateLevel side price size =>
      by_cases h : size = 0
      · subst h
        exact ⟨_, _, rfl, .cutLevel (updateLevel_removed hb side price)⟩
      · refine ⟨_, _, rfl, ?_⟩
        rw [updateLevel_of_ne h]
        exact .keepLevel h

theorem BookStep.placed (h : BookStep b op r b') (hb : b.Placed) : b'.Placed := by
  cases h with
  | add h => exact h.placed
  | addMarket h => exact h.placed
  | cancelMiss => exact hb
  | cancelHit _ _ h => exact h.placed
  | modifyMiss => exact hb
  | modifyHit _ _ _ h => exact h.placed
  | cutLevel h => exact h.placed
  | keepLevel => exact hb

theorem BookStep.indexed (h : BookStep b op r b') (hi : b.Indexed) : b'.Indexed := by
  cases h with
  | add h => exact h.indexed hi
  | addMarket h => exact h.indexed hi
  | cancelMiss => exact hi
  | cancelHit _ _ h => exact h.indexed hi
  | modifyMiss => exact hi
  | modifyHit _ _ h ha => exact ha.indexed (h.indexed hi)
  | cutLevel h => exact h.indexed hi
  | keepLevel => exact hi

/-! ### Runs -/

/-- **Invariants of runs.**  What holds of a placed and indexed book, and is kept by every step whose
call meets `C`, holds after every run whose calls meet `C`; and such a run returns. -/
theorem run_invariant {I : OrderBook P → Prop} {C : OrderBook P → BookOp P → Prop}
    (hC : ∀ b op, C b op → op.Unfilled)
    (hI : ∀ {b op r b'}, b.Placed → b.Indexed → I b → C b op → BookStep b op r b' → I b')
    {ops : List (BookOp P)} (hb : b.Placed) (hi : b.Indexed) (h : I b) (ha : Run.Along step C b ops) :
    ∃ rs b', b.run ops = some (rs, b') ∧ b'.Placed ∧ b'.Indexed ∧ I b' := by
  refine Run.exec_of_step (I := fun b => b.Placed ∧ b.Indexed ∧ I b) ?_ ⟨hb, hi, h⟩ ha
  rintro b op ⟨hb, hi, h⟩ hop
  obtain ⟨r, b', hs, hstep⟩ := step_bookStep hb hi (hC b op hop)
  exact ⟨r, b', hs, hstep.placed hb, hstep.indexed hi, hI hb hi h hop hstep⟩

end Steps

theorem init_indexed (symbol : List UInt8) : (init symbol : OrderBook P).Indexed := by
  refine ⟨fun s n hn => ?_, .nil, fun id a h => ?_⟩
  · cases s <;> exact absurd hn List.not_mem_nil
  · cases h

theorem Indexed.drain (h : b.Indexed) : b.drainTrades.2.Indexed where
  addr_lt s n hn := h.addr_lt s n (by rwa [drainTrades_queue] at hn)
  addr_nodup := h.addr_nodup
  live := h.live

/-! ### Unique ids -/

/-- The nodes hold different ids, and each is designated by the index entry of its id. -/
structure Unique (b : OrderBook P) : Prop where
  id_nodup : (b.nodes.map fun n => n.order.id).Nodup
  designated : ∀ n ∈ b.nodes, b.orderIndex.lookup n.order.id = some n.addr

theorem Unique.eq_of_id (h : b.Unique) {n n' : Node P} (hn : n ∈ b.nodes) (hn' : n' ∈ b.nodes)
    (hid : n.order.id = n'.order.id) : n = n' :=
  List.inj_on_of_nodup_map h.id_nodup hn hn' hid

theorem Unique.queue_id_nodup (h : b.Unique) (s : Side) :
    ((b.queue s).map fun n => n.order.id).Nodup := by
  have hn := h.id_nodup
  rw [nodes, List.map_append] at hn
  cases s
  · exact hn.sublist (List.sublist_append_left _ _)
  · exact hn.sublist (List.sublist_append_right _ _)

section Unique

variable {env : Env} {o o' : Order P} {m' : Matching P}

/-- A sweep leaves the index entry of every order it does not take. -/
theorem Swept.unique (h : Swept env o b m' b') (hb : b.Placed) (hu : b.Unique) : b'.Unique := by
  refine ⟨hu.id_nodup.sublist (map_nodes_sublist _ fun s =>
    h.map_sublist (fun n => n.order.id) (fun _ _ hs => hs.id) s), fun n' hn' => ?_⟩
  obtain ⟨s, hs⟩ := mem_nodes.mp hn'
  obtain ⟨gone, kept, hq, hk, hix⟩ := h.split
  obtain ⟨n, hn, hsame, hnot⟩ : ∃ n ∈ b.queue s, n.Same n' ∧ n ∉ gone := by
    rcases s.eq_or_eq_opposite o.side with rfl | rfl
    · rw [h.own] at hs
      refine ⟨n', hs, Node.Same.refl n', fun hg => Side.opposite_ne o.side ?_⟩
      have hopp : n' ∈ b.queue o.side.opposite := by
        rw [hq]
        exact List.mem_append_left _ hg
      exact (hb.side hopp).symm.trans (hb.side hs)
    · obtain ⟨n, hn, hsame⟩ := exists_same_of_mem hk hs
      refine ⟨n, by rw [hq]; exact List.mem_append_right _ hn, hsame, fun hg => ?_⟩
      have hnd := List.Nodup.of_map _ (hu.queue_id_nodup o.side.opposite)
      rw [hq] at hnd
      exact List.disjoint_of_nodup_append hnd hg hn
  have hg : ¬ ∃ g ∈ gone, g.order.id = n.order.id := by
    rintro ⟨g, hg, hid⟩
    have hgn : g ∈ b.nodes :=
      mem_nodes.mpr ⟨_, by rw [hq]; exact List.mem_append_left _ hg⟩
    exact hnot (hu.eq_of_id hgn (mem_nodes.mpr ⟨s, hn⟩) hid ▸ hg)
  rw [hix, lookup_eraseIds, hsame.id, if_neg hg, hsame.1]
  exact hu.designated n (mem_nodes.mpr ⟨s, hn⟩)

/-- An order whose id rests nowhere in the book joins it. -/
theorem Rested.unique (h : Rested o b b') (hu : b.Unique)
    (hfresh : ∀ n ∈ b.nodes, n.order.id ≠ o.id) : b'.Unique := by
  have hentry : o.entry.id = o.id := (o.entry_same b.nextNode).id
  refine ⟨?_, fun n hn => ?_⟩
  · rw [(h.nodes_perm.map fun n => n.order.id).nodup_iff, List.map_cons, List.nodup_cons]
    refine ⟨fun hmem => ?_, hu.id_nodup⟩
    obtain ⟨n, hn, hid⟩ := List.mem_map.mp hmem
    exact hfresh n hn (hid.trans hentry)
  · rw [h.orderIndex]
    rcases List.mem_cons.mp (h.nodes_perm.mem_iff.mp hn) with rfl | hn
    · show AList.lookup o.entry.id _ = _
      rw [hentry]
      exact AList.lookup_insert _
    · rw [AList.lookup_insert_ne (hfresh n hn)]
      exact hu.designated n hn

theorem Removed.unique {keep : Node P → Bool} (h : Removed keep b b') (hu : b.Unique) :
    b'.Unique := by
  refine ⟨?_, fun n hn => ?_⟩
  · rw [h.nodes]
    exact hu.id_nodup.sublist (List.filter_sublist.map _)
  · obtain ⟨hn, hk⟩ := h.mem_nodes.mp hn
    rw [h.lookup, if_neg]
    · exact hu.designated n hn
    · rintro ⟨x, hx, hkx, hid⟩
      rw [hu.eq_of_id hx hn hid, hk] at hkx
      cases hkx

/-- The ids of the nodes after a sweep are among those before it. -/
theorem Swept.fresh (h : Swept env o b m' b') {id : Int32}
    (hf : ∀ n ∈ b.nodes, n.order.id ≠ id) : ∀ n ∈ b'.nodes, n.order.id ≠ id := by
  intro n' hn'
  obtain ⟨s, hs⟩ := mem_nodes.mp hn'
  obtain ⟨n, hn, hsame⟩ := h.back hs
  rw [hsame.id]
  exact hf n (mem_nodes.mpr ⟨s, hn⟩)

theorem Added.unique (h : Added env o b o' b') (hb : b.Placed) (hu : b.Unique)
    (hfresh : ∀ n ∈ b.nodes, n.order.id ≠ o.id) : b'.Unique := by
  cases h with
  | done h => exact h.unique hb hu
  | rests h _ _ hr =>
      refine hr.unique (h.unique hb hu) (h.fresh ?_)
      obtain ⟨st, hst⟩ := h.settled
      rw [hst]
      exact hfresh

end Unique

/-- The incoming order has nothing filled, and if it is to be added its id rests nowhere in the
book. -/
def FreshId (b : OrderBook P) (op : BookOp P) : Prop :=
  op.Unfilled ∧ match op with
    | .add _ o => ∀ n ∈ b.nodes, n.order.id ≠ o.id
    | _ => True

instance (b : OrderBook P) (op : BookOp P) : Decidable (b.FreshId op) :=
  match op with
  | .add _ o => inferInstanceAs (Decidable (o.filledQty = 0 ∧ ∀ n ∈ b.nodes, n.order.id ≠ o.id))
  | .addMarket _ o => inferInstanceAs (Decidable (o.filledQty = 0 ∧ True))
  | .cancel _ | .modify .. | .updateLevel .. => inferInstanceAs (Decidable (True ∧ True))

theorem BookStep.unique [Zero P] {op : BookOp P} {r : BookResult P} (h : BookStep b op r b')
    (hb : b.Placed) (hu : b.Unique) (hop : b.FreshId op) : b'.Unique := by
  cases h with
  | add h => exact h.unique hb hu hop.2
  | addMarket h => exact h.unique hb hu
  | cancelMiss => exact hu
  | cancelHit _ _ h => exact h.unique hu
  | modifyMiss => exact hu
  | @modifyHit _ n _ _ _ _ _ hn _ h ha =>
      -- the id comes back, but its node is gone by then
      refine ha.unique h.placed (h.unique hu) fun x hx hid => ?_
      obtain ⟨hx, hk⟩ := h.mem_nodes.mp hx
      rw [hu.eq_of_id hx hn hid] at hk
      simp at hk
  | cutLevel h => exact h.unique hu
  | keepLevel => exact hu

end OrderBook

end Aspira
