import Aspira.Book.Layout

/-!
# Book — live iterators, whatever is submitted

Every call on a reached book returns (`Reached.step_total`), with fills and quantities of any size:
whether an iterator is live has nothing to do with how orders are filled.  An order leaves the book
together with the index entry of its id, in the matching loops as in `cancel_order` and
`update_level`.
-/

namespace Aspira

variable {P : Type}

/-! ### The loops -/

section Loops

variable (symbol : List UInt8) (env : Env)

/-- A node that is still designated after the inner loop is still there. -/
theorem matchLevel_live (price : P) : ∀ (q : OrderList P) (m : Matching P) {n : Node P} {a : ℕ},
    n ∈ q → (matchLevel symbol env price q m).2.orderIndex.lookup n.order.id = some a →
      ∃ n' ∈ (matchLevel symbol env price q m).1, n.Same n'
  | [], _, _, _, hn, _ => absurd hn List.not_mem_nil
  | x :: q, m, n, a, hn, hx => by
      rw [matchLevel] at hx ⊢
      simp only [matchEntry_eq] at hx ⊢
      by_cases h₀ : 0 < m.order.remaining
      · rw [if_pos h₀] at hx ⊢
        cases hf : (x.order.fill (m.qty x.order)).isFilled with
        | true =>
            simp only [hf, if_true] at hx ⊢
            rcases List.mem_cons.mp hn with rfl | hn
            · -- its id was erased, and the rest of the loop only erases
              have hlater := (matchLevel_leads symbol env price q _).lookup _ a hx
              exact absurd (hlater.symm.trans (AList.lookup_erase ..)) (Option.some_ne_none a)
            · exact matchLevel_live price q _ hn hx
        | false =>
            simp only [hf, Bool.false_eq_true, if_false] at hx ⊢
            rcases List.mem_cons.mp hn with rfl | hn
            · exact ⟨_, List.mem_cons_self .., rfl, _, _, rfl⟩
            · obtain ⟨n', hn', hs⟩ := matchLevel_live price q _ hn hx
              exact ⟨n', List.mem_cons_of_mem _ hn', hs⟩
      · rw [if_neg h₀]
        exact ⟨n, hn, Node.Same.refl n⟩

theorem matchLevel_addr (price : P) : ∀ (q : OrderList P) (m : Matching P),
    ((matchLevel symbol env price q m).1.map Node.addr).Sublist (q.map Node.addr)
  | [], _ => .slnil
  | n :: q, m => by
      rw [matchLevel]
      dsimp only
      split
      · split
        · exact (matchLevel_addr price q _).cons _
        · exact (matchLevel_addr price q _).cons_cons _
      · exact .refl _

variable [LinearOrder P]

/-- A node that is still designated after the loops is still there. -/
theorem matchLevels_live (s : Side) : ∀ (l : List (P × OrderList P)) (m : Matching P) {n : Node P}
    {a : ℕ}, n ∈ l.flatMap Prod.snd →
      (matchLevels symbol env s l m).2.orderIndex.lookup n.order.id = some a →
      ∃ n' ∈ (matchLevels symbol env s l m).1.flatMap Prod.snd, n.Same n'
  | [], _, _, _, hn, _ => absurd hn List.not_mem_nil
  | e :: l, m, n, a, hn, hx => by
      rw [matchLevels] at hx ⊢
      by_cases h₀ : 0 < m.order.remaining ∧ ¬ (m.order.type = .limit ∧ s.Better m.order.price e.1)
      · simp only [if_pos h₀.1, if_neg h₀.2] at hx ⊢
        set r := matchLevel symbol env e.1 e.2 m with hr
        -- where the node goes, it goes on to the whole result
        have hboth : ∀ n', n' ∈ r.1 ∨ n' ∈ (matchLevels symbol env s l r.2).1.flatMap Prod.snd →
            n' ∈ (if r.1.isEmpty then matchLevels symbol env s l r.2
              else ((e.1, r.1) :: (matchLevels symbol env s l r.2).1,
                (matchLevels symbol env s l r.2).2)).1.flatMap Prod.snd := by
          intro n' hn'
          split
          · rename_i hnil
            rw [List.isEmpty_iff.mp hnil] at hn'
            exact hn'.resolve_left List.not_mem_nil
          · exact List.mem_append.mpr hn'
        have hx' : (matchLevels symbol env s l r.2).2.orderIndex.lookup n.order.id = some a := by
          split at hx <;> exact hx
        rcases List.mem_append.mp hn with hn | hn
        · have hlevel := (matchLevels_leads symbol env s l r.2).lookup _ a hx'
          obtain ⟨n', hn', hs⟩ := matchLevel_live symbol env e.1 e.2 m hn hlevel
          exact ⟨n', hboth n' (.inl hn'), hs⟩
        · obtain ⟨n', hn', hs⟩ := matchLevels_live s l r.2 hn hx'
          exact ⟨n', hboth n' (.inr hn'), hs⟩
      · have hstop : matchLevels symbol env s (e :: l) m = (e :: l, m) := by
          rw [matchLevels]
          by_cases h : 0 < m.order.remaining
          · rw [if_pos h, if_pos (not_not.mp fun hb => h₀ ⟨h, hb⟩)]
          · rw [if_neg h]
        rw [← matchLevels, hstop]
        exact ⟨n, hn, Node.Same.refl n⟩

theorem matchLevels_addr (s : Side) : ∀ (l : List (P × OrderList P)) (m : Matching P),
    (((matchLevels symbol env s l m).1.flatMap Prod.snd).map Node.addr).Sublist
      ((l.flatMap Prod.snd).map Node.addr)
  | [], _ => .slnil
  | e :: l, m => by
      rw [matchLevels, List.flatMap_cons, List.map_append]
      split
      · split
        · rw [List.flatMap_cons, List.map_append]
        · have hlevel := matchLevel_addr symbol env e.1 e.2 m
          have hrest := matchLevels_addr s l (matchLevel symbol env e.1 e.2 m).2
          dsimp only
          split
          · exact hrest.trans (List.sublist_append_right _ _)
          · rw [List.flatMap_cons, List.map_append]
            exact hlevel.append hrest
      · rw [List.flatMap_cons, List.map_append]

end Loops

namespace OrderBook

variable [LinearOrder P] {b b' : OrderBook P} {env : Env} {o o' : Order P} {s : Side}
  {Q : Node P → Prop} {R : Int32 → ℕ → Prop}

/-! ### The calls -/

theorem Crossed.indexed {l' : List (P × OrderList P)} {m' : Matching P}
    (h : Crossed env o b l' m' o' b') (hi : b.Indexed) : b'.Indexed := by
  have hown : b'.queue o.side = b.queue o.side := queue_congr h.own
  have hopp : b'.queue o.side.opposite = (matchLevels b.symbol env o.side.opposite
      (b.levels o.side.opposite).entries (b.matching o)).1.flatMap Prod.snd := by
    rw [h.loop, queue, h.opposite]
  refine hi.of_kept (fun s => ?_) (fun id a hx => ?_) (fun s n hn hx => ?_) h.nextNode
  · rcases s.eq_or_eq_opposite o.side with rfl | rfl
    · rw [hown]
    · rw [hopp]
      exact matchLevels_addr ..
  · rw [h.orderIndex] at hx
    exact h.leads.lookup id a hx
  · rcases s.eq_or_eq_opposite o.side with rfl | rfl
    · exact ⟨n, hown ▸ hn, Node.Same.refl n⟩
    · rw [hopp]
      refine matchLevels_live _ _ _ _ _ hn (a := n.addr) ?_
      rw [h.loop, ← h.orderIndex]
      exact hx

/-- The queue that an order joins. -/
theorem queue_rest (b : OrderBook P) (o : Order P) : ∃ A B, b.queue o.side = A ++ B ∧
    (b.rest o).2.queue o.side = A ++ ⟨b.nextNode, o.entry⟩ :: B := by
  obtain ⟨A, B, -, -, hm, hf⟩ := (b.levels o.side).exists_split o.price
  refine ⟨A.flatMap Prod.snd ++ ((b.levels o.side).find o.price).getD [], B.flatMap Prod.snd, ?_, ?_⟩
  · rw [queue, hm]
    cases (b.levels o.side).find o.price <;> simp
  · rw [queue, levels_rest, hf]
    simp

theorem rest_indexed (hi : b.Indexed) (o : Order P) : (b.rest o).2.Indexed := by
  obtain ⟨A, B, hq, hq'⟩ := queue_rest b o
  have hopp : (b.rest o).2.queue o.side.opposite = b.queue o.side.opposite :=
    queue_congr (levels_rest_opposite b o)
  refine hi.of_joined (x := ⟨b.nextNode, o.entry⟩) (nodes_perm_of_join hq hq' hopp) rfl ?_ rfl
  show b.orderIndex.insert o.id b.nextNode = b.orderIndex.insert o.entry.id b.nextNode
  rw [(o.entry_same b.nextNode).id]

/-- The queue around a level that is cut down. -/
theorem queue_cutLevel {k : P} {level : OrderList P} (hfind : (b.levels s).find k = some level)
    (rest : OrderList P) (ix : OrderIndex) : ∃ A B, b.queue s = A ++ (level ++ B) ∧
      ((b.cutLevel s k rest).setIndex ix).queue s = A ++ (rest ++ B) := by
  obtain ⟨A, B, -, -, hm, hf⟩ := (b.levels s).exists_split k
  refine ⟨A.flatMap Prod.snd, B.flatMap Prod.snd, ?_, ?_⟩
  · rw [queue, hm, hfind]
    simp
  · rw [queue, levels_cutLevel, hf]
    cases rest <;> simp

/-- A level loses some orders, and the index the entries that designate them. -/
theorem cut_indexed {k : P} {level rest : OrderList P} {ix : OrderIndex} (hi : b.Indexed)
    (hfind : (b.levels s).find k = some level) (hsub : rest.Sublist level)
    (hix : ∀ id a, ix.lookup id = some a → b.orderIndex.lookup id = some a)
    (hkeep : ∀ n ∈ level, ix.lookup n.order.id = some n.addr → n ∈ rest) :
    ((b.cutLevel s k rest).setIndex ix).Indexed := by
  obtain ⟨A, B, hq, hq'⟩ := queue_cutLevel hfind rest ix
  have hopp : ((b.cutLevel s k rest).setIndex ix).queue s.opposite = b.queue s.opposite :=
    queue_congr (levels_cutLevel_opposite b s k rest ix)
  refine hi.of_kept (fun t => ?_) hix (fun t n hn hx => ⟨n, ?_, Node.Same.refl n⟩) rfl
  · rcases t.eq_or_eq_opposite s with rfl | rfl
    · rw [hq, hq']
      exact (((hsub.append (.refl B)).append_left A).map _)
    · rw [hopp]
  · rcases t.eq_or_eq_opposite s with rfl | rfl
    · rw [hq, List.mem_append, List.mem_append] at hn
      rw [hq', List.mem_append, List.mem_append]
      exact hn.imp_right (Or.imp_left fun hmem => hkeep n hmem hx)
    · rw [hopp]
      exact hn

theorem Move.indexed (h : Move b b') (hi : b.Indexed) : b'.Indexed := by
  cases h with
  | cross env o =>
      obtain ⟨l', m', hc⟩ := matchLimitOrder_crossed env b o
      exact hc.indexed hi
  | rest o => exact rest_indexed hi o
  | @cancel id n level hx hfind =>
      refine cut_indexed hi hfind List.filter_sublist (fun id' a hl => (lookup_erase_some hl).2) ?_
      intro x hmem hl
      refine List.mem_filter.mpr ⟨hmem, decide_eq_true fun ha => ?_⟩
      -- the node that the entry of `id` designates is the one that holds `id`
      obtain ⟨hne, hlook⟩ := lookup_erase_some hl
      obtain ⟨y, hy, hya, hyid⟩ := hi.live id n.addr hx
      have hxn : x ∈ b.nodes := mem_nodes.mpr ⟨n.order.side,
        OrderBook.mem_queue.mpr ⟨_, OrdMap.find_eq_some_iff.mp hfind, hmem⟩⟩
      have hxy : x = y := hi.eq_of_addr hxn hy (ha.trans hya.symm)
      exact hne (by rw [hxy]; exact hyid)
  | @drop s p level hfind =>
      refine cut_indexed hi hfind (List.nil_sublist _) (fun id a hl => lookup_eraseIds_some hl) ?_
      intro n hn hl
      rw [lookup_eraseIds, if_pos ⟨n, hn, rfl⟩] at hl
      cases hl

/-! ### Every call returns -/

theorem cancelOrder_total (h : b.Marked Q R) (hi : b.Indexed) (id : Int32) :
    ∃ f b', b.cancelOrder id = some (f, b') := by
  cases hx : b.orderIndex.lookup id with
  | none => exact ⟨false, b, cancelOrder_unknown hx⟩
  | some a =>
      obtain ⟨n, hn, rfl, rfl⟩ := hi.live id a hx
      obtain ⟨level, hfind, hmem⟩ := h.find_level hn
      have hany : level.any (fun x => decide (x.addr = n.addr)) = true :=
        List.any_eq_true.mpr ⟨n, hmem, by simp⟩
      refine ⟨true, (b.cutLevel n.order.side n.order.price
        (level.filter fun x => x.addr ≠ n.addr)).setIndex (b.orderIndex.erase n.order.id), ?_⟩
      simp only [cancelOrder, hx, hi.deref hn, hfind, hany, if_true]

variable [Zero P]

theorem step_total (h : b.Marked Q R) (hi : b.Indexed) (op : BookOp P) :
    ∃ r b', b.step op = some (r, b') := by
  cases op with
  | add env o => exact ⟨_, _, rfl⟩
  | addMarket env o => exact ⟨_, _, rfl⟩
  | cancel id =>
      obtain ⟨f, b', hc⟩ := cancelOrder_total h hi id
      exact ⟨.flag f, b', by rw [step, hc]; rfl⟩
  | modify env id p q =>
      cases hx : b.orderIndex.lookup id with
      | none => exact ⟨_, _, by rw [step, modifyOrder, hx]; rfl⟩
      | some a =>
          obtain ⟨n, hn, rfl, rfl⟩ := hi.live id a hx
          obtain ⟨f, b', hc⟩ := cancelOrder_total h hi n.order.id
          refine ⟨.order (b'.addOrder env (resubmitted n.order p q)).1,
            (b'.addOrder env (resubmitted n.order p q)).2, ?_⟩
          simp only [step, modifyOrder, hx, hi.deref hn, hc, Option.bind_eq_bind, Option.bind_some]
          rfl
  | updateLevel s p n => exact ⟨_, _, rfl⟩

theorem Reached.indexed (h : Reached b) : b.Indexed := by
  induction h with
  | init symbol => exact init_indexed symbol
  | step h hs ih => exact step_of_move (fun hi hmove => hmove.indexed hi) h.addressed ih hs
  | drain _ ih => exact ih.drain

/-- **Every call on a reached book returns.** -/
theorem Reached.step_total (h : Reached b) (op : BookOp P) : ∃ r b', b.step op = some (r, b') :=
  OrderBook.step_total h.addressed h.indexed op

end OrderBook

end Aspira
