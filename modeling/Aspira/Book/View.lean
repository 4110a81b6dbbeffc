import Aspira.Book.Layout

/-!
# Book — View

Two books side by side: one is what is seen of the other through a `View`, which hides the nodes at
some addresses, gives the others new ones, and relabels timestamps and symbols.  No call reads a
timestamp, a symbol or an address, so a call on the book and the same call on its view do the same,
as long as no trade meets a hidden order (`Seen.step`, `Seen.run`).  A level whose orders are all
hidden is not seen at all: a matching loop that stops at its price in the one book stops at the next
one in the other, which is worse.
-/

namespace Aspira

variable {P : Type}

/-! ### Views -/

/-- What is seen of a book. -/
structure View where
  /-- The address a node is seen at, if it is. -/
  addr : ℕ → Option ℕ
  stamp : UInt64 → UInt64
  label : Symbol → Symbol
  addr_inj : ∀ a a' c, addr a = some c → addr a' = some c → a = a'
  stamp_zero : stamp 0 = 0
  label_blank : label (Vector.replicate 16 0) = Vector.replicate 16 0

namespace View

/-- Addresses that are seen as they are. -/
theorem some_addr_inj (a a' c : ℕ) (h : some a = some c) (h' : some a' = some c) : a = a' :=
  Option.some.inj (h.trans h'.symm)

variable (v : View)

def order (o : Order P) : Order P :=
  { o with timestampNs := v.stamp o.timestampNs, symbol := v.label o.symbol }

def node (n : Node P) : Option (Node P) := (v.addr n.addr).map fun a => ⟨a, v.order n.order⟩

def queue (q : OrderList P) : OrderList P := q.filterMap v.node

/-- What is seen of a level; a level with no node that is seen is not. -/
def level (q : OrderList P) : Option (OrderList P) :=
  if (v.queue q).isEmpty then none else some (v.queue q)

def side [LinearOrder P] {s : Side} (m : LevelMap P s) : LevelMap P s := m.restrict v.level

/-- What is seen of a call's result. -/
def result : BookResult P → BookResult P
  | .order o => .order (v.order o)
  | .flag b => .flag b
  | .done => .done

section Queue

variable {v}

@[simp] theorem queue_nil : v.queue ([] : OrderList P) = [] := rfl

theorem queue_append (q q' : OrderList P) : v.queue (q ++ q') = v.queue q ++ v.queue q' :=
  List.filterMap_append

theorem queue_cons_hidden {n : Node P} {q : OrderList P} (h : v.addr n.addr = none) :
    v.queue (n :: q) = v.queue q := List.filterMap_cons_none (by rw [node, h]; rfl)

theorem queue_cons_at {a a' : ℕ} (h : v.addr a = some a') (o : Order P) (q : OrderList P) :
    v.queue (⟨a, o⟩ :: q) = ⟨a', v.order o⟩ :: v.queue q :=
  List.filterMap_cons_some (by rw [node, h]; rfl)

theorem queue_cons_seen {n : Node P} {q : OrderList P} {a : ℕ} (h : v.addr n.addr = some a) :
    v.queue (n :: q) = ⟨a, v.order n.order⟩ :: v.queue q := queue_cons_at h n.order q

theorem mem_queue {n' : Node P} {q : OrderList P} :
    n' ∈ v.queue q ↔ ∃ n ∈ q, v.addr n.addr = some n'.addr ∧ n'.order = v.order n.order := by
  rw [queue, List.mem_filterMap]
  constructor
  · rintro ⟨n, hn, h⟩
    obtain ⟨a, ha, rfl⟩ := Option.map_eq_some_iff.mp h
    exact ⟨n, hn, ha, rfl⟩
  · rintro ⟨n, hn, ha, ho⟩
    exact ⟨n, hn, by rw [node, ha, ← ho]; rfl⟩

/-- What is seen of a queue of which all is seen. -/
theorem queue_eq_map {q : OrderList P} (h : ∀ n ∈ q, v.addr n.addr ≠ none) :
    v.queue q = q.map fun n => ⟨(v.addr n.addr).getD 0, v.order n.order⟩ := by
  induction q with
  | nil => rfl
  | cons n q ih =>
      obtain ⟨a, ha⟩ := Option.ne_none_iff_exists'.mp (h n (List.mem_cons_self ..))
      rw [queue_cons_seen ha, ih fun n' hn' => h n' (List.mem_cons_of_mem n hn'), List.map_cons, ha]
      rfl

theorem level_of_ne_nil {q : OrderList P} (h : v.queue q ≠ []) : v.level q = some (v.queue q) :=
  if_neg (by rwa [List.isEmpty_iff])

theorem level_of_nil {q : OrderList P} (h : v.queue q = []) : v.level q = none :=
  if_pos (by rw [h]; rfl)

/-- What is seen of a level, as a queue. -/
theorem getD_level (o : Option (OrderList P)) :
    (o.bind v.level).getD [] = v.queue (o.getD []) := by
  cases o with
  | none => rfl
  | some q =>
      by_cases h : v.queue q = []
      · rw [Option.bind_some, level_of_nil h, Option.getD_some, h]
        rfl
      · rw [Option.bind_some, level_of_ne_nil h]
        rfl

/-- The queue of what is seen of the levels. -/
theorem flatMap_restrictList (l : List (P × OrderList P)) :
    (OrdMap.restrictList v.level l).flatMap Prod.snd = v.queue (l.flatMap Prod.snd) := by
  induction l with
  | nil => rfl
  | cons e l ih =>
      have happ : OrdMap.restrictList v.level (e :: l) =
          OrdMap.restrictList v.level [e] ++ OrdMap.restrictList v.level l :=
        OrdMap.restrictList_append [e] l
      rw [happ, List.flatMap_append, ih, List.flatMap_cons, queue_append]
      congr 1
      by_cases h : v.queue e.2 = []
      · simp [OrdMap.restrictList, level_of_nil h, h]
      · simp [OrdMap.restrictList, level_of_ne_nil h]

/-- The first node at an address that is seen. -/
theorem find_queue {it it' : ℕ} (h : v.addr it = some it') (q : OrderList P) :
    (v.queue q).find? (fun n => n.addr = it') = (q.find? fun n => n.addr = it).bind v.node := by
  induction q with
  | nil => rfl
  | cons n q ih =>
      by_cases hn : n.addr = it
      · have ha : v.addr n.addr = some it' := by rw [hn, h]
        rw [queue_cons_seen ha, List.find?_cons_of_pos (by simp), List.find?_cons_of_pos (by simp [hn])]
        simp [node, ha]
      · rw [List.find?_cons_of_neg (by simp [hn])]
        cases ha : v.addr n.addr with
        | none => rw [queue_cons_hidden ha, ih]
        | some a =>
            have hne : a ≠ it' := fun e => hn (v.addr_inj _ _ _ (e ▸ ha) h)
            rw [queue_cons_seen ha, List.find?_cons_of_neg (by simp [hne]), ih]

/-- The nodes at other addresses than one that is seen. -/
theorem filter_queue {it it' : ℕ} (h : v.addr it = some it') (q : OrderList P) :
    (v.queue q).filter (fun n => n.addr ≠ it') = v.queue (q.filter fun n => n.addr ≠ it) := by
  induction q with
  | nil => rfl
  | cons n q ih =>
      by_cases hn : n.addr = it
      · have ha : v.addr n.addr = some it' := by rw [hn, h]
        rw [queue_cons_seen ha, List.filter_cons_of_neg (by simp), ih,
          List.filter_cons_of_neg (by simp [hn])]
      · rw [List.filter_cons_of_pos (by simp [hn])]
        cases ha : v.addr n.addr with
        | none => rw [queue_cons_hidden ha, queue_cons_hidden ha, ih]
        | some a =>
            have hne : a ≠ it' := fun e => hn (v.addr_inj _ _ _ (e ▸ ha) h)
            rw [queue_cons_seen ha, queue_cons_seen ha, List.filter_cons_of_pos (by simp [hne]), ih]

/-- Taking out the nodes at a hidden address is not seen. -/
theorem queue_filter_hidden {it : ℕ} (h : v.addr it = none) (q : OrderList P) :
    v.queue (q.filter fun n => n.addr ≠ it) = v.queue q := by
  induction q with
  | nil => rfl
  | cons n q ih =>
      by_cases hn : n.addr = it
      · rw [List.filter_cons_of_neg (by simp [hn]), ih, queue_cons_hidden (by rw [hn, h])]
      · rw [List.filter_cons_of_pos (by simp [hn])]
        cases ha : v.addr n.addr with
        | none => rw [queue_cons_hidden ha, queue_cons_hidden ha, ih]
        | some a => rw [queue_cons_seen ha, queue_cons_seen ha, ih]

end Queue

/-! ### Indices -/

/-- `g` are the ids of the hidden orders: the index designates a hidden node under these and no
others, and the index of the view has the entries that are seen. -/
structure Indexes (g : Set Int32) (ix ix' : OrderIndex) : Prop where
  hidden : ∀ id a, ix.lookup id = some a → (v.addr a = none ↔ id ∈ g)
  lookup : ∀ id, ix'.lookup id = (ix.lookup id).bind v.addr

section Indexes

variable {v} {g : Set Int32} {ix ix' : OrderIndex}

theorem Indexes.erase (h : v.Indexes g ix ix') (id : Int32) :
    v.Indexes g (ix.erase id) (ix'.erase id) where
  hidden := fun id' a hl => h.hidden id' a (OrderBook.lookup_erase_some hl).2
  lookup := by
    intro id'
    by_cases hid : id' = id
    · rw [hid, AList.lookup_erase, AList.lookup_erase]
      rfl
    · rw [AList.lookup_erase_ne hid, AList.lookup_erase_ne hid, h.lookup]

/-- A hidden order's id is not in the index of the view. -/
theorem Indexes.lookup_hidden (h : v.Indexes g ix ix') {id : Int32} (hid : id ∈ g) :
    ix'.lookup id = none := by
  rw [h.lookup]
  cases hl : ix.lookup id with
  | none => rfl
  | some a => exact (h.hidden id a hl).mpr hid

theorem Indexes.erase_hidden (h : v.Indexes g ix ix') {id : Int32} (hid : id ∈ g) :
    v.Indexes g (ix.erase id) ix' where
  hidden := fun id' a hl => h.hidden id' a (OrderBook.lookup_erase_some hl).2
  lookup := by
    intro id'
    by_cases he : id' = id
    · rw [he, AList.lookup_erase, h.lookup_hidden hid]
      rfl
    · rw [AList.lookup_erase_ne he, h.lookup]

theorem Indexes.insert (h : v.Indexes g ix ix') {id : Int32} {a a' : ℕ} (hid : id ∉ g)
    (ha : v.addr a = some a') : v.Indexes g (ix.insert id a) (ix'.insert id a') where
  hidden := by
    intro id' c hl
    by_cases he : id' = id
    · subst he
      rw [AList.lookup_insert] at hl
      rw [← Option.some.inj hl, ha]
      exact iff_of_false nofun hid
    · rw [AList.lookup_insert_ne he] at hl
      exact h.hidden id' c hl
  lookup := by
    intro id'
    by_cases he : id' = id
    · rw [he, AList.lookup_insert, AList.lookup_insert, Option.bind_some, ha]
    · rw [AList.lookup_insert_ne he, AList.lookup_insert_ne he, h.lookup]

end Indexes

/-- The nodes of `q` with an id in `g` are hidden, and no others. -/
def Hides (g : Set Int32) (q : OrderList P) : Prop :=
  ∀ n ∈ q, v.addr n.addr = none ↔ n.order.id ∈ g

/-- Erasing the orders of a level, and of what is seen of it. -/
theorem Indexes.eraseIds {v : View} {g : Set Int32} {ix ix' : OrderIndex} {q : OrderList P}
    (h : v.Indexes g ix ix') (hq : v.Hides g q) :
    v.Indexes g (Aspira.eraseIds ix q) (Aspira.eraseIds ix' (v.queue q)) := by
  induction q generalizing ix ix' with
  | nil => exact h
  | cons n q ih =>
      have hn := hq n (List.mem_cons_self ..)
      have hq' : v.Hides g q := fun n' hn' => hq n' (List.mem_cons_of_mem n hn')
      cases ha : v.addr n.addr with
      | none =>
          rw [queue_cons_hidden ha]
          exact ih (h.erase_hidden (hn.mp ha)) hq'
      | some a =>
          rw [queue_cons_seen ha]
          exact ih (h.erase n.order.id) hq'

/-! ### Trades -/

end View

/-- What two trades have in common that differ in the clock and in the symbol. -/
def Trade.terms (t : Trade P) : Int32 × Int32 × Int32 × Int32 × P :=
  (t.tradeId, t.buyOrderId, t.sellOrderId, t.quantity, t.price)

/-- No trade names an id of `g`. -/
def Clean (g : Set Int32) (ts : List (Trade P)) : Prop :=
  ∀ t ∈ ts, t.buyOrderId ∉ g ∧ t.sellOrderId ∉ g

theorem clean_empty (ts : List (Trade P)) : Clean ∅ ts := fun _ _ => ⟨nofun, nofun⟩

theorem Clean.of_prefix {g : Set Int32} {base ts ts' : List (Trade P)} (h : ts <+: ts')
    (hc : Clean g (ts'.drop base.length)) : Clean g (ts.drop base.length) := by
  intro t ht
  obtain ⟨tail, rfl⟩ := h
  refine hc t ?_
  rw [List.drop_append]
  exact List.mem_append_left _ ht

namespace View

variable (v : View)

/-- Two matchings on the same terms, since their trades were `base` and `base'`. -/
structure Matches (g : Set Int32) (base base' : List (Trade P)) (m m' : Matching P) : Prop where
  order : m'.order = v.order m.order
  index : v.Indexes g m.orderIndex m'.orderIndex
  trades : ∃ new new', m.trades = base ++ new ∧ m'.trades = base' ++ new' ∧
    new'.map Trade.terms = new.map Trade.terms
  nextTradeId : m'.nextTradeId = m.nextTradeId

section Matches

variable {v} {g : Set Int32} {base base' : List (Trade P)} {m m' : Matching P}
  (symbol symbol' : List UInt8) (env env' : Env)

theorem Matches.remaining (h : v.Matches g base base' m m') :
    m'.order.remaining = m.order.remaining := by
  rw [h.order]
  rfl

theorem Matches.qty (h : v.Matches g base base' m m') (o : Order P) :
    m'.qty (v.order o) = m.qty o := by
  unfold Matching.qty
  rw [h.remaining]
  rfl

theorem Matches.terms (h : v.Matches g base base' m m') (price : P) (o : Order P) :
    (m'.deal symbol' env' price (v.order o)).terms = (m.deal symbol env price o).terms := by
  unfold Matching.deal Trade.terms
  rw [h.nextTradeId, h.qty, h.order]
  rfl

/-- A trade with an order that is seen. -/
theorem Matches.hit (h : v.Matches g base base' m m') (price : P) (o : Order P) :
    v.Matches g base base' (m.hit symbol env price o)
      (m'.hit symbol' env' price (v.order o)) where
  order := by
    show m'.order.fill (m'.qty (v.order o)) = v.order (m.order.fill (m.qty o))
    rw [h.qty, h.order]
    rfl
  index := h.index
  trades := by
    obtain ⟨new, new', htr, htr', hterms⟩ := h.trades
    refine ⟨new ++ [m.deal symbol env price o],
      new' ++ [m'.deal symbol' env' price (v.order o)], ?_, ?_, ?_⟩
    · rw [← List.append_assoc, ← htr]
      rfl
    · rw [← List.append_assoc, ← htr']
      rfl
    · rw [List.map_append, List.map_append, hterms, List.map_singleton, List.map_singleton,
        h.terms symbol symbol' env env']
  nextTradeId := by
    show m'.nextTradeId + 1 = m.nextTradeId + 1
    rw [h.nextTradeId]

theorem Matches.unindex (h : v.Matches g base base' m m') (id : Int32) :
    v.Matches g base base' (m.unindex id) (m'.unindex id) :=
  ⟨h.order, h.index.erase id, h.trades, h.nextTradeId⟩

/-- A trade with a hidden order names it. -/
theorem Matches.not_hidden (h : v.Matches g base base' m m') {price : P} {n : Node P}
    {ts : List (Trade P)} (hn : v.addr n.addr = none ↔ n.order.id ∈ g)
    (hts : (m.hit symbol env price n.order).trades <+: ts) (hclean : Clean g (ts.drop base.length)) :
    ∃ a, v.addr n.addr = some a := by
  cases ha : v.addr n.addr with
  | some a => exact ⟨a, rfl⟩
  | none =>
      have hg := hn.mp ha
      obtain ⟨new, -, htr, -⟩ := h.trades
      have hmem : m.deal symbol env price n.order ∈
          (m.hit symbol env price n.order).trades.drop base.length := by
        show _ ∈ (m.trades ++ [m.deal symbol env price n.order]).drop base.length
        rw [htr, List.append_assoc, List.drop_left]
        exact List.mem_append_right _ (List.mem_singleton_self _)
      obtain ⟨hbuy, hsell⟩ := Clean.of_prefix hts hclean _ hmem
      unfold Matching.deal at hbuy hsell
      by_cases hside : m.order.side = .buy
      · exact absurd hg (by simpa [hside] using hsell)
      · exact absurd hg (by simpa [hside] using hbuy)

/-! ### The loops -/

theorem matchLevel_of_exhausted {price : P} {q : OrderList P} (h : ¬ 0 < m.order.remaining) :
    Aspira.matchLevel symbol env price q m = (q, m) := by
  cases q with
  | nil => rfl
  | cons n q => exact if_neg h

/-- The inner loop trades with the first order of the queue. -/
theorem matchLevel_hit (price : P) (n : Node P) (q : OrderList P) (h₀ : 0 < m.order.remaining) :
    (m.hit symbol env price n.order).trades <+:
      (Aspira.matchLevel symbol env price (n :: q) m).2.trades := by
  rw [Aspira.matchLevel, if_pos h₀]
  simp only [matchEntry_eq]
  split
  · exact (matchLevel_leads symbol env price q
      ((m.hit symbol env price n.order).unindex n.order.id)).trades
  · exact (matchLevel_leads symbol env price q (m.hit symbol env price n.order)).trades

/-- **The inner loop on a view.** -/
theorem Matches.matchLevel (price : P) {q : OrderList P} :
    ∀ {m m' : Matching P}, v.Matches g base base' m m' → v.Hides g q →
      Clean g ((Aspira.matchLevel symbol env price q m).2.trades.drop base.length) →
      (Aspira.matchLevel symbol' env' price (v.queue q) m').1 =
          v.queue (Aspira.matchLevel symbol env price q m).1 ∧
        v.Matches g base base' (Aspira.matchLevel symbol env price q m).2
          (Aspira.matchLevel symbol' env' price (v.queue q) m').2 := by
  induction q with
  | nil =>
      intro m m' h _ _
      exact ⟨rfl, h⟩
  | cons n q ih =>
      intro m m' h hq hclean
      by_cases h₀ : 0 < m.order.remaining
      · have hq' : v.Hides g q := fun n' hn' => hq n' (List.mem_cons_of_mem n hn')
        have h₀' : 0 < m'.order.remaining := by rwa [h.remaining]
        have hhit := h.hit symbol symbol' env env' price n.order
        have hfill : (v.order n.order).fill (m'.qty (v.order n.order)) =
            v.order (n.order.fill (m.qty n.order)) := by
          rw [h.qty]
          rfl
        have hfilled : (v.order (n.order.fill (m.qty n.order))).isFilled =
            (n.order.fill (m.qty n.order)).isFilled := rfl
        rw [Aspira.matchLevel, if_pos h₀] at hclean ⊢
        simp only [matchEntry_eq] at hclean ⊢
        cases hf : (n.order.fill (m.qty n.order)).isFilled with
        | true =>
            rw [hf, if_pos rfl] at hclean
            have hleads := matchLevel_leads symbol env price q
              ((m.hit symbol env price n.order).unindex n.order.id)
            obtain ⟨a, ha⟩ := h.not_hidden symbol env (hq n (List.mem_cons_self ..)) hleads.trades
              hclean
            have hrest := ih (hhit.unindex n.order.id) hq' hclean
            rw [queue_cons_seen ha, Aspira.matchLevel, if_pos h₀']
            simp only [matchEntry_eq, hfill, hfilled, hf, if_true]
            exact hrest
        | false =>
            rw [hf] at hclean
            have hleads := matchLevel_leads symbol env price q (m.hit symbol env price n.order)
            obtain ⟨a, ha⟩ := h.not_hidden symbol env (hq n (List.mem_cons_self ..)) hleads.trades
              hclean
            obtain ⟨hqueue, hmatch⟩ := ih hhit hq' hclean
            rw [queue_cons_seen ha, Aspira.matchLevel, if_pos h₀']
            simp only [matchEntry_eq, hfill, hfilled, hf, Bool.false_eq_true, if_false]
            refine ⟨?_, hmatch⟩
            rw [hqueue]
            exact (queue_cons_at ha
              { n.order.fill (m.qty n.order) with status := .partFilled } _).symm
      · have h₀' : ¬ 0 < m'.order.remaining := by rwa [h.remaining]
        rw [matchLevel_of_exhausted symbol env h₀, matchLevel_of_exhausted symbol' env' h₀']
        exact ⟨rfl, h⟩

/-- One level that is seen. -/
theorem restrictList_cons_seen {e : P × OrderList P} {l : List (P × OrderList P)}
    (h : v.queue e.2 ≠ []) :
    OrdMap.restrictList v.level (e :: l) = (e.1, v.queue e.2) :: OrdMap.restrictList v.level l :=
  List.filterMap_cons_some (by rw [level_of_ne_nil h]; rfl)

theorem restrictList_cons_hidden {e : P × OrderList P} {l : List (P × OrderList P)}
    (h : v.queue e.2 = []) :
    OrdMap.restrictList v.level (e :: l) = OrdMap.restrictList v.level l :=
  List.filterMap_cons_none (by rw [level_of_nil h]; rfl)

/-- A level that stays only if it has orders left. -/
theorem restrictList_put (k : P) (q : OrderList P) (l : List (P × OrderList P)) :
    (if (v.queue q).isEmpty then OrdMap.restrictList v.level l
      else (k, v.queue q) :: OrdMap.restrictList v.level l) =
    OrdMap.restrictList v.level (if q.isEmpty then l else (k, q) :: l) := by
  cases q with
  | nil => rfl
  | cons n q =>
      by_cases h : v.queue (n :: q) = []
      · rw [if_pos (List.isEmpty_iff.mpr h)]
        exact (restrictList_cons_hidden (e := (k, n :: q)) h).symm
      · rw [if_neg (by rwa [List.isEmpty_iff])]
        exact (restrictList_cons_seen (e := (k, n :: q)) h).symm

variable [LinearOrder P] {s : Side}

theorem matchLevels_of_exhausted {l : List (P × OrderList P)} (h : ¬ 0 < m.order.remaining) :
    Aspira.matchLevels symbol env s l m = (l, m) := by
  cases l with
  | nil => rfl
  | cons e l => exact if_neg h

/-- The outer loop stops at once where the order reaches no level. -/
theorem matchLevels_of_blocked {l : List (P × OrderList P)}
    (h : ∀ e ∈ l, Blocked s m.order e.1) : Aspira.matchLevels symbol env s l m = (l, m) := by
  cases l with
  | nil => rfl
  | cons e l =>
      rw [Aspira.matchLevels]
      split
      · exact if_pos (h e (List.mem_cons_self ..))
      · rfl

/-- The outer loop where the order reaches the first level. -/
theorem matchLevels_cons {e : P × OrderList P} {l : List (P × OrderList P)}
    {r : OrderList P × Matching P} {t : List (P × OrderList P) × Matching P}
    (h₀ : 0 < m.order.remaining) (hb : ¬ Blocked s m.order e.1)
    (hr : Aspira.matchLevel symbol env e.1 e.2 m = r)
    (ht : Aspira.matchLevels symbol env s l r.2 = t) :
    Aspira.matchLevels symbol env s (e :: l) m =
      (if r.1.isEmpty then t.1 else (e.1, r.1) :: t.1, t.2) := by
  have hcont : Aspira.matchLevels symbol env s (e :: l) m = if r.1.isEmpty then t else
      ((e.1, r.1) :: t.1, t.2) := by
    rw [Aspira.matchLevels, if_pos h₀, ← ht, ← hr]
    exact if_neg hb
  rw [hcont]
  split
  · rfl
  · rfl

/-- **The outer loop on a view.** -/
theorem Matches.matchLevels {l : List (P × OrderList P)} :
    ∀ {m m' : Matching P}, v.Matches g base base' m m' → (∀ e ∈ l, v.Hides g e.2) →
      l.Pairwise (fun a b => s.Better a.1 b.1) →
      Clean g ((Aspira.matchLevels symbol env s l m).2.trades.drop base.length) →
      (Aspira.matchLevels symbol' env' s (OrdMap.restrictList v.level l) m').1 =
          OrdMap.restrictList v.level (Aspira.matchLevels symbol env s l m).1 ∧
        v.Matches g base base' (Aspira.matchLevels symbol env s l m).2
          (Aspira.matchLevels symbol' env' s (OrdMap.restrictList v.level l) m').2 := by
  induction l with
  | nil =>
      intro m m' h _ _ _
      exact ⟨rfl, h⟩
  | cons e l ih =>
      intro m m' h hl hs hclean
      obtain ⟨he, hs'⟩ := List.pairwise_cons.mp hs
      by_cases h₀ : 0 < m.order.remaining
      · have h₀' : 0 < m'.order.remaining := by rwa [h.remaining]
        have hblock : ∀ p, Blocked s m'.order p ↔ Blocked s m.order p := by
          intro p
          rw [h.order]
          exact Iff.rfl
        by_cases hb : Blocked s m.order e.1
        · -- what stops the order at `e` stops it at every later level too
          have hlater : ∀ e' ∈ OrdMap.restrictList v.level (e :: l), Blocked s m'.order e'.1 := by
            intro e' he'
            obtain ⟨q, hq, -⟩ := OrdMap.mem_restrictList.mp he'
            refine (hblock _).mpr ⟨hb.1, ?_⟩
            rcases List.mem_cons.mp hq with heq | hmem
            · rw [← heq] at hb
              exact hb.2
            · exact hb.2.trans (he (e'.1, q) hmem)
          have hstop : Aspira.matchLevels symbol env s (e :: l) m = (e :: l, m) := by
            rw [Aspira.matchLevels, if_pos h₀]
            exact if_pos hb
          rw [hstop, matchLevels_of_blocked symbol' env' hlater]
          exact ⟨rfl, h⟩
        · have hl' : ∀ e' ∈ l, v.Hides g e'.2 := fun e' he' => hl e' (List.mem_cons_of_mem e he')
          obtain ⟨r, hr⟩ : ∃ r, Aspira.matchLevel symbol env e.1 e.2 m = r := ⟨_, rfl⟩
          obtain ⟨t, ht⟩ : ∃ t, Aspira.matchLevels symbol env s l r.2 = t := ⟨_, rfl⟩
          rw [matchLevels_cons symbol env h₀ hb hr ht] at hclean ⊢
          by_cases hseen : v.queue e.2 = []
          · -- no order of the level is seen, so there is none: a trade would meet a hidden one
            cases hq : e.2 with
            | nil =>
                rw [hq] at hr
                obtain rfl : ([], m) = r := hr
                have hrest := ih h hl' hs' (by rw [ht]; exact hclean)
                rw [ht] at hrest
                rw [restrictList_cons_hidden hseen]
                exact hrest
            | cons n q =>
                have hn := hl e (List.mem_cons_self ..) n (by rw [hq]; exact List.mem_cons_self ..)
                have hleads : (m.hit symbol env e.1 n.order).trades <+: t.2.trades := by
                  have hr' : (m.hit symbol env e.1 n.order).trades <+: r.2.trades := by
                    rw [← hr, hq]
                    exact matchLevel_hit symbol env e.1 n q h₀
                  rw [← ht]
                  exact hr'.trans (matchLevels_leads symbol env s l r.2).trades
                obtain ⟨a, ha⟩ := h.not_hidden symbol env hn hleads hclean
                rw [hq, queue_cons_seen ha] at hseen
                cases hseen
          · have hr₂ : Clean g (r.2.trades.drop base.length) := by
              refine Clean.of_prefix ?_ hclean
              rw [← ht]
              exact (matchLevels_leads symbol env s l r.2).trades
            obtain ⟨hqueue, hmatch⟩ := h.matchLevel symbol symbol' env env' e.1
              (hl e (List.mem_cons_self ..)) (by rw [hr]; exact hr₂)
            rw [hr] at hqueue hmatch
            obtain ⟨hlevels, hmatch'⟩ := ih hmatch hl' hs' (by rw [ht]; exact hclean)
            rw [ht] at hlevels hmatch'
            rw [restrictList_cons_seen hseen, matchLevels_cons (e := (e.1, v.queue e.2)) symbol' env'
              h₀' (mt (hblock e.1).mp hb) rfl rfl, hqueue, hlevels]
            exact ⟨restrictList_put e.1 r.1 t.1, hmatch'⟩
      · have h₀' : ¬ 0 < m'.order.remaining := by rwa [h.remaining]
        rw [matchLevels_of_exhausted symbol env h₀, matchLevels_of_exhausted symbol' env' h₀']
        exact ⟨rfl, h⟩

end Matches

end View

end Aspira
