import Aspira.Pool.Mempool
import Aspira.Support.Run

/-!
# Pool — Conservation

Any number of threads on one pool.  A `mempool_alloc` that finds the pool exhausted decrements
`free_top` below zero, where it wraps, and restores it in a second step.  A call that begins between
the two steps takes the wrapped word for a number of free objects: `mempool_alloc` reads far past
the list, and `mempool_free` sees a full pool and drops its object (`wrapped_top`).

In a run where no call begins between the two (`Unwrapped`), every access is within the list and no
object is lost from the count (`Counted`).  Which objects these are is a matter of the slots: slot
`k` is full when more calls are to read it than to write it, counting the free slots below
`free_top`, and where each slot is read when it is full and written when it is not (`InTurn`), the
objects in full slots, on their way to a slot and held are at all times those of the pool
(`Kept`).
-/

namespace Aspira

/-- A sum in which one summand changes. -/
theorem sum_change {κ M : Type} [DecidableEq κ] [AddCommMonoid M] {s : Finset κ} {i : κ}
    (hi : i ∈ s) (f : κ → M) (b : M) :
    ∑ j ∈ s, Function.update f i b j + f i = ∑ j ∈ s, f j + b := by
  have hrest : ∑ j ∈ s, f j = ∑ j ∈ s \ {i}, f j + f i :=
    Finset.sum_eq_sum_sdiff_singleton_add hi f
  rw [Finset.sum_update_of_mem hi, hrest]
  abel

namespace Call

/-- How many times a call is to read slot `k`. -/
def reads (k : ℕ) : Option Call → ℕ
  | some (.allocLoad oldTop) => if (oldTop - 1).toNat = k then 1 else 0
  | _ => 0

/-- How many times a call is to write slot `k`. -/
def writes (k : ℕ) : Option Call → ℕ
  | some (.freeStore _ slot) => if slot.toNat = k then 1 else 0
  | _ => 0

/-- How many objects a call is to return. -/
def loading : Option Call → ℕ
  | some (.allocLoad _) => 1
  | _ => 0

/-- How many decrements a call is to undo. -/
def undoing : Option Call → ℕ
  | some .allocUndo => 1
  | _ => 0

/-- The objects a call is to write to a slot. -/
def carried (mp : Mempool) : Option Call → Multiset UInt64
  | some (.freeStore idx _) => {mp.address idx}
  | _ => 0

/-- What a call has left to do touches no slot outside the list. -/
def InBounds (capacity : UInt32) : Option Call → Prop
  | some (.allocLoad oldTop) => oldTop - 1 < capacity
  | some (.freeStore _ slot) => slot < capacity
  | _ => True

instance (capacity : UInt32) : ∀ c, Decidable (InBounds capacity c)
  | some (.allocLoad oldTop) => inferInstanceAs (Decidable (oldTop - 1 < capacity))
  | some (.freeStore _ slot) => inferInstanceAs (Decidable (slot < capacity))
  | some .allocUndo | some .freeUndo | none => inferInstanceAs (Decidable True)

/-- A call between its two steps, in a pool of `capacity` objects. -/
def InRange (capacity : UInt32) : Option Call → Prop
  | some (.allocLoad oldTop) => (oldTop - 1).toNat < capacity.toNat
  | some (.freeStore idx slot) => idx.toNat < capacity.toNat ∧ slot.toNat < capacity.toNat
  | some .freeUndo => False
  | _ => True

end Call

namespace Machine

variable {ι : Type} [Fintype ι] [DecidableEq ι]

/-- The sum of a quantity over the calls of all threads. -/
def total {M : Type} [AddCommMonoid M] (f : Option Call → M) (calls : ι → Option Call) : M :=
  ∑ i, f (calls i)

/-- The number of free slots: `free_top`, with all decrements undone that are to be. -/
def top (m : Machine ι) : ℕ := (m.pool.freeTop + UInt32.ofNat (total Call.undoing m.calls)).toNat

/-- How often slot `k` is still to be read, once by whoever claims it if it is free. -/
def supply (m : Machine ι) (k : ℕ) : ℕ :=
  (if k < m.top then 1 else 0) + total (Call.reads k) m.calls

/-- Slot `k` holds an object that was not read yet. -/
def Full (m : Machine ι) (k : ℕ) : Prop := total (Call.writes k) m.calls < m.supply k

instance (m : Machine ι) (k : ℕ) : Decidable (m.Full k) := inferInstanceAs (Decidable (_ < _))

/-- The object of slot `k`, if the slot is full. -/
def content (m : Machine ι) (k : ℕ) : Multiset UInt64 :=
  if m.Full k then {m.pool.address (m.pool.freeList.getD k 0)} else 0

/-! ### The conditions on a step -/

/-- No call begins while a `mempool_alloc` that found the pool exhausted is to undo its
decrement. -/
def Unwrapped (m : Machine ι) : PoolEvent ι → Prop
  | .alloc _ | .free _ _ => ∀ i, m.calls i ≠ some .allocUndo
  | .finish _ => True

instance (m : Machine ι) (e : PoolEvent ι) : Decidable (m.Unwrapped e) :=
  match e with
  | .alloc _ | .free _ _ => inferInstanceAs (Decidable (∀ i, m.calls i ≠ some .allocUndo))
  | .finish _ => inferInstanceAs (Decidable True)

/-- A slot is read when it is full, and written when it is not. -/
def InTurn (m : Machine ι) : PoolEvent ι → Prop
  | .alloc _ | .free _ _ => True
  | .finish i =>
      match m.calls i with
      | some (.allocLoad oldTop) => m.Full (oldTop - 1).toNat
      | some (.freeStore _ slot) => ¬ m.Full slot.toNat
      | _ => True

instance (m : Machine ι) : ∀ e, Decidable (m.InTurn e)
  | .alloc _ | .free _ _ => inferInstanceAs (Decidable True)
  | .finish i =>
      match h : m.calls i with
      | some (.allocLoad oldTop) =>
          decidable_of_iff (m.Full (oldTop - 1).toNat) (by rw [InTurn, h])
      | some (.freeStore _ slot) => decidable_of_iff (¬ m.Full slot.toNat) (by rw [InTurn, h])
      | some .allocUndo | some .freeUndo | none => decidable_of_iff True (by rw [InTurn, h])

/-! ### What a state should be -/

/-- Every access is within the list, and when no call is in progress the objects available and those
held make up the capacity. -/
def Sound (m : Machine ι) : Prop :=
  (∀ i, Call.InBounds m.pool.capacity (m.calls i)) ∧
    ((∀ i, m.calls i = none) →
      m.pool.available.toNat + m.held.length = m.pool.capacity.toNat)

instance (m : Machine ι) : Decidable m.Sound := inferInstanceAs (Decidable (_ ∧ _))

/-- When no call is in progress, the objects of the free slots and those held are the objects of the
pool, each once. -/
def Complete (m : Machine ι) : Prop :=
  (∀ i, m.calls i = none) →
    ((m.pool.freeList.take m.pool.available.toNat).map m.pool.address ++ m.held).Perm
      ((List.range m.pool.capacity.toNat).map fun k => m.pool.address (UInt32.ofNat k))

/-! ### The invariants -/

/-- Every access is within the list, and the free slots, the objects held and those that are to be
returned make up the capacity. -/
structure Counted (m : Machine ι) : Prop where
  size : m.pool.objectSize ≠ 0
  length : m.pool.freeList.length = m.pool.capacity.toNat
  entries : ∀ x ∈ m.pool.freeList, x.toNat < m.pool.capacity.toNat
  held : ∀ p ∈ m.held, ∃ x : UInt32, x.toNat < m.pool.capacity.toNat ∧ p = m.pool.address x
  calls : ∀ i, Call.InRange m.pool.capacity (m.calls i)
  undoing : total Call.undoing m.calls = 0 ∨
    total Call.undoing m.calls = 1 ∧ m.pool.freeTop + 1 = 0
  sum : m.top + m.held.length + total Call.loading m.calls = m.pool.capacity.toNat

/-- The slots are read and written in turn, and the objects in full slots, on their way to one and
held are those of the pool. -/
structure Kept (m : Machine ι) : Prop where
  turn : ∀ k, total (Call.writes k) m.calls ≤ m.supply k ∧
    m.supply k ≤ total (Call.writes k) m.calls + 1
  objects : ∑ k ∈ Finset.range m.pool.capacity.toNat, m.content k +
      total (Call.carried m.pool) m.calls + (m.held : Multiset UInt64) =
    ∑ k ∈ Finset.range m.pool.capacity.toNat, {m.pool.address (UInt32.ofNat k)}

section Totals

variable {M : Type} [AddCommMonoid M] {calls : ι → Option Call} {i : ι} {c : Option Call}

theorem total_update (f : Option Call → M) (calls : ι → Option Call) (i : ι) (c : Option Call) :
    total f (Function.update calls i c) + f (calls i) = total f calls + f c := by
  have hcomp : (fun j => f (Function.update calls i c j)) =
      Function.update (fun j => f (calls j)) i (f c) := Function.comp_update f calls i c
  unfold total
  rw [hcomp]
  exact sum_change (Finset.mem_univ i) (fun j => f (calls j)) (f c)

/-- A call that begins. -/
theorem total_begin {f : Option Call → M} (hnone : f none = 0) (h : calls i = none)
    (c : Option Call) : total f (Function.update calls i c) = total f calls + f c := by
  rw [← total_update f calls i c, h, hnone, add_zero]

/-- A call that ends. -/
theorem total_end {f : Option Call → M} (hnone : f none = 0) (h : calls i = c) :
    total f (Function.update calls i none) + f c = total f calls := by
  rw [← h, total_update f calls i none, hnone, add_zero]

/-- A call that changes nothing of the quantity. -/
theorem total_same {f : Option Call → M} (h : f c = f (calls i)) :
    total f (Function.update calls i c) = total f calls := by
  refine Finset.sum_congr rfl fun j _ => ?_
  by_cases hj : j = i
  · subst hj
    rw [Function.update_self, h]
  · rw [Function.update_of_ne hj]

omit [DecidableEq ι] in
theorem total_eq_zero {f : Option Call → M} (h : ∀ i, f (calls i) = 0) : total f calls = 0 :=
  Finset.sum_eq_zero fun i _ => h i

end Totals

/-! ### Steps keep the count -/

section Count

variable {m : Machine ι} {i : ι}

omit [DecidableEq ι] in
theorem top_of_not_undoing (h : total Call.undoing m.calls = 0) : m.top = m.pool.freeTop.toNat := by
  rw [top, h]
  exact congrArg UInt32.toNat (add_zero _)

/-- A step that moves `free_top` by the decrements it does or undoes. -/
theorem top_same {mp : Mempool} {c : Option Call} {held : List UInt64}
    (h : mp.freeTop + UInt32.ofNat (Call.undoing c) =
      m.pool.freeTop + UInt32.ofNat (Call.undoing (m.calls i))) :
    top ⟨mp, Function.update m.calls i c, held⟩ = m.top := by
  have hsum := congrArg UInt32.ofNat (total_update Call.undoing m.calls i c)
  rw [UInt32.ofNat_add, UInt32.ofNat_add] at hsum
  unfold top
  grind

/-- An allocation that finds no free object leaves their number as it is. -/
theorem top_exhausted (hi : m.calls i = none) (h₀ : m.pool.freeTop = 0) :
    top ⟨{ m.pool with freeTop := 0 - 1 }, Function.update m.calls i (some .allocUndo), m.held⟩ =
      m.top := by
  refine top_same ?_
  rw [hi, h₀]
  exact (by decide : (0 : UInt32) - 1 + UInt32.ofNat 1 = 0 + UInt32.ofNat 0)

theorem top_undone (hc : m.calls i = some .allocUndo) :
    top ⟨{ m.pool with freeTop := m.pool.freeTop + 1 }, Function.update m.calls i none, m.held⟩ =
      m.top := by
  refine top_same ?_
  rw [hc]
  exact add_zero _

omit [DecidableEq ι] in
/-- A run outside the two steps of a failed allocation has nothing to undo. -/
theorem undoing_eq_zero (h : ∀ i, m.calls i ≠ some .allocUndo) :
    total Call.undoing m.calls = 0 := by
  refine total_eq_zero fun i => ?_
  have hi := h i
  cases hc : m.calls i with
  | none => rfl
  | some c =>
      rw [hc] at hi
      cases c with
      | allocUndo => exact absurd rfl hi
      | allocLoad oldTop => rfl
      | freeUndo => rfl
      | freeStore idx slot => rfl

/-- The calls after a step of one thread are in range. -/
theorem Counted.calls_update (h : m.Counted) {c : Option Call}
    (hc : Call.InRange m.pool.capacity c) (j : ι) :
    Call.InRange m.pool.capacity (Function.update m.calls i c j) := by
  by_cases hj : j = i
  · subst hj
    rw [Function.update_self]
    exact hc
  · rw [Function.update_of_ne hj]
    exact h.calls j

/-- What a step does that begins on no wrapped `free_top`. -/
inductive Move (m : Machine ι) : PoolEvent ι → Machine ι → Prop where
  /-- `mempool_alloc` finds no free object. -/
  | exhausted {i : ι} (hi : m.calls i = none) (hu : total Call.undoing m.calls = 0)
      (h₀ : m.pool.freeTop = 0) :
      Move m (.alloc i) ⟨{ m.pool with freeTop := 0 - 1 },
        Function.update m.calls i (some .allocUndo), m.held⟩
  /-- `mempool_alloc` claims the slot below `free_top`. -/
  | claimed {i : ι} {t : ℕ} (hi : m.calls i = none) (hu : total Call.undoing m.calls = 0)
      (ht : m.pool.freeTop.toNat = t + 1) :
      Move m (.alloc i) ⟨{ m.pool with freeTop := m.pool.freeTop - 1 },
        Function.update m.calls i (some (.allocLoad m.pool.freeTop)), m.held⟩
  /-- `mempool_free` claims the slot at `free_top`. -/
  | freeing {i : ι} {x : UInt32} (hi : m.calls i = none) (hu : total Call.undoing m.calls = 0)
      (hx : x.toNat < m.pool.capacity.toNat) (hp : m.pool.address x ∈ m.held)
      (ht : m.pool.freeTop.toNat < m.pool.capacity.toNat) :
      Move m (.free i (m.pool.address x)) ⟨{ m.pool with freeTop := m.pool.freeTop + 1 },
        Function.update m.calls i (some (.freeStore x m.pool.freeTop)),
        m.held.erase (m.pool.address x)⟩
  /-- `mempool_alloc` restores `free_top`. -/
  | undone {i : ι} (hc : m.calls i = some .allocUndo) (hu : total Call.undoing m.calls = 1)
      (hwrap : m.pool.freeTop + 1 = 0) :
      Move m (.finish i) ⟨{ m.pool with freeTop := m.pool.freeTop + 1 },
        Function.update m.calls i none, m.held⟩
  /-- `mempool_alloc` reads its slot. -/
  | loaded {i : ι} {oldTop x : UInt32} (hc : m.calls i = some (.allocLoad oldTop))
      (hx : m.pool.freeList[(oldTop - 1).toNat]? = some x) :
      Move m (.finish i) ⟨m.pool, Function.update m.calls i none, m.pool.address x :: m.held⟩
  /-- `mempool_free` writes its slot. -/
  | stored {i : ι} {idx slot : UInt32} (hc : m.calls i = some (.freeStore idx slot))
      (hidx : idx.toNat < m.pool.capacity.toNat) (hslot : slot.toNat < m.pool.capacity.toNat) :
      Move m (.finish i) ⟨{ m.pool with freeList := m.pool.freeList.set slot.toNat idx },
        Function.update m.calls i none, m.held⟩

/-- **A step is a move** where no call begins on a wrapped `free_top`. -/
theorem Counted.step (h : m.Counted) {e : PoolEvent ι} (he : m.Enabled e) (hw : m.Unwrapped e) :
    ∃ r m', m.step e = some (r, m') ∧ m.Move e m' := by
  cases e with
  | alloc i =>
      refine ⟨_, _, rfl, ?_⟩
      by_cases h₀ : m.pool.freeTop = 0
      · rw [Mempool.allocClaim_of_zero h₀]
        exact .exhausted he (undoing_eq_zero hw) h₀
      · obtain ⟨t, ht⟩ : ∃ t, m.pool.freeTop.toNat = t + 1 :=
          Nat.exists_eq_succ_of_ne_zero fun e => h₀ (UInt32.toNat_inj.mp e)
        rw [Mempool.allocClaim_of_ne h₀]
        exact .claimed he (undoing_eq_zero hw) ht
  | free i ptr =>
      obtain ⟨hi, hp⟩ := he
      obtain ⟨x, hx, rfl⟩ := h.held ptr hp
      have hundo := undoing_eq_zero hw
      have hsum := h.sum
      have hpos := List.length_pos_of_mem hp
      rw [top_of_not_undoing hundo] at hsum
      have hlt : ¬ m.pool.capacity ≤ m.pool.freeTop := by
        rw [UInt32.le_iff_toNat_le]
        omega
      refine ⟨_, _, rfl, ?_⟩
      rw [Mempool.freeClaim_address h.size hx, if_neg hlt]
      exact .freeing hi hundo hx hp (by omega)
  | finish i =>
      have hrange := h.calls i
      obtain ⟨c, hc⟩ := Option.ne_none_iff_exists'.mp he
      rw [hc] at hrange
      cases c with
      | allocUndo =>
          have hend := total_end (f := Call.undoing) rfl hc
          obtain hundo | ⟨hundo, hwrap⟩ := h.undoing
          · rw [hundo] at hend
            cases hend
          · exact ⟨_, _, step_allocUndo hc, .undone hc hundo hwrap⟩
      | allocLoad oldTop =>
          obtain ⟨x, hx⟩ : ∃ x, m.pool.freeList[(oldTop - 1).toNat]? = some x :=
            ⟨_, List.getElem?_eq_getElem (h.length.symm ▸ hrange)⟩
          refine ⟨some (.object (m.pool.address x)), _, ?_, .loaded hc hx⟩
          simp [Machine.step, hc, Mempool.finish, hx, hold]
      | freeUndo => exact hrange.elim
      | freeStore idx slot =>
          exact ⟨_, _, step_freeStore hc (h.length.symm ▸ hrange.2), .stored hc hrange.1 hrange.2⟩

/-- **A move keeps the count.** -/
theorem Move.counted {e : PoolEvent ι} {m' : Machine ι} (hm : m.Move e m') (h : m.Counted) :
    m'.Counted := by
  have hsum := h.sum
  have hcap := m.pool.capacity.toNat_lt
  cases hm with
  | @exhausted i hi hu h₀ =>
      have hundo : total Call.undoing (Function.update m.calls i (some .allocUndo)) = 1 := by
        rw [total_begin rfl hi, hu]
        rfl
      have hload : total Call.loading (Function.update m.calls i (some .allocUndo)) =
          total Call.loading m.calls := total_same (by rw [hi]; rfl)
      refine ⟨h.size, h.length, h.entries, h.held, h.calls_update trivial,
        .inr ⟨hundo, sub_add_cancel 0 1⟩, ?_⟩
      rw [top_exhausted hi h₀, hload]
      exact hsum
  | @claimed i t hi hu ht =>
      have hpred := UInt32.toNat_sub_one ht
      have hundo : total Call.undoing
          (Function.update m.calls i (some (.allocLoad m.pool.freeTop))) = 0 := by
        rw [total_same (by rw [hi]; rfl), hu]
      rw [top_of_not_undoing hu] at hsum
      refine ⟨h.size, h.length, h.entries, h.held, h.calls_update ?_, .inl hundo, ?_⟩
      · show (m.pool.freeTop - 1).toNat < m.pool.capacity.toNat
        omega
      · rw [top_of_not_undoing hundo, total_begin rfl hi]
        show (m.pool.freeTop - 1).toNat + m.held.length + (total Call.loading m.calls + 1) =
          m.pool.capacity.toNat
        omega
  | @freeing i x hi hu hx hp ht =>
      have hundo : total Call.undoing
          (Function.update m.calls i (some (.freeStore x m.pool.freeTop))) = 0 := by
        rw [total_same (by rw [hi]; rfl), hu]
      have hload : total Call.loading
          (Function.update m.calls i (some (.freeStore x m.pool.freeTop))) =
          total Call.loading m.calls := total_same (by rw [hi]; rfl)
      have hpos := List.length_pos_of_mem hp
      have herase := List.length_erase_of_mem hp
      have hsucc : (m.pool.freeTop + 1).toNat = m.pool.freeTop.toNat + 1 :=
        UInt32.toNat_add_one (by omega)
      rw [top_of_not_undoing hu] at hsum
      refine ⟨h.size, h.length, h.entries, fun p hmem => h.held p (List.mem_of_mem_erase hmem),
        h.calls_update ⟨hx, ht⟩, .inl hundo, ?_⟩
      rw [top_of_not_undoing hundo, hload]
      show (m.pool.freeTop + 1).toNat + (m.held.erase (m.pool.address x)).length +
        total Call.loading m.calls = m.pool.capacity.toNat
      omega
  | @undone i hc hu hwrap =>
      have hend := total_end (f := Call.undoing) rfl hc
      rw [hu] at hend
      have hundo : total Call.undoing (Function.update m.calls i none) = 0 := Nat.succ.inj hend
      have hload : total Call.loading (Function.update m.calls i none) =
          total Call.loading m.calls := total_same (by rw [hc]; rfl)
      refine ⟨h.size, h.length, h.entries, h.held, h.calls_update trivial, .inl hundo, ?_⟩
      rw [top_undone hc, hload]
      exact hsum
  | @loaded i oldTop x hc hx =>
      have hundo : total Call.undoing (Function.update m.calls i none) =
          total Call.undoing m.calls := total_same (by rw [hc]; rfl)
      have hload : total Call.loading (Function.update m.calls i none) + 1 =
          total Call.loading m.calls := total_end rfl hc
      refine ⟨h.size, h.length, h.entries, ?_, h.calls_update trivial, ?_, ?_⟩
      · intro p hp
        rcases List.mem_cons.mp hp with rfl | hp
        · exact ⟨x, h.entries x (List.mem_of_getElem? hx), rfl⟩
        · exact h.held p hp
      · rw [hundo]
        exact h.undoing
      · rw [top_same (by rw [hc]; rfl)]
        show m.top + (m.held.length + 1) + total Call.loading (Function.update m.calls i none) =
          m.pool.capacity.toNat
        omega
  | @stored i idx slot hc hidx hslot =>
      have hundo : total Call.undoing (Function.update m.calls i none) =
          total Call.undoing m.calls := total_same (by rw [hc]; rfl)
      have hload : total Call.loading (Function.update m.calls i none) =
          total Call.loading m.calls := total_same (by rw [hc]; rfl)
      refine ⟨h.size, (List.length_set ..).trans h.length, ?_, h.held, h.calls_update trivial, ?_, ?_⟩
      · intro x hx
        rcases List.mem_or_eq_of_mem_set hx with hx | rfl
        · exact h.entries x hx
        · exact hidx
      · rw [hundo]
        exact h.undoing
      · rw [top_same (by rw [hc]; rfl), hload]
        exact hsum

end Count

/-! ### Steps keep the objects -/

section Objects

variable {m m' : Machine ι}

omit [DecidableEq ι] in
theorem content_of_full {k : ℕ} {x : UInt32} (h : m.Full k) (hx : m.pool.freeList[k]? = some x) :
    m.content k = {m.pool.address x} := by
  rw [content, if_pos h, List.getD_eq_getElem?_getD, hx]
  rfl

omit [DecidableEq ι] in
theorem content_of_not_full {k : ℕ} (h : ¬ m.Full k) : m.content k = 0 := if_neg h

omit [DecidableEq ι] in
/-- A slot that is as full as before and holds the same index. -/
theorem content_congr {k : ℕ} (hfull : m'.Full k ↔ m.Full k)
    (hget : m'.pool.freeList[k]? = m.pool.freeList[k]?)
    (haddr : m'.pool.address = m.pool.address) : m'.content k = m.content k := by
  unfold content
  rw [List.getD_eq_getElem?_getD, List.getD_eq_getElem?_getD, hget, haddr]
  by_cases h : m.Full k
  · rw [if_pos h, if_pos (hfull.mpr h)]
  · rw [if_neg h, if_neg (mt hfull.mp h)]

omit [DecidableEq ι] in
/-- A move that touches no slot: no slot is more or less full, and the objects on their way or held
are the same. -/
theorem Kept.of_untouched (h : m.Kept) (hcap : m'.pool.capacity = m.pool.capacity)
    (hlist : m'.pool.freeList = m.pool.freeList) (haddr : m'.pool.address = m.pool.address)
    (hslots : ∀ k, m'.supply k + total (Call.writes k) m.calls =
      m.supply k + total (Call.writes k) m'.calls)
    (hobj : total (Call.carried m'.pool) m'.calls + (m'.held : Multiset UInt64) =
      total (Call.carried m.pool) m.calls + (m.held : Multiset UInt64)) : m'.Kept where
  turn := by
    intro k
    have hturn := h.turn k
    have hk := hslots k
    omega
  objects := by
    have hcontent : ∀ k, m'.content k = m.content k := by
      intro k
      refine content_congr ?_ (by rw [hlist]) haddr
      have hk := hslots k
      unfold Full
      omega
    rw [hcap, haddr, add_assoc, hobj, ← add_assoc, ← h.objects]
    simp only [hcontent]

/-- The object of a full slot goes to the thread that reads it. -/
theorem Kept.load (h : m.Kept) {i : ι} {oldTop x : UInt32}
    (hc : m.calls i = some (.allocLoad oldTop))
    (hlt : (oldTop - 1).toNat < m.pool.capacity.toNat)
    (hx : m.pool.freeList[(oldTop - 1).toNat]? = some x) (hfull : m.Full (oldTop - 1).toNat) :
    Kept ⟨m.pool, Function.update m.calls i none, m.pool.address x :: m.held⟩ := by
  generalize hm' : (⟨m.pool, Function.update m.calls i none, m.pool.address x :: m.held⟩ :
    Machine ι) = m'
  have hpool : m'.pool = m.pool := by rw [← hm']
  have htop : m'.top = m.top := by
    rw [← hm']
    refine top_same ?_
    rw [hc]
    rfl
  have hsupply : ∀ k, m'.supply k + (if (oldTop - 1).toNat = k then 1 else 0) = m.supply k := by
    intro k
    have hend : total (Call.reads k) (Function.update m.calls i none) +
        (if (oldTop - 1).toNat = k then 1 else 0) = total (Call.reads k) m.calls := total_end rfl hc
    rw [supply, supply, htop, ← hend, ← hm', add_assoc]
  have hwrites : ∀ k, total (Call.writes k) m'.calls = total (Call.writes k) m.calls := by
    intro k
    rw [← hm']
    exact total_same (by rw [hc]; rfl)
  have hcontent : m'.content = Function.update m.content (oldTop - 1).toNat 0 := by
    funext k
    have hk := hsupply k
    by_cases he : k = (oldTop - 1).toNat
    · subst he
      rw [Function.update_self]
      refine content_of_not_full ?_
      have hturn := (h.turn (oldTop - 1).toNat).2
      rw [if_pos rfl] at hk
      rw [Full, hwrites]
      omega
    · rw [Function.update_of_ne he]
      rw [if_neg (Ne.symm he), add_zero] at hk
      refine content_congr ?_ (by rw [hpool]) (by rw [hpool])
      rw [Full, Full, hk, hwrites]
  refine ⟨fun k => ?_, ?_⟩
  · have hturn := h.turn k
    have hk := hsupply k
    rw [hwrites]
    unfold Full at hfull
    by_cases he : (oldTop - 1).toNat = k
    · rw [if_pos he] at hk
      rw [he] at hfull
      omega
    · rw [if_neg he] at hk
      omega
  · have hsum := sum_change (Finset.mem_range.mpr hlt) m.content 0
    rw [content_of_full hfull hx, add_zero] at hsum
    rw [hcontent, hpool, ← h.objects, ← hsum, ← hm']
    show _ + total (Call.carried m.pool) (Function.update m.calls i none) +
      ((m.pool.address x :: m.held : List UInt64) : Multiset UInt64) = _
    rw [total_same (by rw [hc]; rfl), ← Multiset.cons_coe, ← Multiset.singleton_add]
    abel

/-- An object on its way goes to an empty slot. -/
theorem Kept.store (h : m.Kept) {i : ι} {idx slot : UInt32}
    (hc : m.calls i = some (.freeStore idx slot)) (hslot : slot.toNat < m.pool.capacity.toNat)
    (hlen : slot.toNat < m.pool.freeList.length) (hfull : ¬ m.Full slot.toNat) :
    Kept ⟨{ m.pool with freeList := m.pool.freeList.set slot.toNat idx },
      Function.update m.calls i none, m.held⟩ := by
  generalize hm' : (⟨{ m.pool with freeList := m.pool.freeList.set slot.toNat idx },
    Function.update m.calls i none, m.held⟩ : Machine ι) = m'
  have hlist : m'.pool.freeList = m.pool.freeList.set slot.toNat idx := by rw [← hm']
  have haddr : m'.pool.address = m.pool.address := by
    rw [← hm']
    rfl
  have htop : m'.top = m.top := by
    rw [← hm']
    refine top_same ?_
    rw [hc]
    rfl
  have hsupply : ∀ k, m'.supply k = m.supply k := by
    intro k
    rw [supply, supply, htop, ← hm', total_same (by rw [hc]; rfl)]
  have hwrites : ∀ k, total (Call.writes k) m'.calls + (if slot.toNat = k then 1 else 0) =
      total (Call.writes k) m.calls := by
    intro k
    rw [← hm']
    exact total_end rfl hc
  have hcontent : m'.content = Function.update m.content slot.toNat {m.pool.address idx} := by
    funext k
    have hk := hwrites k
    by_cases he : k = slot.toNat
    · subst he
      have hget : m'.pool.freeList[slot.toNat]? = some idx := by
        rw [hlist, List.getElem?_set_self hlen]
      rw [Function.update_self, ← haddr]
      refine content_of_full ?_ hget
      have hturn := (h.turn slot.toNat).1
      rw [if_pos rfl] at hk
      rw [Full, hsupply]
      omega
    · rw [Function.update_of_ne he]
      rw [if_neg (Ne.symm he), add_zero] at hk
      refine content_congr ?_ (by rw [hlist, List.getElem?_set_ne (Ne.symm he)]) haddr
      rw [Full, Full, hk, hsupply]
  refine ⟨fun k => ?_, ?_⟩
  · have hturn := h.turn k
    have hk := hwrites k
    rw [hsupply]
    unfold Full at hfull
    by_cases he : slot.toNat = k
    · rw [if_pos he] at hk
      rw [he] at hfull
      omega
    · rw [if_neg he] at hk
      omega
  · have hsum := sum_change (Finset.mem_range.mpr hslot) m.content {m.pool.address idx}
    have hcarried : total (Call.carried m.pool) (Function.update m.calls i none) +
        {m.pool.address idx} = total (Call.carried m.pool) m.calls := total_end rfl hc
    rw [content_of_not_full hfull, add_zero] at hsum
    rw [hcontent, haddr, ← hm']
    show ∑ k ∈ Finset.range m.pool.capacity.toNat,
        Function.update m.content slot.toNat {m.pool.address idx} k +
      total (Call.carried m.pool) (Function.update m.calls i none) + (m.held : Multiset UInt64) = _
    rw [hsum, ← h.objects, ← hcarried]
    abel

/-- **A move in turn keeps the objects.** -/
theorem Move.kept {e : PoolEvent ι} (hm : m.Move e m') (hcount : m.Counted) (h : m.Kept)
    (hturn : m.InTurn e) : m'.Kept := by
  cases hm with
  | @exhausted i hi hu h₀ =>
      refine h.of_untouched rfl rfl rfl (fun k => ?_) ?_
      · rw [supply, supply, top_exhausted hi h₀, total_same (by rw [hi]; rfl),
          total_same (by rw [hi]; rfl)]
      · rw [total_same (by rw [hi]; rfl)]
        rfl
  | @claimed i t hi hu ht =>
      have hundo : total Call.undoing
          (Function.update m.calls i (some (.allocLoad m.pool.freeTop))) = 0 := by
        rw [total_same (by rw [hi]; rfl), hu]
      have hpred := UInt32.toNat_sub_one ht
      refine h.of_untouched rfl rfl rfl (fun k => ?_) ?_
      · rw [supply, supply, top_of_not_undoing hu, top_of_not_undoing hundo, total_begin rfl hi,
          total_same (by rw [hi]; rfl)]
        simp only [Call.reads, hpred, ht]
        grind
      · rw [total_same (by rw [hi]; rfl)]
        rfl
  | @freeing i x hi hu hx hp ht =>
      have hundo : total Call.undoing
          (Function.update m.calls i (some (.freeStore x m.pool.freeTop))) = 0 := by
        rw [total_same (by rw [hi]; rfl), hu]
      have hcap := m.pool.capacity.toNat_lt
      have hsucc : (m.pool.freeTop + 1).toNat = m.pool.freeTop.toNat + 1 :=
        UInt32.toNat_add_one (by omega)
      refine h.of_untouched rfl rfl rfl (fun k => ?_) ?_
      · have hreads : total (Call.reads k)
            (Function.update m.calls i (some (.freeStore x m.pool.freeTop))) =
            total (Call.reads k) m.calls := total_same (by rw [hi]; rfl)
        rw [supply, supply, top_of_not_undoing hu, top_of_not_undoing hundo, hreads,
          total_begin rfl hi]
        simp only [Call.writes, hsucc]
        grind
      · rw [total_begin rfl hi, add_assoc]
        show total (Call.carried m.pool) m.calls + ({m.pool.address x} +
          ((m.held.erase (m.pool.address x) : List UInt64) : Multiset UInt64)) = _
        rw [Multiset.singleton_add, Multiset.cons_coe, Multiset.coe_eq_coe.mpr
          (List.perm_cons_erase hp).symm]
  | @undone i hc hu hwrap =>
      refine h.of_untouched rfl rfl rfl (fun k => ?_) ?_
      · rw [supply, supply, top_undone hc, total_same (by rw [hc]; rfl),
          total_same (by rw [hc]; rfl)]
      · rw [total_same (by rw [hc]; rfl)]
        rfl
  | @loaded i oldTop x hc hx =>
      have hlt := hcount.calls i
      rw [hc] at hlt
      rw [InTurn, hc] at hturn
      exact h.load hc hlt hx hturn
  | @stored i idx slot hc hidx hslot =>
      rw [InTurn, hc] at hturn
      exact h.store hc hslot (hcount.length.symm ▸ hslot) hturn

end Objects

/-! ### Runs -/

section Runs

variable {m : Machine ι}

omit [DecidableEq ι] in
theorem Counted.sound (h : m.Counted) : m.Sound := by
  refine ⟨fun i => ?_, fun hquiet => ?_⟩
  · have hrange := h.calls i
    cases hc : m.calls i with
    | none => trivial
    | some c =>
        rw [hc] at hrange
        cases c with
        | allocLoad oldTop => exact UInt32.lt_iff_toNat_lt.mpr hrange
        | freeStore idx slot => exact UInt32.lt_iff_toNat_lt.mpr hrange.2
        | allocUndo => trivial
        | freeUndo => trivial
  · have hsum := h.sum
    have hzero : ∀ f : Option Call → ℕ, f none = 0 → total f m.calls = 0 := fun f hf =>
      total_eq_zero fun i => by rw [hquiet i, hf]
    rw [hzero _ rfl, top_of_not_undoing (hzero _ rfl)] at hsum
    exact hsum

omit [DecidableEq ι] in
/-- The full slots, when no call is in progress, are those below `free_top`. -/
theorem content_of_quiet (hquiet : ∀ i, m.calls i = none) (k : ℕ) :
    m.content k = if k < m.pool.freeTop.toNat then
      {m.pool.address (m.pool.freeList.getD k 0)} else 0 := by
  have hzero : ∀ f : Option Call → ℕ, f none = 0 → total f m.calls = 0 := fun f hf =>
    total_eq_zero fun i => by rw [hquiet i, hf]
  have hfull : m.Full k ↔ k < m.pool.freeTop.toNat := by
    rw [Full, supply, hzero _ rfl, hzero _ rfl, top_of_not_undoing (hzero _ rfl)]
    by_cases hk : k < m.pool.freeTop.toNat
    · rw [if_pos hk]
      exact iff_of_true Nat.one_pos hk
    · rw [if_neg hk]
      exact iff_of_false (lt_irrefl 0) hk
  by_cases hk : k < m.pool.freeTop.toNat
  · rw [content, if_pos (hfull.mpr hk), if_pos hk]
  · rw [content, if_neg (mt hfull.mp hk), if_neg hk]

theorem sum_singletons {B : Type} (g : ℕ → B) (n : ℕ) :
    ∑ k ∈ Finset.range n, ({g k} : Multiset B) = ((List.range n).map g : List B) := by
  induction n with
  | zero => rfl
  | succ n ih =>
      rw [Finset.sum_range_succ, ih, List.range_succ, List.map_append, ← Multiset.coe_add]
      rfl

/-- The first `t` elements, one by one. -/
theorem map_range_getD {A B : Type} (g : A → B) (d : A) (l : List A) {t : ℕ} (h : t ≤ l.length) :
    (List.range t).map (fun k => g (l.getD k d)) = (l.take t).map g := by
  refine List.ext_getElem (by simp [h]) fun k h₁ h₂ => ?_
  have hk : k < l.length := (by simpa using h₁ : k < t).trans_le h
  rw [List.getElem_map, List.getElem_map, List.getElem_range, List.getElem_take,
    List.getD_eq_getElem _ _ hk]

omit [DecidableEq ι] in
theorem Kept.complete (h : m.Kept) (hc : m.Counted) : m.Complete := by
  intro hquiet
  have hobjects := h.objects
  have hzero : total (Call.carried m.pool) m.calls = 0 := total_eq_zero fun i => by
    rw [hquiet i]
    rfl
  have hle : m.pool.freeTop.toNat ≤ m.pool.capacity.toNat := by
    have hsum := hc.sound.2 hquiet
    exact hsum ▸ Nat.le_add_right _ _
  have hfilter : (Finset.range m.pool.capacity.toNat).filter (· < m.pool.freeTop.toNat) =
      Finset.range m.pool.freeTop.toNat := by
    ext k
    rw [Finset.mem_filter, Finset.mem_range, Finset.mem_range]
    exact ⟨fun hk => hk.2, fun hk => ⟨hk.trans_le hle, hk⟩⟩
  simp only [content_of_quiet hquiet] at hobjects
  rw [← Finset.sum_filter, hfilter, sum_singletons, sum_singletons,
    map_range_getD m.pool.address _ _ (hc.length ▸ hle), hzero, add_zero, Multiset.coe_add]
    at hobjects
  exact Multiset.coe_eq_coe.mp hobjects

omit [DecidableEq ι] in
/-- A new pool: every slot is free. -/
theorem start_counted {slab : Option UInt64} {list : Bool} {objectSize : UInt64}
    {capacity : UInt32} {mp : Mempool}
    (h : Mempool.init slab list objectSize capacity = some mp) (hsize : mp.objectSize ≠ 0) :
    (start mp : Machine ι).Counted := by
  obtain ⟨-, -, hcap, htop⟩ := Mempool.init_eq_some h
  have hlen : mp.freeList.length = mp.capacity.toNat := by
    rw [Mempool.init_length h, hcap]
  have hundo : total Call.undoing (start mp : Machine ι).calls = 0 := total_eq_zero fun _ => rfl
  have hload : total Call.loading (start mp : Machine ι).calls = 0 := total_eq_zero fun _ => rfl
  refine ⟨hsize, hlen, fun x hx => ?_, fun _ => nofun, fun _ => trivial, .inl hundo, ?_⟩
  · have hx' : x.toNat ∈ mp.freeList.map UInt32.toNat := List.mem_map_of_mem hx
    rw [Mempool.init_freeList h, List.mem_reverse, List.mem_range] at hx'
    show x.toNat < mp.capacity.toNat
    rw [hcap]
    exact hx'
  · rw [top_of_not_undoing hundo, hload]
    show mp.freeTop.toNat + 0 + 0 = mp.capacity.toNat
    rw [htop, hcap, add_zero, add_zero]

omit [DecidableEq ι] in
theorem start_kept {slab : Option UInt64} {list : Bool} {objectSize : UInt64}
    {capacity : UInt32} {mp : Mempool}
    (h : Mempool.init slab list objectSize capacity = some mp) :
    (start mp : Machine ι).Kept := by
  obtain ⟨hlist, -, hcap, htop⟩ := Mempool.init_eq_some h
  have hquiet : ∀ i, (start mp : Machine ι).calls i = none := fun _ => rfl
  have hcarried : total (Call.carried mp) (start mp : Machine ι).calls = 0 :=
    total_eq_zero fun _ => rfl
  refine ⟨fun k => ?_, ?_⟩
  · have hwrites : total (Call.writes k) (start mp : Machine ι).calls = 0 :=
      total_eq_zero fun _ => rfl
    have hreads : total (Call.reads k) (start mp : Machine ι).calls = 0 :=
      total_eq_zero fun _ => rfl
    rw [hwrites, supply, hreads]
    split <;> omega
  · show ∑ k ∈ Finset.range mp.capacity.toNat, (start mp : Machine ι).content k +
      total (Call.carried mp) (start mp : Machine ι).calls + 0 =
        ∑ k ∈ Finset.range mp.capacity.toNat, {mp.address (UInt32.ofNat k)}
    -- `mempool_init` fills the list from the last index down
    rw [hcarried, add_zero, add_zero, hcap,
      ← Finset.sum_range_reflect fun k => ({mp.address (UInt32.ofNat k)} : Multiset UInt64)]
    refine Finset.sum_congr rfl fun k hk => ?_
    rw [Finset.mem_range] at hk
    have hget : mp.freeList.getD k 0 = UInt32.ofNat (capacity.toNat - 1 - k) := by
      rw [hlist, List.getD_eq_getElem _ _ (by simpa using hk), List.getElem_map,
        List.getElem_range, ← Mempool.init_index hk, UInt32.ofNat_toNat]
    rw [content_of_quiet hquiet]
    show (if k < mp.freeTop.toNat then {mp.address (mp.freeList.getD k 0)} else 0) = _
    rw [hget, htop, if_pos hk]

/-- **The pool keeps its objects**, whatever the threads do, in a run where no call takes its first
step between the two steps of an allocation that found the pool exhausted: every access is within the
list, and when no call is in progress the objects available and those held make up the capacity.
Where the slots are also read and written in turn, these are the objects of the pool. -/
theorem pool_conserved {slab : Option UInt64} {list : Bool} {objectSize : UInt64}
    {capacity : UInt32} {mp : Mempool} {es : List (PoolEvent ι)}
    (h : Mempool.init slab list objectSize capacity = some mp) (hsize : mp.objectSize ≠ 0)
    (he : Run.Along step Enabled (start mp) es) (hw : Run.Along step Unwrapped (start mp) es) :
    Run.Always step (fun _ _ _ m' => m'.Sound) (start mp) es ∧
      (Run.Along step InTurn (start mp) es →
        Run.Always step (fun _ _ _ m' => m'.Complete) (start mp) es) := by
  have hstart := start_counted (ι := ι) h hsize
  refine ⟨Run.always_of_step (I := Counted) (fun m e hm hc => ?_) hstart (he.and hw),
    fun hturn => Run.always_of_step (I := fun m => m.Counted ∧ m.Kept) (fun m e hm hc => ?_)
      ⟨hstart, start_kept h⟩ ((he.and hw).and hturn)⟩
  · obtain ⟨r, m', hstep, hmove⟩ := hm.step hc.1 hc.2
    have hm' := hmove.counted hm
    exact ⟨r, m', hstep, hm', hm'.sound⟩
  · obtain ⟨r, m', hstep, hmove⟩ := hm.1.step hc.1.1 hc.1.2
    have hm' := hmove.counted hm.1
    have hk' := hmove.kept hm.1 hm.2 hc.2
    exact ⟨r, m', hstep, ⟨hm', hk'⟩, hk'.complete hm'⟩

end Runs

/-- Three threads on a pool of one object: an allocation finds it exhausted and is done before the
object is freed. -/
def patientCalls : List (PoolEvent (Fin 3)) :=
  [.alloc 0, .finish 0, .alloc 1, .finish 1, .free 0 4096, .alloc 2, .finish 0, .finish 2]

theorem pool_conserved_patientCalls : ∃ mp, Mempool.init (some 4096) true 64 1 = some mp ∧
    mp.objectSize ≠ 0 ∧ Run.Along step Enabled (start mp) patientCalls ∧
    Run.Along step Unwrapped (start mp) patientCalls ∧
    Run.Along step InTurn (start mp) patientCalls ∧
    Run.Always step (fun _ _ _ m' => m'.Sound) (start mp) patientCalls ∧
    (Run.Along step InTurn (start mp) patientCalls →
      Run.Always step (fun _ _ _ m' => m'.Complete) (start mp) patientCalls) :=
  ⟨_, rfl, by decide, by decide, by decide, by decide,
    @pool_conserved (Fin 3) _ _ (some 4096) true 64 1 _ _ rfl (by decide) (by decide) (by decide)⟩

/-- The object is held when two threads ask for one: the second takes the wrapped `free_top` for a
number of free objects. -/
def strayLoad : List (PoolEvent (Fin 3)) := [.alloc 0, .finish 0, .alloc 1, .alloc 2, .finish 2]

/-- The object is freed between the two steps of an allocation that found the pool exhausted. -/
def droppedFree : List (PoolEvent (Fin 3)) :=
  [.alloc 0, .finish 0, .alloc 1, .free 0 4096, .finish 0, .finish 1]

/-- **A wrapped `free_top`** sends a load past the list, and loses an object that is freed. -/
theorem wrapped_top : ∃ mp, Mempool.init (some 4096) true 64 1 = some mp ∧
    (Run.Along step Enabled (start mp) strayLoad ∧
      ¬ Run.Always step (fun _ _ _ m' => m'.Sound) (start mp) strayLoad) ∧
    Run.Along step Enabled (start mp) droppedFree ∧
    ¬ Run.Always step (fun _ _ _ m' => m'.Sound) (start mp) droppedFree :=
  ⟨_, rfl, ⟨by decide, by decide⟩, by decide, by decide⟩

end Machine

end Aspira
