import Aspira.Pool.Mempool
import Aspira.Support.Run

/-!
# Pool — one thread allocates, one frees

The feed's receive thread allocates and the pipeline's consumer thread frees.  `mempool_free` moves
`free_top` before it writes the slot it claimed, and `mempool_alloc` before it reads the one it
claimed, so both threads can have claimed the same slot.  The pool hands out an object that is still
held when

* the slot is read before it is written though the free claimed it first (`stale_load`), or
  written before it is read though the allocation claimed it first, or
* an allocation begins while a free that met an exhausted pool has not undone its claim: `free_top`
  then counts a slot that nobody wrote.

`Orderly` excludes these three steps, and in a run without them no held object is returned
(`alloc_exclusive`).  The invariant is `Phase`: which calls the two threads can be in together, and
which objects are on their way.
-/

namespace Aspira

/-- The two threads. -/
inductive Role where
  | allocator
  | freer
  deriving DecidableEq

/-- The allocator only allocates and the freer only frees. -/
def PoolEvent.InRole : PoolEvent Role → Prop
  | .alloc i => i = .allocator
  | .free i _ => i = .freer
  | .finish _ => True

instance (e : PoolEvent Role) : Decidable e.InRole :=
  match e with
  | .alloc i => inferInstanceAs (Decidable (i = .allocator))
  | .free i _ => inferInstanceAs (Decidable (i = .freer))
  | .finish _ => inferInstanceAs (Decidable True)

namespace Machine

/-- The slot that both threads have claimed. -/
def contended (m : Machine Role) : Option UInt32 :=
  match m.calls .allocator, m.calls .freer with
  | some (.allocLoad oldTop), some (.freeStore _ slot) =>
      if oldTop - 1 = slot then some slot else none
  | _, _ => none

/-- The accesses to a contended slot come in the order of the claims, and no allocation begins while
a free undoes its claim.  The free claimed the contended slot first if `free_top` is the slot, and
second if it is one more. -/
def Orderly (m : Machine Role) : PoolEvent Role → Prop
  | .alloc _ => m.calls .freer ≠ some .freeUndo
  | .free _ _ => True
  | .finish .allocator => m.contended ≠ some m.pool.freeTop
  | .finish .freer => m.contended ≠ some (m.pool.freeTop - 1)

instance (m : Machine Role) (e : PoolEvent Role) : Decidable (m.Orderly e) :=
  match e with
  | .alloc _ => inferInstanceAs (Decidable (_ ≠ _))
  | .free _ _ => inferInstanceAs (Decidable True)
  | .finish .allocator => inferInstanceAs (Decidable (_ ≠ _))
  | .finish .freer => inferInstanceAs (Decidable (_ ≠ _))

/-- What the step returns is no object that is held. -/
def Exclusive (m : Machine Role) (_ : PoolEvent Role) (r : Option Return) (_ : Machine Role) : Prop :=
  match r with
  | some (.object ptr) => ptr ∉ m.held
  | _ => True

instance (m : Machine Role) (e : PoolEvent Role) (r : Option Return) (m' : Machine Role) :
    Decidable (Exclusive m e r m') :=
  match r with
  | some (.object ptr) => inferInstanceAs (Decidable (ptr ∉ m.held))
  | none | some .null | some .freed => inferInstanceAs (Decidable True)

end Machine

/-! ### Distinct indices -/

/-- Different indices of objects of the pool. -/
def Owned (cap : ℕ) (l : List UInt32) : Prop := l.Nodup ∧ ∀ x ∈ l, x.toNat < cap

theorem Owned.sub {cap : ℕ} {l l' : List UInt32} (h : Owned cap l) (hs : l'.Subperm l) :
    Owned cap l' := by
  refine ⟨?_, fun x hx => h.2 x (hs.subset hx)⟩
  obtain ⟨l'', hp, hsub⟩ := hs
  exact hp.nodup_iff.mp (h.1.sublist hsub)

theorem Owned.length_le {cap : ℕ} {l : List UInt32} (h : Owned cap l) : l.length ≤ cap := by
  have hnd : (l.map UInt32.toNat).Nodup := h.1.map fun x y e => UInt32.toNat_inj.mp e
  have hsub : l.map UInt32.toNat ⊆ List.range cap := by
    intro k hk
    obtain ⟨x, hx, rfl⟩ := List.mem_map.mp hk
    exact List.mem_range.mpr (h.2 x hx)
  simpa using (hnd.subperm hsub).length_le

/-! ### Phases -/

/-- `Phase mp a f t flight`: the calls `a` of the allocator and `f` of the freer that can be in
progress together, with the first `t` slots of the list free and the objects `flight` on their way
to a holder or to the list. -/
inductive Phase (mp : Mempool) : Option Call → Option Call → ℕ → List UInt32 → Prop where
  | idle {t : ℕ} (top : mp.freeTop.toNat = t) : Phase mp none none t []
  | load {t : ℕ} {old x : UInt32} (top : mp.freeTop.toNat = t) (hold : old.toNat = t + 1)
      (hx : mp.freeList[t]? = some x) : Phase mp (some (.allocLoad old)) none t [x]
  | store {t : ℕ} {idx slot : UInt32} (top : mp.freeTop.toNat = t + 1) (hslot : slot.toNat = t)
      (ht : t < mp.freeList.length) : Phase mp none (some (.freeStore idx slot)) t [idx]
  /-- The free claimed the slot first. -/
  | storeLoad {t : ℕ} {old idx slot : UInt32} (top : mp.freeTop.toNat = t)
      (hold : old.toNat = t + 1) (hslot : slot.toNat = t) (ht : t < mp.freeList.length) :
      Phase mp (some (.allocLoad old)) (some (.freeStore idx slot)) t [idx]
  /-- The allocation claimed the slot first. -/
  | loadStore {t : ℕ} {old idx slot x : UInt32} (top : mp.freeTop.toNat = t + 1)
      (hold : old.toNat = t + 1) (hslot : slot.toNat = t) (hx : mp.freeList[t]? = some x) :
      Phase mp (some (.allocLoad old)) (some (.freeStore idx slot)) t [x, idx]
  | undo (top : mp.freeTop = 0 - 1) : Phase mp (some .allocUndo) none 0 []
  | undos (top : mp.freeTop = 0) : Phase mp (some .allocUndo) (some .freeUndo) 0 []
  | freeUndo (top : mp.freeTop = 1) : Phase mp none (some .freeUndo) 0 []

namespace Machine

/-- The objects of the free slots, those on their way and those held are different objects. -/
structure Separate (m : Machine Role) : Prop where
  size : m.pool.objectSize ≠ 0
  length : m.pool.freeList.length = m.pool.capacity.toNat
  phase : ∃ t flight hs, Phase m.pool (m.calls .allocator) (m.calls .freer) t flight ∧
    m.held = hs.map m.pool.address ∧
    Owned m.pool.capacity.toNat (m.pool.freeList.take t ++ flight ++ hs) ∧
    t ≤ m.pool.freeList.length

section Steps

variable {m : Machine Role}

/-- The next state of a step that returns no object. -/
theorem exclusive_of_ne {e : PoolEvent Role} {r : Option Return} {m' : Machine Role}
    (h : ∀ ptr, r ≠ some (.object ptr)) : Exclusive m e r m' := by
  unfold Exclusive
  split
  · exact absurd rfl (h _)
  · trivial

/-- A state with the same objects in free slots, on their way and held, or fewer. -/
theorem Separate.of_phase (h : m.Separate) {mp : Mempool} {calls : Role → Option Call}
    {held : List UInt64} {a f : Option Call} {t : ℕ} {flight hs : List UInt32} (t' : ℕ)
    (flight' hs' : List UInt32)
    (hown : Owned m.pool.capacity.toNat (m.pool.freeList.take t ++ flight ++ hs))
    (hsize : mp.objectSize = m.pool.objectSize) (hcap : mp.capacity = m.pool.capacity)
    (hlen : mp.freeList.length = m.pool.freeList.length)
    (ha : calls .allocator = a) (hf : calls .freer = f) (hph : Phase mp a f t' flight')
    (hheld : held = hs'.map mp.address)
    (hsub : (mp.freeList.take t' ++ flight' ++ hs').Subperm
      (m.pool.freeList.take t ++ flight ++ hs))
    (ht : t' ≤ m.pool.freeList.length) : (⟨mp, calls, held⟩ : Machine Role).Separate where
  size := by rw [hsize]; exact h.size
  length := by rw [hlen, hcap]; exact h.length
  phase := by
    refine ⟨t', flight', hs', ?_, hheld, ?_, hlen ▸ ht⟩
    · subst ha hf
      exact hph
    · show Owned mp.capacity.toNat _
      rw [hcap]
      exact hown.sub hsub

theorem alloc_separate (h : m.Separate) (ha : m.calls .allocator = none)
    (ho : m.Orderly (.alloc .allocator)) :
    ∃ r m', m.step (.alloc .allocator) = some (r, m') ∧ m'.Separate ∧
      Exclusive m (.alloc .allocator) r m' := by
  obtain ⟨t, flight, hs, hph, hheld, hown, ht⟩ := h.phase
  refine ⟨_, _, rfl, ?_, exclusive_of_ne nofun⟩
  rw [ha] at hph
  generalize hf : m.calls .freer = f at hph
  have hfreer : ∀ c, Function.update m.calls .allocator c .freer = f := fun c =>
    (Function.update_of_ne (by decide) ..).trans hf
  cases hph with
  | idle top =>
      cases t with
      | zero =>
          have h₀ : m.pool.freeTop = 0 := UInt32.toNat_inj.mp top
          rw [Mempool.allocClaim_of_zero h₀]
          exact h.of_phase 0 [] hs hown rfl rfl rfl (Function.update_self ..) (hfreer _) (.undo rfl)
            hheld (.refl _) (Nat.zero_le _)
      | succ t =>
          have hne : m.pool.freeTop ≠ 0 := fun e => by rw [e] at top; cases top
          have hx : m.pool.freeList[t]? = some m.pool.freeList[t] := List.getElem?_eq_getElem ht
          rw [Mempool.allocClaim_of_ne hne]
          refine h.of_phase t [m.pool.freeList[t]] hs hown rfl rfl rfl (Function.update_self ..)
            (hfreer _) (.load (UInt32.toNat_sub_one top) top hx) hheld ?_ ((Nat.le_succ t).trans ht)
          rw [List.append_nil, List.take_add_one, hx]
          exact .refl _
  | store top hslot hlt =>
      have hne : m.pool.freeTop ≠ 0 := fun e => by rw [e] at top; cases top
      rw [Mempool.allocClaim_of_ne hne]
      exact h.of_phase t _ hs hown rfl rfl rfl (Function.update_self ..) (hfreer _)
        (.storeLoad (UInt32.toNat_sub_one top) top hslot hlt) hheld (.refl _) ht
  | freeUndo => exact absurd hf ho

/-- The slots below `t`, the objects on their way and those held fit in the pool. -/
theorem Separate.room (h : m.Separate) {t : ℕ} {flight hs : List UInt32}
    (hown : Owned m.pool.capacity.toNat (m.pool.freeList.take t ++ flight ++ hs))
    (ht : t ≤ m.pool.freeList.length) : t + flight.length + hs.length ≤ m.pool.freeList.length := by
  have hle := hown.length_le
  rw [List.length_append, List.length_append, List.length_take, min_eq_left ht] at hle
  rw [h.length]
  exact hle

theorem free_separate (h : m.Separate) {ptr : UInt64} (hf : m.calls .freer = none)
    (hp : ptr ∈ m.held) :
    ∃ r m', m.step (.free .freer ptr) = some (r, m') ∧ m'.Separate ∧
      Exclusive m (.free .freer ptr) r m' := by
  obtain ⟨t, flight, hs, hph, hheld, hown, ht⟩ := h.phase
  obtain ⟨idx, hidx, rfl⟩ := List.mem_map.mp (hheld ▸ hp)
  have hlt : idx.toNat < m.pool.capacity.toNat := hown.2 idx (List.mem_append_right _ hidx)
  have herase : m.held.erase (m.pool.address idx) = (hs.erase idx).map m.pool.address := by
    rw [hheld, ← List.map_erase (m.pool.address_injective h.size)]
  have hpos : 0 < hs.length := List.length_pos_of_mem hidx
  -- the object leaves the held ones and is on its way
  have hmove : ∀ l : List UInt32, (l ++ [idx] ++ hs.erase idx).Subperm (l ++ hs) := fun l => by
    rw [List.append_assoc]
    exact ((List.perm_cons_erase hidx).symm.append_left l).subperm
  rw [hf] at hph
  refine ⟨_, _, rfl, ?_, exclusive_of_ne ?_⟩
  · rw [Mempool.freeClaim_address h.size hlt]
    generalize ha : m.calls .allocator = a at hph
    have halloc : ∀ c, Function.update m.calls .freer c .allocator = a := fun c =>
      (Function.update_of_ne (by decide) ..).trans ha
    have hcap := h.length
    have hcap' := m.pool.capacity.toNat_lt
    cases hph with
    | idle top =>
        have hroom := h.room hown ht
        simp only [List.length_nil] at hroom
        have hslot : ¬ m.pool.capacity ≤ m.pool.freeTop := by
          rw [UInt32.le_iff_toNat_le, not_le, top, ← hcap]
          omega
        have hlist : t < m.pool.freeList.length := by omega
        rw [if_neg hslot]
        refine h.of_phase t [idx] (hs.erase idx) hown rfl rfl rfl (halloc _) (Function.update_self ..)
          (.store ?_ top hlist) herase ?_ ht
        · show (m.pool.freeTop + 1).toNat = t + 1
          rw [UInt32.toNat_add_one (by omega), top]
        · rw [List.append_nil]
          exact hmove _
    | @load _ _ x top hold hx =>
        have hroom := h.room hown ht
        simp only [List.length_singleton] at hroom
        have hslot : ¬ m.pool.capacity ≤ m.pool.freeTop := by
          rw [UInt32.le_iff_toNat_le, not_le, top, ← hcap]
          omega
        rw [if_neg hslot]
        refine h.of_phase t [x, idx] (hs.erase idx) hown rfl rfl rfl (halloc _)
          (Function.update_self ..) (.loadStore ?_ hold top hx) herase ?_ ht
        · show (m.pool.freeTop + 1).toNat = t + 1
          rw [UInt32.toNat_add_one (by omega), top]
        · have := hmove (m.pool.freeList.take t ++ [x])
          rw [List.append_assoc (m.pool.freeList.take t) [x] [idx]] at this
          exact this
    | undo top =>
        have hslot : m.pool.capacity ≤ m.pool.freeTop := by
          rw [UInt32.le_iff_toNat_le, top]
          exact Nat.le_of_lt_succ hcap'
        rw [if_pos hslot]
        refine h.of_phase 0 [] (hs.erase idx) hown rfl rfl rfl (halloc _) (Function.update_self ..)
          (.undos ?_) herase (List.erase_subperm _ _) (Nat.zero_le _)
        show m.pool.freeTop + 1 = 0
        rw [top]
        rfl
  · intro ptr
    split <;> simp

theorem finish_allocator_separate (h : m.Separate) (ha : m.calls .allocator ≠ none)
    (ho : m.Orderly (.finish .allocator)) :
    ∃ r m', m.step (.finish .allocator) = some (r, m') ∧ m'.Separate ∧
      Exclusive m (.finish .allocator) r m' := by
  obtain ⟨t, flight, hs, hph, hheld, hown, ht⟩ := h.phase
  have hfreer : ∀ c, Function.update m.calls .allocator c .freer = m.calls .freer := fun c =>
    Function.update_of_ne (by decide) ..
  -- an object on its way is not held
  have hnew : ∀ x ∈ flight, m.pool.address x ∉ m.held := by
    intro x hx hmem
    rw [hheld, List.mem_map] at hmem
    obtain ⟨y, hy, e⟩ := hmem
    cases m.pool.address_injective h.size e
    exact List.disjoint_of_nodup_append hown.1 (List.mem_append_right _ hx) hy
  have hnone : Function.update m.calls .allocator none .allocator = none := Function.update_self ..
  generalize hac : m.calls .allocator = a at hph ha
  generalize hfc : m.calls .freer = f at hph hfreer
  cases hph with
  | idle => exact absurd rfl ha
  | store => exact absurd rfl ha
  | freeUndo => exact absurd rfl ha
  | @load _ old x top hold hx =>
      refine ⟨_, _, step_allocLoad hac hold hx, ?_, ?_⟩
      · refine h.of_phase t [] (x :: hs) hown rfl rfl rfl hnone (hfreer _) (.idle top) ?_ ?_ ht
        · rw [hheld]
          rfl
        · simpa using List.Subperm.refl _
      · exact hnew x (List.mem_singleton_self x)
  | @storeLoad _ old idx slot top hold hslot hlt =>
      -- the free claimed the slot first: the load would be stale
      refine absurd ?_ ho
      have heq : old - 1 = slot := UInt32.toNat_inj.mp ((UInt32.toNat_sub_one hold).trans hslot.symm)
      have htop : slot = m.pool.freeTop := UInt32.toNat_inj.mp (hslot.trans top.symm)
      simp [contended, hac, hfc, heq, htop]
  | @loadStore _ old idx slot x top hold hslot hx =>
      have hlt : t < m.pool.freeList.length := (List.getElem?_eq_some_iff.mp hx).1
      refine ⟨_, _, step_allocLoad hac hold hx, ?_, ?_⟩
      · refine h.of_phase t [idx] (x :: hs) hown rfl rfl rfl hnone (hfreer _) (.store top hslot hlt)
          ?_ ?_ ht
        · rw [hheld]
          rfl
        · rw [List.append_assoc, List.append_assoc]
          exact ((List.Perm.swap x idx hs).append_left _).subperm
      · exact hnew x (List.mem_cons_self ..)
  | undo top =>
      refine ⟨_, _, step_allocUndo hac, ?_, exclusive_of_ne nofun⟩
      refine h.of_phase 0 [] hs hown rfl rfl rfl hnone (hfreer _) (.idle ?_) hheld (.refl _)
        (Nat.zero_le _)
      show (m.pool.freeTop + 1).toNat = 0
      rw [top]
      rfl
  | undos top =>
      refine ⟨_, _, step_allocUndo hac, ?_, exclusive_of_ne nofun⟩
      refine h.of_phase 0 [] hs hown rfl rfl rfl hnone (hfreer _) (.freeUndo ?_) hheld (.refl _)
        (Nat.zero_le _)
      show m.pool.freeTop + 1 = 1
      rw [top]
      rfl

theorem finish_freer_separate (h : m.Separate) (hf : m.calls .freer ≠ none)
    (ho : m.Orderly (.finish .freer)) :
    ∃ r m', m.step (.finish .freer) = some (r, m') ∧ m'.Separate ∧
      Exclusive m (.finish .freer) r m' := by
  obtain ⟨t, flight, hs, hph, hheld, hown, ht⟩ := h.phase
  have halloc : ∀ c, Function.update m.calls .freer c .allocator = m.calls .allocator := fun c =>
    Function.update_of_ne (by decide) ..
  have hnone : Function.update m.calls .freer none .freer = none := Function.update_self ..
  generalize hac : m.calls .allocator = a at hph halloc
  generalize hfc : m.calls .freer = f at hph hf
  cases hph with
  | idle => exact absurd rfl hf
  | load => exact absurd rfl hf
  | undo => exact absurd rfl hf
  | @store _ idx slot top hslot hlt =>
      refine ⟨_, _, step_freeStore hfc (hslot ▸ hlt), ?_, exclusive_of_ne nofun⟩
      rw [hslot]
      refine h.of_phase (t + 1) [] hs hown rfl rfl (List.length_set ..) (halloc _) hnone
        (.idle top) hheld ?_ hlt
      show ((m.pool.freeList.set t idx).take (t + 1) ++ [] ++ hs).Subperm _
      rw [List.append_nil, List.take_add_one, List.take_set_of_le le_rfl,
        List.getElem?_set_self hlt]
      exact .refl _
  | @storeLoad _ old idx slot top hold hslot hlt =>
      refine ⟨_, _, step_freeStore hfc (hslot ▸ hlt), ?_, exclusive_of_ne nofun⟩
      rw [hslot]
      refine h.of_phase t [idx] hs hown rfl rfl (List.length_set ..) (halloc _) hnone
        (.load top hold (List.getElem?_set_self hlt)) hheld ?_ ht
      show ((m.pool.freeList.set t idx).take t ++ [idx] ++ hs).Subperm _
      rw [List.take_set_of_le le_rfl]
  | @loadStore _ old idx slot x top hold hslot hx =>
      -- the allocation claimed the slot first: the store would hide its object
      refine absurd ?_ ho
      have heq : old - 1 = slot := UInt32.toNat_inj.mp ((UInt32.toNat_sub_one hold).trans hslot.symm)
      have htop : slot = m.pool.freeTop - 1 :=
        UInt32.toNat_inj.mp (hslot.trans (UInt32.toNat_sub_one top).symm)
      simp [contended, hac, hfc, heq, htop]
  | undos top =>
      refine ⟨_, _, step_freeUndo hfc, ?_, exclusive_of_ne nofun⟩
      refine h.of_phase 0 [] hs hown rfl rfl rfl (halloc _) hnone (.undo ?_) hheld (.refl _)
        (Nat.zero_le _)
      show m.pool.freeTop - 1 = 0 - 1
      rw [top]
  | freeUndo top =>
      refine ⟨_, _, step_freeUndo hfc, ?_, exclusive_of_ne nofun⟩
      refine h.of_phase 0 [] hs hown rfl rfl rfl (halloc _) hnone (.idle ?_) hheld (.refl _)
        (Nat.zero_le _)
      show (m.pool.freeTop - 1).toNat = 0
      rw [top]
      rfl

end Steps

/-! ### Runs -/

/-- The indices `mempool_init` fills the list with. -/
theorem owned_init {slab : Option UInt64} {list : Bool} {objectSize : UInt64} {capacity : UInt32}
    {mp : Mempool} (h : Mempool.init slab list objectSize capacity = some mp) :
    Owned capacity.toNat mp.freeList := by
  have hlist := Mempool.init_freeList h
  refine ⟨List.Nodup.of_map UInt32.toNat ?_, fun x hx => ?_⟩
  · rw [hlist]
    exact List.nodup_reverse.mpr List.nodup_range
  · have hmem := List.mem_map_of_mem (f := UInt32.toNat) hx
    rw [hlist, List.mem_reverse] at hmem
    exact List.mem_range.mp hmem

/-- A new pool: every slot is free. -/
theorem start_separate {slab : Option UInt64} {list : Bool} {objectSize : UInt64}
    {capacity : UInt32} {mp : Mempool} (h : Mempool.init slab list objectSize capacity = some mp)
    (hsize : mp.objectSize ≠ 0) :
    (start mp : Machine Role).Separate := by
  obtain ⟨-, -, hcap, htop⟩ := Mempool.init_eq_some h
  have hlen : mp.freeList.length = mp.capacity.toNat := by
    rw [Mempool.init_length h, hcap]
  refine ⟨hsize, hlen, mp.freeList.length, [], [], .idle ?_, rfl, ?_, le_rfl⟩
  · show mp.freeTop.toNat = mp.freeList.length
    rw [hlen, htop, hcap]
  · show Owned mp.capacity.toNat (mp.freeList.take mp.freeList.length ++ [] ++ [])
    rw [List.append_nil, List.append_nil, List.take_length, hcap]
    exact owned_init h

/-- What the two threads do, a step that is enabled at a time, in the order of `Orderly`. -/
def Scheduled (m : Machine Role) (e : PoolEvent Role) : Prop := m.Enabled e ∧ e.InRole ∧ m.Orderly e

instance (m : Machine Role) (e : PoolEvent Role) : Decidable (m.Scheduled e) :=
  inferInstanceAs (Decidable (_ ∧ _ ∧ _))

/-- What the two threads do, in any order. -/
def Possible (m : Machine Role) (e : PoolEvent Role) : Prop := m.Enabled e ∧ e.InRole

instance (m : Machine Role) (e : PoolEvent Role) : Decidable (m.Possible e) :=
  inferInstanceAs (Decidable (_ ∧ _))

theorem step_separate {m : Machine Role} {e : PoolEvent Role} (h : m.Separate)
    (he : m.Scheduled e) : ∃ r m', m.step e = some (r, m') ∧ m'.Separate ∧ Exclusive m e r m' := by
  obtain ⟨hen, hrole, ho⟩ := he
  cases e with
  | alloc i =>
      cases hrole
      exact alloc_separate h hen ho
  | free i ptr =>
      cases hrole
      exact free_separate h hen.1 hen.2
  | finish i =>
      cases i with
      | allocator => exact finish_allocator_separate h hen ho
      | freer => exact finish_freer_separate h hen ho

/-- **No held object is handed out again** in a run whose accesses to contended slots come in the
order of the claims, and in which no allocation begins while a free undoes its claim. -/
theorem alloc_exclusive {slab : Option UInt64} {list : Bool} {objectSize : UInt64}
    {capacity : UInt32} {mp : Mempool} {es : List (PoolEvent Role)}
    (h : Mempool.init slab list objectSize capacity = some mp) (hsize : mp.objectSize ≠ 0)
    (he : Run.Along step Scheduled (start mp) es) : Run.Always step Exclusive (start mp) es :=
  Run.always_of_step (I := Separate) (fun _ _ hm hc => step_separate hm hc)
    (start_separate h hsize) he

/-- Both objects of a pool of two are allocated; one of them is being freed, its slot claimed but
not yet written, when the allocator asks again. -/
def lateStore : List (PoolEvent Role) :=
  [.alloc .allocator, .finish .allocator, .alloc .allocator, .finish .allocator,
    .free .freer 4096, .alloc .allocator, .finish .allocator]

/-- The same, with the slot written in time. -/
def timelyStore : List (PoolEvent Role) :=
  [.alloc .allocator, .finish .allocator, .alloc .allocator, .finish .allocator,
    .free .freer 4096, .alloc .allocator, .finish .freer, .finish .allocator]

theorem alloc_exclusive_timelyStore : ∃ mp, Mempool.init (some 4096) true 64 2 = some mp ∧
    Run.Along step Scheduled (start mp) timelyStore ∧
    Run.Always step Exclusive (start mp) timelyStore :=
  ⟨_, rfl, by decide, @alloc_exclusive (some 4096) true 64 2 _ _ rfl (by decide) (by decide)⟩

/-- **A stale load hands out a held object.** -/
theorem stale_load : ∃ mp, Mempool.init (some 4096) true 64 2 = some mp ∧
    Run.Along step Possible (start mp) lateStore ∧
    ¬ Run.Always step Exclusive (start mp) lateStore :=
  ⟨_, rfl, by decide, by decide⟩

end Machine

end Aspira
