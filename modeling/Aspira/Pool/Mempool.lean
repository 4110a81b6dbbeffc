import Aspira.Support.Words

/-!
# Pool — Mempool

`include/memory_pool.h` and `src/memory_pool.c`, with each `__atomic` builtin one step.  A call of
`mempool_alloc` or `mempool_free` claims a slot of `free_list` by moving `free_top`, and then either
undoes the claim or touches the slot; `Call` is what a thread has left to do between the two.

`Machine` runs any number of threads on one pool.  It also remembers which objects are held: those
`mempool_alloc` returned and whose `mempool_free` has not begun.  A step has no result where it
reads or writes past the end of `free_list`.
-/

namespace Aspira

/-- `mempool_t`. -/
structure Mempool where
  pool : UInt64
  freeList : List UInt32
  objectSize : UInt32
  capacity : UInt32
  freeTop : UInt32
  deriving DecidableEq, Repr

/-- What is left of a call after its first step. -/
inductive Call where
  /-- `mempool_alloc` found no free object: undo the decrement. -/
  | allocUndo
  /-- `mempool_alloc` claimed slot `oldTop - 1`: read it. -/
  | allocLoad (oldTop : UInt32)
  /-- `mempool_free` found no free slot: undo the increment. -/
  | freeUndo
  /-- `mempool_free` claimed `slot`: write `idx` to it. -/
  | freeStore (idx slot : UInt32)
  deriving DecidableEq, Repr

/-- What a call returns. -/
inductive Return where
  | null
  | object (ptr : UInt64)
  | freed
  deriving DecidableEq, Repr

namespace Mempool

/-- `mempool_init`; the first two arguments are what `calloc` and `malloc` give. -/
def init (slab : Option UInt64) (list : Bool) (objectSize : UInt64) (capacity : UInt32) :
    Option Mempool :=
  if objectSize = 0 ∨ capacity = 0 then none
  else
    match slab, list with
    | some pool, true => some
        { pool := pool
          freeList := (List.range capacity.toNat).map fun i => capacity - 1 - UInt32.ofNat i
          objectSize := (if objectSize < 4 then 4 else objectSize).toUInt32
          capacity := capacity
          freeTop := capacity }
    | _, _ => none

/-- The address of the object with an index. -/
def address (mp : Mempool) (idx : UInt32) : UInt64 :=
  mp.pool + idx.toUInt64 * mp.objectSize.toUInt64

/-- The index `mempool_free` computes from a pointer. -/
def indexOf (mp : Mempool) (ptr : UInt64) : UInt32 :=
  ((ptr - mp.pool) / mp.objectSize.toUInt64).toUInt32

/-- The first step of `mempool_alloc`. -/
def allocClaim (mp : Mempool) : Call × Mempool :=
  let oldTop := mp.freeTop
  (if oldTop = 0 then .allocUndo else .allocLoad oldTop, { mp with freeTop := oldTop - 1 })

/-- The first step of `mempool_free`; a pointer past the pool is the whole call. -/
def freeClaim (mp : Mempool) (ptr : UInt64) : Option Call × Mempool :=
  let idx := mp.indexOf ptr
  if mp.capacity ≤ idx then (none, mp)
  else
    let slot := mp.freeTop
    (some (if mp.capacity ≤ slot then .freeUndo else .freeStore idx slot),
      { mp with freeTop := slot + 1 })

/-- The second and last step of a call. -/
def finish (mp : Mempool) : Call → Option (Return × Mempool)
  | .allocUndo => some (.null, { mp with freeTop := mp.freeTop + 1 })
  | .allocLoad oldTop =>
      (mp.freeList[(oldTop - 1).toNat]?).map fun idx => (.object (mp.address idx), mp)
  | .freeUndo => some (.freed, { mp with freeTop := mp.freeTop - 1 })
  | .freeStore idx slot =>
      if slot.toNat < mp.freeList.length then
        some (.freed, { mp with freeList := mp.freeList.set slot.toNat idx })
      else none

/-- `mempool_available`. -/
def available (mp : Mempool) : UInt32 := mp.freeTop

/-- The index that `mempool_init` writes to slot `i`. -/
theorem init_index {capacity : UInt32} {i : ℕ} (hi : i < capacity.toNat) :
    (capacity - 1 - UInt32.ofNat i).toNat = capacity.toNat - 1 - i := by
  have hcap := capacity.toNat_lt
  have hone : (capacity - 1).toNat = capacity.toNat - 1 :=
    UInt32.toNat_sub_one (Nat.sub_add_cancel (Nat.one_le_of_lt hi)).symm
  have hi' : (UInt32.ofNat i).toNat = i := UInt32.toNat_ofNat_of_lt' (hi.trans hcap)
  have hle : UInt32.ofNat i ≤ capacity - 1 := by
    rw [UInt32.le_iff_toNat_le, hone, hi']
    exact Nat.le_sub_one_of_lt hi
  rw [UInt32.toNat_sub_of_le _ _ hle, hone, hi']

/-- What `mempool_init` makes. -/
theorem init_eq_some {slab : Option UInt64} {list : Bool} {objectSize : UInt64} {capacity : UInt32}
    {mp : Mempool} (h : init slab list objectSize capacity = some mp) :
    mp.freeList = (List.range capacity.toNat).map (fun i => capacity - 1 - UInt32.ofNat i) ∧
      mp.objectSize = (if objectSize < 4 then 4 else objectSize).toUInt32 ∧
      mp.capacity = capacity ∧ mp.freeTop = capacity := by
  unfold init at h
  split at h
  · cases h
  · split at h
    · cases h
      exact ⟨rfl, rfl, rfl, rfl⟩
    · cases h

section Init

variable {slab : Option UInt64} {list : Bool} {objectSize : UInt64} {capacity : UInt32} {mp : Mempool}

theorem init_length (h : init slab list objectSize capacity = some mp) :
    mp.freeList.length = capacity.toNat := by
  rw [(init_eq_some h).1, List.length_map, List.length_range]

/-- `mempool_init` fills the list from the last index down. -/
theorem init_freeList (h : init slab list objectSize capacity = some mp) :
    mp.freeList.map UInt32.toNat = (List.range capacity.toNat).reverse := by
  have hrev : (List.range capacity.toNat).reverse =
      (List.range capacity.toNat).map fun i => capacity.toNat - 1 - i := by
    rw [List.range_eq_range', List.reverse_range', zero_add, List.range_eq_range']
  rw [(init_eq_some h).1, List.map_map, hrev]
  refine List.map_congr_left fun i hi => ?_
  exact init_index (List.mem_range.mp hi)

/-- The size of an object is the requested one, but at least that of an index. -/
theorem init_objectSize (h : init slab list objectSize capacity = some mp)
    (hsize : objectSize.toNat < 2 ^ 32) : mp.objectSize.toNat = max objectSize.toNat 4 := by
  rw [(init_eq_some h).2.1, UInt64.toNat_toUInt32]
  split
  · rename_i hlt
    rw [UInt64.lt_iff_toNat_lt] at hlt
    exact (max_eq_right hlt.le).symm
  · rename_i hge
    rw [UInt64.lt_iff_toNat_lt, not_lt] at hge
    rw [Nat.mod_eq_of_lt hsize]
    exact (max_eq_left hge).symm

end Init

theorem toNat_offset (mp : Mempool) (idx : UInt32) :
    (idx.toUInt64 * mp.objectSize.toUInt64).toNat = idx.toNat * mp.objectSize.toNat := by
  have h₁ := idx.toNat_lt
  have h₂ := mp.objectSize.toNat_lt
  have hlt : idx.toNat * mp.objectSize.toNat < 2 ^ 64 := by
    calc idx.toNat * mp.objectSize.toNat ≤ (2 ^ 32 - 1) * (2 ^ 32 - 1) :=
          Nat.mul_le_mul (by omega) (by omega)
      _ < 2 ^ 64 := by norm_num
  rw [UInt64.toNat_mul, UInt32.toNat_toUInt64, UInt32.toNat_toUInt64]
  exact Nat.mod_eq_of_lt hlt

theorem objectSize_pos (mp : Mempool) (h : mp.objectSize ≠ 0) : 0 < mp.objectSize.toNat :=
  Nat.pos_iff_ne_zero.mpr fun h₀ => h (UInt32.toNat_inj.mp h₀)

/-- **An object's index is recovered from its address.** -/
theorem indexOf_address (mp : Mempool) (h : mp.objectSize ≠ 0) (idx : UInt32) :
    mp.indexOf (mp.address idx) = idx := by
  have hoff : (mp.address idx - mp.pool).toNat = idx.toNat * mp.objectSize.toNat := by
    unfold address
    rw [add_sub_cancel_left, toNat_offset]
  apply UInt32.toNat_inj.mp
  unfold indexOf
  rw [UInt64.toNat_toUInt32, UInt64.toNat_div, hoff, UInt32.toNat_toUInt64,
    Nat.mul_div_cancel _ (mp.objectSize_pos h)]
  exact Nat.mod_eq_of_lt idx.toNat_lt

theorem address_injective (mp : Mempool) (h : mp.objectSize ≠ 0) :
    Function.Injective mp.address :=
  Function.LeftInverse.injective (mp.indexOf_address h)

/-! ### Claims -/

section Claims

variable {mp : Mempool}

theorem allocClaim_of_zero (h : mp.freeTop = 0) :
    mp.allocClaim = (.allocUndo, { mp with freeTop := 0 - 1 }) := by
  simp only [allocClaim, h, if_true]

theorem allocClaim_of_ne (h : mp.freeTop ≠ 0) :
    mp.allocClaim = (.allocLoad mp.freeTop, { mp with freeTop := mp.freeTop - 1 }) := by
  simp only [allocClaim, h, if_false]

/-- The first step of `mempool_free` on an object of the pool. -/
theorem freeClaim_address (hsize : mp.objectSize ≠ 0) {idx : UInt32}
    (hidx : idx.toNat < mp.capacity.toNat) :
    mp.freeClaim (mp.address idx) =
      (some (if mp.capacity ≤ mp.freeTop then .freeUndo else .freeStore idx mp.freeTop),
        { mp with freeTop := mp.freeTop + 1 }) := by
  have hlt : ¬ mp.capacity ≤ idx := by
    rw [UInt32.le_iff_toNat_le, not_le]
    exact hidx
  simp only [freeClaim, mp.indexOf_address hsize, hlt, if_false]

end Claims

end Mempool

/-! ### Threads -/

/-- A pool, the calls its threads are in, and the objects that are held. -/
structure Machine (ι : Type) where
  pool : Mempool
  calls : ι → Option Call
  held : List UInt64

/-- A step of a thread. -/
inductive PoolEvent (ι : Type) where
  /-- Begin `mempool_alloc`. -/
  | alloc (i : ι)
  /-- Begin `mempool_free` of an object. -/
  | free (i : ι) (ptr : UInt64)
  /-- Go on with the call. -/
  | finish (i : ι)
  deriving DecidableEq

namespace Machine

variable {ι : Type} [DecidableEq ι]

/-- No call is in progress and nothing is held. -/
def start (mp : Mempool) : Machine ι := ⟨mp, fun _ => none, []⟩

/-- A thread is in at most one call, and frees an object that is held. -/
def Enabled (m : Machine ι) : PoolEvent ι → Prop
  | .alloc i => m.calls i = none
  | .free i ptr => m.calls i = none ∧ ptr ∈ m.held
  | .finish i => m.calls i ≠ none

instance (m : Machine ι) (e : PoolEvent ι) : Decidable (m.Enabled e) :=
  match e with
  | .alloc i => inferInstanceAs (Decidable (m.calls i = none))
  | .free i ptr => inferInstanceAs (Decidable (m.calls i = none ∧ ptr ∈ m.held))
  | .finish i => inferInstanceAs (Decidable (m.calls i ≠ none))

/-- The objects held once a call has returned. -/
def hold (held : List UInt64) : Return → List UInt64
  | .object ptr => ptr :: held
  | _ => held

/-- One step; its result is what the call returns, if it ends. -/
def step (m : Machine ι) : PoolEvent ι → Option (Option Return × Machine ι)
  | .alloc i =>
      let r := m.pool.allocClaim
      some (none, { m with pool := r.2, calls := Function.update m.calls i (some r.1) })
  | .free i ptr =>
      let r := m.pool.freeClaim ptr
      some (if r.1.isNone then some .freed else none,
        { pool := r.2, calls := Function.update m.calls i r.1, held := m.held.erase ptr })
  | .finish i => do
      let c ← m.calls i
      let r ← m.pool.finish c
      return (some r.1,
        { pool := r.2, calls := Function.update m.calls i none, held := hold m.held r.1 })

/-! ### The last step of a call -/

section Finish

variable {m : Machine ι} {i : ι}

theorem step_allocUndo (hc : m.calls i = some .allocUndo) :
    m.step (.finish i) = some (some .null, ⟨{ m.pool with freeTop := m.pool.freeTop + 1 },
      Function.update m.calls i none, m.held⟩) := by
  simp [step, hc, Mempool.finish, hold]

theorem step_allocLoad {oldTop x : UInt32} {t : ℕ} (hc : m.calls i = some (.allocLoad oldTop))
    (ht : oldTop.toNat = t + 1) (hx : m.pool.freeList[t]? = some x) :
    m.step (.finish i) = some (some (.object (m.pool.address x)),
      ⟨m.pool, Function.update m.calls i none, m.pool.address x :: m.held⟩) := by
  simp [step, hc, Mempool.finish, UInt32.toNat_sub_one ht, hx, hold]

theorem step_freeUndo (hc : m.calls i = some .freeUndo) :
    m.step (.finish i) = some (some .freed, ⟨{ m.pool with freeTop := m.pool.freeTop - 1 },
      Function.update m.calls i none, m.held⟩) := by
  simp [step, hc, Mempool.finish, hold]

theorem step_freeStore {idx slot : UInt32} (hc : m.calls i = some (.freeStore idx slot))
    (h : slot.toNat < m.pool.freeList.length) :
    m.step (.finish i) = some (some .freed,
      ⟨{ m.pool with freeList := m.pool.freeList.set slot.toNat idx },
        Function.update m.calls i none, m.held⟩) := by
  simp [step, hc, Mempool.finish, h, hold]

end Finish

end Machine

end Aspira
