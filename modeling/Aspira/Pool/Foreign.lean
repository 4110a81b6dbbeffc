import Aspira.Pool.Sequential

/-!
# Pool — pointers from elsewhere

`mempool_free` ignores a pointer whose index is not below the capacity.  The index is a quotient of
64-bit numbers that is narrowed to 32 bits before it is compared, so that the pointers 2³² objects
apart have one index.  A pointer that lies in the slab moved up by a multiple of 2³² objects is then
taken for an object of the pool, and as long as not every object is free its index is put on the free
list: the object with this index can be handed out while it is held.  Every other pointer from outside
the slab, below it or above it, is ignored (`foreign_ignored_iff`).
-/

namespace Aspira

open Memory (block)

namespace Mempool

/-- `mempool_free` as `memory_pool.c` has it, with a check for `NULL`. -/
def freeNullChecked (mp : Mempool) (ptr : UInt64) : Option (Return × Mempool) :=
  if ptr = 0 then some (.freed, mp) else mp.free ptr

/-- The bytes of the slab. -/
def slab (mp : Mempool) : Set UInt64 := block mp.pool (mp.capacity.toNat * mp.objectSize.toNat)

/-- The pointer lies in the slab moved up by 2³² objects, or a multiple of these. -/
def Aliases (mp : Mempool) (ptr : UInt64) : Prop :=
  ∃ k, 1 ≤ k ∧ k * (2 ^ 32 * mp.objectSize.toNat) < 2 ^ 64 ∧
    ptr ∈ block (mp.pool + UInt64.ofNat (k * (2 ^ 32 * mp.objectSize.toNat)))
      (mp.capacity.toNat * mp.objectSize.toNat)

/-- The call returns, with `free_top` and `free_list` as they were. -/
def Ignores (mp : Mempool) (call : Option (Return × Mempool)) : Prop :=
  ∃ r mp', call = some (r, mp') ∧ mp'.freeTop = mp.freeTop ∧ mp'.freeList = mp.freeList

/-- A number from `n` on has a remainder below `n` where it is less than `n` past a multiple of `m`
other than 0. -/
theorem mod_lt_iff_exists {off n m : ℕ} (hout : n ≤ off) (hn : n < m) :
    off % m < n ↔ ∃ k, 1 ≤ k ∧ k * m ≤ off ∧ off < k * m + n := by
  have hdiv := Nat.div_add_mod' off m
  constructor
  · intro hlt
    refine ⟨off / m, ?_, by omega, by omega⟩
    by_contra hzero
    have hdiv₀ : off / m = 0 := Nat.lt_one_iff.mp (not_le.mp hzero)
    rw [hdiv₀, Nat.zero_mul] at hdiv
    omega
  · rintro ⟨k, -, hle, hlt⟩
    obtain ⟨x, rfl⟩ := Nat.exists_eq_add_of_le hle
    have hx : x < n := by omega
    rw [Nat.add_comm, Nat.add_mul_mod_self_right, Nat.mod_eq_of_lt (hx.trans hn)]
    exact hx

section Foreign

variable {mp : Mempool} {ptr : UInt64}

/-- The slab is an interval of addresses, as `calloc` does not wrap. -/
theorem mem_slab_iff
    (h : mp.pool.toNat + mp.capacity.toNat * mp.objectSize.toNat ≤ 2 ^ 64) :
    ptr ∈ mp.slab ↔ mp.pool.toNat ≤ ptr.toNat ∧
      ptr.toNat < mp.pool.toNat + mp.capacity.toNat * mp.objectSize.toNat := Memory.mem_block_iff h

/-- The narrowed index is below the capacity where the offset, modulo 2³² objects, is in the slab. -/
theorem indexOf_lt_iff (hsize : mp.objectSize ≠ 0) :
    mp.indexOf ptr < mp.capacity ↔ (ptr - mp.pool).toNat % (2 ^ 32 * mp.objectSize.toNat) <
      mp.capacity.toNat * mp.objectSize.toNat := by
  rw [UInt32.lt_iff_toNat_lt, indexOf, UInt64.toNat_toUInt32, UInt64.toNat_div,
    UInt32.toNat_toUInt64, ← Nat.mod_mul_right_div_self,
    Nat.div_lt_iff_lt_mul (mp.objectSize_pos hsize), Nat.mul_comm (2 ^ 32)]

/-- For a pointer from outside the slab these are the aliases. -/
theorem indexOf_lt_iff_aliases (hsize : mp.objectSize ≠ 0) (hptr : ptr ∉ mp.slab) :
    mp.indexOf ptr < mp.capacity ↔ mp.Aliases ptr := by
  have hout : mp.capacity.toNat * mp.objectSize.toNat ≤ (ptr - mp.pool).toNat := not_lt.mp hptr
  have hlt := (ptr - mp.pool).toNat_lt
  have hspan : mp.capacity.toNat * mp.objectSize.toNat < 2 ^ 32 * mp.objectSize.toNat :=
    Nat.mul_lt_mul_of_pos_right mp.capacity.toNat_lt (mp.objectSize_pos hsize)
  rw [indexOf_lt_iff hsize, mod_lt_iff_exists hout hspan]
  refine exists_congr fun k => and_congr_right fun _ => ?_
  rw [Memory.mem_block_add_of_le hout]
  constructor
  · rintro ⟨hle, hend⟩
    have hk : k * (2 ^ 32 * mp.objectSize.toNat) < 2 ^ 64 := hle.trans_lt hlt
    rw [UInt64.toNat_ofNat_of_lt' hk]
    exact ⟨hk, hle, hend⟩
  · rintro ⟨hk, hmem⟩
    rwa [UInt64.toNat_ofNat_of_lt' hk] at hmem

/-- A call on a pointer whose index is not below the capacity. -/
theorem free_of_le (h : mp.capacity ≤ mp.indexOf ptr) : mp.free ptr = some (.freed, mp) := by
  simp only [free, freeClaim, h, if_true]

/-- A call on any other pointer when every object is free: the increment is undone. -/
theorem free_of_full (h : ¬ mp.capacity ≤ mp.indexOf ptr) (hfull : mp.capacity ≤ mp.freeTop) :
    mp.free ptr = some (.freed, mp) := by
  simp only [free, freeClaim, h, hfull, if_true, if_false, finish, add_sub_cancel_right]

/-- A call on any other pointer when there is room: `free_top` moves. -/
theorem free_moves (h : ¬ mp.capacity ≤ mp.indexOf ptr) (hroom : ¬ mp.capacity ≤ mp.freeTop)
    {r : Return} {mp' : Mempool} (hfree : mp.free ptr = some (r, mp')) :
    mp'.freeTop = mp.freeTop + 1 := by
  simp only [free, freeClaim, h, hroom, if_false, finish] at hfree
  split at hfree
  · rw [← (Prod.mk.inj (Option.some.inj hfree)).2]
  · cases hfree

/-- `mempool_free` ignores a pointer exactly if its index is not below the capacity, or every object
is free. -/
theorem ignores_free_iff :
    mp.Ignores (mp.free ptr) ↔ mp.capacity ≤ mp.freeTop ∨ ¬ mp.indexOf ptr < mp.capacity := by
  rw [UInt32.not_lt]
  by_cases hidx : mp.capacity ≤ mp.indexOf ptr
  · exact ⟨fun _ => .inr hidx, fun _ => ⟨_, _, free_of_le hidx, rfl, rfl⟩⟩
  · by_cases hfull : mp.capacity ≤ mp.freeTop
    · exact ⟨fun _ => .inl hfull, fun _ => ⟨_, _, free_of_full hidx hfull, rfl, rfl⟩⟩
    · refine ⟨fun ⟨r, mp', hfree, htop, _⟩ => ?_, fun h => (h.elim hfull hidx).elim⟩
      rw [free_moves hidx hfull hfree] at htop
      exact absurd (add_eq_left.mp htop) (by decide)

/-- **Pointers from outside the slab** are ignored exactly if every object is free or they are not in
the slab moved up by a multiple of 2³² objects; in `memory_pool.c`, also if they are `NULL`. -/
theorem foreign_ignored_iff (hsize : mp.objectSize ≠ 0) (hptr : ptr ∉ mp.slab) :
    (mp.Ignores (mp.free ptr) ↔ mp.capacity ≤ mp.freeTop ∨ ¬ mp.Aliases ptr) ∧
      (mp.Ignores (mp.freeNullChecked ptr) ↔
        ptr = 0 ∨ mp.capacity ≤ mp.freeTop ∨ ¬ mp.Aliases ptr) := by
  have hfree : mp.Ignores (mp.free ptr) ↔ mp.capacity ≤ mp.freeTop ∨ ¬ mp.Aliases ptr := by
    rw [ignores_free_iff, indexOf_lt_iff_aliases hsize hptr]
  refine ⟨hfree, ?_⟩
  by_cases hnull : ptr = 0
  · rw [freeNullChecked, if_pos hnull]
    exact ⟨fun _ => .inl hnull, fun _ => ⟨_, _, rfl, rfl, rfl⟩⟩
  · rw [freeNullChecked, if_neg hnull, hfree]
    exact ⟨.inr, fun h => h.resolve_left hnull⟩

end Foreign

/-- A pool of two objects, the first of them held. -/
def oneHeld : Mempool := ⟨4096, [1, 0], 64, 2, 1⟩

/-- A pointer below the slab is ignored. -/
theorem foreign_ignored_iff_below : (∃ mp, init (some 4096) true 64 2 = some mp ∧
    mp.alloc = some (.object 4096, oneHeld)) ∧ oneHeld.objectSize ≠ 0 ∧ 64 ∉ oneHeld.slab ∧
    oneHeld.Ignores (oneHeld.free 64) ∧ ¬ oneHeld.Aliases 64 := by
  have hsize : oneHeld.objectSize ≠ 0 := by decide
  have hptr : 64 ∉ oneHeld.slab := by
    rw [mem_slab_iff (by decide)]
    decide
  have hignores : oneHeld.Ignores (oneHeld.free 64) := ⟨.freed, _, rfl, rfl, rfl⟩
  refine ⟨⟨_, rfl, rfl⟩, hsize, hptr, hignores, ?_⟩
  exact ((foreign_ignored_iff hsize hptr).1.mp hignores).resolve_left (by decide)

/-- **A pointer 2³² objects above a held one** is taken for it: `free_top` moves, and the next
allocation returns the held object. -/
theorem far_pointer_freed : (∃ mp, init (some 4096) true 64 2 = some mp ∧
    mp.alloc = some (.object 4096, oneHeld)) ∧ 274877911040 ∉ oneHeld.slab ∧
    ∃ mp, oneHeld.free 274877911040 = some (.freed, mp) ∧ mp.freeTop ≠ oneHeld.freeTop ∧
      ∃ mp', mp.alloc = some (.object 4096, mp') := by
  refine ⟨⟨_, rfl, rfl⟩, ?_, _, rfl, by decide, _, rfl⟩
  rw [mem_slab_iff (by decide)]
  decide

end Mempool

end Aspira
