import Aspira.Pool.Mempool
import Aspira.Support.Memory
import Aspira.Support.Run

/-!
# Pool — one call at a time

`mempool_alloc` and `mempool_free` taken whole, as one thread calls them.  The pool is then a stack:
`alloc_cons` and `free_address` say what a call does to the indices in `free_list[0..free_top)`, and
that it touches nothing else.

`PoolClient` runs the calls of a client that frees what it holds.  Along every such run the free
indices and those of the held objects are the indices of the pool, the held objects are different
parts of the slab, and an allocation returns what was freed last (`calls_correct`).
-/

namespace Aspira

open Memory (block Stacked)

namespace Mempool

/-- `mempool_alloc`. -/
def alloc (mp : Mempool) : Option (Return × Mempool) :=
  let r := mp.allocClaim
  r.2.finish r.1

/-- `mempool_free`. -/
def free (mp : Mempool) (ptr : UInt64) : Option (Return × Mempool) :=
  let r := mp.freeClaim ptr
  match r.1 with
  | none => some (.freed, r.2)
  | some c => r.2.finish c

/-- The index in the slot that `mempool_alloc` reads if the pool is not exhausted. -/
def nextIndex (mp : Mempool) : Option UInt32 := mp.freeList[(mp.freeTop - 1).toNat]?

/-- `free_list[0..free_top)` is a stack of indices. -/
structure Stacks (mp : Mempool) (st : List UInt32) : Prop where
  length : mp.freeList.length = mp.capacity.toNat
  top : mp.freeTop.toNat = st.length
  slots : Stacked mp.freeList st

section Calls

variable {mp : Mempool} {st : List UInt32} {x : UInt32}

theorem Stacks.take (h : mp.Stacks st) : mp.freeList.take mp.freeTop.toNat = st.reverse := by
  rw [h.top]
  exact h.slots

/-- An exhausted pool: the decrement is undone. -/
theorem Stacks.alloc_nil (h : mp.Stacks []) : mp.alloc = some (.null, mp) := by
  have hzero : mp.freeTop = 0 := UInt32.toNat_inj.mp h.top
  rw [alloc, allocClaim_of_zero hzero]
  show some (Return.null, { mp with freeTop := 0 - 1 + 1 }) = _
  rw [sub_add_cancel, ← hzero]

/-- **`mempool_alloc`** takes the top. -/
theorem Stacks.alloc_cons (h : mp.Stacks (x :: st)) :
    mp.nextIndex = some x ∧
      mp.alloc = some (.object (mp.address x), { mp with freeTop := mp.freeTop - 1 }) ∧
      Stacks { mp with freeTop := mp.freeTop - 1 } st := by
  have htop : mp.freeTop.toNat = st.length + 1 := h.top
  have hpred : (mp.freeTop - 1).toNat = st.length := UInt32.toNat_sub_one htop
  have hne : mp.freeTop ≠ 0 := fun e => by
    rw [e] at htop
    exact absurd htop.symm (Nat.succ_ne_zero _)
  have hnext : mp.nextIndex = some x := by
    rw [nextIndex, hpred]
    exact h.slots.top
  refine ⟨hnext, ?_, h.length, hpred, h.slots.pop⟩
  rw [nextIndex] at hnext
  rw [alloc, allocClaim_of_ne hne]
  show (mp.freeList[(mp.freeTop - 1).toNat]?).map _ = _
  rw [hnext]
  rfl

/-- **`mempool_free`** puts the index of an object on top. -/
theorem Stacks.free_address (h : mp.Stacks st) (hsize : mp.objectSize ≠ 0)
    (hlt : st.length < mp.capacity.toNat) (hx : x.toNat < mp.capacity.toNat) :
    mp.free (mp.address x) = some (.freed, { mp with
        freeList := mp.freeList.set mp.freeTop.toNat x
        freeTop := mp.freeTop + 1 }) ∧
      Stacks { mp with
        freeList := mp.freeList.set mp.freeTop.toNat x
        freeTop := mp.freeTop + 1 } (x :: st) := by
  have hroom : ¬ mp.capacity ≤ mp.freeTop := by
    rw [UInt32.le_iff_toNat_le, h.top, not_le]
    exact hlt
  have hslot : mp.freeTop.toNat < mp.freeList.length := by
    rw [h.top, h.length]
    exact hlt
  have hcap := mp.capacity.toNat_lt
  have hnext : (mp.freeTop + 1).toNat = mp.freeTop.toNat + 1 :=
    UInt32.toNat_add_one (by rw [h.top]; omega)
  refine ⟨?_, (List.length_set ..).trans h.length, ?_, ?_⟩
  · rw [free, freeClaim_address hsize hx, if_neg hroom]
    exact if_pos hslot
  · rw [hnext, h.top]
    rfl
  · rw [h.top]
    exact h.slots.push (by rwa [h.length]) x

end Calls

/-! ### Objects in the slab -/

section Objects

variable (mp : Mempool)

/-- The bytes of an object are offsets from the slab. -/
theorem mem_object {a : UInt64} {x : UInt32} :
    a ∈ block (mp.address x) mp.objectSize.toNat ↔
      x.toNat * mp.objectSize.toNat ≤ (a - mp.pool).toNat ∧
        (a - mp.pool).toNat < (x.toNat + 1) * mp.objectSize.toNat := by
  have hx := x.toNat_lt
  have hsize := mp.objectSize.toNat_lt
  have hoff := mp.toNat_offset x
  have hend : (x.toNat + 1) * mp.objectSize.toNat ≤ 2 ^ 64 := by
    calc (x.toNat + 1) * mp.objectSize.toNat ≤ 2 ^ 32 * 2 ^ 32 :=
          Nat.mul_le_mul (by omega) (by omega)
      _ = 2 ^ 64 := by norm_num
  rw [Nat.succ_mul] at hend ⊢
  rw [address, Memory.mem_block_add (by rw [hoff]; exact hend), hoff]

/-- An object lies in the slab. -/
theorem object_subset {x : UInt32} {cap : ℕ} (hx : x.toNat < cap) :
    block (mp.address x) mp.objectSize.toNat ⊆ block mp.pool (cap * mp.objectSize.toNat) := by
  intro a ha
  have hle : (x.toNat + 1) * mp.objectSize.toNat ≤ cap * mp.objectSize.toNat :=
    Nat.mul_le_mul_right _ hx
  exact (mp.mem_object.mp ha).2.trans_le hle

/-- Objects with different indices do not overlap: an offset in an object divides to its index. -/
theorem object_disjoint {x y : UInt32} (h : x ≠ y) :
    Disjoint (block (mp.address x) mp.objectSize.toNat)
      (block (mp.address y) mp.objectSize.toNat) := by
  rw [Set.disjoint_left]
  intro a hx hy
  obtain ⟨hx₁, hx₂⟩ := mp.mem_object.mp hx
  obtain ⟨hy₁, hy₂⟩ := mp.mem_object.mp hy
  apply h
  apply UInt32.toNat_inj.mp
  rw [← Nat.div_eq_of_lt_le hx₁ hx₂, Nat.div_eq_of_lt_le hy₁ hy₂]

end Objects

end Mempool

/-! ### Runs -/

/-- A client of a pool. -/
structure PoolClient where
  pool : Mempool
  /-- The objects that are held: the index that `mempool_alloc` read and the pointer it returned. -/
  held : List (UInt32 × UInt64)
  /-- The objects that were freed and not allocated again since, the latest first. -/
  recent : List UInt64
  deriving DecidableEq

/-- A call of the client. -/
inductive PoolCall where
  | alloc
  | free (ptr : UInt64)
  deriving DecidableEq, Repr

namespace PoolClient

/-- Nothing is held, and nothing was freed. -/
def start (mp : Mempool) : PoolClient := ⟨mp, [], []⟩

/-- A call; it is undefined where it accesses `free_list` outside. -/
def step (s : PoolClient) : PoolCall → Option (Return × PoolClient)
  | .alloc => do
      let r ← s.pool.alloc
      match r.1 with
      | .object ptr =>
          let idx ← s.pool.nextIndex
          return (r.1, ⟨r.2, (idx, ptr) :: s.held, s.recent.erase ptr⟩)
      | _ => return (r.1, { s with pool := r.2 })
  | .free ptr => do
      let r ← s.pool.free ptr
      return (r.1, ⟨r.2, s.held.eraseP fun h => h.2 = ptr, ptr :: s.recent⟩)

/-- The client frees only what it holds. -/
def Owns (s : PoolClient) : PoolCall → Prop
  | .alloc => True
  | .free ptr => ptr ∈ s.held.map Prod.snd

instance (s : PoolClient) (c : PoolCall) : Decidable (s.Owns c) :=
  match c with
  | .alloc => inferInstanceAs (Decidable True)
  | .free ptr => inferInstanceAs (Decidable (ptr ∈ s.held.map Prod.snd))

/-- What is right of a state: the slab is at `base` and has `cap` objects of `size` bytes. -/
structure Correct (base : UInt64) (size cap : ℕ) (s : PoolClient) : Prop where
  /-- The free indices and those of the held objects are those of the pool. -/
  perm : ((s.pool.freeList.take s.pool.freeTop.toNat ++ s.held.map Prod.fst).map UInt32.toNat).Perm
    (List.range cap)
  /-- The held objects lie in the slab. -/
  inSlab : ∀ h ∈ s.held, block h.2 size ⊆ block base (cap * size)
  /-- No two of them overlap. -/
  disjoint : s.held.Pairwise fun h h' => Disjoint (block h.2 size) (block h'.2 size)
  /-- `mempool_free` would find the index that was allocated. -/
  index : ∀ h ∈ s.held, s.pool.indexOf h.2 = h.1
  available : s.pool.available.toNat = cap - s.held.length

/-- What is right of a call: `mempool_alloc` returns `NULL` exactly if everything is held, and else
what was freed last, if anything; `mempool_free` puts the index that was allocated on the free list. -/
def Answers (cap : ℕ) (s : PoolClient) : PoolCall → Return → PoolClient → Prop
  | .alloc, r, s' =>
      (r = .null ↔ s.held.length = cap) ∧
        (r ≠ .null → ∃ idx ptr, r = .object ptr ∧ s'.held = (idx, ptr) :: s.held ∧
          ∀ p, s.recent.head? = some p → ptr = p)
  | .free ptr, r, s' => r = .freed ∧ ∃ idx, (idx, ptr) ∈ s.held ∧
      s'.pool.freeList = s.pool.freeList.set s.pool.freeTop.toNat idx ∧
      s'.pool.freeTop = s.pool.freeTop + 1

/-- The client's records are of indices: `recent` was freed and `fresh` never allocated, from the top
of the stack on, and `held` are held. -/
structure Indexes (base : UInt64) (size cap : ℕ) (s : PoolClient) (recent fresh held : List UInt32) :
    Prop where
  pool : s.pool.pool = base
  objectSize : s.pool.objectSize.toNat = size
  size_pos : 0 < size
  capacity : s.pool.capacity.toNat = cap
  stack : s.pool.Stacks (recent ++ fresh)
  recent_eq : s.recent = recent.map s.pool.address
  held_eq : s.held = held.map fun x => (x, s.pool.address x)
  perm : ((recent ++ fresh ++ held).map UInt32.toNat).Perm (List.range cap)

section Indexes

variable {base : UInt64} {size cap : ℕ} {s : PoolClient} {recent fresh held : List UInt32}

theorem Indexes.objectSize_ne (h : Indexes base size cap s recent fresh held) :
    s.pool.objectSize ≠ 0 := fun e => by
  have hzero := h.objectSize
  rw [e] at hzero
  exact h.size_pos.ne hzero

theorem Indexes.lt (h : Indexes base size cap s recent fresh held) {x : UInt32}
    (hx : x ∈ recent ++ fresh ++ held) : x.toNat < cap :=
  List.mem_range.mp (h.perm.mem_iff.mp (List.mem_map_of_mem hx))

theorem Indexes.lt_of_held (h : Indexes base size cap s recent fresh held) {x : UInt32}
    (hx : x ∈ held) : x.toNat < cap := h.lt (List.mem_append_right _ hx)

theorem Indexes.nodup_held (h : Indexes base size cap s recent fresh held) : held.Nodup := by
  have hall : (recent ++ fresh ++ held).Nodup :=
    List.Nodup.of_map _ (h.perm.nodup_iff.mpr List.nodup_range)
  exact (List.nodup_append.mp hall).2.1

theorem Indexes.length (h : Indexes base size cap s recent fresh held) :
    (recent ++ fresh).length + held.length = cap := by
  have hlen := h.perm.length_eq
  rwa [List.length_map, List.length_append, List.length_range] at hlen

theorem Indexes.length_held (h : Indexes base size cap s recent fresh held) :
    s.held.length = held.length := by
  rw [h.held_eq, List.length_map]

/-- The state is right. -/
theorem Indexes.correct (h : Indexes base size cap s recent fresh held) :
    Correct base size cap s where
  perm := by
    have hfst : s.held.map Prod.fst = held := by
      rw [h.held_eq, List.map_map]
      exact List.map_id held
    rw [h.stack.take, hfst]
    refine List.Perm.trans ?_ h.perm
    exact ((List.reverse_perm _).append_right held).map _
  inSlab := by
    intro p hp
    rw [h.held_eq] at hp
    obtain ⟨x, hx, rfl⟩ := List.mem_map.mp hp
    rw [← h.objectSize, ← h.pool]
    exact s.pool.object_subset (h.lt_of_held hx)
  disjoint := by
    rw [h.held_eq, List.pairwise_map, ← h.objectSize]
    exact h.nodup_held.imp fun hne => s.pool.object_disjoint hne
  index := by
    intro p hp
    rw [h.held_eq] at hp
    obtain ⟨x, -, rfl⟩ := List.mem_map.mp hp
    exact s.pool.indexOf_address h.objectSize_ne x
  available := by
    have hlen := h.length
    have htop : s.pool.available.toNat = (recent ++ fresh).length := h.stack.top
    rw [htop, h.length_held]
    omega

/-! ### One call -/

theorem step_alloc_nil (h : s.pool.Stacks []) : s.step .alloc = some (.null, s) := by
  simp [step, h.alloc_nil]

theorem step_alloc_cons {x : UInt32} {st : List UInt32} (h : s.pool.Stacks (x :: st)) :
    s.step .alloc = some (.object (s.pool.address x),
      ⟨{ s.pool with freeTop := s.pool.freeTop - 1 }, (x, s.pool.address x) :: s.held,
        s.recent.erase (s.pool.address x)⟩) := by
  obtain ⟨hnext, halloc, -⟩ := h.alloc_cons
  simp [step, halloc, hnext]

theorem step_free {ptr : UInt64} {r : Return} {mp : Mempool} (h : s.pool.free ptr = some (r, mp)) :
    s.step (.free ptr) =
      some (r, ⟨mp, s.held.eraseP fun h => h.2 = ptr, ptr :: s.recent⟩) := by
  simp [step, h]

/-- An allocation from a stack that is not empty; `recent'` is left of what was freed. -/
theorem Indexes.pop {x : UInt32} {recent' fresh' : List UInt32}
    (h : Indexes base size cap s recent fresh held)
    (hstack : recent ++ fresh = x :: (recent' ++ fresh'))
    (hrecent : s.recent.erase (s.pool.address x) = recent'.map s.pool.address)
    (hlast : ∀ p, s.recent.head? = some p → s.pool.address x = p) :
    ∃ r s', s.step .alloc = some (r, s') ∧ Indexes base size cap s' recent' fresh' (x :: held) ∧
      Answers cap s .alloc r s' := by
  have hst : s.pool.Stacks (x :: (recent' ++ fresh')) := by
    rw [← hstack]
    exact h.stack
  have hheld : s.held.length ≠ cap := by
    have hlen := h.length
    rw [hstack, List.length_cons] at hlen
    rw [h.length_held]
    omega
  refine ⟨_, _, step_alloc_cons hst, ⟨h.pool, h.objectSize, h.size_pos, h.capacity,
    hst.alloc_cons.2.2, hrecent, ?_, ?_⟩, ?_, fun _ => ⟨_, _, rfl, rfl, hlast⟩⟩
  · rw [h.held_eq]
    rfl
  · have hmove := h.perm
    rw [hstack] at hmove
    exact (List.perm_middle.map _).trans hmove
  · exact ⟨Return.noConfusion, fun e => absurd e hheld⟩

/-- **An allocation** takes the top of the stack, which is what was freed last. -/
theorem Indexes.alloc (h : Indexes base size cap s recent fresh held) :
    ∃ r s', s.step .alloc = some (r, s') ∧
      (∃ recent' fresh' held', Indexes base size cap s' recent' fresh' held') ∧
      Answers cap s .alloc r s' := by
  have hrecent := h.recent_eq
  cases recent with
  | cons x recent =>
      have herase : s.recent.erase (s.pool.address x) = recent.map s.pool.address := by
        rw [hrecent, List.map_cons, List.erase_cons_head]
      have hlast : ∀ p, s.recent.head? = some p → s.pool.address x = p := by
        intro p hp
        rw [hrecent] at hp
        exact Option.some.inj hp
      obtain ⟨r, s', hstep, h', hanswer⟩ := h.pop rfl herase hlast
      exact ⟨r, s', hstep, ⟨_, _, _, h'⟩, hanswer⟩
  | nil =>
      rw [List.map_nil] at hrecent
      cases fresh with
      | cons x fresh =>
          have hstack : [] ++ x :: fresh = x :: ([] ++ fresh) := rfl
          have hlast : ∀ p, s.recent.head? = some p → s.pool.address x = p := by
            intro p hp
            rw [hrecent] at hp
            cases hp
          obtain ⟨r, s', hstep, h', hanswer⟩ := h.pop hstack (by rw [hrecent]; rfl) hlast
          exact ⟨r, s', hstep, ⟨_, _, _, h'⟩, hanswer⟩
      | nil =>
          have hlen := h.length
          rw [List.append_nil, List.length_nil, Nat.zero_add] at hlen
          refine ⟨_, _, step_alloc_nil h.stack, ⟨[], [], held, h⟩, ?_, fun hne => absurd rfl hne⟩
          exact ⟨fun _ => h.length_held.trans hlen, fun _ => rfl⟩

/-- Removing the record of an object. -/
theorem eraseP_records {mp : Mempool} (hsize : mp.objectSize ≠ 0) (l : List UInt32) (x : UInt32) :
    (l.map fun y => (y, mp.address y)).eraseP (fun h => h.2 = mp.address x) =
      (l.erase x).map fun y => (y, mp.address y) := by
  rw [List.eraseP_map, List.erase_eq_eraseP']
  congr 2
  funext y
  rw [Bool.eq_iff_iff]
  simp [(mp.address_injective hsize).eq_iff]

/-- **A free** puts the index of an object on the stack. -/
theorem Indexes.free (h : Indexes base size cap s recent fresh held) {ptr : UInt64}
    (hptr : ptr ∈ s.held.map Prod.snd) :
    ∃ r s', s.step (.free ptr) = some (r, s') ∧
      (∃ recent' fresh' held', Indexes base size cap s' recent' fresh' held') ∧
      Answers cap s (.free ptr) r s' := by
  have hlen := h.length
  obtain ⟨x, hx, rfl⟩ : ∃ x ∈ held, s.pool.address x = ptr := by
    rw [h.held_eq, List.map_map] at hptr
    exact List.mem_map.mp hptr
  have hroom : (recent ++ fresh).length < s.pool.capacity.toNat := by
    have hpos := List.length_pos_of_mem hx
    rw [h.capacity]
    omega
  have hlt : x.toNat < s.pool.capacity.toNat := by
    rw [h.capacity]
    exact h.lt_of_held hx
  obtain ⟨hfree, hstack⟩ := h.stack.free_address h.objectSize_ne hroom hlt
  refine ⟨_, _, step_free hfree, ⟨x :: recent, fresh, held.erase x, h.pool, h.objectSize, h.size_pos,
    h.capacity, hstack, ?_, ?_, ?_⟩, rfl, x, ?_, rfl, rfl⟩
  · rw [h.recent_eq]
    rfl
  · rw [h.held_eq]
    exact eraseP_records h.objectSize_ne held x
  · have hmove : (x :: recent ++ fresh ++ held.erase x).Perm (recent ++ fresh ++ held) := by
      calc (x :: recent ++ fresh ++ held.erase x).Perm (recent ++ fresh ++ x :: held.erase x) :=
            List.perm_middle.symm
        _ |>.Perm (recent ++ fresh ++ held) := (List.perm_cons_erase hx).symm.append_left _
    exact (hmove.map _).trans h.perm
  · rw [h.held_eq]
    exact List.mem_map_of_mem hx

end Indexes

/-! ### From `mempool_init` -/

theorem start_indexes {slab : Option UInt64} {list : Bool} {objectSize : UInt64} {capacity : UInt32}
    {mp : Mempool} (h : Mempool.init slab list objectSize capacity = some mp)
    (hsize : objectSize.toNat < 2 ^ 32) :
    Indexes mp.pool (max objectSize.toNat 4) capacity.toNat (start mp) [] mp.freeList.reverse [] := by
  obtain ⟨-, -, hcap, htop⟩ := Mempool.init_eq_some h
  have hlength := Mempool.init_length h
  have hstack : mp.Stacks mp.freeList.reverse :=
    { length := by rw [hlength, hcap]
      top := by rw [htop, List.length_reverse, hlength]
      slots := by rw [Stacked, List.length_reverse, List.take_length, List.reverse_reverse] }
  refine ⟨rfl, Mempool.init_objectSize h hsize, by omega, congrArg UInt32.toNat hcap, hstack, rfl,
    rfl, ?_⟩
  rw [List.nil_append, List.append_nil, List.map_reverse, Mempool.init_freeList h,
    List.reverse_reverse]

/-- **A pool used by one call at a time**, from `mempool_init` on, with every freed pointer held.
Every state of the run is right, and so is what every call returns. -/
theorem calls_correct {slab : Option UInt64} {list : Bool} {objectSize : UInt64} {capacity : UInt32}
    {mp : Mempool} (hinit : Mempool.init slab list objectSize capacity = some mp)
    (hsize : objectSize.toNat < 2 ^ 32) {cs : List PoolCall}
    (howns : Run.Along step Owns (start mp) cs) :
    Correct mp.pool (max objectSize.toNat 4) capacity.toNat (start mp) ∧
      Run.Always step (fun s c r s' => Answers capacity.toNat s c r s' ∧
        Correct mp.pool (max objectSize.toNat 4) capacity.toNat s') (start mp) cs := by
  have hstart := start_indexes hinit hsize
  refine ⟨hstart.correct, Run.always_of_step (I := fun s => ∃ recent fresh held,
    Indexes mp.pool (max objectSize.toNat 4) capacity.toNat s recent fresh held) ?_
    ⟨_, _, _, hstart⟩ howns⟩
  rintro s (_ | ptr) ⟨recent, fresh, held, h⟩ howned
  · obtain ⟨r, s', hstep, ⟨recent', fresh', held', h'⟩, hanswer⟩ := h.alloc
    exact ⟨r, s', hstep, ⟨recent', fresh', held', h'⟩, hanswer, h'.correct⟩
  · obtain ⟨r, s', hstep, ⟨recent', fresh', held', h'⟩, hanswer⟩ := h.free howned
    exact ⟨r, s', hstep, ⟨recent', fresh', held', h'⟩, hanswer, h'.correct⟩

/-- Two objects of three bytes: the pool is exhausted, and then the object freed last comes back. -/
def reusingCalls : List PoolCall := [.alloc, .alloc, .alloc, .free 4096, .free 4100, .alloc]

theorem calls_correct_reusingCalls : ∃ mp, Mempool.init (some 4096) true 3 2 = some mp ∧
    Run.Along step Owns (start mp) reusingCalls ∧
    Run.Always step (fun s c r s' => Answers 2 s c r s' ∧ Correct 4096 4 2 s') (start mp)
      reusingCalls := by
  refine ⟨_, rfl, by decide +kernel, ?_⟩
  exact (@calls_correct (some 4096) true 3 2 _ rfl (by decide) reusingCalls (by decide +kernel)).2

end PoolClient

end Aspira
