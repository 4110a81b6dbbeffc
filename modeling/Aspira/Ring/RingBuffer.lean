import Aspira.Support.Words

/-!
# Ring — RingBuffer

`ring_buffer.h` and `ring_buffer.c`, with each operation taken whole.  The slots are a list of
pointers, `none` for `NULL`; an access outside the slots has no result.

`Holds cap rb l` says that a ring of `cap` slots holds the elements `l`, oldest first.  A ring that
holds all but one of its slots is full: `push` tells a full ring from an empty one by leaving a slot
free.
-/

namespace Aspira

/-- `ring_buffer_t`. -/
structure RingBuffer (A : Type) where
  head : UInt32
  tail : UInt32
  buffer : List (Option A)
  capacity : UInt32
  mask : UInt32

/-- `is_power_of_two`. -/
def isPowerOfTwo (n : UInt32) : Bool := decide (0 < n ∧ n &&& (n - 1) = 0)

/-- `next_power_of_two`. -/
def nextPowerOfTwo (n : UInt32) : UInt32 :=
  if n = 0 then 1
  else
    let n := n - 1
    let n := n ||| (n >>> 1)
    let n := n ||| (n >>> 2)
    let n := n ||| (n >>> 4)
    let n := n ||| (n >>> 8)
    let n := n ||| (n >>> 16)
    n + 1

/-- **`next_power_of_two`** of a number above 1: the bits of `n - 1` from the highest one down are set,
and the sum with 1 wraps. -/
theorem nextPowerOfTwo_mod {n : UInt32} (h : 1 < n.toNat) :
    (nextPowerOfTwo n).toNat = 2 ^ ((n.toNat - 1).log2 + 1) % 2 ^ 32 := by
  have hne : n ≠ 0 := fun e => by
    rw [e] at h
    exact absurd h (by decide)
  have hlt := n.toNat_lt
  have hpred : (n - 1).toNat = n.toNat - 1 := UInt32.toNat_sub_one (by omega)
  have h₀ : Smeared (n.toNat - 1) 1 (n - 1).toNat := by
    rw [hpred]
    exact smeared_one _
  have hall := ((((h₀.or_shift 1 rfl).or_shift 2 rfl).or_shift 4 rfl).or_shift 8 rfl).or_shift
    16 rfl
  have heq := hall.eq (by omega) (by omega)
  rw [nextPowerOfTwo, if_neg hne]
  dsimp only
  rw [UInt32.toNat_add, heq, show (1 : UInt32).toNat = 1 from rfl,
    Nat.sub_add_cancel (Nat.two_pow_pos _)]

/-- **`next_power_of_two`** of a number up to 2³¹. -/
theorem nextPowerOfTwo_toNat {n : UInt32} (h₁ : 1 < n.toNat) (h₂ : n.toNat ≤ 2 ^ 31) :
    ∃ k ≤ 31, (nextPowerOfTwo n).toNat = 2 ^ k ∧ n.toNat ≤ 2 ^ k := by
  have hlog : (n.toNat - 1).log2 + 1 ≤ 31 := (Nat.log2_lt (by omega)).mpr (by omega)
  have hlt : n.toNat - 1 < 2 ^ ((n.toNat - 1).log2 + 1) := Nat.lt_log2_self
  have hpow : 2 ^ ((n.toNat - 1).log2 + 1) ≤ 2 ^ 31 := Nat.pow_le_pow_right (by decide) hlog
  refine ⟨(n.toNat - 1).log2 + 1, hlog, ?_, by omega⟩
  rw [nextPowerOfTwo_mod h₁]
  exact Nat.mod_eq_of_lt (by omega)

/-- **`is_power_of_two`** finds powers of two only. -/
theorem isPowerOfTwo_toNat {n : UInt32} (h : isPowerOfTwo n = true) : ∃ k ≤ 31, n.toNat = 2 ^ k := by
  obtain ⟨hpos, hand⟩ := of_decide_eq_true h
  rw [UInt32.lt_iff_toNat_lt] at hpos
  have hne : n.toNat ≠ 0 := Nat.pos_iff_ne_zero.mp hpos
  have hnat := congrArg UInt32.toNat hand
  rw [UInt32.toNat_and, UInt32.toNat_sub_one (Nat.succ_pred_eq_of_ne_zero hne).symm] at hnat
  obtain ⟨k, hk⟩ := (Nat.and_sub_one_eq_zero_iff_isPowerOfTwo hne).mp hnat
  have hlt := n.toNat_lt
  rw [hk] at hlt
  exact ⟨k, Nat.lt_succ_iff.mp ((Nat.pow_lt_pow_iff_right (by decide)).mp hlt), hk⟩

theorem isPowerOfTwo_of_toNat {n : UInt32} {k : ℕ} (h : n.toNat = 2 ^ k) :
    isPowerOfTwo n = true := by
  have hpos : 0 < n.toNat := by
    rw [h]
    exact Nat.two_pow_pos k
  have hne : n.toNat ≠ 0 := hpos.ne'
  refine decide_eq_true ⟨UInt32.lt_iff_toNat_lt.mpr hpos, UInt32.toNat_inj.mp ?_⟩
  rw [UInt32.toNat_and, UInt32.toNat_sub_one (Nat.succ_pred_eq_of_ne_zero hne).symm]
  exact (Nat.and_sub_one_eq_zero_iff_isPowerOfTwo hne).mpr ⟨k, h⟩

/-- `next_power_of_two` rounds up what is no power of two. -/
theorem lt_nextPowerOfTwo {n : UInt32} (hpos : 1 ≤ n.toNat) (hle : n.toNat ≤ 2 ^ 31)
    (hp : isPowerOfTwo n ≠ true) : n.toNat < (nextPowerOfTwo n).toNat := by
  have hne : 1 ≠ n.toNat := fun h => hp (isPowerOfTwo_of_toNat (k := 0) h.symm)
  obtain ⟨k, -, hk, hnk⟩ := nextPowerOfTwo_toNat (lt_of_le_of_ne hpos hne) hle
  rw [hk]
  exact lt_of_le_of_ne hnk fun h => hp (isPowerOfTwo_of_toNat h)

namespace RingBuffer

variable {A : Type}

/-- `ring_buffer_init`, if the allocation succeeds; `none` when it returns -1. -/
def init (capacity : UInt32) : Option (RingBuffer A) :=
  if capacity = 0 then none
  else
    let capacity := if isPowerOfTwo capacity then capacity else nextPowerOfTwo capacity
    some
      { head := 0
        tail := 0
        buffer := List.replicate capacity.toNat none
        capacity := capacity
        mask := capacity - 1 }

/-- `ring_buffer_push`. -/
def push (rb : RingBuffer A) (data : A) : Option (Bool × RingBuffer A) :=
  let next := (rb.head + 1) &&& rb.mask
  if next = rb.tail then some (false, rb)
  else if rb.head.toNat < rb.buffer.length then
    some (true, { rb with buffer := rb.buffer.set rb.head.toNat (some data), head := next })
  else none

/-- `ring_buffer_pop`. -/
def pop (rb : RingBuffer A) : Option (Option A × RingBuffer A) :=
  if rb.tail = rb.head then some (none, rb)
  else
    match rb.buffer[rb.tail.toNat]? with
    | none => none
    | some data => some (data, { rb with tail := (rb.tail + 1) &&& rb.mask })

/-- `ring_buffer_count`. -/
def count (rb : RingBuffer A) : UInt32 := (rb.head - rb.tail) &&& rb.mask

/-- The pushes of a list, whose results are ignored. -/
def pushAll (rb : RingBuffer A) : List A → Option (RingBuffer A)
  | [] => some rb
  | x :: xs => do
      let r ← rb.push x
      r.2.pushAll xs

/-! ### What a ring holds -/

/-- The ring has `cap` slots and holds `l`, oldest first. -/
structure Holds (cap : ℕ) (rb : RingBuffer A) (l : List A) : Prop where
  pow : ∃ k ≤ 31, cap = 2 ^ k
  mask : rb.mask.toNat = cap - 1
  slots : rb.buffer.length = cap
  tail_lt : rb.tail.toNat < cap
  head : rb.head.toNat = (rb.tail.toNat + l.length) % cap
  length_lt : l.length < cap
  getElem : ∀ i x, l[i]? = some x → rb.buffer[(rb.tail.toNat + i) % cap]? = some (some x)

/-- The ring has `cap` slots, `n` of them in use. -/
structure Spans (cap : ℕ) (rb : RingBuffer A) (n : ℕ) : Prop where
  pow : ∃ k ≤ 31, cap = 2 ^ k
  mask : rb.mask.toNat = cap - 1
  slots : rb.buffer.length = cap
  tail_lt : rb.tail.toNat < cap
  head : rb.head.toNat = (rb.tail.toNat + n) % cap
  lt : n < cap

section Spans

variable {cap n : ℕ} {rb : RingBuffer A}

theorem Spans.cap_pos (h : Spans cap rb n) : 0 < cap := (Nat.zero_le _).trans_lt h.lt

/-- The index after `x`, wrapped by the mask. -/
theorem Spans.next (h : Spans cap rb n) (x : UInt32) :
    ((x + 1) &&& rb.mask).toNat = (x.toNat + 1) % cap := by
  obtain ⟨k, hk, hcap⟩ := h.pow
  rw [UInt32.toNat_and, h.mask, hcap, Nat.and_two_pow_sub_one_eq_mod, UInt32.toNat_add]
  exact Nat.mod_mod_of_dvd _ (pow_dvd_pow 2 (hk.trans (by decide)))

theorem Spans.head_lt (h : Spans cap rb n) : rb.head.toNat < cap := by
  rw [h.head]
  exact Nat.mod_lt _ h.cap_pos

/-- Two offsets from the tail within one turn are different slots. -/
theorem offset_inj {t i j : ℕ} (hi : i < cap) (hj : j < cap)
    (h : (t + i) % cap = (t + j) % cap) : i = j := by
  have hmod : t + i ≡ t + j [MOD cap] := h
  exact Nat.ModEq.eq_of_lt_of_lt (Nat.ModEq.add_left_cancel' t hmod) hi hj

/-- A ring is empty when head and tail meet. -/
theorem Spans.head_eq_tail (h : Spans cap rb n) : rb.tail = rb.head ↔ n = 0 := by
  have hzero : rb.tail.toNat = (rb.tail.toNat + 0) % cap := (Nat.mod_eq_of_lt h.tail_lt).symm
  rw [← UInt32.toNat_inj, h.head]
  constructor
  · intro heq
    rw [hzero, Nat.mod_add_mod, Nat.add_zero] at heq
    exact (offset_inj h.cap_pos h.lt heq).symm
  · rintro rfl
    exact hzero

/-- The head would meet the tail when one slot is left. -/
theorem Spans.next_eq_tail (h : Spans cap rb n) :
    (rb.head + 1) &&& rb.mask = rb.tail ↔ n + 1 = cap := by
  have ht := h.tail_lt
  have hl := h.lt
  rw [← UInt32.toNat_inj, h.next, h.head, Nat.mod_add_mod, Nat.add_assoc]
  constructor
  · intro heq
    by_contra hne
    have hzero : (rb.tail.toNat + (n + 1)) % cap = (rb.tail.toNat + 0) % cap := by
      rw [heq, Nat.add_zero, Nat.mod_eq_of_lt ht]
    exact Nat.succ_ne_zero n (offset_inj (by omega) h.cap_pos hzero)
  · intro heq
    rw [heq, Nat.add_mod_right, Nat.mod_eq_of_lt ht]

/-- `ring_buffer_count` counts the slots in use. -/
theorem Spans.count (h : Spans cap rb n) : rb.count.toNat = n := by
  obtain ⟨k, hk, hcap⟩ := h.pow
  have hdvd : cap ∣ 2 ^ 32 := by
    rw [hcap]
    exact pow_dvd_pow 2 (hk.trans (by decide))
  have ht : rb.tail.toNat ≤ 2 ^ 32 := rb.tail.toNat_lt.le
  rw [RingBuffer.count, UInt32.toNat_and, h.mask, hcap, Nat.and_two_pow_sub_one_eq_mod, ← hcap,
    UInt32.toNat_sub, Nat.mod_mod_of_dvd _ hdvd, h.head, Nat.add_mod_mod]
  have hsum : 2 ^ 32 - rb.tail.toNat + (rb.tail.toNat + n) = 2 ^ 32 + n := by omega
  rw [hsum, Nat.add_mod, Nat.mod_eq_zero_of_dvd hdvd, Nat.zero_add, Nat.mod_mod,
    Nat.mod_eq_of_lt h.lt]

/-- The slots that a ring spans when one more is in use. -/
theorem Spans.push (h : Spans cap rb n) (hn : n + 1 < cap) (buffer : List (Option A))
    (hbuf : buffer.length = rb.buffer.length) :
    Spans cap { rb with buffer := buffer, head := (rb.head + 1) &&& rb.mask } (n + 1) where
  pow := h.pow
  mask := h.mask
  slots := hbuf.trans h.slots
  tail_lt := h.tail_lt
  head := by
    show ((rb.head + 1) &&& rb.mask).toNat = _
    rw [h.next, h.head, Nat.mod_add_mod, Nat.add_assoc]
  lt := hn

/-- The slots that a ring spans when the oldest is given up. -/
theorem Spans.pop (h : Spans cap rb (n + 1)) :
    Spans cap { rb with tail := (rb.tail + 1) &&& rb.mask } n where
  pow := h.pow
  mask := h.mask
  slots := h.slots
  tail_lt := by
    show ((rb.tail + 1) &&& rb.mask).toNat < cap
    rw [h.next]
    exact Nat.mod_lt _ h.cap_pos
  head := by
    show rb.head.toNat = (((rb.tail + 1) &&& rb.mask).toNat + n) % cap
    rw [h.next, Nat.mod_add_mod, h.head, Nat.add_assoc, Nat.add_comm 1]
  lt := (Nat.lt_succ_self n).trans h.lt

end Spans

variable {cap : ℕ} {rb : RingBuffer A} {l : List A}

theorem Holds.spans (h : Holds cap rb l) : Spans cap rb l.length :=
  ⟨h.pow, h.mask, h.slots, h.tail_lt, h.head, h.length_lt⟩

theorem Spans.holds (h : Spans cap rb l.length)
    (hget : ∀ i x, l[i]? = some x → rb.buffer[(rb.tail.toNat + i) % cap]? = some (some x)) :
    Holds cap rb l := ⟨h.pow, h.mask, h.slots, h.tail_lt, h.head, h.lt, hget⟩

theorem Holds.head_lt (h : Holds cap rb l) : rb.head.toNat < cap := h.spans.head_lt

theorem Holds.head_eq_tail (h : Holds cap rb l) : rb.tail = rb.head ↔ l = [] :=
  h.spans.head_eq_tail.trans List.length_eq_zero_iff

theorem Holds.next_eq_tail (h : Holds cap rb l) :
    (rb.head + 1) &&& rb.mask = rb.tail ↔ l.length + 1 = cap := h.spans.next_eq_tail

/-- A full ring refuses. -/
theorem Holds.push_full (h : Holds cap rb l) (hl : l.length + 1 = cap) (x : A) :
    rb.push x = some (false, rb) := if_pos (h.next_eq_tail.mpr hl)

/-- The memory after a push. -/
theorem Holds.pushed (h : Holds cap rb l) (hl : l.length + 1 < cap) (x : A) :
    Holds cap { rb with
      buffer := rb.buffer.set rb.head.toNat (some x)
      head := (rb.head + 1) &&& rb.mask } (l ++ [x]) := by
  have hhead : rb.head.toNat < rb.buffer.length := by
    rw [h.slots]
    exact h.head_lt
  have hspan := h.spans.push hl (rb.buffer.set rb.head.toNat (some x)) (List.length_set ..)
  rw [← List.length_singleton (a := x), ← List.length_append] at hspan
  refine hspan.holds fun i y hy => ?_
  show (rb.buffer.set rb.head.toNat (some x))[(rb.tail.toNat + i) % cap]? = _
  rcases Nat.lt_trichotomy i l.length with hi | rfl | hi
  · rw [List.getElem?_append_left hi] at hy
    rw [List.getElem?_set_ne, h.getElem i y hy]
    rw [h.head]
    exact fun e => hi.ne (offset_inj (hi.trans h.length_lt) h.length_lt e.symm)
  · rw [List.getElem?_append_right le_rfl, Nat.sub_self] at hy
    rw [← h.head, List.getElem?_set_self hhead, ← hy]
    rfl
  · rw [List.getElem?_eq_none (by simpa using hi)] at hy
    cases hy

/-- A ring that is not full accepts, and writes the slot at its head. -/
theorem Holds.push_eq (h : Holds cap rb l) (hl : l.length + 1 < cap) (x : A) :
    rb.push x = some (true, { rb with
      buffer := rb.buffer.set rb.head.toNat (some x)
      head := (rb.head + 1) &&& rb.mask }) := by
  have hhead : rb.head.toNat < rb.buffer.length := by
    rw [h.slots]
    exact h.head_lt
  rw [RingBuffer.push, if_neg (fun e => hl.ne (h.next_eq_tail.mp e)), if_pos hhead]

/-- **A push** appends to a ring that is not full. -/
theorem Holds.push (h : Holds cap rb l) (hl : l.length + 1 < cap) (x : A) :
    ∃ rb', rb.push x = some (true, rb') ∧ Holds cap rb' (l ++ [x]) :=
  ⟨_, h.push_eq hl x, h.pushed hl x⟩

/-- A pop from an empty ring returns `NULL`. -/
theorem Holds.pop_nil (h : Holds cap rb []) : rb.pop = some (none, rb) :=
  if_pos (h.head_eq_tail.mpr rfl)

/-- The oldest element lies at the tail. -/
theorem Holds.first {x : A} (h : Holds cap rb (x :: l)) :
    rb.buffer[rb.tail.toNat]? = some (some x) := by
  have hfirst := h.getElem 0 x rfl
  rwa [Nat.add_zero, Nat.mod_eq_of_lt h.tail_lt] at hfirst

/-- The memory after a pop. -/
theorem Holds.popped {x : A} (h : Holds cap rb (x :: l)) :
    Holds cap { rb with tail := (rb.tail + 1) &&& rb.mask } l := by
  refine h.spans.pop.holds fun i y hy => ?_
  have hnext := h.getElem (i + 1) y hy
  show rb.buffer[(((rb.tail + 1) &&& rb.mask).toNat + i) % cap]? = _
  rw [h.spans.next, Nat.mod_add_mod, Nat.add_assoc, Nat.add_comm 1]
  exact hnext

theorem Holds.tail_ne_head {x : A} (h : Holds cap rb (x :: l)) : rb.tail ≠ rb.head :=
  fun e => absurd (h.head_eq_tail.mp e) (List.cons_ne_nil _ _)

/-- **A pop** returns the oldest element. -/
theorem Holds.pop_cons {x : A} (h : Holds cap rb (x :: l)) :
    ∃ rb', rb.pop = some (some x, rb') ∧ Holds cap rb' l := by
  refine ⟨{ rb with tail := (rb.tail + 1) &&& rb.mask }, ?_, h.popped⟩
  rw [RingBuffer.pop, if_neg h.tail_ne_head]
  simp only [h.first]

/-- **Pushing a list** keeps what fits. -/
theorem Holds.pushAll (xs : List A) :
    ∀ {rb : RingBuffer A} {l : List A}, Holds cap rb l →
      ∃ rb', rb.pushAll xs = some rb' ∧ Holds cap rb' ((l ++ xs).take (cap - 1)) := by
  induction xs with
  | nil =>
      intro rb l h
      refine ⟨rb, rfl, ?_⟩
      rw [List.append_nil, List.take_of_length_le (Nat.le_sub_one_of_lt h.length_lt)]
      exact h
  | cons x xs ih =>
      intro rb l h
      by_cases hl : l.length + 1 = cap
      · obtain ⟨rb', hall, h'⟩ := ih h
        refine ⟨rb', ?_, ?_⟩
        · rw [RingBuffer.pushAll, h.push_full hl]
          exact hall
        · have hfull : cap - 1 = l.length := by omega
          rw [hfull, List.take_left] at h' ⊢
          exact h'
      · have hlt := h.length_lt
        obtain ⟨rb₁, hp, h₁⟩ := h.push (by omega) x
        obtain ⟨rb', hall, h'⟩ := ih h₁
        refine ⟨rb', ?_, ?_⟩
        · rw [RingBuffer.pushAll, hp]
          exact hall
        · rw [List.append_assoc] at h'
          exact h'

/-- `ring_buffer_init` makes an empty ring where its rounded argument is a power of two. -/
theorem init_holds_of {capacity : UInt32} {k : ℕ} (hne : capacity ≠ 0) (hk : k ≤ 31)
    (hcap : (if isPowerOfTwo capacity then capacity else nextPowerOfTwo capacity).toNat = 2 ^ k) :
    ∃ rb : RingBuffer A, init capacity = some rb ∧ rb.capacity.toNat = 2 ^ k ∧
      Holds (2 ^ k) rb [] := by
  have hpos : 0 < 2 ^ k := Nat.two_pow_pos k
  refine ⟨_, if_neg hne, hcap, ⟨k, hk, rfl⟩, ?_, ?_, hpos, ?_, hpos, ?_⟩
  · rw [UInt32.toNat_sub_of_le, hcap]
    · rfl
    · rw [UInt32.le_iff_toNat_le, hcap]
      exact hpos
  · exact (List.length_replicate ..).trans hcap
  · show 0 = (0 + 0) % 2 ^ k
    rw [Nat.zero_mod]
  · intro i x hx
    cases hx

/-- `ring_buffer_init` with a power of two makes an empty ring. -/
theorem init_holds {capacity : UInt32} {k : ℕ} (hk : k ≤ 31) (hcap : capacity.toNat = 2 ^ k)
    (hp : isPowerOfTwo capacity = true) :
    ∃ rb : RingBuffer A, init capacity = some rb ∧ Holds (2 ^ k) rb [] := by
  have hne : capacity ≠ 0 := fun e => by
    rw [e] at hp
    cases hp
  obtain ⟨rb, hinit, -, h⟩ := init_holds_of (A := A) hne hk (by rw [if_pos hp, hcap])
  exact ⟨rb, hinit, h⟩

/-- **`ring_buffer_init`** makes an empty ring for every argument from 1 to 2³¹. -/
theorem init_holds_of_le {capacity : UInt32} (hpos : 1 ≤ capacity.toNat)
    (hle : capacity.toNat ≤ 2 ^ 31) :
    ∃ rb : RingBuffer A, init capacity = some rb ∧ Holds rb.capacity.toNat rb [] := by
  have hne : capacity ≠ 0 := fun e => by
    rw [e] at hpos
    exact absurd hpos (by decide)
  obtain ⟨k, hk, hcap⟩ : ∃ k ≤ 31,
      (if isPowerOfTwo capacity then capacity else nextPowerOfTwo capacity).toNat = 2 ^ k := by
    by_cases hp : isPowerOfTwo capacity = true
    · rw [if_pos hp]
      exact isPowerOfTwo_toNat hp
    · rw [if_neg hp]
      have hone : 1 ≠ capacity.toNat := fun h => hp (isPowerOfTwo_of_toNat (k := 0) h.symm)
      obtain ⟨k, hk, hcap, -⟩ := nextPowerOfTwo_toNat (lt_of_le_of_ne hpos hone) hle
      exact ⟨k, hk, hcap⟩
  obtain ⟨rb, hinit, hrb, h⟩ := init_holds_of (A := A) hne hk hcap
  rw [← hrb] at h
  exact ⟨rb, hinit, h⟩

/-- The slots of a ring are its argument, rounded up. -/
theorem init_capacity {capacity : UInt32} {rb : RingBuffer A} (h : init capacity = some rb) :
    rb.capacity = if isPowerOfTwo capacity then capacity else nextPowerOfTwo capacity := by
  unfold init at h
  split at h
  · cases h
  · rw [← Option.some.inj h]

end RingBuffer

end Aspira
