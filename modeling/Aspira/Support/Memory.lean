import Mathlib

/-!
# Support — Memory

Two things that allocators rest on.

* `block p n`: the `n` bytes from an address on, as a set of 64-bit addresses.  `mem_block_add` gives
  its members as offsets from a base; from base 0 they are an interval of addresses.
* `Stacked arr st`: the slots of an array from 0 on hold a stack, whose top is the last of them.
-/

namespace Aspira.Memory

/-! ### Blocks -/

/-- The `n` bytes from `p` on. -/
def block (p : UInt64) (n : ℕ) : Set UInt64 := {a | (a - p).toNat < n}

theorem mem_block_add_iff {a b k : UInt64} {n : ℕ} :
    a ∈ block (b + k) n ↔ (2 ^ 64 - k.toNat + (a - b).toNat) % 2 ^ 64 < n := by
  have hdiff : a - (b + k) = (a - b) - k := (sub_sub a b k).symm
  show (a - (b + k)).toNat < n ↔ _
  rw [hdiff, UInt64.toNat_sub]

/-- **The bytes of a block, from a base.** -/
theorem mem_block_add {a b k : UInt64} {n : ℕ} (h : k.toNat + n ≤ 2 ^ 64) :
    a ∈ block (b + k) n ↔ k.toNat ≤ (a - b).toNat ∧ (a - b).toNat < k.toNat + n := by
  have hk := k.toNat_lt
  have ht := (a - b).toNat_lt
  rw [mem_block_add_iff]
  omega

/-- The same for a block that may wrap, at an offset that is not below its length. -/
theorem mem_block_add_of_le {a b k : UInt64} {n : ℕ} (h : n ≤ (a - b).toNat) :
    a ∈ block (b + k) n ↔ k.toNat ≤ (a - b).toNat ∧ (a - b).toNat < k.toNat + n := by
  have hk := k.toNat_lt
  have ht := (a - b).toNat_lt
  rw [mem_block_add_iff]
  omega

/-- A block that does not wrap is an interval of addresses. -/
theorem mem_block_iff {a p : UInt64} {n : ℕ} (h : p.toNat + n ≤ 2 ^ 64) :
    a ∈ block p n ↔ p.toNat ≤ a.toNat ∧ a.toNat < p.toNat + n := by
  have hzero := mem_block_add (a := a) (b := 0) h
  rwa [zero_add, sub_zero] at hzero

/-! ### Stacks -/

section Stacks

variable {A : Type*} {arr st : List A} {x : A}

/-- The first slots of the array hold the stack, its top last. -/
def Stacked (arr st : List A) : Prop := arr.take st.length = st.reverse

theorem Stacked.length_le (h : Stacked arr st) : st.length ≤ arr.length := by
  have hlen := congrArg List.length h
  rw [List.length_take, List.length_reverse] at hlen
  exact min_eq_left_iff.mp hlen

/-- The slot below the first free one holds the top. -/
theorem Stacked.top (h : Stacked arr (x :: st)) : arr[st.length]? = some x := by
  have hlt : st.length < (x :: st).length := Nat.lt_succ_self _
  rw [← List.getElem?_take_of_lt hlt, h, List.reverse_cons,
    List.getElem?_append_right (List.length_reverse ..).le, List.length_reverse, Nat.sub_self]
  rfl

/-- Without its top. -/
theorem Stacked.pop (h : Stacked arr (x :: st)) : Stacked arr st := by
  have htake := congrArg (List.take st.length) h
  rw [List.take_take, List.length_cons, Nat.min_eq_left (Nat.le_succ _), List.reverse_cons,
    List.take_left' (List.length_reverse ..)] at htake
  exact htake

/-- With a new top, in the first free slot. -/
theorem Stacked.push (h : Stacked arr st) (hlt : st.length < arr.length) (x : A) :
    Stacked (arr.set st.length x) (x :: st) := by
  show (arr.set st.length x).take (st.length + 1) = _
  rw [List.take_add_one, List.take_set_of_le le_rfl, List.getElem?_set_self hlt, h,
    List.reverse_cons]
  rfl

end Stacks

end Aspira.Memory
