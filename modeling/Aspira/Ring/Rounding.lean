import Aspira.Ring.RingBuffer
import Aspira.Support.Run

/-!
# Ring — Rounding

What `ring_buffer_init` makes of a requested capacity, over the whole range of `uint32_t`.

Up to 2³¹ it is the least power of two that is not smaller, and from there every run of pushes stays
within the slots and fills all but one of them.  Above 2³¹ the next power of two is 2³²: the sum in
`next_power_of_two` wraps to 0, and `ring_buffer_init` returns 0 with no slots and a mask of all ones,
so that the first push writes outside (`init_established_iff`).
-/

namespace Aspira

/-- The exponent in `next_power_of_two` is the least that suffices. -/
theorem two_pow_log2_pred_le {n j : ℕ} (h : 1 < n) (hj : n ≤ 2 ^ j) :
    2 ^ ((n - 1).log2 + 1) ≤ 2 ^ j :=
  Nat.pow_le_pow_right (by decide) ((Nat.log2_lt (by omega)).mpr (by omega))

/-- `next_power_of_two` wraps above 2³¹. -/
theorem nextPowerOfTwo_eq_zero {n : UInt32} (h : 2 ^ 31 < n.toNat) : nextPowerOfTwo n = 0 := by
  have hlt := n.toNat_lt
  have hlog : (n.toNat - 1).log2 = 31 := (Nat.log2_eq_iff (by omega)).mpr (by omega)
  apply UInt32.toNat_inj.mp
  rw [nextPowerOfTwo_mod (by omega), hlog]
  rfl

/-- No word above 2³¹ is a power of two. -/
theorem isPowerOfTwo_eq_false {n : UInt32} (h : 2 ^ 31 < n.toNat) : isPowerOfTwo n = false := by
  rw [Bool.eq_false_iff]
  intro hp
  obtain ⟨k, hk, hn⟩ := isPowerOfTwo_toNat hp
  have hle : 2 ^ k ≤ 2 ^ 31 := Nat.pow_le_pow_right (by decide) hk
  omega

namespace RingBuffer

variable {A : Type}

/-- The slots that `ring_buffer_init` makes, up to 2³¹. -/
theorem rounded_isLeast {c : UInt32} (hpos : 1 ≤ c.toNat) (hle : c.toNat ≤ 2 ^ 31) :
    IsLeast {p : ℕ | p.isPowerOfTwo ∧ c.toNat ≤ p}
      (if isPowerOfTwo c then c else nextPowerOfTwo c).toNat := by
  by_cases hp : isPowerOfTwo c = true
  · obtain ⟨k, -, hk⟩ := isPowerOfTwo_toNat hp
    rw [if_pos hp]
    exact ⟨⟨⟨k, hk⟩, le_rfl⟩, fun p hmem => hmem.2⟩
  · have hne : 1 ≠ c.toNat := fun h => hp (isPowerOfTwo_of_toNat (k := 0) h.symm)
    have hone : 1 < c.toNat := lt_of_le_of_ne hpos hne
    have hpow : 2 ^ ((c.toNat - 1).log2 + 1) ≤ 2 ^ 31 := two_pow_log2_pred_le hone hle
    have hlt : c.toNat - 1 < 2 ^ ((c.toNat - 1).log2 + 1) := Nat.lt_log2_self
    rw [if_neg hp, nextPowerOfTwo_mod hone, Nat.mod_eq_of_lt (by omega)]
    refine ⟨⟨⟨_, rfl⟩, by omega⟩, ?_⟩
    rintro p ⟨⟨j, rfl⟩, hj⟩
    exact two_pow_log2_pred_le hone hj

/-- What `ring_buffer_init` is to establish for a requested capacity. -/
structure Established (c : UInt32) (rb : RingBuffer A) : Prop where
  least : IsLeast {p : ℕ | p.isPowerOfTwo ∧ c.toNat ≤ p} rb.capacity.toNat
  mask : rb.mask.toNat + 1 = rb.capacity.toNat
  head : rb.head = 0
  tail : rb.tail = 0
  /-- Every push of every run is defined, and the slot it writes is one of the ring's. -/
  slots : ∀ xs : List A, Run.Always push (fun s x accepted s' => accepted = true →
    s.head.toNat < rb.capacity.toNat ∧ s'.buffer = s.buffer.set s.head.toNat (some x)) rb xs
  /-- All but one of the slots are filled before a push is refused, and then each one is. -/
  accepts : ∀ xs : List A, ∃ rb', Run.exec push rb xs =
    some (List.replicate (min xs.length (rb.capacity.toNat - 1)) true ++
      List.replicate (xs.length - (rb.capacity.toNat - 1)) false, rb')

/-! ### Pushes -/

variable {cap : ℕ}

/-- **The pushes of a list** fill the slots that are left but one, and are refused from there on. -/
theorem Holds.pushes (xs : List A) : ∀ {rb : RingBuffer A} {l : List A}, Holds cap rb l →
    ∃ rb', Run.exec RingBuffer.push rb xs =
      some (List.replicate (min xs.length (cap - 1 - l.length)) true ++
        List.replicate (xs.length - (cap - 1 - l.length)) false, rb') := by
  induction xs with
  | nil =>
      intro rb l _
      exact ⟨rb, by simp [Run.exec]⟩
  | cons x xs ih =>
      intro rb l h
      have hlen := h.length_lt
      by_cases hl : l.length + 1 = cap
      · obtain ⟨rb', hexec⟩ := ih h
        have hfull : cap - 1 - l.length = 0 := by omega
        refine ⟨rb', (Run.exec_cons (h.push_full hl x) hexec).trans ?_⟩
        simp [hfull, List.replicate_succ]
      · obtain ⟨rb₁, hpush, h₁⟩ := h.push (by omega) x
        obtain ⟨rb', hexec⟩ := ih h₁
        obtain ⟨d, hd⟩ : ∃ d, cap - 1 - l.length = d + 1 := ⟨cap - 1 - l.length - 1, by omega⟩
        have hd₁ : cap - 1 - (l ++ [x]).length = d := by
          rw [List.length_append, List.length_singleton]
          omega
        rw [hd₁] at hexec
        refine ⟨rb', (Run.exec_cons hpush hexec).trans ?_⟩
        simp [hd, List.replicate_succ]

/-- A push in a run: it writes the slot at the head, if any. -/
theorem Holds.push_writes {rb : RingBuffer A} {l : List A} (h : Holds cap rb l) (x : A) :
    ∃ accepted rb', rb.push x = some (accepted, rb') ∧ (∃ l', Holds cap rb' l') ∧
      (accepted = true →
        rb.head.toNat < cap ∧ rb'.buffer = rb.buffer.set rb.head.toNat (some x)) := by
  have hlen := h.length_lt
  by_cases hl : l.length + 1 = cap
  · exact ⟨false, rb, h.push_full hl x, ⟨l, h⟩, fun hf => absurd hf Bool.false_ne_true⟩
  · have hlt : l.length + 1 < cap := by omega
    exact ⟨true, _, h.push_eq hlt x, ⟨l ++ [x], h.pushed hlt x⟩, fun _ => ⟨h.head_lt, rfl⟩⟩

theorem Holds.established {c : UInt32} {rb : RingBuffer A} (h : Holds rb.capacity.toNat rb [])
    (hhead : rb.head = 0) (htail : rb.tail = 0)
    (hleast : IsLeast {p : ℕ | p.isPowerOfTwo ∧ c.toNat ≤ p} rb.capacity.toNat) :
    Established c rb where
  least := hleast
  mask := by
    rw [h.mask]
    exact Nat.sub_add_cancel h.spans.cap_pos
  head := hhead
  tail := htail
  slots := fun xs =>
    Run.always_of_step (I := fun s => ∃ l, Holds rb.capacity.toNat s l) (C := fun _ _ => True)
      (fun _ x ⟨_, hl⟩ _ => hl.push_writes x) ⟨[], h⟩ (Run.along_of_forall (fun _ _ => trivial) rb)
  accepts := fun xs => by
    have hpushes := h.pushes xs
    rwa [List.length_nil, Nat.sub_zero] at hpushes

/-! ### `ring_buffer_init` -/

/-- What `ring_buffer_init` makes. -/
theorem init_eq_some {c : UInt32} {rb : RingBuffer A} (h : init c = some rb) :
    c ≠ 0 ∧ rb.head = 0 ∧ rb.tail = 0 := by
  unfold init at h
  split at h
  · cases h
  · rename_i hne
    rw [← Option.some.inj h]
    exact ⟨hne, rfl, rfl⟩

/-- Above 2³¹ the ring has no slots. -/
theorem init_capacity_eq_zero {c : UInt32} {rb : RingBuffer A} (h : init c = some rb)
    (hc : 2 ^ 31 < c.toNat) : rb.capacity = 0 := by
  rw [init_capacity h, isPowerOfTwo_eq_false hc, nextPowerOfTwo_eq_zero hc]
  rfl

/-- **`ring_buffer_init`** establishes what it should exactly up to 2³¹. -/
theorem init_established_iff {c : UInt32} {rb : RingBuffer A} (hinit : init c = some rb) :
    Established c rb ↔ c.toNat ≤ 2 ^ 31 := by
  obtain ⟨hne, hhead, htail⟩ := init_eq_some hinit
  constructor
  · intro h
    by_contra hgt
    have hcap := init_capacity_eq_zero hinit (not_le.mp hgt)
    have hge := h.least.1.2
    rw [hcap] at hge
    exact hgt (hge.trans (by decide))
  · intro hle
    have hpos : 1 ≤ c.toNat := Nat.one_le_iff_ne_zero.mpr fun h₀ => hne (UInt32.toNat_inj.mp h₀)
    obtain ⟨rb', hinit', h⟩ := init_holds_of_le (A := A) hpos hle
    obtain rfl : rb' = rb := Option.some.inj (hinit'.symm.trans hinit)
    refine h.established hhead htail ?_
    rw [init_capacity hinit]
    exact rounded_isLeast hpos hle

/-- A ring for a thousand pointers has 1024 slots. -/
theorem init_established_thousand :
    ∃ rb : RingBuffer ℕ, init 1000 = some rb ∧ rb.capacity = 1024 ∧ Established 1000 rb :=
  ⟨_, rfl, by decide, (init_established_iff rfl).mpr (by decide)⟩

/-- One more than 2³¹: `ring_buffer_init` returns 0, and the first push writes outside the ring. -/
theorem init_wraps : ∃ rb : RingBuffer ℕ, init 2147483649 = some rb ∧ rb.capacity = 0 ∧
    rb.push 0 = none ∧ ¬ Established 2147483649 rb := by
  refine ⟨⟨0, 0, [], 0, 0xFFFFFFFF⟩, rfl, rfl, rfl, fun h => ?_⟩
  exact absurd h.least.1.2 (by decide)

end RingBuffer

end Aspira
