import Aspira.Ring.Rounding
import Aspira.Ring.Spsc

/-!
# Ring — Snapshot

`ring_buffer_count`, `ring_buffer_empty` and `ring_buffer_full` load the head, and then the tail.
Between the two loads the ring may move on, so what they return is put together from two moments:
the values accepted at the first one and those popped at the second (`Turned.count`).

For the two threads of the ring this is exact: between calls of its own the consumer pops nothing, so
it sees the first moment, and the producer accepts nothing, so it sees the second
(`snapshot_exact`).  For any other thread more may have been popped at the second moment than was
accepted at the first, and then the difference wraps around: of a ring that is empty at both moments
it may hear that it is full (`snapshot_torn`).
-/

namespace Aspira

variable {A : Type}

namespace RingBuffer

/-- `ring_buffer_count`, from what it has loaded. -/
def countOf (rb : RingBuffer A) (head tail : UInt32) : UInt32 := (head - tail) &&& rb.mask

/-- `ring_buffer_empty`, from what it has loaded. -/
def emptyOf (head tail : UInt32) : Bool := decide (head = tail)

/-- `ring_buffer_full`, from what it has loaded. -/
def fullOf (rb : RingBuffer A) (head tail : UInt32) : Bool := decide ((head + 1) &&& rb.mask = tail)

end RingBuffer

namespace Spsc

/-- How many values the ring holds after the returns `rs`. -/
def held (rs : List (Option (Returned A))) : ℤ := (accepted rs).length - (popped rs).length

/-- The ring after the returns `rs`: head and tail have gone round with what was accepted and
popped. -/
structure Turned (cap : ℕ) (rs : List (Option (Returned A))) (s : Spsc A) : Prop where
  stored : ∃ l, Stored cap rs s l
  tail : s.ring.tail.toNat = (popped rs).length % cap

variable {cap : ℕ} {rs rs' : List (Option (Returned A))} {s s' : Spsc A}

theorem Turned.head (h : Turned cap rs s) : s.ring.head.toNat = (accepted rs).length % cap := by
  obtain ⟨l, hl⟩ := h.stored
  rw [hl.spans.head, h.tail, Nat.mod_add_mod, hl.accepted, List.length_append]

theorem Turned.held (h : Turned cap rs s) : 0 ≤ held rs ∧ held rs < cap := by
  obtain ⟨l, hl⟩ := h.stored
  have hlt := hl.spans.lt
  rw [Spsc.held, hl.accepted, List.length_append]
  omega

/-- A step that moves the tail pops a value. -/
theorem tail_of_step {e : SpscEvent A} {r : Option (Returned A)} (hstep : s.step e = some (r, s')) :
    popped [r] = [] ∧ s'.ring.tail = s.ring.tail ∨
      ∃ tail data, s.consumer = .releasing tail data ∧ popped [r] = [data] ∧
        s'.ring.tail = (tail + 1) &&& s.ring.mask := by
  cases e with
  | producer arg =>
      simp only [step, stepProducer] at hstep
      split at hstep
      · cases hstep
        exact .inl ⟨rfl, rfl⟩
      · split at hstep <;> cases hstep <;> exact .inl ⟨rfl, rfl⟩
      · split at hstep
        · cases hstep
          exact .inl ⟨rfl, rfl⟩
        · cases hstep
      · cases hstep
        exact .inl ⟨rfl, rfl⟩
  | consumer =>
      simp only [step, stepConsumer] at hstep
      split at hstep
      · cases hstep
        exact .inl ⟨rfl, rfl⟩
      · split at hstep <;> cases hstep <;> exact .inl ⟨rfl, rfl⟩
      · split at hstep
        · cases hstep
        · cases hstep
          exact .inl ⟨rfl, rfl⟩
      · rename_i tail data hc
        cases hstep
        exact .inr ⟨tail, data, hc, rfl, rfl⟩

/-- **A step.** -/
theorem Turned.step (h : Turned cap rs s) (e : SpscEvent A) :
    ∃ r s', s.step e = some (r, s') ∧ Turned cap (rs ++ [r]) s' := by
  obtain ⟨l, hl⟩ := h.stored
  obtain ⟨r, s', l', hstep, hl', -⟩ := hl.step e
  refine ⟨r, s', hstep, ⟨l', hl'⟩, ?_⟩
  rcases tail_of_step hstep with ⟨hnone, htail⟩ | ⟨tail, data, hc, hone, htail⟩
  · rw [htail, h.tail, popped_append, hnone, List.append_nil]
  · have hok := hl.consumer
    rw [hc] at hok
    rw [htail, hok.1, hl.spans.next, h.tail, Nat.mod_add_mod, popped_append, hone,
      List.length_append]
    rfl

theorem Turned.exec (es : List (SpscEvent A)) (h : Turned cap rs s) :
    ∃ rs' s', Run.exec Spsc.step s es = some (rs', s') ∧ Turned cap (rs ++ rs') s' :=
  Run.exec_history (fun _ _ e hs => hs.step e) es h

/-! ### Two moments -/

/-- The difference of two positions on the ring. -/
theorem toNat_sub_and_mask {k : ℕ} (hk : k ≤ 31) {mask head tail : UInt32} {a p : ℕ}
    (hmask : mask.toNat = 2 ^ k - 1) (hhead : head.toNat = a % 2 ^ k)
    (htail : tail.toNat = p % 2 ^ k) :
    (((head - tail) &&& mask).toNat : ℤ) = ((a : ℤ) - p) % (2 ^ k : ℕ) := by
  have hdvd : 2 ^ k ∣ 2 ^ 32 := pow_dvd_pow 2 (hk.trans (by decide))
  have ht : tail.toNat ≤ 2 ^ 32 := tail.toNat_lt.le
  rw [UInt32.toNat_and, hmask, Nat.and_two_pow_sub_one_eq_mod, UInt32.toNat_sub,
    Nat.mod_mod_of_dvd _ hdvd, Int.natCast_mod]
  have hsum : ((2 ^ 32 - tail.toNat + head.toNat : ℕ) : ℤ) =
      (2 ^ 32 : ℕ) + ((head.toNat : ℤ) - tail.toNat) := by
    rw [Nat.cast_add, Nat.cast_sub ht]
    ring
  obtain ⟨c, hc⟩ := hdvd
  rw [hsum, hc, Nat.cast_mul, Int.mul_add_emod_self_left, hhead, htail, Int.natCast_mod,
    Int.natCast_mod, ← Int.sub_emod]

/-- **What the count says of two moments**: the values accepted at the first one less those popped at
the second, as far as the ring can tell. -/
theorem Turned.count (h : Turned cap rs s) (h' : Turned cap (rs ++ rs') s') :
    ((s.ring.countOf s.ring.head s'.ring.tail).toNat : ℤ) =
      ((accepted rs).length - (popped (rs ++ rs')).length : ℤ) % cap := by
  obtain ⟨l, hl⟩ := h.stored
  obtain ⟨k, hk, hcap⟩ := hl.spans.pow
  have hm := hl.spans.mask
  have hhead := h.head
  have htail := h'.tail
  rw [hcap] at hm hhead htail ⊢
  exact toNat_sub_and_mask hk hm hhead htail

/-- The three functions, called on a ring that holds `n` values. -/
structure Sees (cap : ℕ) (rb : RingBuffer A) (head tail : UInt32) (n : ℤ) : Prop where
  count : ((rb.countOf head tail).toNat : ℤ) = n
  empty : RingBuffer.emptyOf head tail = true ↔ n = 0
  full : rb.fullOf head tail = true ↔ n + 1 = cap

/-- Two positions on the ring are one if their difference is a number of whole turns. -/
theorem mod_eq_mod_iff {a p : ℕ} {n : ℤ} (hn : n % cap = ((a : ℤ) - p) % cap) :
    a % cap = p % cap ↔ n % cap = 0 := by
  rw [hn, ← Int.emod_eq_emod_iff_emod_sub_eq_zero]
  exact_mod_cast Iff.rfl

/-- **What is seen of two moments**: the one number that a ring can hold which makes up their
difference, up to whole turns. -/
theorem Turned.sees (h : Turned cap rs s) (h' : Turned cap (rs ++ rs') s') {n : ℤ}
    (hn : n % cap = ((accepted rs).length - (popped (rs ++ rs')).length : ℤ) % cap) (h₀ : 0 ≤ n)
    (hlt : n < cap) : Sees cap s.ring s.ring.head s'.ring.tail n := by
  obtain ⟨l, hl⟩ := h.stored
  have hmod := Int.emod_eq_of_lt h₀ hlt
  refine ⟨?_, ?_, ?_⟩
  · rw [h.count h', ← hn, hmod]
  · rw [RingBuffer.emptyOf, decide_eq_true_iff, ← UInt32.toNat_inj, h.head, h'.tail,
      mod_eq_mod_iff hn, hmod]
  · have hn' : (n + 1) % cap =
        (((accepted rs).length + 1 : ℕ) - (popped (rs ++ rs')).length : ℤ) % cap := by
      rw [Nat.cast_add, Nat.cast_one, add_sub_right_comm, Int.add_emod, hn, ← Int.add_emod]
    rw [RingBuffer.fullOf, decide_eq_true_iff, ← UInt32.toNat_inj, hl.spans.next, h.head, h'.tail,
      Nat.mod_add_mod, mod_eq_mod_iff hn']
    constructor
    · intro hzero
      by_contra hne
      rw [Int.emod_eq_of_lt (by omega) (by omega)] at hzero
      omega
    · intro hfull
      rw [hfull, Int.emod_self]

/-! ### Who calls -/

theorem accepted_of_consumer {es : List (SpscEvent A)} (hes : ∀ e ∈ es, e = .consumer) :
    ∀ {s s' : Spsc A} {rs : List (Option (Returned A))}, Run.exec step s es = some (rs, s') →
      accepted rs = [] := by
  induction es with
  | nil =>
      intro s s' rs hexec
      cases hexec
      rfl
  | cons e es ih =>
      intro s s' rs hexec
      obtain ⟨r, s₁, rs', hstep, hrest, rfl⟩ := Run.exec_cons_some hexec
      obtain rfl := hes e (List.mem_cons_self ..)
      have hnone : accepted [r] = [] := by
        simp only [step, stepConsumer] at hstep
        split at hstep
        · cases hstep
          rfl
        · split at hstep <;> cases hstep <;> rfl
        · split at hstep <;> cases hstep
          rfl
        · cases hstep
          rfl
      rw [← List.singleton_append, accepted_append, hnone,
        ih (fun e he => hes e (List.mem_cons_of_mem _ he)) hrest, List.append_nil]

theorem popped_of_producer {es : List (SpscEvent A)} (hes : SpscEvent.consumer ∉ es) :
    ∀ {s s' : Spsc A} {rs : List (Option (Returned A))}, Run.exec step s es = some (rs, s') →
      popped rs = [] := by
  induction es with
  | nil =>
      intro s s' rs hexec
      cases hexec
      rfl
  | cons e es ih =>
      intro s s' rs hexec
      obtain ⟨r, s₁, rs', hstep, hrest, rfl⟩ := Run.exec_cons_some hexec
      rw [List.mem_cons, not_or] at hes
      have hnone : popped [r] = [] := by
        rcases tail_of_step hstep with ⟨hnone, -⟩ | ⟨tail, data, hc, hone, -⟩
        · exact hnone
        · cases e with
          | consumer => exact absurd rfl hes.1
          | producer arg =>
              simp only [step, stepProducer] at hstep
              split at hstep
              · cases hstep
                rfl
              · split at hstep <;> cases hstep <;> rfl
              · split at hstep <;> cases hstep
                rfl
              · cases hstep
                rfl
      rw [← List.singleton_append, popped_append, hnone, ih hes.2 hrest, List.append_nil]

theorem turned_init {capacity : UInt32} (hpos : 1 ≤ capacity.toNat)
    (hle : capacity.toNat ≤ 2 ^ 31) :
    ∃ rb : RingBuffer A, RingBuffer.init capacity = some rb ∧
      Turned rb.capacity.toNat [] { ring := rb } := by
  obtain ⟨rb, hinit, hrb⟩ := RingBuffer.init_holds_of_le (A := A) hpos hle
  refine ⟨rb, hinit, ⟨[], stored_nil hrb⟩, ?_⟩
  have htail : rb.tail = 0 := (RingBuffer.init_eq_some hinit).2.2
  show rb.tail.toNat = 0 % _
  rw [htail, Nat.zero_mod]
  rfl

/-- **For the threads of the ring the functions are exact**, in every interleaving of loads and
stores.  The head is loaded after `es₁` and the tail after `es₂`.  The producer, whose call only the
consumer's steps can interrupt, sees what the ring holds at the second load; the consumer sees what it
holds at the first, and by the second it may hold more. -/
theorem snapshot_exact {capacity : UInt32} (hpos : 1 ≤ capacity.toNat)
    (hle : capacity.toNat ≤ 2 ^ 31) (es₁ es₂ : List (SpscEvent A)) :
    ∃ rb rs₁ s₁ rs₂ s₂, RingBuffer.init capacity = some rb ∧
      Run.exec step { ring := rb } es₁ = some (rs₁, s₁) ∧
      Run.exec step s₁ es₂ = some (rs₂, s₂) ∧
      ((∀ e ∈ es₂, e = .consumer) →
        Sees rb.capacity.toNat s₁.ring s₁.ring.head s₂.ring.tail (held (rs₁ ++ rs₂))) ∧
      (.consumer ∉ es₂ →
        Sees rb.capacity.toNat s₁.ring s₁.ring.head s₂.ring.tail (held rs₁) ∧
          held rs₁ ≤ held (rs₁ ++ rs₂)) := by
  obtain ⟨rb, hinit, h₀⟩ := turned_init (A := A) hpos hle
  obtain ⟨rs₁, s₁, hexec₁, h₁⟩ := h₀.exec es₁
  rw [List.nil_append] at h₁
  obtain ⟨rs₂, s₂, hexec₂, h₂⟩ := h₁.exec es₂
  refine ⟨rb, rs₁, s₁, rs₂, s₂, hinit, hexec₁, hexec₂, fun hes => ?_, fun hes => ?_⟩
  · have hnone := accepted_of_consumer hes hexec₂
    refine h₁.sees h₂ (congrArg (· % _) ?_) h₂.held.1 h₂.held.2
    rw [held, accepted_append, hnone, List.append_nil]
  · have hnone := popped_of_producer hes hexec₂
    refine ⟨h₁.sees h₂ (congrArg (· % _) ?_) h₁.held.1 h₁.held.2, ?_⟩
    · rw [held, popped_append, hnone, List.append_nil]
    · rw [held, held, popped_append, hnone, List.append_nil, accepted_append, List.length_append]
      omega

theorem snapshot_exact_crossedCalls :
    1 ≤ (2 : UInt32).toNat ∧ (2 : UInt32).toNat ≤ 2 ^ 31 ∧
    ∃ rb rs₁ s₁ rs₂ s₂, RingBuffer.init 2 = some rb ∧
      Run.exec step { ring := rb } crossedCalls = some (rs₁, s₁) ∧
      Run.exec step s₁ [.consumer, .consumer] = some (rs₂, s₂) ∧
      ((∀ e ∈ [SpscEvent.consumer (A := ℕ), .consumer], e = .consumer) →
        Sees rb.capacity.toNat s₁.ring s₁.ring.head s₂.ring.tail (held (rs₁ ++ rs₂))) ∧
      (SpscEvent.consumer (A := ℕ) ∉ [.consumer, .consumer] →
        Sees rb.capacity.toNat s₁.ring s₁.ring.head s₂.ring.tail (held rs₁) ∧
          held rs₁ ≤ held (rs₁ ++ rs₂)) :=
  ⟨by decide, by decide, @snapshot_exact ℕ 2 (by decide) (by decide) crossedCalls
    [.consumer, .consumer]⟩

/-! ### A third thread -/

/-- A push of `data` and a pop, each run to its end. -/
def pushThenPop (data : Option A) : List (SpscEvent A) :=
  List.replicate 4 (.producer data) ++ List.replicate 4 .consumer

/-- **Through an empty ring that no thread uses one value goes**, and leaves it empty. -/
theorem exec_pushThenPop (h : Stored cap rs s []) (hcap : 2 ≤ cap) (hp : s.producer = .idle)
    (hc : s.consumer = .idle) (data : Option A) :
    ∃ rs' s', Run.exec step s (pushThenPop data) = some (rs', s') ∧ accepted rs' = [data] ∧
      popped rs' = [data] := by
  obtain ⟨ring, producer, consumer⟩ := s
  obtain rfl : producer = .idle := hp
  obtain rfl : consumer = .idle := hc
  have hroom : ¬ (ring.head + 1) &&& ring.mask = ring.tail := by
    rw [h.spans.next_eq_tail, List.length_nil]
    omega
  have hempty : ring.tail = ring.head := h.spans.head_eq_tail.mpr rfl
  have hslot : ring.head.toNat < ring.buffer.length := by
    rw [h.spans.slots]
    exact h.spans.head_lt
  have hread : (ring.buffer.set ring.head.toNat data)[ring.tail.toNat]? = some data := by
    rw [hempty, List.getElem?_set_self hslot]
  have hreading : ∀ s : Spsc A, s.consumer = .reading ring.tail →
      s.ring.buffer = ring.buffer.set ring.head.toNat data →
      step s .consumer = some (none, { s with consumer := .releasing ring.tail data }) := by
    intro s hcon hbuf
    simp only [step, stepConsumer, hcon, hbuf, hread]
  refine ⟨_, _, Run.exec_cons rfl <| Run.exec_cons (if_neg hroom) <| Run.exec_cons (if_pos hslot) <|
    Run.exec_cons rfl <| Run.exec_cons rfl <| Run.exec_cons (if_neg (Ne.symm hroom)) <|
    Run.exec_cons (hreading _ rfl rfl) <| Run.exec_cons rfl rfl, rfl, rfl⟩

/-- **To a third thread an empty ring may look full.**  Whenever the ring is empty, its threads are in
no call and it has room for a value, a push and a pop between the two loads leave it empty; and yet
what was loaded says that it holds as many values as it can. -/
theorem snapshot_torn {capacity : UInt32} (hpos : 1 ≤ capacity.toNat)
    (hle : capacity.toNat ≤ 2 ^ 31) (es : List (SpscEvent A)) (data : Option A) :
    ∃ rb rs₁ s₁, RingBuffer.init capacity = some rb ∧
      Run.exec step { ring := rb } es = some (rs₁, s₁) ∧
      (2 ≤ rb.capacity.toNat → held rs₁ = 0 → s₁.producer = .idle → s₁.consumer = .idle →
        ∃ rs₂ s₂, Run.exec step s₁ (pushThenPop data) = some (rs₂, s₂) ∧
          held (rs₁ ++ rs₂) = 0 ∧
          Sees rb.capacity.toNat s₁.ring s₁.ring.head s₂.ring.tail (rb.capacity.toNat - 1)) := by
  obtain ⟨rb, hinit, h₀⟩ := turned_init (A := A) hpos hle
  obtain ⟨rs₁, s₁, hexec₁, h₁⟩ := h₀.exec es
  rw [List.nil_append] at h₁
  refine ⟨rb, rs₁, s₁, hinit, hexec₁, fun hcap hheld hp hc => ?_⟩
  obtain ⟨l, hl⟩ := h₁.stored
  have hlen := congrArg List.length hl.accepted
  rw [List.length_append] at hlen
  rw [held] at hheld
  obtain rfl : l = [] := List.eq_nil_of_length_eq_zero (by omega)
  obtain ⟨rs₂, s₂, hexec₂, hacc, hpop⟩ := exec_pushThenPop hl hcap hp hc data
  obtain ⟨rs₂', s₂', hexec', h₂⟩ := h₁.exec (pushThenPop data)
  rw [hexec₂] at hexec'
  cases hexec'
  refine ⟨rs₂, s₂, hexec₂, ?_, h₁.sees h₂ ?_ (by omega) (by omega)⟩
  · rw [held, accepted_append, popped_append, hacc, hpop, List.length_append, List.length_append]
    push_cast
    omega
  · rw [popped_append, hpop, List.length_append, List.length_singleton, Nat.cast_add,
      ← sub_sub, hheld, sub_eq_add_neg, Int.add_emod_left]
    rfl

/-- A ring of one slot through which one value has gone already. -/
theorem snapshot_torn_two : ∃ rb rs₁ s₁ rs₂ s₂, RingBuffer.init 2 = some rb ∧
    Run.exec step { ring := rb } (pushThenPop (some 3)) = some (rs₁, s₁) ∧
    Run.exec step s₁ (pushThenPop (some 7)) = some (rs₂, s₂) ∧ held rs₁ = 0 ∧
    held (rs₁ ++ rs₂) = 0 ∧ Sees 2 s₁.ring s₁.ring.head s₂.ring.tail 1 := by
  obtain ⟨rb, rs₁, s₁, hinit, hexec₁, htorn⟩ :=
    @snapshot_torn ℕ 2 (by decide) (by decide) (pushThenPop (some 3)) (some 7)
  obtain rfl := Option.some.inj hinit
  obtain ⟨rfl, rfl⟩ := Prod.mk.inj (Option.some.inj hexec₁)
  obtain ⟨rs₂, s₂, hexec₂, hheld, hsees⟩ := htorn (by decide) rfl rfl rfl
  exact ⟨_, _, _, rs₂, s₂, hinit, hexec₁, hexec₂, rfl, hheld, hsees⟩

end Spsc

end Aspira
