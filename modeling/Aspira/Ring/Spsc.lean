import Aspira.Support.Run
import Aspira.Ring.RingBuffer

/-!
# Ring — Spsc

`ring_buffer_push` and `ring_buffer_pop` by their loads and stores: one producer and one consumer,
each at some point of its own call, with the values it has loaded so far.  A step is one load or one
store, in any order of the two threads.

`Stored cap rs s l` relates what the calls have returned so far (`rs`) to the memory and to the two
threads (`s`): the values accepted are those popped and then `l`, which lie intact in their slots.
-/

namespace Aspira

variable {A : Type}

/-- Where `ring_buffer_push` is, with its locals. -/
inductive Producer (A : Type) where
  | idle
  | loadedHead (data : Option A) (head : UInt32)
  | storing (data : Option A) (head next : UInt32)
  | publishing (data : Option A) (next : UInt32)

/-- Where `ring_buffer_pop` is, with its locals. -/
inductive Consumer (A : Type) where
  | idle
  | loadedTail (tail : UInt32)
  | reading (tail : UInt32)
  | releasing (tail : UInt32) (data : Option A)

/-- The memory of a ring and the two threads that use it. -/
structure Spsc (A : Type) where
  ring : RingBuffer A
  producer : Producer A := .idle
  consumer : Consumer A := .idle

/-- The thread that takes the next step.  A producer that is in no call starts one with `data`. -/
inductive SpscEvent (A : Type) where
  | producer (data : Option A)
  | consumer

/-- What a call returns: `full` is the `false` of `ring_buffer_push` and `pushed` its `true`, here
with the value accepted; `empty` is the `return NULL` of `ring_buffer_pop`, `popped` its
`return data`. -/
inductive Returned (A : Type) where
  | full
  | pushed (data : Option A)
  | empty
  | popped (data : Option A)

namespace Spsc

/-- One load or store of `ring_buffer_push`. -/
def stepProducer (s : Spsc A) (arg : Option A) : Option (Option (Returned A) × Spsc A) :=
  match s.producer with
  | .idle => some (none, { s with producer := .loadedHead arg s.ring.head })
  | .loadedHead data head =>
      let tail := s.ring.tail
      let next := (head + 1) &&& s.ring.mask
      if next = tail then some (some .full, { s with producer := .idle })
      else some (none, { s with producer := .storing data head next })
  | .storing data head next =>
      if head.toNat < s.ring.buffer.length then
        some (none,
          { s with
            ring := { s.ring with buffer := s.ring.buffer.set head.toNat data }
            producer := .publishing data next })
      else none
  | .publishing data next =>
      some (some (.pushed data), { s with ring := { s.ring with head := next }, producer := .idle })

/-- One load or store of `ring_buffer_pop`. -/
def stepConsumer (s : Spsc A) : Option (Option (Returned A) × Spsc A) :=
  match s.consumer with
  | .idle => some (none, { s with consumer := .loadedTail s.ring.tail })
  | .loadedTail tail =>
      let head := s.ring.head
      if tail = head then some (some .empty, { s with consumer := .idle })
      else some (none, { s with consumer := .reading tail })
  | .reading tail =>
      match s.ring.buffer[tail.toNat]? with
      | none => none
      | some data => some (none, { s with consumer := .releasing tail data })
  | .releasing tail data =>
      some (some (.popped data),
        { s with
          ring := { s.ring with tail := (tail + 1) &&& s.ring.mask }
          consumer := .idle })

def step (s : Spsc A) : SpscEvent A → Option (Option (Returned A) × Spsc A)
  | .producer data => s.stepProducer data
  | .consumer => s.stepConsumer

/-- The values accepted, oldest first. -/
def accepted (rs : List (Option (Returned A))) : List (Option A) :=
  rs.filterMap fun
    | some (.pushed data) => some data
    | _ => none

/-- The values popped, oldest first. -/
def popped (rs : List (Option (Returned A))) : List (Option A) :=
  rs.filterMap fun
    | some (.popped data) => some data
    | _ => none

/-! ### The invariant -/

/-- What the locals of `ring_buffer_push` say of a ring with `n` values. -/
def Producer.Ok (cap : ℕ) (rb : RingBuffer A) (n : ℕ) : Producer A → Prop
  | .idle => True
  | .loadedHead _ head => head = rb.head
  | .storing _ head next => head = rb.head ∧ next = (rb.head + 1) &&& rb.mask ∧ n + 1 < cap
  | .publishing data next => next = (rb.head + 1) &&& rb.mask ∧ n + 1 < cap ∧
      rb.buffer[rb.head.toNat]? = some data

/-- What the locals of `ring_buffer_pop` say of a ring with the values `l`. -/
def Consumer.Ok (rb : RingBuffer A) (l : List (Option A)) : Consumer A → Prop
  | .idle => True
  | .loadedTail tail => tail = rb.tail
  | .reading tail => tail = rb.tail ∧ l ≠ []
  | .releasing tail data => tail = rb.tail ∧ l.head? = some data

/-- After the returns `rs`, the ring holds `l`, oldest first. -/
structure Stored (cap : ℕ) (rs : List (Option (Returned A))) (s : Spsc A) (l : List (Option A)) :
    Prop where
  accepted : accepted rs = popped rs ++ l
  spans : s.ring.Spans cap l.length
  slot : ∀ i v, l[i]? = some v → s.ring.buffer[(s.ring.tail.toNat + i) % cap]? = some v
  producer : Producer.Ok cap s.ring l.length s.producer
  consumer : Consumer.Ok s.ring l s.consumer

variable {cap : ℕ} {rs : List (Option (Returned A))} {s : Spsc A} {l : List (Option A)}

@[simp]
theorem accepted_append (rs rs' : List (Option (Returned A))) :
    accepted (rs ++ rs') = accepted rs ++ accepted rs' := List.filterMap_append

@[simp]
theorem popped_append (rs rs' : List (Option (Returned A))) :
    popped (rs ++ rs') = popped rs ++ popped rs' := List.filterMap_append

/-- A return that neither accepts nor pops a value. -/
def Quiet (r : Option (Returned A)) : Prop := accepted [r] = [] ∧ popped [r] = []

theorem Stored.accepted_quiet {r : Option (Returned A)} (h : Stored cap rs s l) (hr : Quiet r) :
    Spsc.accepted (rs ++ [r]) = Spsc.popped (rs ++ [r]) ++ l := by
  rw [accepted_append, popped_append, hr.1, hr.2, List.append_nil, List.append_nil, h.accepted]

/-- A producer whose locals change, and nothing else. -/
theorem Stored.set_producer {r : Option (Returned A)} {p : Producer A} (h : Stored cap rs s l)
    (hr : Quiet r) (hp : Producer.Ok cap s.ring l.length p) :
    Stored cap (rs ++ [r]) { s with producer := p } l :=
  ⟨h.accepted_quiet hr, h.spans, h.slot, hp, h.consumer⟩

/-- A consumer whose locals change, and nothing else. -/
theorem Stored.set_consumer {r : Option (Returned A)} {c : Consumer A} (h : Stored cap rs s l)
    (hr : Quiet r) (hc : Consumer.Ok s.ring l c) :
    Stored cap (rs ++ [r]) { s with consumer := c } l :=
  ⟨h.accepted_quiet hr, h.spans, h.slot, h.producer, hc⟩

/-- The slot at the head is none of those in use. -/
theorem Stored.slot_set (h : Stored cap rs s l) (data : Option A) {i : ℕ} {v : Option A}
    (hi : l[i]? = some v) :
    (s.ring.buffer.set s.ring.head.toNat data)[(s.ring.tail.toNat + i) % cap]? = some v := by
  have hlt : i < l.length := (List.getElem?_eq_some_iff.mp hi).1
  rw [List.getElem?_set_ne, h.slot i v hi]
  rw [h.spans.head]
  exact fun e => hlt.ne (RingBuffer.offset_inj (hlt.trans h.spans.lt) h.spans.lt e.symm)

/-- The oldest value lies at the tail. -/
theorem Stored.first (h : Stored cap rs s l) {v : Option A} (hv : l.head? = some v) :
    s.ring.buffer[s.ring.tail.toNat]? = some v := by
  rw [List.head?_eq_getElem?] at hv
  have hslot := h.slot 0 v hv
  rw [Nat.add_zero, Nat.mod_eq_of_lt h.spans.tail_lt] at hslot
  exact hslot

/-- What a return says of the ring, which holds `l`, and of the call that returns. -/
def Tells (cap : ℕ) (s : Spsc A) (l : List (Option A)) : Option (Returned A) → Prop
  | some .full => l.length + 1 = cap ∧ ∃ data head, s.producer = .loadedHead data head
  | some .empty => l = [] ∧ ∃ tail, s.consumer = .loadedTail tail
  | some (.popped data) => l.head? = some data
  | _ => True

/-- **A step of the producer.** -/
theorem Stored.stepProducer (h : Stored cap rs s l) (arg : Option A) :
    ∃ r s' l', s.stepProducer arg = some (r, s') ∧ Stored cap (rs ++ [r]) s' l' ∧
      Tells cap s l r := by
  have hp := h.producer
  rw [Spsc.stepProducer]
  cases hpc : s.producer with
  | idle => exact ⟨_, _, l, rfl, h.set_producer ⟨rfl, rfl⟩ rfl, trivial⟩
  | loadedHead data head =>
      rw [hpc] at hp
      obtain rfl : head = s.ring.head := hp
      by_cases hfull : (s.ring.head + 1) &&& s.ring.mask = s.ring.tail
      · refine ⟨_, _, l, if_pos hfull, h.set_producer ⟨rfl, rfl⟩ trivial, ?_⟩
        exact ⟨h.spans.next_eq_tail.mp hfull, data, _, hpc⟩
      · refine ⟨_, _, l, if_neg hfull, h.set_producer ⟨rfl, rfl⟩ ⟨rfl, rfl, ?_⟩, trivial⟩
        have hlt := h.spans.lt
        have hne := mt h.spans.next_eq_tail.mpr hfull
        omega
  | storing data head next =>
      rw [hpc] at hp
      obtain ⟨rfl, rfl, hroom⟩ := hp
      have hhead : s.ring.head.toNat < s.ring.buffer.length := by
        rw [h.spans.slots]
        exact h.spans.head_lt
      refine ⟨_, _, l, if_pos hhead, ⟨h.accepted_quiet ⟨rfl, rfl⟩, ?_, ?_, ?_, ?_⟩, trivial⟩
      · exact { h.spans with slots := (List.length_set ..).trans h.spans.slots }
      · exact fun i v hi => h.slot_set data hi
      · exact ⟨rfl, hroom, List.getElem?_set_self hhead⟩
      · exact h.consumer
  | publishing data next =>
      rw [hpc] at hp
      obtain ⟨rfl, hroom, hwritten⟩ := hp
      refine ⟨_, _, l ++ [data], rfl, ⟨?_, ?_, ?_, trivial, ?_⟩, trivial⟩
      · rw [accepted_append, popped_append, h.accepted]
        simp [Spsc.accepted, Spsc.popped]
      · rw [List.length_append, List.length_singleton]
        exact h.spans.push hroom s.ring.buffer rfl
      · intro i v hi
        rcases Nat.lt_trichotomy i l.length with hlt | rfl | hlt
        · rw [List.getElem?_append_left hlt] at hi
          exact h.slot i v hi
        · rw [List.getElem?_append_right le_rfl, Nat.sub_self] at hi
          obtain rfl : data = v := Option.some.inj hi
          show s.ring.buffer[(s.ring.tail.toNat + l.length) % cap]? = some data
          rw [← h.spans.head]
          exact hwritten
        · rw [List.getElem?_eq_none (by simpa using hlt)] at hi
          cases hi
      · have hc := h.consumer
        cases hcc : s.consumer with
        | idle => trivial
        | loadedTail tail => rw [hcc] at hc; exact hc
        | reading tail =>
            rw [hcc] at hc
            exact ⟨hc.1, List.append_ne_nil_of_left_ne_nil hc.2 _⟩
        | releasing tail v =>
            rw [hcc] at hc
            exact ⟨hc.1, by rw [List.head?_append, hc.2]; rfl⟩

/-- **A step of the consumer.** -/
theorem Stored.stepConsumer (h : Stored cap rs s l) :
    ∃ r s' l', s.stepConsumer = some (r, s') ∧ Stored cap (rs ++ [r]) s' l' ∧ Tells cap s l r := by
  have hc := h.consumer
  rw [Spsc.stepConsumer]
  cases hcc : s.consumer with
  | idle => exact ⟨_, _, l, rfl, h.set_consumer ⟨rfl, rfl⟩ rfl, trivial⟩
  | loadedTail tail =>
      rw [hcc] at hc
      obtain rfl : tail = s.ring.tail := hc
      have hempty : s.ring.tail = s.ring.head ↔ l = [] :=
        h.spans.head_eq_tail.trans List.length_eq_zero_iff
      by_cases heq : s.ring.tail = s.ring.head
      · exact ⟨_, _, l, if_pos heq, h.set_consumer ⟨rfl, rfl⟩ trivial, hempty.mp heq, _, hcc⟩
      · exact ⟨_, _, l, if_neg heq, h.set_consumer ⟨rfl, rfl⟩ ⟨rfl, mt hempty.mpr heq⟩, trivial⟩
  | reading tail =>
      rw [hcc] at hc
      obtain ⟨rfl, hne⟩ := hc
      obtain ⟨v, hv⟩ : ∃ v, l.head? = some v := ⟨_, List.head?_eq_some_head hne⟩
      refine ⟨none, { s with consumer := .releasing s.ring.tail v }, l, ?_,
        h.set_consumer ⟨rfl, rfl⟩ ⟨rfl, hv⟩, trivial⟩
      simp only [h.first hv]
  | releasing tail data =>
      rw [hcc] at hc
      obtain ⟨rfl, hv⟩ := hc
      cases l with
      | nil => cases hv
      | cons v l =>
          obtain rfl : v = data := Option.some.inj hv
          refine ⟨_, _, l, rfl, ⟨?_, h.spans.pop, ?_, ?_, trivial⟩, rfl⟩
          · rw [accepted_append, popped_append, h.accepted]
            simp [Spsc.accepted, Spsc.popped]
          · intro i w hi
            show s.ring.buffer[(((s.ring.tail + 1) &&& s.ring.mask).toNat + i) % cap]? = some w
            rw [h.spans.next, Nat.mod_add_mod, Nat.add_assoc, Nat.add_comm 1]
            exact h.slot (i + 1) w hi
          · have hp := h.producer
            cases hpc : s.producer with
            | idle => trivial
            | loadedHead data head => rw [hpc] at hp; exact hp
            | storing data head next =>
                rw [hpc] at hp
                exact ⟨hp.1, hp.2.1, (Nat.lt_succ_self _).trans hp.2.2⟩
            | publishing data next =>
                rw [hpc] at hp
                exact ⟨hp.1, (Nat.lt_succ_self _).trans hp.2.1, hp.2.2⟩

/-- **A step**, of either thread. -/
theorem Stored.step (h : Stored cap rs s l) (e : SpscEvent A) :
    ∃ r s' l', s.step e = some (r, s') ∧ Stored cap (rs ++ [r]) s' l' ∧ Tells cap s l r := by
  cases e with
  | producer data => exact h.stepProducer data
  | consumer => exact h.stepConsumer

/-! ### Runs -/

/-- What the calls have returned and what the memory holds agree with a queue of `cap - 1` values:
the values popped are the first of those accepted, and the others lie intact in the slots from the
tail on, as many as `ring_buffer_count` says. -/
structure Orderly (cap : ℕ) (rs : List (Option (Returned A))) (rb : RingBuffer A) : Prop where
  fifo : popped rs <+: accepted rs
  head_lt : rb.head.toNat < cap
  tail_lt : rb.tail.toNat < cap
  count : (popped rs).length + rb.count.toNat = (accepted rs).length
  count_le : rb.count.toNat ≤ cap - 1
  intact : ∀ i v, (accepted rs)[(popped rs).length + i]? = some v →
    rb.buffer[(rb.tail.toNat + i) % cap]? = some v

theorem Stored.orderly (h : Stored cap rs s l) : Orderly cap rs s.ring where
  fifo := by
    rw [h.accepted]
    exact List.prefix_append ..
  head_lt := h.spans.head_lt
  tail_lt := h.spans.tail_lt
  count := by rw [h.spans.count, h.accepted, List.length_append]
  count_le := by
    rw [h.spans.count]
    exact Nat.le_sub_one_of_lt h.spans.lt
  intact := by
    intro i v hi
    rw [h.accepted, List.getElem?_append_right (Nat.le_add_right ..), Nat.add_sub_cancel_left]
      at hi
    exact h.slot i v hi

/-- An empty ring that no thread uses. -/
theorem stored_nil {rb : RingBuffer A} (h : rb.Holds cap []) : Stored cap [] { ring := rb } [] where
  accepted := rfl
  spans := h.spans
  slot := fun i v hi => by cases hi
  producer := trivial
  consumer := trivial

/-- **The ring is a queue between one producer and one consumer**, for every argument of
`ring_buffer_init` from 1 to 2³¹ and every interleaving of their loads and stores.  After any run
the ring is `Orderly`, and the next step is defined.  If that step returns `false` from a push, it
is the step that loads the tail, and the ring holds all it can; if it returns `NULL` from a pop and
no `NULL` was pushed, it is the step that loads the head, and the ring is empty. -/
theorem spsc_queue {capacity : UInt32} (hpos : 1 ≤ capacity.toNat) (hle : capacity.toNat ≤ 2 ^ 31)
    (events : List (SpscEvent A)) (e : SpscEvent A) :
    ∃ rb rs s r s', RingBuffer.init capacity = some rb ∧
      Run.exec step { ring := rb } events = some (rs, s) ∧ step s e = some (r, s') ∧
      Orderly rb.capacity.toNat rs s.ring ∧
      (r = some .full → s.ring.count.toNat = rb.capacity.toNat - 1 ∧
        ∃ data head, s.producer = .loadedHead data head) ∧
      (r = some .empty ∨ r = some (.popped none) → none ∉ accepted rs →
        s.ring.count.toNat = 0 ∧ ∃ tail, s.consumer = .loadedTail tail) := by
  obtain ⟨rb, hinit, hrb⟩ := RingBuffer.init_holds_of_le (A := A) hpos hle
  have hkeep : ∀ rs (s : Spsc A) e, (∃ l, Stored rb.capacity.toNat rs s l) →
      ∃ r s', step s e = some (r, s') ∧ ∃ l, Stored rb.capacity.toNat (rs ++ [r]) s' l := by
    rintro rs s e ⟨l, h⟩
    obtain ⟨r, s', l', hstep, h', -⟩ := h.step e
    exact ⟨r, s', hstep, l', h'⟩
  obtain ⟨rs, s, hexec, l, h⟩ := Run.exec_history hkeep events ⟨[], stored_nil hrb⟩
  rw [List.nil_append] at h
  obtain ⟨r, s', -, hstep, -, htells⟩ := h.step e
  refine ⟨rb, rs, s, r, s', hinit, hexec, hstep, h.orderly, ?_, ?_⟩
  · rintro rfl
    rw [h.spans.count]
    exact ⟨Nat.eq_sub_of_add_eq htells.1, htells.2⟩
  · rintro (rfl | rfl) hnull
    · rw [h.spans.count, htells.1]
      exact ⟨rfl, htells.2⟩
    · have hmem : none ∈ l := List.mem_of_head? htells
      rw [h.accepted] at hnull
      exact absurd (List.mem_append_right _ hmem) hnull

/-- A ring of two slots: a value is pushed and a second push is refused, while a pop waits between
its two loads. -/
def crossedCalls : List (SpscEvent ℕ) :=
  [.producer (some 7), .producer none, .consumer, .producer none, .producer none,
    .producer (some 8)]

theorem spsc_queue_crossedCalls :
    1 ≤ (2 : UInt32).toNat ∧ (2 : UInt32).toNat ≤ 2 ^ 31 ∧
    ∃ rb rs s r s', RingBuffer.init 2 = some rb ∧
      Run.exec step { ring := rb } crossedCalls = some (rs, s) ∧
      step s (.producer none) = some (r, s') ∧ Orderly rb.capacity.toNat rs s.ring ∧
      (r = some .full → s.ring.count.toNat = rb.capacity.toNat - 1 ∧
        ∃ data head, s.producer = .loadedHead data head) ∧
      (r = some .empty ∨ r = some (.popped none) → none ∉ accepted rs →
        s.ring.count.toNat = 0 ∧ ∃ tail, s.consumer = .loadedTail tail) :=
  ⟨by decide, by decide, spsc_queue (by decide) (by decide) crossedCalls (.producer none)⟩

end Spsc

end Aspira
