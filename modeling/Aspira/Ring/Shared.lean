import Aspira.Ring.Spsc

/-!
# Ring — Shared

A ring that several threads push to and several pop from, by loads and stores.  `Spsc.lean` has one
thread at each end; nothing in the ring asks for that, but it is safe only as long as no two threads
are in the middle of a push, and no two in the middle of a pop.

* `Shared cap rb ps cs l`: the ring holds `l`, the producers are at `ps` and the consumers at `cs`,
  at most one of each in a call.
* `Shared.produce`, `Shared.consume`: a step of a thread while the others at its end are in no call.
-/

namespace Aspira

namespace Spsc

variable {A I J : Type} {cap : ℕ} {rb : RingBuffer A} {l : List A}

/-- The call, if there is one, pushes `data`. -/
def Producer.Carries (data : Option A) : Producer A → Prop
  | .idle => True
  | .loadedHead d _ | .storing d _ _ | .publishing d _ => d = data

/-- The steps a push has left to take. -/
def Producer.left : Producer A → ℕ
  | .idle => 4
  | .loadedHead .. => 3
  | .storing .. => 2
  | .publishing .. => 1

/-- The steps a pop has left to take. -/
def Consumer.left : Consumer A → ℕ
  | .idle => 4
  | .loadedTail .. => 3
  | .reading .. => 2
  | .releasing .. => 1

/-- A ring that holds `l`, and the calls under way. -/
structure Shared (cap : ℕ) (rb : RingBuffer A) (ps : I → Producer A) (cs : J → Consumer A)
    (l : List A) : Prop where
  holds : rb.Holds cap l
  producer : ∀ i, Producer.Ok cap rb l.length (ps i)
  consumer : ∀ j, Consumer.Ok rb (l.map some) (cs j)
  one_producer : ∀ i i', i ≠ i' → ps i = .idle ∨ ps i' = .idle
  one_consumer : ∀ j j', j ≠ j' → cs j = .idle ∨ cs j' = .idle

/-- What a step of a push of `x` returns, where it leaves the call, and what the ring then holds. -/
inductive Produced (cap : ℕ) (x : A) (p : Producer A) (l : List A) :
    Option (Returned A) → Producer A → List A → Prop where
  | on {p' : Producer A} (carries : Producer.Carries (some x) p')
      (left : Producer.left p' < Producer.left p) : Produced cap x p l none p' l
  | full (h : l.length + 1 = cap) : Produced cap x p l (some .full) .idle l
  | pushed : Produced cap x p l (some (.pushed (some x))) .idle (l ++ [x])

/-- What a step of a pop returns, where it leaves the call, and what the ring then holds. -/
inductive Consumed (c : Consumer A) :
    List A → Option (Returned A) → Consumer A → List A → Prop where
  | on {l : List A} {c' : Consumer A} (left : Consumer.left c' < Consumer.left c) :
      Consumed c l none c' l
  | empty : Consumed c [] (some .empty) .idle []
  | popped {x : A} {l : List A} : Consumed c (x :: l) (some (.popped (some x))) .idle l

/-! ### One thread at each end -/

theorem Stored.holds {rs : List (Option (Returned A))} {s : Spsc A}
    (h : Stored cap rs s (l.map some)) : s.ring.Holds cap l := by
  have hspans := h.spans
  rw [List.length_map] at hspans
  refine hspans.holds fun i x hi => h.slot i (some x) ?_
  rw [List.getElem?_map, hi]
  rfl

/-- A ring and two of its threads, with some history. -/
theorem exists_stored {p : Producer A} {c : Consumer A} (h : rb.Holds cap l)
    (hp : Producer.Ok cap rb l.length p) (hc : Consumer.Ok rb (l.map some) c) :
    ∃ rs, Stored cap rs ⟨rb, p, c⟩ (l.map some) := by
  refine ⟨l.map fun x => some (.pushed (some x)), ?_, ?_, ?_, ?_, hc⟩
  · simp [accepted, popped, List.filterMap_map]
  · rw [List.length_map]
    exact h.spans
  · intro i v hi
    rw [List.getElem?_map, Option.map_eq_some_iff] at hi
    obtain ⟨x, hx, rfl⟩ := hi
    exact h.getElem i x hx
  · rw [List.length_map]
    exact hp

/-- What a step adds to the ring and takes from it. -/
theorem Stored.passes {rs : List (Option (Returned A))} {r : Option (Returned A)} {s s' : Spsc A}
    {l l' : List (Option A)} (h : Stored cap rs s l) (h' : Stored cap (rs ++ [r]) s' l') :
    l ++ Spsc.accepted [r] = Spsc.popped [r] ++ l' := by
  have heq := h'.accepted
  rw [accepted_append, popped_append, h.accepted, List.append_assoc, List.append_assoc] at heq
  exact List.append_cancel_left heq

/-- A push does not look at where the consumer is. -/
theorem stepProducer_consumer (p : Producer A) (c : Consumer A) (arg : Option A) :
    stepProducer ⟨rb, p, c⟩ arg =
      (stepProducer ⟨rb, p, .idle⟩ arg).map fun r => (r.1, { r.2 with consumer := c }) := by
  cases p with
  | idle => rfl
  | loadedHead data head =>
      simp only [stepProducer]
      split <;> rfl
  | storing data head next =>
      simp only [stepProducer]
      split <;> rfl
  | publishing data next => rfl

/-- A pop does not look at where the producer is. -/
theorem stepConsumer_producer (p : Producer A) (c : Consumer A) :
    stepConsumer ⟨rb, p, c⟩ =
      (stepConsumer ⟨rb, .idle, c⟩).map fun r => (r.1, { r.2 with producer := p }) := by
  cases c with
  | idle => rfl
  | loadedTail tail =>
      simp only [stepConsumer]
      split <;> rfl
  | reading tail =>
      simp only [stepConsumer]
      split <;> rfl
  | releasing tail data => rfl

/-- What a step of a push of `x` does, whatever the memory. -/
theorem stepProducer_kind {p : Producer A} {x : A} {r : Option (Returned A)} {s' : Spsc A}
    (hp : Producer.Carries (some x) p)
    (h : stepProducer ⟨rb, p, .idle⟩ (some x) = some (r, s')) :
    s'.consumer = .idle ∧
      (r = none ∧ Producer.Carries (some x) s'.producer ∧
          Producer.left s'.producer < Producer.left p ∨
        r = some .full ∧ s'.producer = .idle ∨
        r = some (.pushed (some x)) ∧ s'.producer = .idle) := by
  cases p with
  | idle =>
      obtain ⟨rfl, rfl⟩ := Prod.mk.inj (Option.some.inj h)
      exact ⟨rfl, .inl ⟨rfl, rfl, Nat.lt_succ_self 3⟩⟩
  | loadedHead data head =>
      simp only [stepProducer] at h
      split at h
      · obtain ⟨rfl, rfl⟩ := Prod.mk.inj (Option.some.inj h)
        exact ⟨rfl, .inr (.inl ⟨rfl, rfl⟩)⟩
      · obtain ⟨rfl, rfl⟩ := Prod.mk.inj (Option.some.inj h)
        exact ⟨rfl, .inl ⟨rfl, hp, Nat.lt_succ_self 2⟩⟩
  | storing data head next =>
      simp only [stepProducer] at h
      split at h
      · obtain ⟨rfl, rfl⟩ := Prod.mk.inj (Option.some.inj h)
        exact ⟨rfl, .inl ⟨rfl, hp, Nat.lt_succ_self 1⟩⟩
      · cases h
  | publishing data next =>
      obtain ⟨rfl, rfl⟩ := Prod.mk.inj (Option.some.inj h)
      obtain rfl : data = some x := hp
      exact ⟨rfl, .inr (.inr ⟨rfl, rfl⟩)⟩

/-- What a step of a pop does, whatever the memory. -/
theorem stepConsumer_kind {c : Consumer A} {r : Option (Returned A)} {s' : Spsc A}
    (h : stepConsumer ⟨rb, .idle, c⟩ = some (r, s')) :
    s'.producer = .idle ∧
      (r = none ∧ Consumer.left s'.consumer < Consumer.left c ∨
        r = some .empty ∧ s'.consumer = .idle ∨
        ∃ data, r = some (.popped data) ∧ s'.consumer = .idle) := by
  cases c with
  | idle =>
      obtain ⟨rfl, rfl⟩ := Prod.mk.inj (Option.some.inj h)
      exact ⟨rfl, .inl ⟨rfl, Nat.lt_succ_self 3⟩⟩
  | loadedTail tail =>
      simp only [stepConsumer] at h
      split at h
      · obtain ⟨rfl, rfl⟩ := Prod.mk.inj (Option.some.inj h)
        exact ⟨rfl, .inr (.inl ⟨rfl, rfl⟩)⟩
      · obtain ⟨rfl, rfl⟩ := Prod.mk.inj (Option.some.inj h)
        exact ⟨rfl, .inl ⟨rfl, Nat.lt_succ_self 2⟩⟩
  | reading tail =>
      simp only [stepConsumer] at h
      split at h
      · cases h
      · obtain ⟨rfl, rfl⟩ := Prod.mk.inj (Option.some.inj h)
        exact ⟨rfl, .inl ⟨rfl, Nat.lt_succ_self 1⟩⟩
  | releasing tail data =>
      obtain ⟨rfl, rfl⟩ := Prod.mk.inj (Option.some.inj h)
      exact ⟨rfl, .inr (.inr ⟨data, rfl, rfl⟩)⟩

/-! ### Several threads, one at a time -/

section Steps

variable {ps : I → Producer A} {cs : J → Consumer A}

/-- A ring that no thread is using. -/
theorem shared_of_holds (h : rb.Holds cap l) :
    Shared cap rb (fun _ : I => .idle) (fun _ : J => .idle) l where
  holds := h
  producer := fun _ => trivial
  consumer := fun _ => trivial
  one_producer := fun _ _ _ => .inl rfl
  one_consumer := fun _ _ _ => .inl rfl

/-- Where all but one of the threads are idle. -/
theorem update_idle {K : Type} {I : Type} [DecidableEq I] {f : I → K} {i : I} {a idle : K}
    (h : ∀ i', i' ≠ i → f i' = idle) (i₁ i₂ : I) (hne : i₁ ≠ i₂) :
    Function.update f i a i₁ = idle ∨ Function.update f i a i₂ = idle := by
  by_cases h₁ : i₁ = i
  · have h₂ : i₂ ≠ i := fun e => hne (h₁.trans e.symm)
    rw [Function.update_of_ne h₂]
    exact .inr (h i₂ h₂)
  · rw [Function.update_of_ne h₁]
    exact .inl (h i₁ h₁)

/-- **A step of a push**, while no other producer is in a call. -/
theorem Shared.produce [DecidableEq I] (h : Shared cap rb ps cs l) {i : I} {x : A}
    (halone : ∀ i', i' ≠ i → ps i' = .idle) (hx : Producer.Carries (some x) (ps i)) :
    ∃ r rb' p l', stepProducer ⟨rb, ps i, .idle⟩ (some x) = some (r, ⟨rb', p, .idle⟩) ∧
      Shared cap rb' (Function.update ps i p) cs l' ∧ Produced cap x (ps i) l r p l' := by
  obtain ⟨rs, hs⟩ := exists_stored (c := .idle) h.holds (h.producer i) trivial
  obtain ⟨r, ⟨rb', p, c⟩, lr, hstep, h', htells⟩ := hs.stepProducer (some x)
  have hpass := hs.passes h'
  obtain ⟨hc, hkind⟩ := stepProducer_kind hx hstep
  obtain rfl : c = .idle := hc
  -- the consumers see the same memory after the step
  have hconsumer : ∀ j, Consumer.Ok rb' lr (cs j) := by
    intro j
    obtain ⟨rs', hj⟩ := exists_stored h.holds (h.producer i) (h.consumer j)
    obtain ⟨r', s', lr', hstep', hj', -⟩ := hj.stepProducer (some x)
    rw [stepProducer_consumer, hstep] at hstep'
    obtain ⟨rfl, rfl⟩ := Prod.mk.inj (Option.some.inj hstep')
    have hlr : lr' = lr := List.append_cancel_left ((hj.passes hj').symm.trans hpass)
    rw [← hlr]
    exact hj'.consumer
  have hshared : ∀ l', lr = l'.map some → Shared cap rb' (Function.update ps i p) cs l' := by
    rintro l' rfl
    have hp := h'.producer
    rw [List.length_map] at hp
    refine ⟨h'.holds, ?_, hconsumer, update_idle halone, h.one_consumer⟩
    intro i'
    by_cases hi : i' = i
    · rw [hi, Function.update_self]
      exact hp
    · rw [Function.update_of_ne hi, halone i' hi]
      trivial
  rcases hkind with ⟨rfl, hcarries, hleft⟩ | ⟨rfl, hidle⟩ | ⟨rfl, hidle⟩
  · refine ⟨none, rb', p, l, hstep, hshared l ?_, .on hcarries hleft⟩
    simpa [Spsc.accepted, Spsc.popped] using hpass.symm
  · obtain rfl : p = .idle := hidle
    refine ⟨_, rb', .idle, l, hstep, hshared l ?_, .full ?_⟩
    · simpa [Spsc.accepted, Spsc.popped] using hpass.symm
    · rw [← List.length_map (f := some)]
      exact htells.1
  · obtain rfl : p = .idle := hidle
    refine ⟨_, rb', .idle, l ++ [x], hstep, hshared _ ?_, .pushed⟩
    simpa [Spsc.accepted, Spsc.popped] using hpass.symm

/-- **A step of a pop**, while no other consumer is in a call. -/
theorem Shared.consume [DecidableEq J] (h : Shared cap rb ps cs l) {j : J}
    (halone : ∀ j', j' ≠ j → cs j' = .idle) :
    ∃ r rb' c l', stepConsumer ⟨rb, .idle, cs j⟩ = some (r, ⟨rb', .idle, c⟩) ∧
      Shared cap rb' ps (Function.update cs j c) l' ∧ Consumed (cs j) l r c l' := by
  obtain ⟨rs, hs⟩ := exists_stored (p := .idle) h.holds trivial (h.consumer j)
  obtain ⟨r, ⟨rb', p, c⟩, lr, hstep, h', htells⟩ := hs.stepConsumer
  have hpass := hs.passes h'
  obtain ⟨hp, hkind⟩ := stepConsumer_kind hstep
  obtain rfl : p = .idle := hp
  -- the producers see the same memory after the step
  have hproducer : ∀ i, Producer.Ok cap rb' lr.length (ps i) := by
    intro i
    obtain ⟨rs', hi⟩ := exists_stored h.holds (h.producer i) (h.consumer j)
    obtain ⟨r', s', lr', hstep', hi', -⟩ := hi.stepConsumer
    rw [stepConsumer_producer, hstep] at hstep'
    obtain ⟨rfl, rfl⟩ := Prod.mk.inj (Option.some.inj hstep')
    have hlr : lr' = lr := List.append_cancel_left ((hi.passes hi').symm.trans hpass)
    rw [← hlr]
    exact hi'.producer
  have hshared : ∀ l', lr = l'.map some → Shared cap rb' ps (Function.update cs j c) l' := by
    rintro l' rfl
    rw [List.length_map] at hproducer
    refine ⟨h'.holds, hproducer, ?_, h.one_producer, update_idle halone⟩
    intro j'
    by_cases hj : j' = j
    · rw [hj, Function.update_self]
      exact h'.consumer
    · rw [Function.update_of_ne hj, halone j' hj]
      trivial
  rcases hkind with ⟨rfl, hleft⟩ | ⟨rfl, hidle⟩ | ⟨data, rfl, hidle⟩
  · refine ⟨none, rb', c, l, hstep, hshared l ?_, .on hleft⟩
    simpa [Spsc.accepted, Spsc.popped] using hpass.symm
  · obtain rfl : c = .idle := hidle
    obtain rfl : l = [] := by simpa using htells.1
    refine ⟨_, rb', .idle, [], hstep, hshared [] ?_, .empty⟩
    simpa [Spsc.accepted, Spsc.popped] using hpass.symm
  · obtain rfl : c = .idle := hidle
    cases l with
    | nil => cases htells
    | cons x l =>
        obtain rfl : some x = data := Option.some.inj htells
        refine ⟨_, rb', .idle, l, hstep, hshared l ?_, .popped⟩
        simpa [Spsc.accepted, Spsc.popped] using hpass.symm

end Steps

end Spsc

end Aspira
