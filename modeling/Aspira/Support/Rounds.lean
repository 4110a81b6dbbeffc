import Aspira.Support.Run

/-!
# Support — Rounds

Runs that get somewhere.  `L s n` says that at most `n` more steps of `s` count; a step that is
awaited counts, and one that does not count leaves what is awaited as it is.  A run in rounds, each
of which has an event that is awaited at its start, then needs no more than `n` rounds
(`exec_rounds`), whatever the order of the events within a round.
-/

namespace Aspira.Run

variable {S E R : Type*} {step : S → E → Option (R × S)} {C A : S → E → Prop} {L : S → ℕ → Prop}

/-- What a step does to the number of steps left. -/
def Advances (step : S → E → Option (R × S)) (C A : S → E → Prop) (L : S → ℕ → Prop) : Prop :=
  ∀ s e n, L s n → C s e → ∃ r s' m, step s e = some (r, s') ∧ L s' m ∧
    (m < n ∨ m = n ∧ ¬ A s e ∧ ∀ e', A s e' → A s' e')

/-- The number of steps left does not grow. -/
theorem exec_le (h : Advances step C A L) {s : S} {es : List E} {n : ℕ} (hs : L s n)
    (hC : Along step C s es) : ∃ rs s', ∃ m ≤ n, exec step s es = some (rs, s') ∧ L s' m := by
  induction es generalizing s n with
  | nil => exact ⟨[], s, n, le_rfl, rfl, hs⟩
  | cons e es ih =>
      obtain ⟨r, s₁, m, h₁, hm, hle⟩ := h s e n hs hC.1
      obtain ⟨rs, s', k, hk, h', hs'⟩ := ih hm (hC.tail h₁)
      have hmn : m ≤ n := by
        rcases hle with hlt | ⟨heq, -⟩
        · exact hlt.le
        · exact heq.le
      exact ⟨r :: rs, s', k, hk.trans hmn, exec_cons h₁ h', hs'⟩

/-- **A round** with an event that is awaited. -/
theorem exec_round (h : Advances step C A L) {s : S} {es : List E} {n : ℕ} (hs : L s n)
    (hC : Along step C s es) (hA : ∃ e ∈ es, A s e) :
    ∃ rs s', ∃ m < n, exec step s es = some (rs, s') ∧ L s' m := by
  induction es generalizing s with
  | nil =>
      obtain ⟨e, he, -⟩ := hA
      cases he
  | cons e es ih =>
      obtain ⟨r, s₁, m, h₁, hm, hlt | ⟨rfl, hne, hkeep⟩⟩ := h s e n hs hC.1
      · obtain ⟨rs, s', k, hk, h', hs'⟩ := exec_le h hm (hC.tail h₁)
        exact ⟨r :: rs, s', k, hk.trans_lt hlt, exec_cons h₁ h', hs'⟩
      · -- the event that is awaited comes later
        obtain ⟨e', he', hA'⟩ := hA
        have hrest : ∃ e ∈ es, A s₁ e := by
          rcases List.mem_cons.mp he' with rfl | hmem
          · exact absurd hA' hne
          · exact ⟨e', hmem, hkeep e' hA'⟩
        obtain ⟨rs, s', k, hk, h', hs'⟩ := ih hm (hC.tail h₁) hrest
        exact ⟨r :: rs, s', k, hk, exec_cons h₁ h', hs'⟩

theorem Along.left {s : S} {es es' : List E} (h : Along step C s (es ++ es')) :
    Along step C s es := by
  induction es generalizing s with
  | nil => trivial
  | cons e es ih =>
      refine ⟨h.1, ?_⟩
      cases hs : step s e with
      | none => trivial
      | some r => exact ih (h.tail hs)

theorem Along.right {s s' : S} {es es' : List E} {rs : List R} (h : Along step C s (es ++ es'))
    (hexec : exec step s es = some (rs, s')) : Along step C s' es' := by
  induction es generalizing s rs with
  | nil =>
      obtain ⟨-, rfl⟩ := Prod.mk.inj (Option.some.inj hexec)
      exact h
  | cons e es ih =>
      obtain ⟨r, s₁, rs', hr, ht, -⟩ := exec_cons_some hexec
      exact ih (h.tail hr) ht

/-- **Rounds reach the goal.**  As long as the goal is not reached, a round of the kind `F` has an
event that is awaited; the goal is kept. -/
theorem exec_rounds {F : List E → Prop} {G : S → Prop} (h : Advances step C A L)
    (hfair : ∀ s n, L s n → ¬ G s → 0 < n ∧ ∀ es, F es → ∃ e ∈ es, A s e)
    (hkeep : ∀ s n e r s', L s n → G s → step s e = some (r, s') → G s') (rounds : List (List E)) :
    ∀ {s : S} {n : ℕ}, L s n → n ≤ rounds.length → (∀ es ∈ rounds, F es) →
      Along step C s rounds.flatten →
      ∃ rs s' m, exec step s rounds.flatten = some (rs, s') ∧ L s' m ∧ G s' := by
  induction rounds with
  | nil =>
      intro s n hs hn _ _
      refine ⟨[], s, n, rfl, hs, ?_⟩
      by_contra hG
      exact absurd (hfair s n hs hG).1 (by rw [Nat.le_zero.mp hn]; exact lt_irrefl 0)
  | cons es rounds ih =>
      intro s n hs hn hF hC
      by_cases hG : G s
      · have hstep : ∀ s e, (∃ n, L s n ∧ G s) → C s e →
            ∃ r s', step s e = some (r, s') ∧ ∃ n, L s' n ∧ G s' := by
          rintro s e ⟨k, hk, hg⟩ hc
          obtain ⟨r, s', m, h₁, hm, -⟩ := h s e k hk hc
          exact ⟨r, s', h₁, m, hm, hkeep s k e r s' hk hg h₁⟩
        obtain ⟨rs, s', hexec, m, hs', hg⟩ := exec_of_step hstep ⟨n, hs, hG⟩ hC
        exact ⟨rs, s', m, hexec, hs', hg⟩
      · have hround := (hfair s n hs hG).2 es (hF es (List.mem_cons_self ..))
        rw [List.flatten_cons] at hC ⊢
        obtain ⟨rs, s₁, m, hm, h₁, hs₁⟩ := exec_round h hs hC.left hround
        have hlen : m ≤ rounds.length := by
          rw [List.length_cons] at hn
          omega
        obtain ⟨rs', s', k, h', hs', hg⟩ := ih hs₁ hlen
          (fun es' he' => hF es' (List.mem_cons_of_mem es he')) (hC.right h₁)
        exact ⟨rs ++ rs', s', k, exec_append h₁ h', hs', hg⟩

end Aspira.Run
