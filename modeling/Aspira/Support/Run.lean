import Mathlib

/-!
# Support — Run

Runs of a machine whose step may be undefined.  `step s e` is the result of the event `e` in the
state `s` and the state after it, or `none` where the step has no meaning.

* `exec`: the results of a run and the state after it.
* `Along C`: the events of a run meet `C`, each in the state it finds.
* `Always Q`: every step of a run is defined and does what `Q` says.
* `trace f`: what `f` reads of each step of a run.
* `Fails C`: a run whose events meet `C` can come to a step that is not defined.

`exec_of_step`, `exec_history` and `always_of_step` are the rules by which an invariant of one step
is one of whole runs; they also say that the run is defined, and `exec_invariant` is the rule where this
is known; `exec_trace` does the same for what is read of a run.  `always_iff_along` and
`along_iff_along` do so for a condition that is exact.
-/

namespace Aspira.Run

variable {S E R : Type*} (step : S → E → Option (R × S))

/-- The results of a run, in order, and the state after it. -/
def exec : S → List E → Option (List R × S)
  | s, [] => some ([], s)
  | s, e :: es => do
      let r ← step s e
      let t ← exec r.2 es
      return (r.1 :: t.1, t.2)

/-- A condition on the events of a run, each in the state it finds. -/
def Along (C : S → E → Prop) : S → List E → Prop
  | _, [] => True
  | s, e :: es => C s e ∧
      match step s e with
      | none => True
      | some r => Along C r.2 es

/-- Every step of a run is defined, and `Q` holds of it. -/
def Always (Q : S → E → R → S → Prop) : S → List E → Prop
  | _, [] => True
  | s, e :: es =>
      match step s e with
      | none => False
      | some r => Q s e r.1 r.2 ∧ Always Q r.2 es

/-- What `f` reads of the steps of a run, each in the state it finds. -/
def trace {A : Type*} (f : S → E → List A) : S → List E → List A
  | _, [] => []
  | s, e :: es => f s e ++
      match step s e with
      | none => []
      | some r => trace f r.2 es

instance {C : S → E → Prop} [∀ s e, Decidable (C s e)] : ∀ s es, Decidable (Along step C s es)
  | _, [] => inferInstanceAs (Decidable True)
  | s, e :: es =>
      have : Decidable (match step s e with
          | none => True
          | some r => Along step C r.2 es) :=
        match step s e with
        | none => inferInstanceAs (Decidable True)
        | some r => instDecidableAlong r.2 es
      inferInstanceAs (Decidable (_ ∧ _))

instance {Q : S → E → R → S → Prop} [∀ s e r s', Decidable (Q s e r s')] :
    ∀ s es, Decidable (Always step Q s es)
  | _, [] => inferInstanceAs (Decidable True)
  | s, e :: es =>
      have : Decidable (match step s e with
          | none => False
          | some r => Q s e r.1 r.2 ∧ Always step Q r.2 es) :=
        match step s e with
        | none => inferInstanceAs (Decidable False)
        | some r =>
            have : Decidable (Always step Q r.2 es) := instDecidableAlways r.2 es
            inferInstanceAs (Decidable (Q s e r.1 r.2 ∧ Always step Q r.2 es))
      this

variable {step} {I : S → Prop} {C C' : S → E → Prop} {Q : S → E → R → S → Prop}

theorem Along.tail {s s' : S} {e : E} {es : List E} {r : R} (h : Along step C s (e :: es))
    (hs : step s e = some (r, s')) : Along step C s' es := by
  have h' := h.2
  rw [hs] at h'
  exact h'

/-- Two conditions on one run. -/
theorem Along.and {s : S} {es : List E} (h : Along step C s es) (h' : Along step C' s es) :
    Along step (fun s e => C s e ∧ C' s e) s es := by
  induction es generalizing s with
  | nil => trivial
  | cons e es ih =>
      refine ⟨⟨h.1, h'.1⟩, ?_⟩
      cases hs : step s e with
      | none => trivial
      | some r => exact ih (h.tail hs) (h'.tail hs)

/-- A run goes on from where its first part ends. -/
theorem exec_append {s s₁ s₂ : S} {es es' : List E} {rs rs' : List R}
    (h : exec step s es = some (rs, s₁)) (h' : exec step s₁ es' = some (rs', s₂)) :
    exec step s (es ++ es') = some (rs ++ rs', s₂) := by
  induction es generalizing s rs with
  | nil =>
      obtain ⟨rfl, rfl⟩ := Prod.mk.inj (Option.some.inj h)
      exact h'
  | cons e es ih =>
      simp only [exec, Option.bind_eq_bind, Option.bind_eq_some_iff, List.cons_append] at h ⊢
      obtain ⟨r, hr, t, ht, heq⟩ := h
      obtain ⟨rfl, rfl⟩ := Prod.mk.inj (Option.some.inj heq)
      exact ⟨r, hr, _, ih ht, rfl⟩

theorem exec_cons {s s₁ s₂ : S} {e : E} {es : List E} {r : R} {rs : List R}
    (h : step s e = some (r, s₁)) (h' : exec step s₁ es = some (rs, s₂)) :
    exec step s (e :: es) = some (r :: rs, s₂) := by
  simp only [exec, h, Option.bind_eq_bind, Option.bind_some, h']
  rfl

/-- The first step of a run that is defined. -/
theorem exec_cons_some {s s₂ : S} {e : E} {es : List E} {rs : List R}
    (h : exec step s (e :: es) = some (rs, s₂)) :
    ∃ r s₁ rs', step s e = some (r, s₁) ∧ exec step s₁ es = some (rs', s₂) ∧ rs = r :: rs' := by
  simp only [exec, Option.bind_eq_bind, Option.bind_eq_some_iff] at h
  obtain ⟨⟨r, s₁⟩, hr, ⟨rs', s'⟩, ht, heq⟩ := h
  obtain ⟨rfl, rfl⟩ := Prod.mk.inj (Option.some.inj heq)
  exact ⟨r, s₁, rs', hr, ht, rfl⟩

/-- What holds of every step holds of the last one. -/
theorem Always.last {Q : S → E → R → S → Prop} {s s' : S} {es : List E} {rs : List R}
    (h : Always step Q s es) (hne : es ≠ []) (hexec : exec step s es = some (rs, s')) :
    ∃ s₀ e r, Q s₀ e r s' := by
  induction es generalizing s rs with
  | nil => exact absurd rfl hne
  | cons e es ih =>
      obtain ⟨r, s₁, rs', hr, ht, -⟩ := exec_cons_some hexec
      simp only [Always, hr] at h
      cases es with
      | nil =>
          obtain ⟨-, hs⟩ := Prod.mk.inj (Option.some.inj ht)
          rw [← hs]
          exact ⟨s, e, r, h.1⟩
      | cons e' es => exact ih h.2 (List.cons_ne_nil _ _) ht

/-- What holds of every step of a run holds of the steps of its second part. -/
theorem Always.of_append {Q : S → E → R → S → Prop} {s s' : S} {es es' : List E} {rs : List R}
    (h : Always step Q s (es ++ es')) (hexec : exec step s es = some (rs, s')) :
    Always step Q s' es' := by
  induction es generalizing s rs with
  | nil =>
      obtain ⟨-, rfl⟩ := Prod.mk.inj (Option.some.inj hexec)
      exact h
  | cons e es ih =>
      obtain ⟨r, s₁, rs', hr, ht, -⟩ := exec_cons_some hexec
      simp only [List.cons_append, Always, hr] at h
      exact ih h.2 ht

/-- A condition on the events only. -/
theorem along_of_forall {C : E → Prop} {es : List E} (h : ∀ e ∈ es, C e) (s : S) :
    Along step (fun _ => C) s es := by
  induction es generalizing s with
  | nil => trivial
  | cons e es ih =>
      refine ⟨h e (List.mem_cons_self ..), ?_⟩
      split
      · trivial
      · exact ih (fun e' he' => h e' (List.mem_cons_of_mem e he')) _

/-- A condition on a run that goes on. -/
theorem along_append {s s' : S} {es es' : List E} {rs : List R} (h : Along step C s es)
    (hexec : exec step s es = some (rs, s')) (h' : Along step C s' es') :
    Along step C s (es ++ es') := by
  induction es generalizing s rs with
  | nil =>
      obtain ⟨-, rfl⟩ := Prod.mk.inj (Option.some.inj hexec)
      exact h'
  | cons e es ih =>
      obtain ⟨r, s₁, rs', hr, ht, -⟩ := exec_cons_some hexec
      refine ⟨h.1, ?_⟩
      rw [hr]
      exact ih (h.tail hr) ht

/-- **Invariants of runs.** -/
theorem exec_of_step
    (h : ∀ s e, I s → C s e → ∃ r s', step s e = some (r, s') ∧ I s') {s : S} {es : List E}
    (hs : I s) (hC : Along step C s es) : ∃ rs s', exec step s es = some (rs, s') ∧ I s' := by
  induction es generalizing s with
  | nil => exact ⟨[], s, rfl, hs⟩
  | cons e es ih =>
      obtain ⟨r, s₁, h₁, hi⟩ := h s e hs hC.1
      obtain ⟨rs, s', h', hI⟩ := ih hi (hC.tail h₁)
      exact ⟨r :: rs, s', by simp [exec, h₁, h'], hI⟩

/-- **Invariants of a run that is defined**, kept by each of its events. -/
theorem exec_invariant {s s' : S} {es : List E} {rs : List R}
    (h : ∀ s e r s', e ∈ es → I s → step s e = some (r, s') → I s') (hs : I s)
    (hexec : exec step s es = some (rs, s')) : I s' := by
  induction es generalizing s rs with
  | nil =>
      obtain ⟨-, rfl⟩ := Prod.mk.inj (Option.some.inj hexec)
      exact hs
  | cons e es ih =>
      obtain ⟨r, s₁, rs', hr, ht, -⟩ := exec_cons_some hexec
      have h₁ := h s e r s₁ (List.mem_cons_self ..) hs hr
      exact ih (fun s e r s' he => h s e r s' (List.mem_cons_of_mem _ he)) h₁ ht

/-- **Invariants of the results of a run** and the state after it. -/
theorem exec_history {H : List R → S → Prop}
    (h : ∀ rs s e, H rs s → ∃ r s', step s e = some (r, s') ∧ H (rs ++ [r]) s') (es : List E) :
    ∀ {rs : List R} {s : S}, H rs s → ∃ rs' s', exec step s es = some (rs', s') ∧
      H (rs ++ rs') s' := by
  induction es with
  | nil =>
      intro rs s hs
      refine ⟨[], s, rfl, ?_⟩
      rw [List.append_nil]
      exact hs
  | cons e es ih =>
      intro rs s hs
      obtain ⟨r, s₁, h₁, hs₁⟩ := h rs s e hs
      obtain ⟨rs', s', h', hs'⟩ := ih hs₁
      refine ⟨r :: rs', s', exec_cons h₁ h', ?_⟩
      rw [List.append_assoc] at hs'
      exact hs'

/-- The trace of a run that goes on. -/
theorem trace_append {A : Type*} {f : S → E → List A} {s s' : S} {es es' : List E} {rs : List R}
    (h : exec step s es = some (rs, s')) :
    trace step f s (es ++ es') = trace step f s es ++ trace step f s' es' := by
  induction es generalizing s rs with
  | nil =>
      obtain ⟨-, rfl⟩ := Prod.mk.inj (Option.some.inj h)
      rfl
  | cons e es ih =>
      obtain ⟨r, s₁, rs', hr, ht, -⟩ := exec_cons_some h
      simp only [List.cons_append, trace, hr, ih ht, List.append_assoc]

/-- **Invariants of what is read of a run** and the state after it. -/
theorem exec_trace {A : Type*} {f : S → E → List A} {H : List A → S → Prop}
    (h : ∀ as s e, H as s → ∃ r s', step s e = some (r, s') ∧ H (as ++ f s e) s') (es : List E) :
    ∀ {as : List A} {s : S}, H as s → ∃ rs s', exec step s es = some (rs, s') ∧
      H (as ++ trace step f s es) s' := by
  induction es with
  | nil =>
      intro as s hs
      refine ⟨[], s, rfl, ?_⟩
      rw [trace, List.append_nil]
      exact hs
  | cons e es ih =>
      intro as s hs
      obtain ⟨r, s₁, h₁, hs₁⟩ := h as s e hs
      obtain ⟨rs, s', h', hs'⟩ := ih hs₁
      refine ⟨r :: rs, s', exec_cons h₁ h', ?_⟩
      simp only [trace, h₁]
      rw [List.append_assoc] at hs'
      exact hs'

/-- **Runs that break the condition**: if a step that breaks it leads to `J`, and `J` is kept
whatever happens, then `J` holds in the end. -/
theorem exec_of_not_along {J : S → Prop}
    (h : ∀ s e, I s → C s e → ∃ r s', step s e = some (r, s') ∧ I s')
    (hbad : ∀ s e, I s → ¬ C s e → ∃ r s', step s e = some (r, s') ∧ J s')
    (hJ : ∀ s e, J s → ∃ r s', step s e = some (r, s') ∧ J s') {s : S} {es : List E}
    (hs : I s) (hC : ¬ Along step C s es) : ∃ rs s', exec step s es = some (rs, s') ∧ J s' := by
  induction es generalizing s with
  | nil => exact absurd trivial hC
  | cons e es ih =>
      by_cases he : C s e
      · obtain ⟨r, s₁, h₁, hi⟩ := h s e hs he
        have hrest : ¬ Along step C s₁ es := by
          intro hall
          refine hC ⟨he, ?_⟩
          rw [h₁]
          exact hall
        obtain ⟨rs, s', h', hj⟩ := ih hi hrest
        exact ⟨r :: rs, s', exec_cons h₁ h', hj⟩
      · obtain ⟨r, s₁, h₁, hj₁⟩ := hbad s e hs he
        obtain ⟨rs, s', h', hj⟩ := exec_of_step (C := fun _ _ => True) (fun s e hs _ => hJ s e hs) hj₁
          (along_of_forall (fun _ _ => trivial) s₁)
        exact ⟨r :: rs, s', exec_cons h₁ h', hj⟩

/-- **What every step of a run does**, by an invariant. -/
theorem always_of_step
    (h : ∀ s e, I s → C s e → ∃ r s', step s e = some (r, s') ∧ I s' ∧ Q s e r s') {s : S}
    {es : List E} (hs : I s) (hC : Along step C s es) : Always step Q s es := by
  induction es generalizing s with
  | nil => trivial
  | cons e es ih =>
      obtain ⟨r, s₁, h₁, hi, hq⟩ := h s e hs hC.1
      have hrest := ih hi (hC.tail h₁)
      simp only [Always, h₁]
      exact ⟨hq, hrest⟩

/-- **The exact condition of a run.**  If what a step does is right exactly when it meets `C`, then the
whole run is exactly when all its steps meet `C`. -/
theorem always_iff_along
    (h : ∀ s e, I s → C s e → ∃ r s', step s e = some (r, s') ∧ I s' ∧ Q s e r s')
    (hbad : ∀ s e r s', I s → ¬ C s e → step s e = some (r, s') → ¬ Q s e r s') {s : S}
    {es : List E} (hs : I s) : Always step Q s es ↔ Along step C s es := by
  refine ⟨fun hall => ?_, always_of_step h hs⟩
  induction es generalizing s with
  | nil => trivial
  | cons e es ih =>
      by_cases he : C s e
      · obtain ⟨r, s₁, h₁, hi, -⟩ := h s e hs he
        simp only [Always, h₁] at hall
        refine ⟨he, ?_⟩
        rw [h₁]
        exact ih hi hall.2
      · cases hs' : step s e with
        | none => simp only [Always, hs'] at hall
        | some r =>
            simp only [Always, hs'] at hall
            exact absurd hall.1 (hbad s e r.1 r.2 hs he hs')

/-- Two conditions that agree, step by step, where an invariant holds. -/
theorem along_iff_along (h : ∀ s e, I s → (C' s e ↔ C s e))
    (hI : ∀ s e r s', I s → C s e → step s e = some (r, s') → I s') {s : S} {es : List E}
    (hs : I s) : Along step C' s es ↔ Along step C s es := by
  induction es generalizing s with
  | nil => exact Iff.rfl
  | cons e es ih =>
      refine and_congr_right_iff.mpr (fun hc => ?_) |>.trans (and_congr_left' (h s e hs))
      cases hs' : step s e with
      | none => exact Iff.rfl
      | some r => exact ih (hI s e r.1 r.2 hs ((h s e hs).mp hc) hs')

/-! ### Runs that fail -/

/-- A run whose events meet `C` comes to a step that is not defined. -/
def Fails (step : S → E → Option (R × S)) (C : S → E → Prop) (s : S) : Prop :=
  ∃ es, Along step C s es ∧ exec step s es = none

theorem Fails.of_none {s : S} {e : E} (hC : C s e) (h : step s e = none) : Fails step C s := by
  refine ⟨[e], ⟨hC, ?_⟩, ?_⟩
  · rw [h]
    trivial
  · simp only [exec, h]
    rfl

theorem Fails.of_step {s s' : S} {e : E} {r : R} (hC : C s e) (h : step s e = some (r, s'))
    (h' : Fails step C s') : Fails step C s := by
  obtain ⟨es, hes, hnone⟩ := h'
  refine ⟨e :: es, ⟨hC, ?_⟩, ?_⟩
  · rw [h]
    exact hes
  · simp only [exec, h, Option.bind_eq_bind, Option.bind_some, hnone]
    rfl

/-- **Where an invariant holds no run fails.** -/
theorem not_fails (h : ∀ s e, I s → C s e → ∃ r s', step s e = some (r, s') ∧ I s') {s : S}
    (hs : I s) : ¬ Fails step C s := by
  rintro ⟨es, hes, hnone⟩
  obtain ⟨rs, s', hexec, -⟩ := exec_of_step h hs hes
  rw [hnone] at hexec
  cases hexec

end Aspira.Run
