import Aspira.Support.Text

/-!
# Support — Decimal

How long printed numbers are, and that they can be told apart.  `%d` and `%lu` are injective because
what they print is read back; `%.nf` is on the decimals with `n` fractional digits, of which it
prints every digit (`showFixed_injective`).

`split_first` and `split_last` cut a text at the first and at the last separator.
-/

namespace Aspira

/-! ### Separators -/

section Separators

variable {α : Type*} {sep : α} {a a' b b' : List α}

theorem split_first (ha : sep ∉ a) (ha' : sep ∉ a') (h : a ++ sep :: b = a' ++ sep :: b') :
    a = a' ∧ b = b' := by
  induction a generalizing a' with
  | nil =>
      cases a' with
      | nil => exact ⟨rfl, (List.cons.inj h).2⟩
      | cons c a' => exact absurd (List.cons.inj h).1 fun hc => ha' (hc ▸ List.mem_cons_self ..)
  | cons c a ih =>
      cases a' with
      | nil => exact absurd (List.cons.inj h).1 fun hc => ha (hc ▸ List.mem_cons_self ..)
      | cons c' a' =>
          obtain ⟨rfl, htail⟩ := List.cons.inj h
          obtain ⟨rfl, hb⟩ := ih (fun hm => ha (List.mem_cons_of_mem _ hm))
            (fun hm => ha' (List.mem_cons_of_mem _ hm)) htail
          exact ⟨rfl, hb⟩

theorem split_last (hb : sep ∉ b) (hb' : sep ∉ b') (h : a ++ sep :: b = a' ++ sep :: b') :
    a = a' ∧ b = b' := by
  have hrev := congrArg List.reverse h
  simp only [List.reverse_append, List.reverse_cons, List.append_assoc,
    List.singleton_append] at hrev
  obtain ⟨h₁, h₂⟩ := split_first (by rwa [List.mem_reverse]) (by rwa [List.mem_reverse]) hrev
  exact ⟨List.reverse_injective h₂, List.reverse_injective h₁⟩

end Separators

/-! ### Integers -/

theorem decimal_injective : Function.Injective decimal :=
  Function.LeftInverse.injective readDecimal_decimal

theorem showInt_injective : Function.Injective showInt :=
  Function.LeftInverse.injective readInt_showInt

theorem decimal_ne_nil (n : ℕ) : decimal n ≠ [] := by
  intro h
  have hlen : 0 < (Nat.toDigits 10 n).length := Nat.length_toDigits_pos
  obtain ⟨c, hc⟩ := List.exists_mem_of_length_pos hlen
  obtain ⟨he, -⟩ := utf8EncodeChar_of_isDigit
    (Nat.isDigit_of_mem_toDigits (by decide) (by decide) hc)
  have hmem : UInt8.ofNat c.toNat ∈ decimal n := List.mem_flatMap.mpr ⟨c, hc, by simp [he]⟩
  rw [h] at hmem
  exact absurd hmem List.not_mem_nil

theorem decimal_length (n : ℕ) : (decimal n).length = (Nat.toDigits 10 n).length := by
  have hmap := congrArg List.length (map_digits (l := Nat.toDigits 10 n) fun c hc =>
    Nat.isDigit_of_mem_toDigits (by decide) (by decide) hc)
  rwa [List.length_map] at hmap

theorem decimal_length_le {n k : ℕ} (hk : 0 < k) (h : n < 10 ^ k) : (decimal n).length ≤ k := by
  rw [decimal_length]
  exact (Nat.length_toDigits_le_iff (by decide) hk).mpr h

theorem showInt_length_le {z : ℤ} {k : ℕ} (hk : 0 < k) (h : z.natAbs < 10 ^ k) :
    (showInt z).length ≤ k + 1 := by
  have hle := decimal_length_le hk h
  unfold showInt
  split
  · rw [List.length_append, show (text "-").length = 1 from rfl]
    omega
  · omega

/-! ### Fixed point -/

/-- A decimal with at most `n` fractional digits. -/
def ExactDecimal (n : ℕ) (x : ℚ) : Prop := ∃ k : ℤ, x * 10 ^ n = k

/-- A number of units of the last of `n` fractional digits. -/
def showUnits (n units : ℕ) : List UInt8 :=
  decimal (units / 10 ^ n) ++ text "." ++
    List.replicate (n - (decimal (units % 10 ^ n)).length) 48 ++ decimal (units % 10 ^ n)

/-- No digit is lost in printing an exact decimal. -/
theorem showFixed_of_exact {n : ℕ} {x : ℚ} {k : ℤ} (h : x * 10 ^ n = k) :
    showFixed n x = (if x < 0 then text "-" else []) ++ showUnits n k.natAbs := by
  have hscaled : |x| * 10 ^ n = (k.natAbs : ℤ) := by
    rw [Int.natCast_natAbs, Int.cast_abs, ← h, abs_mul, abs_pow]
    norm_num
  have hfloor : ⌊|x| * 10 ^ n⌋.natAbs = k.natAbs := by
    rw [hscaled, Int.floor_intCast, Int.natAbs_natCast]
  have hhalf : |x| * 10 ^ n - (k.natAbs : ℚ) = 0 := by
    rw [hscaled]
    simp
  simp only [showFixed, hfloor, hhalf]
  simp [showUnits]

theorem readDecimal_zeros (k : ℕ) (s : List UInt8) :
    readDecimal (List.replicate k 48 ++ s) = readDecimal s := by
  have hzero : Char.ofNat (48 : UInt8).toNat = '0' := rfl
  rw [readDecimal, readDecimal, List.map_append, List.map_replicate, hzero, Nat.ofDigitChars_append,
    Nat.ofDigitChars_replicate_zero, Nat.mul_zero]

theorem showUnits_injective (n : ℕ) : Function.Injective (showUnits n) := by
  intro u v h
  have hpoint : ∀ m, (46 : UInt8) ∉ decimal m := fun m hm => absurd (mem_decimal hm).1 (by decide)
  have hcons : ∀ u, showUnits n u = decimal (u / 10 ^ n) ++ 46 ::
      (List.replicate (n - (decimal (u % 10 ^ n)).length) 48 ++ decimal (u % 10 ^ n)) := fun u => by
    simp only [showUnits, show text "." = [46] from rfl, List.append_assoc, List.cons_append,
      List.nil_append]
  have hfrac : ∀ m, (46 : UInt8) ∉ List.replicate (n - (decimal m).length) 48 ++ decimal m := by
    intro m hm
    rcases List.mem_append.mp hm with hm | hm
    · exact absurd (List.eq_of_mem_replicate hm) (by decide)
    · exact hpoint m hm
  rw [hcons, hcons] at h
  obtain ⟨hint, -, hrest⟩ := (List.append_cons_inj_of_notMem (hpoint _) (hfrac _)).mp h
  have hdiv : u / 10 ^ n = v / 10 ^ n := decimal_injective hint
  have hmod : u % 10 ^ n = v % 10 ^ n := by
    have hread := congrArg readDecimal hrest
    rwa [readDecimal_zeros, readDecimal_zeros, readDecimal_decimal, readDecimal_decimal] at hread
  rw [← Nat.div_add_mod u (10 ^ n), ← Nat.div_add_mod v (10 ^ n), hdiv, hmod]

/-- **What `%.nf` prints of an exact decimal is the decimal.** -/
theorem showFixed_injective {n : ℕ} {x y : ℚ} (hx : ExactDecimal n x) (hy : ExactDecimal n y)
    (h : showFixed n x = showFixed n y) : x = y := by
  obtain ⟨k, hk⟩ := hx
  obtain ⟨l, hl⟩ := hy
  have hpow : (0 : ℚ) < 10 ^ n := by positivity
  -- a sign is not a digit
  have hsign : ∀ u v, text "-" ++ showUnits n u ≠ showUnits n v := by
    intro u v huv
    cases hd : decimal (v / 10 ^ n) with
    | nil => exact decimal_ne_nil _ hd
    | cons c cs =>
        have hc : 48 ≤ c.toNat := (mem_decimal (hd ▸ List.mem_cons_self ..)).1
        rw [showUnits, showUnits, hd] at huv
        have hhead : (45 : UInt8) = c := (List.cons.inj huv).1
        rw [← hhead] at hc
        exact absurd hc (by decide)
  have hneg : ∀ {z : ℚ} {j : ℤ}, z * 10 ^ n = j → (z < 0 ↔ j < 0) := by
    intro z j hj
    rw [← Int.cast_lt_zero (R := ℚ), ← hj, mul_neg_iff]
    exact ⟨fun hz => .inr ⟨hz, hpow⟩, fun hz => hz.elim (fun hz => absurd hz.2 hpow.not_gt) And.left⟩
  rw [showFixed_of_exact hk, showFixed_of_exact hl] at h
  have hkl : k = l := by
    by_cases hx₀ : x < 0 <;> by_cases hy₀ : y < 0
    · rw [if_pos hx₀, if_pos hy₀] at h
      have habs := showUnits_injective n (List.append_cancel_left h)
      have hk₀ := (hneg hk).mp hx₀
      have hl₀ := (hneg hl).mp hy₀
      omega
    · rw [if_pos hx₀, if_neg hy₀, List.nil_append] at h
      exact absurd h (hsign _ _)
    · rw [if_neg hx₀, if_pos hy₀, List.nil_append] at h
      exact absurd h.symm (hsign _ _)
    · rw [if_neg hx₀, if_neg hy₀, List.nil_append, List.nil_append] at h
      have habs := showUnits_injective n h
      have hk₀ := mt (hneg hk).mpr hx₀
      have hl₀ := mt (hneg hl).mpr hy₀
      omega
  rw [hkl, ← hl] at hk
  exact mul_right_cancel₀ hpow.ne' hk

theorem mem_showUnits {n u : ℕ} {c : UInt8} (h : c ∈ showUnits n u) :
    46 ≤ c.toNat ∧ c.toNat ≤ 57 := by
  simp only [showUnits, show text "." = [46] from rfl, List.mem_append, List.mem_singleton] at h
  rcases h with ((h | rfl) | h) | h
  · have := mem_decimal h
    omega
  · decide
  · rw [List.eq_of_mem_replicate h]
    decide
  · have := mem_decimal h
    omega

theorem showUnits_length_le {n u k : ℕ} (hn : 0 < n) (hk : 0 < k) (h : u < 10 ^ (k + n)) :
    (showUnits n u).length ≤ k + 1 + n := by
  have hint : (decimal (u / 10 ^ n)).length ≤ k := by
    refine decimal_length_le hk ?_
    rw [Nat.div_lt_iff_lt_mul (by positivity), ← pow_add]
    exact h
  have hfrac : (decimal (u % 10 ^ n)).length ≤ n :=
    decimal_length_le hn (Nat.mod_lt _ (by positivity))
  simp only [showUnits, show text "." = [46] from rfl, List.length_append, List.length_replicate,
    List.length_cons, List.length_nil]
  omega

end Aspira
