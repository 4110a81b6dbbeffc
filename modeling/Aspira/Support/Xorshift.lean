import Mathlib

/-!
# Support — Xorshift

Generators that xor a word with its own shifts.  A shift distributes over xor and fixes only zero,
and then `x ↦ x ^^^ f x` is injective (`injective_xor`): two words with one image differ by a word
that `f` fixes.  A step of the generator is three such maps (`xorshift`).

An injective step of a finite type comes back to where it began (`exists_period`), with no tail
before the cycle.
-/

namespace Aspira.Xorshift

section Words

variable {w : ℕ}

/-- A word that is its own left shift has no bit set: bit `i` is bit `i - a`. -/
theorem eq_zero_of_shiftLeft_eq {x : BitVec w} {a : ℕ} (ha : 0 < a) (h : x <<< a = x) :
    x = 0#w := by
  have hbit : ∀ i, x.getLsbD i = false := by
    intro i
    induction i using Nat.strong_induction_on with
    | _ i ih =>
        rw [← h, BitVec.getLsbD_shiftLeft]
        by_cases hi : i < a
        · simp [hi]
        · rw [ih (i - a) (by omega), Bool.and_false]
  refine BitVec.eq_of_getLsbD_eq fun i _ => ?_
  rw [hbit i, BitVec.getLsbD_zero]

/-- A word that is its own right shift has no bit set: bit `i` is bit `a + i`, and there are `w`. -/
theorem eq_zero_of_ushiftRight_eq {x : BitVec w} {a : ℕ} (ha : 0 < a) (h : x >>> a = x) :
    x = 0#w := by
  have hbit : ∀ d i, w ≤ i + d → x.getLsbD i = false := by
    intro d
    induction d with
    | zero => exact fun i hi => BitVec.getLsbD_of_ge x i hi
    | succ d ih =>
        intro i hi
        rw [← h, BitVec.getLsbD_ushiftRight]
        exact ih (a + i) (by omega)
  refine BitVec.eq_of_getLsbD_eq fun i _ => ?_
  rw [hbit w i (Nat.le_add_left w i), BitVec.getLsbD_zero]

/-- **Xor with an additive image** is injective if the map fixes only zero. -/
theorem injective_xor {f : BitVec w → BitVec w} (hadd : ∀ x y, f (x ^^^ y) = f x ^^^ f y)
    (hfix : ∀ x, f x = x → x = 0#w) : Function.Injective fun x => x ^^^ f x := by
  intro x y h
  have hswap : f x ^^^ f y = x ^^^ y := by
    calc f x ^^^ f y = (x ^^^ (x ^^^ f x)) ^^^ f y := by rw [← BitVec.xor_assoc, BitVec.xor_self,
            BitVec.zero_xor]
      _ = (x ^^^ (y ^^^ f y)) ^^^ f y := by rw [show x ^^^ f x = y ^^^ f y from h]
      _ = x ^^^ y := by rw [BitVec.xor_assoc, BitVec.xor_assoc, BitVec.xor_self, BitVec.xor_zero]
  have hzero : x ^^^ y = 0#w := hfix _ ((hadd x y).trans hswap)
  exact BitVec.xor_eq_zero_iff.mp hzero

theorem injective_xor_shiftLeft {a : ℕ} (ha : 0 < a) :
    Function.Injective fun x : BitVec w => x ^^^ (x <<< a) :=
  injective_xor (fun x y => BitVec.shiftLeft_xor_distrib x y a) fun _ => eq_zero_of_shiftLeft_eq ha

theorem injective_xor_ushiftRight {a : ℕ} (ha : 0 < a) :
    Function.Injective fun x : BitVec w => x ^^^ (x >>> a) :=
  injective_xor (fun x y => BitVec.ushiftRight_xor_distrib x y a) fun _ =>
    eq_zero_of_ushiftRight_eq ha

end Words

/-! ### One step -/

/-- The shifts of one step, each xored into the word. -/
def xorshift (a b c x : UInt32) : UInt32 :=
  let x := x ^^^ (x <<< a)
  let x := x ^^^ (x >>> b)
  x ^^^ (x <<< c)

theorem uint32_xor_shiftLeft_injective {a : UInt32} (ha : 0 < a.toNat % 32) :
    Function.Injective fun x : UInt32 => x ^^^ (x <<< a) := by
  intro x y h
  have hbits := congrArg UInt32.toBitVec h
  simp only [UInt32.toBitVec_xor, UInt32.toBitVec_shiftLeft, BitVec.shiftLeft_eq'] at hbits
  exact UInt32.toBitVec_inj.mp (injective_xor_shiftLeft ha hbits)

theorem uint32_xor_shiftRight_injective {a : UInt32} (ha : 0 < a.toNat % 32) :
    Function.Injective fun x : UInt32 => x ^^^ (x >>> a) := by
  intro x y h
  have hbits := congrArg UInt32.toBitVec h
  simp only [UInt32.toBitVec_xor, UInt32.toBitVec_shiftRight, BitVec.ushiftRight_eq'] at hbits
  exact UInt32.toBitVec_inj.mp (injective_xor_ushiftRight ha hbits)

/-- **A step is injective** if it shifts. -/
theorem xorshift_injective {a b c : UInt32} (ha : 0 < a.toNat % 32) (hb : 0 < b.toNat % 32)
    (hc : 0 < c.toNat % 32) : Function.Injective (xorshift a b c) :=
  (uint32_xor_shiftLeft_injective hc).comp
    ((uint32_xor_shiftRight_injective hb).comp (uint32_xor_shiftLeft_injective ha))

theorem xorshift_zero (a b c : UInt32) : xorshift a b c 0 = 0 := by
  simp [xorshift]

/-! ### Runs -/

section Runs

variable {S : Type*} {f : S → S} {z : S}

/-- An injective step that fixes a state is not led to it from another. -/
theorem iterate_ne (hf : Function.Injective f) (hz : f z = z) {x : S} (hx : x ≠ z) (n : ℕ) :
    f^[n] x ≠ z := by
  induction n with
  | zero => exact hx
  | succ n ih =>
      rw [Function.iterate_succ_apply']
      exact fun h => ih (hf (h.trans hz.symm))

/-- **An injective step on a finite type has no tail**: every run is a cycle from its start. -/
theorem exists_period [Finite S] (hf : Function.Injective f) (x : S) :
    ∃ p, 0 < p ∧ ∀ n, f^[n + p] x = f^[n] x := by
  obtain ⟨p, hp, hperiod⟩ := hf.mem_periodicPts x
  refine ⟨p, hp, fun n => ?_⟩
  rw [Function.iterate_add_apply, hperiod.eq]

end Runs

end Aspira.Xorshift
