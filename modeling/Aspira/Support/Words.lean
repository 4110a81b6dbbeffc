import Mathlib

/-!
# Support — Words

32-bit words, read as integers.  `Int32` wraps as the machine's `int32_t` does under two's
complement; the lemmas here say when the exact integer result is the one computed, so that the
models above can be written with the wrapping operations and reasoned about with `omega`.

* `Int32.toInt_sub_exact`, `Int32.toInt_add_exact`: a sum or difference that is representable is
  exact.
* `UInt32.toNat_sub_one`, `UInt32.toNat_add_one`: counting down and up without wrapping.
* `stdMin`: `std::min`, which returns its second argument only when it is strictly smaller.
* `Smeared`: a word or-ed with its own shifts, up to the number with all bits below the highest set.
-/

namespace Int32

theorem toInt_sub_exact {a b : Int32} (h₁ : -2 ^ 31 ≤ a.toInt - b.toInt)
    (h₂ : a.toInt - b.toInt < 2 ^ 31) : (a - b).toInt = a.toInt - b.toInt := by
  rw [toInt_sub]
  exact Int.bmod_eq_of_le (by omega) (by omega)

theorem toInt_add_exact {a b : Int32} (h₁ : -2 ^ 31 ≤ a.toInt + b.toInt)
    (h₂ : a.toInt + b.toInt < 2 ^ 31) : (a + b).toInt = a.toInt + b.toInt := by
  rw [toInt_add]
  exact Int.bmod_eq_of_le (by omega) (by omega)

end Int32

namespace UInt32

theorem toNat_sub_one {x : UInt32} {t : ℕ} (h : x.toNat = t + 1) : (x - 1).toNat = t := by
  have hle : (1 : UInt32) ≤ x := by
    rw [le_iff_toNat_le, h]
    exact Nat.le_add_left 1 t
  rw [UInt32.toNat_sub_of_le _ _ hle, h]
  rfl

theorem toNat_add_one {x : UInt32} (h : x.toNat + 1 < 2 ^ 32) : (x + 1).toNat = x.toNat + 1 := by
  rw [UInt32.toNat_add]
  exact Nat.mod_eq_of_lt h

end UInt32

namespace Aspira

/-- `std::min(a, b)`: `b` if it is strictly smaller, else `a`. -/
def stdMin (a b : Int32) : Int32 := if b < a then b else a

theorem stdMin_toInt (a b : Int32) : (stdMin a b).toInt = min a.toInt b.toInt := by
  unfold stdMin
  split
  · rename_i h
    rw [Int32.lt_iff_toInt_lt] at h
    omega
  · rename_i h
    rw [Int32.lt_iff_toInt_lt] at h
    omega

/-! ### Bits spread downwards -/

/-- Bit `i` of `x` says whether one of the `w` bits of `m` from `i` on is set. -/
def Smeared (m w x : ℕ) : Prop := ∀ i, x.testBit i = true ↔ ∃ d < w, m.testBit (i + d) = true

theorem smeared_one (m : ℕ) : Smeared m 1 m := fun i =>
  ⟨fun h => ⟨0, Nat.one_pos, h⟩, fun ⟨d, hd, h⟩ => by rwa [Nat.lt_one_iff.mp hd] at h⟩

theorem Smeared.double {m w x : ℕ} (h : Smeared m w x) : Smeared m (w + w) (x ||| (x >>> w)) := by
  intro i
  rw [Nat.testBit_or, Nat.testBit_shiftRight, Bool.or_eq_true, h i, h (w + i)]
  constructor
  · rintro (⟨d, hd, hbit⟩ | ⟨d, hd, hbit⟩)
    · exact ⟨d, by omega, hbit⟩
    · exact ⟨w + d, by omega, by rwa [show i + (w + d) = w + i + d by omega]⟩
  · rintro ⟨d, hd, hbit⟩
    by_cases hlt : d < w
    · exact .inl ⟨d, hlt, hbit⟩
    · exact .inr ⟨d - w, by omega, by rwa [show w + i + (d - w) = i + d by omega]⟩

/-- A number with every bit below its highest one set. -/
theorem Smeared.eq {m w x : ℕ} (h : Smeared m w x) (hm : m ≠ 0) (hw : m < 2 ^ w) :
    x = 2 ^ (m.log2 + 1) - 1 := by
  refine Nat.eq_of_testBit_eq fun i => ?_
  rw [Nat.testBit_two_pow_sub_one, Bool.eq_iff_iff, h i, decide_eq_true_eq, Nat.lt_succ_iff,
    Nat.le_log2 hm]
  constructor
  · rintro ⟨d, -, hbit⟩
    exact (Nat.pow_le_pow_right (by decide) (Nat.le_add_right i d)).trans
      (Nat.ge_two_pow_of_testBit hbit)
  · intro hle
    obtain ⟨j, hj, hbit⟩ := Nat.exists_ge_and_testBit_of_ge_two_pow hle
    have hlt : j < w := by
      by_contra hge
      rw [Nat.testBit_lt_two_pow (hw.trans_le (Nat.pow_le_pow_right (by decide) (not_lt.mp hge)))]
        at hbit
      cases hbit
    exact ⟨j - i, by omega, by rwa [show i + (j - i) = j by omega]⟩

theorem Smeared.or_shift {m w : ℕ} {x : UInt32} (h : Smeared m w x.toNat) (shift : UInt32)
    (hw : shift.toNat % 32 = w) : Smeared m (w + w) (x ||| (x >>> shift)).toNat := by
  rw [UInt32.toNat_or, UInt32.toNat_shiftRight, hw]
  exact h.double

end Aspira
