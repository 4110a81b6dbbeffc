import Aspira.Support.Xorshift

/-!
# Feed — Generator

The random numbers of the simulated feed (`feed_handler.c`): `xorshift32`, `rand_double` and the seed
that `feed_init` takes from the address of the handler.

The state 0 is a fixed point of `xorshift32`, and it would freeze the price walk.  The seed is
`2463534242 + address`, and 2463534242 is 2 modulo 16, so that the seed of a handler that `calloc`
aligned to 16 bytes is not 0; a step of the generator never leads there (`never_sticks`).
-/

namespace Aspira

/-- `feed_handler_t`, of which the generator uses its state only. -/
@[ext]
structure FeedHandler where
  prngState : UInt32
  deriving DecidableEq, Repr

namespace FeedHandler

/-- The seed that `feed_init` gives to the handler at an address. -/
def seed (fh : UInt64) : FeedHandler := { prngState := 2463534242 + fh.toUInt32 }

/-- `xorshift32`. -/
def xorshift32 (fh : FeedHandler) : UInt32 × FeedHandler :=
  let x := fh.prngState
  let x := x ^^^ (x <<< 13)
  let x := x ^^^ (x >>> 17)
  let x := x ^^^ (x <<< 5)
  (x, { fh with prngState := x })

/-- `rand_double`.  The numerator has 24 bits and the denominator is a power of two, so that the
`double` is the exact quotient. -/
def randDouble (fh : FeedHandler) : ℚ × FeedHandler :=
  let r := fh.xorshift32
  (((r.1 &&& 0xFFFFFF).toNat : ℚ) / 0x1000000, r.2)

/-- The handler after `n` calls of `xorshift32`. -/
def after (fh : FeedHandler) (n : ℕ) : FeedHandler := (fun fh => fh.xorshift32.2)^[n] fh

/-- `rand_double` returns a number in [0, 1). -/
theorem randDouble_mem (fh : FeedHandler) : fh.randDouble.1 ∈ Set.Ico (0 : ℚ) 1 := by
  have hlt : (fh.xorshift32.1 &&& 0xFFFFFF).toNat < 0x1000000 := by
    rw [UInt32.toNat_and]
    exact Nat.and_lt_two_pow (n := 24) _ (by decide)
  have hcast : ((fh.xorshift32.1 &&& 0xFFFFFF).toNat : ℚ) < 0x1000000 := by exact_mod_cast hlt
  constructor
  · exact div_nonneg (Nat.cast_nonneg _) (by norm_num)
  · exact (div_lt_one (by norm_num)).mpr hcast

/-! ### Steps -/

theorem xorshift32_snd (fh : FeedHandler) :
    fh.xorshift32.2.prngState = Xorshift.xorshift 13 17 5 fh.prngState := rfl

theorem step_injective : Function.Injective (Xorshift.xorshift 13 17 5) :=
  Xorshift.xorshift_injective (by decide) (by decide) (by decide)

theorem after_prngState (fh : FeedHandler) (n : ℕ) :
    (fh.after n).prngState = (Xorshift.xorshift 13 17 5)^[n] fh.prngState := by
  have hsemi : Function.Semiconj FeedHandler.prngState (fun fh => fh.xorshift32.2)
      (Xorshift.xorshift 13 17 5) := xorshift32_snd
  exact (hsemi.iterate_right n).eq fh

/-- **The seed is not 0** where 16 divides the address: it is 2 modulo 16. -/
theorem seed_ne_zero {address : UInt64} (h : 16 ∣ address.toNat) :
    (seed address).prngState ≠ 0 := by
  intro hzero
  have hnat := congrArg UInt32.toNat hzero
  have hsum : (2463534242 + address.toNat % 2 ^ 32) % 2 ^ 32 = 0 := by
    rw [seed, UInt32.toNat_add, UInt64.toNat_toUInt32] at hnat
    exact hnat
  omega

/-- **The generator never sticks**: for a handler that is aligned as `calloc` aligns, the seed is not
0, a call of `xorshift32` is injective on the states and keeps them from 0, the state is never 0, and
the numbers that are drawn repeat from the first on. -/
theorem never_sticks (address : UInt64) (halign : 16 ∣ address.toNat) :
    (seed address).prngState ≠ 0 ∧
      Function.Injective (fun x => (xorshift32 ⟨x⟩).2.prngState) ∧
      (∀ x, x ≠ 0 → (xorshift32 ⟨x⟩).2.prngState ≠ 0) ∧
      (∀ n, ((seed address).after n).prngState ≠ 0) ∧
      ∃ p, 0 < p ∧ ∀ n, (seed address).after (n + p) = (seed address).after n ∧
        ((seed address).after (n + p)).xorshift32.1 = ((seed address).after n).xorshift32.1 ∧
        ((seed address).after (n + p)).randDouble.1 = ((seed address).after n).randDouble.1 := by
  have hseed := seed_ne_zero halign
  have hzero := Xorshift.xorshift_zero 13 17 5
  refine ⟨hseed, step_injective, fun x hx => ?_, fun n => ?_, ?_⟩
  · exact Xorshift.iterate_ne step_injective hzero hx 1
  · rw [after_prngState]
    exact Xorshift.iterate_ne step_injective hzero hseed n
  · obtain ⟨p, hp, hperiod⟩ := Xorshift.exists_period step_injective (seed address).prngState
    refine ⟨p, hp, fun n => ?_⟩
    have hstate : (seed address).after (n + p) = (seed address).after n := by
      apply FeedHandler.ext
      rw [after_prngState, after_prngState, hperiod n]
    exact ⟨hstate, by rw [hstate], by rw [hstate]⟩

/-- The aligned address whose seed comes closest to 0 after the sum has wrapped. -/
theorem never_sticks_at_two :
    16 ∣ (1831433056 : UInt64).toNat ∧ (seed 1831433056).prngState = 2 ∧
      ∀ n, ((seed 1831433056).after n).prngState ≠ 0 :=
  ⟨by decide, by decide, (never_sticks 1831433056 (by decide)).2.2.2.1⟩

end FeedHandler

end Aspira
