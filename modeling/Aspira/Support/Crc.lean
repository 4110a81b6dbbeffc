import Mathlib

/-!
# Support — Crc

Cyclic redundancy checks with a reflected register of any width, one message bit at a time.

* `feed`, `run`: the register after a bit, and after a message.
* `step`: the register after a zero bit.  It is linear (`step_xor`), and invertible when the
  polynomial has its top bit (`step_injective`).
* `run_eq_iterate`: a message no longer than the register is xor-ed in at once, and then stepped.
  This is what a table with one entry per short message rests on (`iterate_step_split`).
* `run_ne_of_burst`: two messages that differ only within a window no longer than the register have
  different remainders.
-/

namespace Aspira.Crc

variable {w : ℕ} (p : BitVec w)

/-- The register after one bit of the message: shifted down, and the polynomial xor-ed in if the bit
that leaves differs from the message's. -/
def feed (r : BitVec w) (b : Bool) : BitVec w :=
  (r >>> 1) ^^^ (if (r.getLsbD 0 ^^ b) = true then p else 0#w)

/-- The register after a message, first bit first. -/
def run (r : BitVec w) (m : List Bool) : BitVec w := m.foldl (feed p) r

/-- The register after a zero bit. -/
def step (r : BitVec w) : BitVec w := (r >>> 1) ^^^ (if r.getLsbD 0 = true then p else 0#w)

/-- A message as the number whose low bits it is, first bit lowest. -/
def word (w : ℕ) (m : List Bool) : BitVec w := (BitVec.ofBoolListLE m).setWidth w

theorem run_append (r : BitVec w) (m m' : List Bool) :
    run p r (m ++ m') = run p (run p r m) m' := List.foldl_append

theorem getLsbD_word (m : List Bool) (i : ℕ) :
    (word w m).getLsbD i = (decide (i < w) && m.getD i false) := by
  rw [word, BitVec.getLsbD_setWidth, BitVec.getLsbD_ofBoolListLE]

/-! ### Linearity -/

theorem step_xor (r s : BitVec w) : step p (r ^^^ s) = step p r ^^^ step p s := by
  refine BitVec.eq_of_getLsbD_eq fun i _ => ?_
  simp only [step, BitVec.getLsbD_xor, BitVec.getLsbD_ushiftRight]
  cases r.getLsbD 0 <;> cases s.getLsbD 0 <;> simp [Bool.xor_comm, Bool.xor_left_comm]

theorem iterate_step_xor (k : ℕ) (r s : BitVec w) :
    (step p)^[k] (r ^^^ s) = (step p)^[k] r ^^^ (step p)^[k] s := by
  induction k with
  | zero => rfl
  | succ k ih =>
      rw [Function.iterate_succ_apply', Function.iterate_succ_apply',
        Function.iterate_succ_apply', ih, step_xor]

/-- A register whose low bits are clear only moves down. -/
theorem iterate_step_of_low {k : ℕ} {r : BitVec w} (h : ∀ i < k, r.getLsbD i = false) :
    (step p)^[k] r = r >>> k := by
  induction k with
  | zero => exact (BitVec.ushiftRight_zero r).symm
  | succ k ih =>
      rw [Function.iterate_succ_apply', ih fun i hi => h i (hi.trans k.lt_succ_self)]
      have hlow : (r >>> k).getLsbD 0 = false := by
        rw [BitVec.getLsbD_ushiftRight]
        exact h k k.lt_succ_self
      rw [step, hlow, if_neg Bool.false_ne_true, BitVec.xor_zero, BitVec.shiftRight_add]

/-- **The table step.**  Stepping `k` times is shifting by `k`, and what stepping makes of the low `k`
bits. -/
theorem iterate_step_split {k : ℕ} {r low : BitVec w}
    (h : ∀ i, low.getLsbD i = (decide (i < k) && r.getLsbD i)) :
    (step p)^[k] r = (r >>> k) ^^^ (step p)^[k] low := by
  have hhigh : ∀ i, (r ^^^ low).getLsbD i = (!decide (i < k) && r.getLsbD i) := by
    intro i
    rw [BitVec.getLsbD_xor, h]
    cases decide (i < k) <;> cases r.getLsbD i <;> rfl
  have hshift : (r ^^^ low) >>> k = r >>> k := by
    refine BitVec.eq_of_getLsbD_eq fun i _ => ?_
    rw [BitVec.getLsbD_ushiftRight, BitVec.getLsbD_ushiftRight, hhigh]
    simp
  calc (step p)^[k] r
      = (step p)^[k] ((r ^^^ low) ^^^ low) := by
        rw [BitVec.xor_assoc, BitVec.xor_self, BitVec.xor_zero]
    _ = (step p)^[k] (r ^^^ low) ^^^ (step p)^[k] low := iterate_step_xor p k _ _
    _ = (r >>> k) ^^^ (step p)^[k] low := by
        rw [iterate_step_of_low p (fun i hi => by rw [hhigh]; simp [hi]), hshift]

/-! ### Short messages -/

theorem feed_eq_step (hw : 0 < w) (r : BitVec w) (b : Bool) :
    feed p r b = step p (r ^^^ word w [b]) := by
  have hlow : (r ^^^ word w [b]).getLsbD 0 = (r.getLsbD 0 ^^ b) := by
    rw [BitVec.getLsbD_xor, getLsbD_word]
    simp [hw]
  have hshift : (r ^^^ word w [b]) >>> 1 = r >>> 1 := by
    refine BitVec.eq_of_getLsbD_eq fun i _ => ?_
    simp [getLsbD_word, Nat.add_comm 1 i]
  rw [step, hlow, hshift]
  rfl

/-- The word of a message whose first bit is taken off is stepped out of the longer one. -/
theorem word_cons {b : Bool} {m : List Bool} (h : m.length < w) :
    word w m = step p (word w (b :: m) ^^^ word w [b]) := by
  have hlow : (word w (b :: m) ^^^ word w [b]).getLsbD 0 = false := by
    simp [getLsbD_word]
  rw [step, hlow, if_neg Bool.false_ne_true, BitVec.xor_zero]
  refine BitVec.eq_of_getLsbD_eq fun i hi => ?_
  rw [BitVec.getLsbD_ushiftRight, BitVec.getLsbD_xor, getLsbD_word, getLsbD_word, getLsbD_word,
    Nat.add_comm 1 i]
  by_cases hi' : i + 1 < w
  · simp [hi, hi']
  · have hlen : m.length ≤ i := by omega
    simp [hi', hlen]

/-- **A short message is xor-ed in at once.** -/
theorem run_eq_iterate {m : List Bool} (h : m.length ≤ w) (r : BitVec w) :
    run p r m = (step p)^[m.length] (r ^^^ word w m) := by
  induction m generalizing r with
  | nil =>
      have hzero : word w [] = 0#w := BitVec.eq_of_getLsbD_eq fun i _ => by simp [getLsbD_word]
      rw [hzero, BitVec.xor_zero]
      rfl
  | cons b m ih =>
      have hlt : m.length < w := h
      have hin : feed p r b ^^^ word w m = step p (r ^^^ word w (b :: m)) := by
        rw [feed_eq_step p (Nat.zero_lt_of_lt hlt), word_cons p (b := b) hlt, ← step_xor]
        congr 1
        rw [BitVec.xor_assoc, BitVec.xor_comm (word w (b :: m)), ← BitVec.xor_assoc (word w [b]),
          BitVec.xor_self, BitVec.zero_xor]
      calc run p r (b :: m)
          = (step p)^[m.length] (feed p r b ^^^ word w m) := ih hlt.le _
        _ = (step p)^[(b :: m).length] (r ^^^ word w (b :: m)) := by
          rw [hin, List.length_cons, Function.iterate_succ_apply]

theorem word_injective {m m' : List Bool} (hlen : m.length = m'.length) (h : m.length ≤ w)
    (heq : word w m = word w m') : m = m' := by
  refine List.ext_getElem hlen fun i hi hi' => ?_
  have hbit : (word w m).getLsbD i = (word w m').getLsbD i := by rw [heq]
  rw [getLsbD_word, getLsbD_word] at hbit
  simpa [hi, hi', hi.trans_le h] using hbit

/-! ### Bursts -/

variable {p}

theorem width_pos (hp : p.msb = true) : 0 < w := by
  refine Nat.pos_of_ne_zero fun h => ?_
  rw [BitVec.msb_of_zero_length h] at hp
  cases hp

/-- **A step can be taken back** when the polynomial has its top bit: that bit says which bit left. -/
theorem step_injective (hp : p.msb = true) : Function.Injective (step p) := by
  intro r s heq
  have hw := width_pos hp
  have htop : ∀ x : BitVec w, (step p x).getLsbD (w - 1) = x.getLsbD 0 := by
    intro x
    rw [BitVec.msb_eq_getLsbD_last] at hp
    rw [step, BitVec.getLsbD_xor, BitVec.getLsbD_ushiftRight,
      BitVec.getLsbD_of_ge x _ (by omega)]
    cases x.getLsbD 0 with
    | false => simp
    | true => simpa using hp
  have hlow : r.getLsbD 0 = s.getLsbD 0 := by rw [← htop r, ← htop s, heq]
  have hshift : r >>> 1 = s >>> 1 := by
    simp only [step, hlow] at heq
    exact (BitVec.xor_left_inj _).mp heq
  refine BitVec.eq_of_getLsbD_eq fun i hi => ?_
  cases i with
  | zero => exact hlow
  | succ i =>
      have hbit := congrArg (fun x => x.getLsbD i) hshift
      simpa [BitVec.getLsbD_ushiftRight, Nat.add_comm 1 i] using hbit

theorem feed_injective (hp : p.msb = true) (b : Bool) : Function.Injective (feed p · b) := by
  intro r s heq
  have hw := width_pos hp
  have hstep : step p (r ^^^ word w [b]) = step p (s ^^^ word w [b]) := by
    rw [← feed_eq_step p hw, ← feed_eq_step p hw]
    exact heq
  exact (BitVec.xor_left_inj _).mp (step_injective hp hstep)

/-- Different registers stay different over any message. -/
theorem run_injective (hp : p.msb = true) (m : List Bool) : Function.Injective (run p · m) := by
  induction m with
  | nil => exact Function.injective_id
  | cons b m ih => exact ih.comp (feed_injective hp b)

/-- **Bursts are detected.**  Messages that agree but for a window no longer than the register have
different remainders. -/
theorem run_ne_of_burst (hp : p.msb = true) (r : BitVec w) (pre post : List Bool)
    {m m' : List Bool} (hlen : m.length = m'.length) (h : m.length ≤ w) (hne : m ≠ m') :
    run p r (pre ++ m ++ post) ≠ run p r (pre ++ m' ++ post) := by
  intro heq
  simp only [run_append] at heq
  have hmid := run_injective hp post heq
  rw [run_eq_iterate p h, run_eq_iterate p (hlen.symm.trans_le h), ← hlen] at hmid
  have hword := (BitVec.xor_right_inj _).mp ((step_injective hp).iterate _ hmid)
  exact hne (word_injective hlen h hword)

end Aspira.Crc
