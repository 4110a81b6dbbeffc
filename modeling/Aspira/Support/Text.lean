import Mathlib

/-!
# Support — Text

C strings as lists of bytes, and what `printf` prints for the conversions the program uses.

* `cstr`: the string at a pointer into memory, that is its bytes up to the first NUL.
* `text`: a string literal.
* `decimal`, `showInt`: `%lu` and `%d`.
* `showFixed`: `%.nf` of an exact rational, rounded half to even.
* `snprintf`: the string a buffer of `size` bytes holds after `snprintf`.
* `memcpy`, `strncpyBytes`: what the two copies leave in an array.
* `strnlen`: the length of a string in an array.
* `readInt`: the number that `%d` printed.
-/

namespace Aspira

/-- The string that starts a piece of memory. -/
def cstr (mem : List UInt8) : List UInt8 := mem.takeWhile (· ≠ 0)

/-- The bytes of a string literal. -/
def text (s : String) : List UInt8 := s.toList.flatMap String.utf8EncodeChar

/-- `%lu`. -/
def decimal (n : ℕ) : List UInt8 := (Nat.toDigits 10 n).flatMap String.utf8EncodeChar

/-- `%d`. -/
def showInt (z : ℤ) : List UInt8 :=
  if z < 0 then text "-" ++ decimal z.natAbs else decimal z.natAbs

/-- `%.nf`, for `n` at least 1. -/
def showFixed (n : ℕ) (x : ℚ) : List UInt8 :=
  let scaled := |x| * 10 ^ n
  let down := ⌊scaled⌋.natAbs
  let half := scaled - down
  let units := if half < 1 / 2 ∨ half = 1 / 2 ∧ down % 2 = 0 then down else down + 1
  let frac := decimal (units % 10 ^ n)
  (if x < 0 then text "-" else []) ++ decimal (units / 10 ^ n) ++ text "." ++
    List.replicate (n - frac.length) 48 ++ frac

/-- The string left in a buffer of `size` bytes. -/
def snprintf (size : ℕ) (printed : List UInt8) : List UInt8 := cstr (printed.take (size - 1))

/-- `memcpy` to the start of an array. -/
def memcpy {n : ℕ} (dest : Vector UInt8 n) (src : List UInt8) : Vector UInt8 n :=
  Vector.ofFn fun i => src.getD i (dest.get i)

/-- The `n` bytes that `strncpy` writes: the string, then zeros. -/
def strncpyBytes (n : ℕ) (src : List UInt8) : List UInt8 :=
  (cstr src).take n ++ List.replicate (n - (cstr src).length) 0

/-- `strnlen`. -/
def strnlen (src : List UInt8) (maxlen : ℕ) : ℕ := (cstr (src.take maxlen)).length

/-! ### Strings in memory -/

theorem cstr_append_zero (s rest : List UInt8) : cstr (s ++ 0 :: rest) = cstr s := by
  induction s with
  | nil => rfl
  | cons a s ih =>
      rw [List.cons_append, cstr, cstr, List.takeWhile_cons, List.takeWhile_cons]
      split
      · exact congrArg (List.cons a) ih
      · rfl

theorem notMem_cstr (mem : List UInt8) : 0 ∉ cstr mem := fun h => by
  simpa using List.mem_takeWhile_imp h

theorem cstr_length_le (mem : List UInt8) : (cstr mem).length ≤ mem.length :=
  (List.takeWhile_prefix _).length_le

/-- What follows the string in memory is its terminator. -/
theorem getD_cstr_length (mem : List UInt8) : mem.getD (cstr mem).length 0 = 0 := by
  induction mem with
  | nil => rfl
  | cons a mem ih =>
      by_cases ha : a = 0
      · rw [ha]
        rfl
      · have hstr : cstr (a :: mem) = a :: cstr mem := List.takeWhile_cons_of_pos (by simpa using ha)
        rw [hstr, List.length_cons, List.getD_cons_succ]
        exact ih

/-- A copy of a string with its terminator. -/
theorem zero_mem_take_cstr {mem : List UInt8} (h : (0 : UInt8) ∈ mem) :
    (0 : UInt8) ∈ mem.take ((cstr mem).length + 1) := by
  obtain ⟨s, t, rfl⟩ := List.append_of_mem h
  have hlt : (cstr (s ++ 0 :: t)).length < (s ++ 0 :: t).length := by
    rw [cstr_append_zero, List.length_append, List.length_cons]
    have hle := cstr_length_le s
    omega
  have hget := getD_cstr_length (s ++ 0 :: t)
  rw [List.getD_eq_getElem _ _ hlt] at hget
  rw [List.mem_take_iff_getElem]
  exact ⟨_, by omega, hget⟩

/-- Memory with a NUL in it holds the same string whatever follows. -/
theorem cstr_append_of_mem {mem : List UInt8} (h : (0 : UInt8) ∈ mem) (rest : List UInt8) :
    cstr (mem ++ rest) = cstr mem := by
  obtain ⟨s, t, rfl⟩ := List.append_of_mem h
  rw [List.append_assoc, List.cons_append, cstr_append_zero, cstr_append_zero]

/-- Memory without a NUL is all part of the string. -/
theorem cstr_append_of_notMem {mem : List UInt8} (h : (0 : UInt8) ∉ mem) (rest : List UInt8) :
    cstr (mem ++ rest) = mem ++ cstr rest :=
  List.takeWhile_append_of_pos fun a ha => by simpa using fun h₀ : a = 0 => h (h₀ ▸ ha)

theorem cstr_of_notMem {s : List UInt8} (h : 0 ∉ s) : cstr s = s := by
  have hall := cstr_append_of_notMem h []
  rwa [List.append_nil, show cstr [] = [] from rfl, List.append_nil] at hall

theorem cstr_take (n : ℕ) (mem : List UInt8) : cstr (mem.take n) = (cstr mem).take n :=
  List.take_takeWhile.symm

/-- The bytes of a piece of memory up to the end of the string in it. -/
theorem getD_cstr (mem : List UInt8) (i : ℕ) :
    (if i < (cstr mem).length then mem.getD i 0 else 0) = (cstr mem).getD i 0 := by
  split
  · rename_i hi
    have hpre : cstr mem <+: mem := List.takeWhile_prefix _
    rw [List.getD_eq_getElem _ _ hi, List.getD_eq_getElem _ _ (hi.trans_le hpre.length_le),
      hpre.getElem hi]
  · rename_i hi
    exact (List.getD_eq_default _ _ (not_lt.mp hi)).symm

/-- The first bytes of a string do not depend on what follows them. -/
theorem take_cstr_append {n : ℕ} {mem : List UInt8} (h : n ≤ mem.length) (rest : List UInt8) :
    (cstr (mem ++ rest)).take n = (cstr mem).take n := by
  by_cases h₀ : (0 : UInt8) ∈ mem
  · rw [cstr_append_of_mem h₀]
  · rw [cstr_append_of_notMem h₀, cstr_of_notMem h₀, List.take_append_of_le_length h]

/-! ### Copies -/

theorem memcpy_getElem {n : ℕ} (dest : Vector UInt8 n) (src : List UInt8) {i : ℕ}
    (h : i < (memcpy dest src).toList.length) :
    (memcpy dest src).toList[i] =
      src.getD i (dest.get ⟨i, by rwa [Vector.length_toList] at h⟩) := by
  simp [memcpy]

/-- The copied bytes are there. -/
theorem take_memcpy {n : ℕ} {dest : Vector UInt8 n} {src : List UInt8} (h : src.length ≤ n) :
    (memcpy dest src).toList.take src.length = src := by
  have hlen : src.length ≤ (memcpy dest src).toList.length := by
    rw [Vector.length_toList]
    exact h
  refine List.ext_getElem (by rw [List.length_take, min_eq_left hlen]) fun i h₁ h₂ => ?_
  rw [List.getElem_take, memcpy_getElem, List.getD_eq_getElem _ _ h₂]

/-- A copied string ends within the copy. -/
theorem cstr_memcpy {n : ℕ} {dest : Vector UInt8 n} {src : List UInt8} (h : src.length ≤ n)
    (h₀ : (0 : UInt8) ∈ src) : cstr (memcpy dest src).toList = cstr src := by
  rw [← List.take_append_drop src.length (memcpy dest src).toList, take_memcpy h,
    cstr_append_of_mem h₀]

theorem memcpy_congr {n : ℕ} {dest dest' : Vector UInt8 n} {src : List UInt8}
    (h : ∀ i : Fin n, src.length ≤ i.val → dest.get i = dest'.get i) :
    memcpy dest src = memcpy dest' src := by
  refine congrArg Vector.ofFn (funext fun i => ?_)
  rcases Nat.lt_or_ge i.val src.length with hi | hi
  · rw [List.getD_eq_getElem _ _ hi, List.getD_eq_getElem _ _ hi]
  · rw [List.getD_eq_default _ _ hi, List.getD_eq_default _ _ hi, h i hi]

@[simp] theorem strncpyBytes_length (n : ℕ) (src : List UInt8) :
    (strncpyBytes n src).length = n := by
  rw [strncpyBytes, List.length_append, List.length_take, List.length_replicate]
  omega

/-- `strncpy` copies the first `n` characters; what is left of the `n` bytes it fills with NULs. -/
theorem strncpyBytes_eq (n : ℕ) (src : List UInt8) :
    strncpyBytes n src =
      (cstr src).take n ++ List.replicate (n - ((cstr src).take n).length) 0 := by
  rw [strncpyBytes, List.length_take]
  congr 2
  omega

theorem cstr_strncpyBytes (n : ℕ) (src : List UInt8) :
    cstr (strncpyBytes n src) = (cstr src).take n := by
  have hnul : 0 ∉ (cstr src).take n := fun h => notMem_cstr src (List.mem_of_mem_take h)
  rw [strncpyBytes, cstr_append_of_notMem hnul]
  cases n - (cstr src).length with
  | zero => exact List.append_nil _
  | succ k => exact List.append_nil _

/-- What `strncpy` writes tells the first `n` characters, and nothing else. -/
theorem strncpyBytes_inj {n : ℕ} {s t : List UInt8} :
    strncpyBytes n s = strncpyBytes n t ↔ (cstr s).take n = (cstr t).take n := by
  constructor
  · intro h
    rw [← cstr_strncpyBytes, ← cstr_strncpyBytes, h]
  · intro h
    rw [strncpyBytes_eq, strncpyBytes_eq, h]

/-- A copy of a whole array. -/
theorem toList_memcpy {n : ℕ} {dest : Vector UInt8 n} {src : List UInt8} (h : src.length = n) :
    (memcpy dest src).toList = src := by
  have htake := @take_memcpy n dest src h.le
  rwa [List.take_of_length_le (by rw [Vector.length_toList, h])] at htake

/-! ### Numbers read back -/

/-- What `strtol` reads of digits. -/
def readDecimal (s : List UInt8) : ℕ := Nat.ofDigitChars 10 (s.map fun c => Char.ofNat c.toNat) 0

/-- What `strtol` reads of a text printed with `%d`. -/
def readInt : List UInt8 → ℤ
  | 45 :: s => -(readDecimal s : ℤ)
  | s => readDecimal s

/-- A digit is one byte. -/
theorem utf8EncodeChar_of_isDigit {c : Char} (h : c.isDigit = true) :
    String.utf8EncodeChar c = [UInt8.ofNat c.toNat] ∧ 48 ≤ c.toNat ∧ c.toNat ≤ 57 := by
  simp only [Char.isDigit, Bool.and_eq_true, decide_eq_true_eq] at h
  have h₀ : 48 ≤ c.toNat := h.1
  have h₁ : c.toNat ≤ 57 := h.2
  refine ⟨?_, h₀, h₁⟩
  have hv : c.val.toNat ≤ 127 := h₁.trans (by decide)
  unfold String.utf8EncodeChar
  simp only [hv, if_true]
  rfl

theorem mem_decimal {n : ℕ} {c : UInt8} (h : c ∈ decimal n) : 48 ≤ c.toNat ∧ c.toNat ≤ 57 := by
  obtain ⟨d, hd, hc⟩ := List.mem_flatMap.mp h
  obtain ⟨he, h₀, h₁⟩ := utf8EncodeChar_of_isDigit
    (Nat.isDigit_of_mem_toDigits (by decide) (by decide) hd)
  rw [he, List.mem_singleton] at hc
  rw [hc, UInt8.toNat_ofNat_of_lt' (by show _ < 256; omega)]
  exact ⟨h₀, h₁⟩

/-- The digits read back from their bytes. -/
theorem map_digits {l : List Char} (h : ∀ c ∈ l, c.isDigit = true) :
    (l.flatMap String.utf8EncodeChar).map (fun c => Char.ofNat c.toNat) = l := by
  induction l with
  | nil => rfl
  | cons c l ih =>
      obtain ⟨he, h₀, h₁⟩ := utf8EncodeChar_of_isDigit (h c (List.mem_cons_self ..))
      have hc : Char.ofNat (UInt8.ofNat c.toNat).toNat = c := by
        rw [UInt8.toNat_ofNat_of_lt' (by show _ < 256; omega), Char.ofNat_toNat]
      rw [List.flatMap_cons, he, List.singleton_append, List.map_cons, hc,
        ih fun d hd => h d (List.mem_cons_of_mem c hd)]

theorem readDecimal_decimal (n : ℕ) : readDecimal (decimal n) = n := by
  rw [readDecimal, decimal, map_digits fun c hc => Nat.isDigit_of_mem_toDigits (by decide) (by decide) hc]
  exact Nat.ofDigitChars_ten_toDigits

/-- **What `%d` printed is read back.** -/
theorem readInt_showInt (z : ℤ) : readInt (showInt z) = z := by
  unfold showInt
  split
  · rename_i hneg
    show -(readDecimal (decimal z.natAbs) : ℤ) = z
    rw [readDecimal_decimal, Int.ofNat_natAbs_of_nonpos hneg.le, neg_neg]
  · rename_i hpos
    have hread : readInt (decimal z.natAbs) = readDecimal (decimal z.natAbs) := by
      unfold readInt
      split
      · rename_i s hs
        have hmem := mem_decimal (n := z.natAbs) (c := 45) (by rw [hs]; exact List.mem_cons_self ..)
        exact absurd hmem.1 (by decide)
      · rfl
    rw [hread, readDecimal_decimal, Int.natAbs_of_nonneg (not_lt.mp hpos)]

/-- The bytes of a printed number. -/
theorem mem_showInt {z : ℤ} {c : UInt8} (h : c ∈ showInt z) : 45 ≤ c.toNat ∧ c.toNat ≤ 57 := by
  unfold showInt at h
  split at h
  · rcases List.mem_append.mp h with h | h
    · obtain rfl : c = 45 := by
        revert h
        simp [text, String.utf8EncodeChar]
      decide
    · have := mem_decimal h
      omega
  · have := mem_decimal h
    omega

end Aspira
