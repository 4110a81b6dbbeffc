import Aspira.Support.Crc
import Aspira.Journal.Sessions

/-!
# Journal — Checksum

The checksum of a record.  `crc32_update` takes a byte at a time from a table; `Crc.run` takes one
bit at a time.  They agree (`crc32Update_toBitVec`), because a table entry is the register after the
eight bits of its index, and the rest of the register only moves down.

So the stored checksum is the CRC-32 of the record with its `crc32` field zeroed (`crc32_ieee`), and
what is known of such checks holds of it: an alteration within four bytes is noticed
(`burst_detected`).
-/

namespace Aspira

/-! ### The reference -/

/-- The reflected polynomial of `crc32_init`. -/
def crc32Poly : BitVec 32 := 0xEDB88320#32

/-- The bits of a byte, low bit first. -/
def byteBits (x : UInt8) : List Bool := (List.range 8).map x.toBitVec.getLsbD

/-- The bits of a byte string, in the order in which they are fed. -/
def messageBits (data : List UInt8) : List Bool := data.flatMap byteBits

/-- The IEEE CRC-32 of a byte string, one bit at a time. -/
def ieeeCrc32 (data : List UInt8) : BitVec 32 :=
  ~~~ Crc.run crc32Poly (BitVec.allOnes 32) (messageBits data)

@[simp] theorem byteBits_length (x : UInt8) : (byteBits x).length = 8 := by simp [byteBits]

@[simp] theorem messageBits_append (xs ys : List UInt8) :
    messageBits (xs ++ ys) = messageBits xs ++ messageBits ys := List.flatMap_append

theorem messageBits_length (data : List UInt8) : (messageBits data).length = 8 * data.length := by
  induction data with
  | nil => rfl
  | cons x data ih =>
      rw [messageBits, List.flatMap_cons, List.length_append, byteBits_length, List.length_cons]
      change 8 + (messageBits data).length = _
      omega

/-- The word of a byte's bits is the byte. -/
theorem word_byteBits (x : UInt8) : Crc.word 32 (byteBits x) = x.toUInt32.toBitVec := by
  refine BitVec.eq_of_getLsbD_eq fun i hi => ?_
  rw [Crc.getLsbD_word, UInt8.toBitVec_toUInt32, BitVec.getLsbD_setWidth, decide_eq_true hi]
  by_cases h8 : i < 8
  · simp [byteBits, h8]
  · simp [byteBits, h8, BitVec.getLsbD_of_ge x.toBitVec i (not_lt.mp h8)]

theorem byteBits_injective : Function.Injective byteBits := by
  intro x y h
  have hword : x.toUInt32.toBitVec = y.toUInt32.toBitVec := by
    rw [← word_byteBits, ← word_byteBits, h]
  exact UInt8.toUInt32_inj.mp (UInt32.toBitVec_inj.mp hword)

theorem messageBits_injective : Function.Injective messageBits := by
  intro xs
  induction xs with
  | nil =>
      intro ys h
      have hlen := congrArg List.length h
      rw [messageBits_length, messageBits_length, List.length_nil] at hlen
      exact (List.eq_nil_of_length_eq_zero (by omega)).symm
  | cons x xs ih =>
      intro ys h
      cases ys with
      | nil =>
          have hlen := congrArg List.length h
          rw [messageBits_length, messageBits_length, List.length_cons, List.length_nil] at hlen
          omega
      | cons y ys =>
          have hsplit := List.append_inj h
            ((byteBits_length x).trans (byteBits_length y).symm)
          rw [byteBits_injective hsplit.1, ih hsplit.2]

/-! ### The table -/

theorem low_bit (c : UInt32) : c &&& 1 = 1 ↔ c.toBitVec.getLsbD 0 = true := by
  rw [← UInt32.toBitVec_inj, UInt32.toBitVec_and]
  change c.toBitVec &&& 1#32 = 1#32 ↔ _
  rw [BitVec.and_one_eq_setWidth_ofBool_getLsbD]
  cases c.toBitVec.getLsbD 0 <;> decide

/-- The inner loop of `crc32_init` makes eight steps. -/
theorem crc32Entry_toBitVec (i : UInt32) :
    (crc32Entry i).toBitVec = (Crc.step crc32Poly)^[8] i.toBitVec := by
  have hstep : ∀ crc : UInt32,
      ((crc >>> 1) ^^^ (if crc &&& 1 = 1 then 0xEDB88320 else 0)).toBitVec =
        Crc.step crc32Poly crc.toBitVec := by
    intro crc
    rw [UInt32.toBitVec_xor, UInt32.toBitVec_shiftRight, Crc.step]
    by_cases hbit : crc &&& 1 = 1
    · rw [if_pos hbit, if_pos ((low_bit crc).mp hbit)]
      rfl
    · rw [if_neg hbit, if_neg (mt (low_bit crc).mpr hbit)]
      rfl
  simp only [crc32Entry, List.range, List.range.loop, List.foldl, hstep]
  rfl

/-- The entry `crc32_update` looks up is that of the low byte. -/
theorem table_lookup (x : UInt32) :
    crc32Table.get (Fin.ofNat 256 (x &&& 0xFF).toNat) = crc32Entry (x &&& 0xFF) := by
  have hlt : (x &&& 0xFF).toNat < 256 := by
    rw [UInt32.toNat_and]
    exact Nat.lt_of_le_of_lt Nat.and_le_right (by decide)
  have hval : (Fin.ofNat 256 (x &&& 0xFF).toNat).val = (x &&& 0xFF).toNat := Nat.mod_eq_of_lt hlt
  simp only [crc32Table, Vector.get_ofFn, hval]
  rw [UInt32.ofNat_toNat]

/-- **One table step is eight bit steps.** -/
theorem table_step (crc : UInt32) (x : UInt8) :
    ((crc >>> 8) ^^^ crc32Table.get (Fin.ofNat 256 ((crc ^^^ x.toUInt32) &&& 0xFF).toNat)).toBitVec =
      Crc.run crc32Poly crc.toBitVec (byteBits x) := by
  have hlow : ∀ i, ((crc ^^^ x.toUInt32) &&& 0xFF).toBitVec.getLsbD i =
      (decide (i < 8) && (crc ^^^ x.toUInt32).toBitVec.getLsbD i) := by
    intro i
    rw [UInt32.toBitVec_and, BitVec.getLsbD_and, Bool.and_comm]
    congr 1
    change (BitVec.ofNat 32 (2 ^ 8 - 1)).getLsbD i = _
    rw [BitVec.getLsbD_ofNat, Nat.testBit_two_pow_sub_one]
    by_cases h8 : i < 8
    · simp [h8, h8.trans (show 8 < 32 by decide)]
    · simp [h8]
  have hshift : (crc ^^^ x.toUInt32).toBitVec >>> 8 = (crc >>> 8).toBitVec := by
    have hx : x.toUInt32.toBitVec >>> 8 = 0#32 := by
      refine BitVec.eq_of_getLsbD_eq fun i _ => ?_
      rw [BitVec.getLsbD_ushiftRight, UInt8.toBitVec_toUInt32, BitVec.getLsbD_setWidth,
        BitVec.getLsbD_of_ge x.toBitVec _ (Nat.le_add_right 8 i)]
      simp
    rw [UInt32.toBitVec_xor, BitVec.ushiftRight_xor_distrib, hx, BitVec.xor_zero,
      UInt32.toBitVec_shiftRight]
    rfl
  have hrun : Crc.run crc32Poly crc.toBitVec (byteBits x) =
      (Crc.step crc32Poly)^[8] (crc ^^^ x.toUInt32).toBitVec := by
    rw [Crc.run_eq_iterate crc32Poly (by rw [byteBits_length]; decide), word_byteBits,
      byteBits_length]
    rfl
  rw [table_lookup, UInt32.toBitVec_xor, hrun, Crc.iterate_step_split crc32Poly hlow, hshift,
    ← crc32Entry_toBitVec]

/-- **`crc32_update` is the check one bit at a time.** -/
theorem crc32Update_toBitVec (crc : UInt32) (data : List UInt8) :
    (crc32Update crc data).toBitVec = Crc.run crc32Poly crc.toBitVec (messageBits data) := by
  induction data generalizing crc with
  | nil => rfl
  | cons x data ih =>
      rw [show messageBits (x :: data) = byteBits x ++ messageBits data from List.flatMap_cons,
        Crc.run_append, ← table_step]
      exact ih _

/-- Two passes are one. -/
theorem crc32Update_append (crc : UInt32) (xs ys : List UInt8) :
    crc32Update crc (xs ++ ys) = crc32Update (crc32Update crc xs) ys := List.foldl_append

/-- The register complemented at both ends. -/
theorem crc32Update_complement (data : List UInt8) :
    (crc32Update 0xFFFFFFFF data ^^^ 0xFFFFFFFF).toBitVec = ieeeCrc32 data := by
  rw [UInt32.toBitVec_xor, crc32Update_toBitVec]
  change _ ^^^ BitVec.allOnes 32 = _
  rw [BitVec.xor_allOnes]
  rfl

/-! ### The checksum of a record -/

/-- The header with its `crc32` field zeroed. -/
def JournalHeader.zeroed (hdr : JournalHeader) : JournalHeader := { hdr with crc32 := 0 }

/-- **The table-driven, incremental checksum is the IEEE CRC-32** of the header, its `crc32` field
zero, and the payload; and two passes of `crc32_update` are one pass over both strings. -/
theorem crc32_ieee :
    (∀ (a : AppendArgs) (sequence : UInt64), (a.header sequence).crc32.toBitVec =
      ieeeCrc32 ((a.header sequence).zeroed.bytes ++ a.data)) ∧
    (∀ (hdr : JournalHeader) (payload : List UInt8),
      (crc32Update (crc32Update 0xFFFFFFFF hdr.zeroed.bytes) payload ^^^ 0xFFFFFFFF).toBitVec =
        ieeeCrc32 (hdr.zeroed.bytes ++ payload)) ∧
    (∀ (crc : UInt32) (xs ys : List UInt8),
      crc32Update (crc32Update crc xs) ys = crc32Update crc (xs ++ ys)) := by
  refine ⟨fun a sequence => ?_, fun hdr payload => ?_, fun crc xs ys => ?_⟩
  · rw [← crc32Update_complement, crc32Update_append]
    rfl
  · rw [← crc32Update_complement, crc32Update_append]
  · exact (crc32Update_append crc xs ys).symm

/-- A record with its `crc32` field, at offsets 24 to 27, zeroed. -/
def zeroCrc (record : List UInt8) : List UInt8 :=
  record.take 24 ++ List.replicate 4 0 ++ record.drop 28

/-- What `journal_append` would store for some bytes. -/
def checksum (record : List UInt8) : UInt32 := crc32Update 0xFFFFFFFF (zeroCrc record) ^^^ 0xFFFFFFFF

/-- The header in three parts: the bytes before the field, the field, and the bytes after it. -/
theorem header_split (hdr : JournalHeader) (data : List UInt8) :
    ∃ pre : List UInt8, pre.length = 24 ∧ ∃ post : List UInt8,
      hdr.bytes ++ data = pre ++ bytes32 hdr.crc32 ++ post ∧
      hdr.zeroed.bytes ++ data = pre ++ List.replicate 4 0 ++ post := by
  refine ⟨bytes64 hdr.timestampNs ++ bytes32 hdr.recordType ++ bytes32 hdr.payloadSize ++
    bytes64 hdr.sequenceNumber, rfl, bytes32 hdr.reserved ++ data, ?_, ?_⟩
  · simp [JournalHeader.bytes]
  · simp [JournalHeader.bytes, JournalHeader.zeroed, bytes32]

theorem zeroCrc_header (hdr : JournalHeader) (data : List UInt8) :
    zeroCrc (hdr.bytes ++ data) = hdr.zeroed.bytes ++ data := by
  obtain ⟨pre, hpre, post, hrec, hzero⟩ := header_split hdr data
  have hlen : (pre ++ bytes32 hdr.crc32).length = 28 := by simp [hpre]
  rw [hrec, hzero, zeroCrc, List.append_assoc pre, List.take_left' hpre, ← List.append_assoc,
    List.drop_left' hlen]

/-- **The stored checksum is that of the record.** -/
theorem checksum_record (a : AppendArgs) (sequence : UInt64) :
    checksum (a.record sequence) = (a.header sequence).crc32 := by
  rw [checksum, AppendArgs.record, zeroCrc_header, crc32Update_append]
  rfl

/-- The field as it stands in the record. -/
theorem crc32_field (hdr : JournalHeader) (data : List UInt8) :
    ((hdr.bytes ++ data).drop 24).take 4 = bytes32 hdr.crc32 := by
  obtain ⟨pre, hpre, post, hrec, -⟩ := header_split hdr data
  rw [hrec, List.append_assoc, List.drop_left' hpre, List.take_left' (bytes32_length _)]

/-! ### Alterations -/

/-- Strings of one length that agree outside a window. -/
structure Confined (i k : ℕ) (xs ys : List UInt8) : Prop where
  length : ys.length = xs.length
  same : ∀ j, j < i ∨ i + k ≤ j → ys[j]? = xs[j]?

/-- Checks of strings that differ only within four bytes. -/
theorem crc32Update_ne_of_confined {i k : ℕ} {xs ys : List UInt8} (h : Confined i k xs ys)
    (hk : k ≤ 4) (hne : ys ≠ xs) (crc : UInt32) : crc32Update crc ys ≠ crc32Update crc xs := by
  have hsplit : ∀ zs : List UInt8, zs = zs.take i ++ (zs.drop i).take k ++ zs.drop (i + k) := by
    intro zs
    rw [List.append_assoc, ← List.drop_drop, List.take_append_drop, List.take_append_drop]
  have hpre : ys.take i = xs.take i := by
    refine List.ext_getElem? fun j => ?_
    rw [List.getElem?_take, List.getElem?_take]
    split
    · exact h.same j (.inl ‹_›)
    · rfl
  have hpost : ys.drop (i + k) = xs.drop (i + k) := by
    refine List.ext_getElem? fun j => ?_
    rw [List.getElem?_drop, List.getElem?_drop]
    exact h.same _ (.inr (Nat.le_add_right _ _))
  have hwin : (ys.drop i).take k ≠ (xs.drop i).take k := by
    intro heq
    refine hne ?_
    rw [hsplit ys, hsplit xs, hpre, heq, hpost]
  have hlen : ((ys.drop i).take k).length = ((xs.drop i).take k).length := by
    rw [List.length_take, List.length_take, List.length_drop, List.length_drop, h.length]
  intro heq
  have hrun := congrArg UInt32.toBitVec heq
  rw [crc32Update_toBitVec, crc32Update_toBitVec, hsplit ys, hsplit xs, hpre, hpost] at hrun
  simp only [messageBits_append] at hrun
  refine Crc.run_ne_of_burst (p := crc32Poly) (by decide) crc.toBitVec _ _ ?_ ?_ ?_ hrun
  · rw [messageBits_length, messageBits_length, hlen]
  · rw [messageBits_length]
    have := List.length_take_le k (ys.drop i)
    omega
  · exact fun hbits => hwin (messageBits_injective hbits)

theorem getElem?_zeroCrc {xs : List UInt8} (h : 28 ≤ xs.length) (j : ℕ) :
    (zeroCrc xs)[j]? = if 24 ≤ j ∧ j < 28 then some 0 else xs[j]? := by
  have h24 : (xs.take 24).length = 24 := by
    rw [List.length_take]
    omega
  have h28 : (xs.take 24 ++ List.replicate 4 0).length = 28 := by simp [h24]
  rw [zeroCrc, List.getElem?_append, h28, List.getElem?_append, h24]
  by_cases hlo : j < 24
  · rw [if_pos (by omega), if_pos hlo, if_neg (by omega), List.getElem?_take, if_pos hlo]
  · by_cases hhi : j < 28
    · rw [if_pos hhi, if_neg hlo, if_pos ⟨not_lt.mp hlo, hhi⟩]
      exact List.getElem?_replicate_of_lt (by omega)
    · rw [if_neg hhi, if_neg (fun hc => hhi hc.2), List.getElem?_drop,
        Nat.add_sub_of_le (not_lt.mp hhi)]

/-- The window stays one when the field is zeroed on both sides. -/
theorem Confined.zeroCrc {i k : ℕ} {xs ys : List UInt8} (h : Confined i k xs ys)
    (hlen : 28 ≤ xs.length) : Confined i k (zeroCrc xs) (zeroCrc ys) := by
  refine ⟨by simp [Aspira.zeroCrc, h.length], fun j hj => ?_⟩
  rw [getElem?_zeroCrc hlen, getElem?_zeroCrc (hlen.trans h.length.ge), h.same j hj]

/-- Strings that agree on the field are told apart without it. -/
theorem Confined.eq_of_zeroCrc {i k : ℕ} {xs ys : List UInt8} (h : Confined i k xs ys)
    (hlen : 28 ≤ xs.length) (hfield : i + k ≤ 24 ∨ 28 ≤ i)
    (heq : Aspira.zeroCrc ys = Aspira.zeroCrc xs) : ys = xs := by
  refine List.ext_getElem? fun j => ?_
  by_cases hj : 24 ≤ j ∧ j < 28
  · exact h.same j (by omega)
  · have hj' : (Aspira.zeroCrc ys)[j]? = (Aspira.zeroCrc xs)[j]? := by rw [heq]
    rw [getElem?_zeroCrc hlen, getElem?_zeroCrc (hlen.trans h.length.ge), if_neg hj, if_neg hj]
      at hj'
    exact hj'

/-- **Every short alteration is noticed.**  Bytes that differ from a record within a window of at most
four, outside the `crc32` field, keep the stored checksum and have another one. -/
theorem burst_detected (a : AppendArgs) (sequence : UInt64) {altered : List UInt8} {i k : ℕ}
    (hconf : Confined i k (a.record sequence) altered) (hk : k ≤ 4)
    (hfield : i + k ≤ 24 ∨ 28 ≤ i) (hne : altered ≠ a.record sequence) :
    (altered.drop 24).take 4 = bytes32 (a.header sequence).crc32 ∧
      checksum altered ≠ (a.header sequence).crc32 := by
  have hlen : 28 ≤ (a.record sequence).length := by
    rw [AppendArgs.record, List.length_append, header_length]
    omega
  constructor
  · rw [← crc32_field _ a.data]
    refine List.ext_getElem? fun j => ?_
    rw [List.getElem?_take, List.getElem?_take, List.getElem?_drop, List.getElem?_drop]
    split
    · exact hconf.same _ (by omega)
    · rfl
  · intro heq
    rw [← checksum_record, checksum, checksum] at heq
    exact crc32Update_ne_of_confined (hconf.zeroCrc hlen) hk
      (fun hz => hne (hconf.eq_of_zeroCrc hlen hfield hz)) _ ((UInt32.xor_left_inj _).mp heq)

/-- The first three bytes of a trade record's payload inverted. -/
theorem burst_detected_payload :
    checksum ((smallAppend.header 0).bytes ++ [254, 253, 252]) ≠ (smallAppend.header 0).crc32 := by
  refine (burst_detected smallAppend 0 (i := 32) (k := 3) ⟨?_, ?_⟩ (by decide) (by decide) ?_).2
  · rw [AppendArgs.record, List.length_append, List.length_append]
    rfl
  · intro j hj
    rw [AppendArgs.record, List.getElem?_append, List.getElem?_append, header_length]
    split
    · rfl
    · have hj3 : 3 ≤ j - 32 := by omega
      rw [List.getElem?_eq_none hj3, List.getElem?_eq_none hj3]
  · intro heq
    exact absurd (List.append_cancel_left heq) (by decide)

end Aspira
