import Aspira.Journal.Checksum

/-!
# Journal — Decode

Reading a journal back.  The repository writes journals and has no reader; `decode` is the one its
format suggests: a header of 32 bytes, then as many bytes of payload as it says, until the end.

The records of a session decode to what was appended (`decode_records`), whichever of the two ways of
writing the session used: the bytes between its two write positions are the same
(`sessionBytes_spec`).
-/

namespace Aspira

/-! ### Words -/

/-- A number from its bytes, low byte first. -/
def readLE : List UInt8 → ℕ
  | [] => 0
  | b :: bs => b.toNat + 256 * readLE bs

theorem readLE_bytes32 (x : UInt32) : readLE (bytes32 x) = x.toNat := by
  have hx := x.toNat_lt
  have h8 : (x >>> 8).toNat = x.toNat / 2 ^ 8 := Nat.shiftRight_eq_div_pow _ _
  have h16 : (x >>> 16).toNat = x.toNat / 2 ^ 16 := Nat.shiftRight_eq_div_pow _ _
  have h24 : (x >>> 24).toNat = x.toNat / 2 ^ 24 := Nat.shiftRight_eq_div_pow _ _
  simp only [bytes32, readLE, UInt32.toNat_toUInt8, h8, h16, h24]
  omega

theorem readLE_append (xs ys : List UInt8) :
    readLE (xs ++ ys) = readLE xs + 256 ^ xs.length * readLE ys := by
  induction xs with
  | nil => simp [readLE]
  | cons x xs ih =>
      rw [List.cons_append, readLE, readLE, ih, List.length_cons, pow_succ]
      ring

theorem readLE_bytes64 (x : UInt64) : readLE (bytes64 x) = x.toNat := by
  have hx := x.toNat_lt
  have h32 : (x >>> 32).toNat = x.toNat / 2 ^ 32 := Nat.shiftRight_eq_div_pow _ _
  rw [bytes64, readLE_append, readLE_bytes32, readLE_bytes32, bytes32_length,
    UInt64.toNat_toUInt32, UInt64.toNat_toUInt32, h32]
  omega

/-! ### Records -/

/-- The header at the start of some bytes. -/
def readHeader (bytes : List UInt8) : JournalHeader where
  timestampNs := UInt64.ofNat (readLE (bytes.take 8))
  recordType := UInt32.ofNat (readLE ((bytes.drop 8).take 4))
  payloadSize := UInt32.ofNat (readLE ((bytes.drop 12).take 4))
  sequenceNumber := UInt64.ofNat (readLE ((bytes.drop 16).take 8))
  crc32 := UInt32.ofNat (readLE ((bytes.drop 24).take 4))
  reserved := UInt32.ofNat (readLE ((bytes.drop 28).take 4))

theorem readHeader_bytes (hdr : JournalHeader) (rest : List UInt8) :
    readHeader (hdr.bytes ++ rest) = hdr := by
  have hts : (hdr.bytes ++ rest).take 8 = bytes64 hdr.timestampNs := rfl
  have hty : ((hdr.bytes ++ rest).drop 8).take 4 = bytes32 hdr.recordType := rfl
  have hsz : ((hdr.bytes ++ rest).drop 12).take 4 = bytes32 hdr.payloadSize := rfl
  have hsq : ((hdr.bytes ++ rest).drop 16).take 8 = bytes64 hdr.sequenceNumber := rfl
  have hcr : ((hdr.bytes ++ rest).drop 24).take 4 = bytes32 hdr.crc32 := rfl
  have hre : ((hdr.bytes ++ rest).drop 28).take 4 = bytes32 hdr.reserved := rfl
  rw [readHeader, hts, hty, hsz, hsq, hcr, hre]
  simp only [readLE_bytes32, readLE_bytes64, UInt32.ofNat_toNat, UInt64.ofNat_toNat]

/-- The records in some bytes, each a header and its payload, or `none` where the bytes end within
one. -/
def decode (bytes : List UInt8) : Option (List (JournalHeader × List UInt8)) :=
  if bytes = [] then some []
  else
    let hdr := readHeader bytes
    let size := 32 + hdr.payloadSize.toNat
    if bytes.length < size then none
    else
      (decode (bytes.drop size)).map ((hdr, (bytes.drop 32).take hdr.payloadSize.toNat) :: ·)
termination_by bytes.length
decreasing_by
  rw [List.length_drop]
  omega

@[simp] theorem decode_nil : decode [] = some [] := by
  rw [decode]
  rfl

/-- **A record is read back**, and then what follows it. -/
theorem decode_cons (hdr : JournalHeader) {data rest : List UInt8}
    (hlen : data.length = hdr.payloadSize.toNat) :
    decode (hdr.bytes ++ data ++ rest) = (decode rest).map ((hdr, data) :: ·) := by
  have hhdr : readHeader (hdr.bytes ++ data ++ rest) = hdr := by
    rw [List.append_assoc, readHeader_bytes]
  have hsize : (hdr.bytes ++ data).length = 32 + hdr.payloadSize.toNat := by
    rw [List.length_append, header_length, hlen]
  have hne : hdr.bytes ++ data ++ rest ≠ [] := by
    intro h
    have := congrArg List.length h
    rw [List.length_append, hsize, List.length_nil] at this
    omega
  have hdata : ((hdr.bytes ++ data ++ rest).drop 32).take hdr.payloadSize.toNat = data := by
    rw [List.append_assoc, List.drop_left' (header_length hdr), List.take_left' hlen]
  rw [decode, if_neg hne]
  dsimp only
  rw [hhdr, if_neg, List.drop_left' hsize, hdata]
  rw [List.length_append, hsize]
  omega

/-- The records of some appends, as a reader finds them. -/
def readBack (sequence : UInt64) : List AppendArgs → List (JournalHeader × List UInt8)
  | [] => []
  | a :: as => (a.header sequence, a.data) :: readBack (sequence + 1) as

/-- **What was appended is read back.** -/
theorem decode_records {as : List AppendArgs} (has : ∀ a ∈ as, a.Proper) (sequence : UInt64) :
    decode (records sequence as) = some (readBack sequence as) := by
  induction as generalizing sequence with
  | nil => exact decode_nil
  | cons a as ih =>
      have ha := has a (List.mem_cons_self ..)
      rw [records, AppendArgs.record, decode_cons (a.header sequence) ha.data_length,
        ih (fun a' ha' => has a' (List.mem_cons_of_mem a ha'))]
      rfl

/-! ### Both ways of writing -/

/-- Where the next record goes. -/
def Journal.position (jrnl : Journal) (file : List UInt8) : ℕ :=
  if jrnl.useMmap then jrnl.mmapOffset else file.length

/-- The bytes a session writes: those between the write position at open and the one at the end. -/
def Session.bytes (file : List UInt8) (s : Session) : Option (List UInt8) := do
  let r := journalOpen .good file s.useMmap
  let jrnl ← r.1
  let t ← appendAll jrnl r.2 s.appends
  return (t.2.take (t.1.position t.2)).drop (jrnl.position r.2)

/-- **Both ways of writing write the records.** -/
theorem sessionBytes_spec (file : List UInt8) {s : Session} (hs : ∀ a ∈ s.appends, a.Proper) :
    s.bytes file = some (records 0 s.appends) := by
  obtain ⟨useMmap, as⟩ := s
  cases useMmap with
  | false =>
      obtain ⟨jrnl, hall, hj⟩ := @appendAll_stream as ⟨false, 0, 0, 0, false, 0, 0⟩ file rfl
      have hbytes : ((file ++ records 0 as).take (file ++ records 0 as).length).drop file.length =
          records 0 as := by
        rw [List.take_length, List.drop_left]
      simp only [Session.bytes, journalOpen, OpenReply.good]
      simpa [hall, Journal.position, hj] using hbytes
  | true =>
      obtain ⟨jrnl, f, hopen, hm, hseq, -⟩ := open_mapped file
      obtain ⟨jrnl', f', hall, hm', hw'⟩ := appendAll_mapped hs hm
      have hlen : (jrnl.written f).length = jrnl.mmapOffset := by
        rw [Journal.written, List.length_take, min_eq_left (hm.offset.trans hm.size.le)]
      have hbytes : (f'.take jrnl'.mmapOffset).drop jrnl.mmapOffset = records 0 as := by
        rw [hseq] at hw'
        change (jrnl'.written f').drop jrnl.mmapOffset = _
        rw [hw', List.drop_left' hlen]
      simp [Session.bytes, hopen, hall, Journal.position, hm.useMmap, hm'.useMmap, hbytes]

theorem AppendArgs.data_eq (a : AppendArgs) :
    a.data = (a.payload.getD []).take a.payloadSize.toNat := by
  unfold AppendArgs.data
  cases a.payload with
  | none => exact List.take_nil.symm
  | some p =>
      by_cases hpos : 0 < a.payloadSize
      · simp [hpos]
      · have hzero : a.payloadSize.toNat = 0 := by
          rw [UInt32.lt_iff_toNat_lt, not_lt] at hpos
          exact Nat.le_zero.mp hpos
        simp [hpos, hzero]

theorem readBack_payloads (sequence : UInt64) (as : List AppendArgs) :
    (readBack sequence as).map (fun r => (r.1.recordType, r.2)) =
      as.map fun a => (a.type.code, (a.payload.getD []).take a.payloadSize.toNat) := by
  induction as generalizing sequence with
  | nil => rfl
  | cons a as ih =>
      rw [readBack, List.map_cons, List.map_cons, ih, ← a.data_eq]
      rfl

theorem readBack_sequence (n : ℕ) (as : List AppendArgs) :
    (readBack (UInt64.ofNat n) as).map (fun r => r.1.sequenceNumber) =
      (List.range' n as.length).map UInt64.ofNat := by
  induction as generalizing n with
  | nil => rfl
  | cons a as ih =>
      have hnext : UInt64.ofNat n + 1 = UInt64.ofNat (n + 1) := (UInt64.ofNat_add n 1).symm
      rw [readBack, List.map_cons, hnext, ih, List.length_cons, List.range'_succ, List.map_cons]
      rfl

theorem readBack_crc32 {sequence : UInt64} {as : List AppendArgs}
    {r : JournalHeader × List UInt8} (hr : r ∈ readBack sequence as) :
    r.1.crc32 = crc32Update (crc32Update 0xFFFFFFFF r.1.zeroed.bytes) r.2 ^^^ 0xFFFFFFFF := by
  induction as generalizing sequence with
  | nil => exact absurd hr List.not_mem_nil
  | cons a as ih =>
      rcases List.mem_cons.mp hr with rfl | hr
      · rfl
      · exact ih hr

/-- **The record stream is read back**, and is the same in both modes: the appended types and
payloads, numbered from 0, each with the checksum of its header, the `crc32` field zeroed, and its
payload. -/
theorem stream_round_trip {as : List AppendArgs} (has : ∀ a ∈ as, a.Proper) :
    ∃ bytes rs, (∀ (useMmap : Bool) (file : List UInt8),
        (⟨useMmap, as⟩ : Session).bytes file = some bytes) ∧
      decode bytes = some rs ∧
      rs.map (fun r => (r.1.recordType, r.2)) =
        as.map (fun a => (a.type.code, (a.payload.getD []).take a.payloadSize.toNat)) ∧
      rs.map (fun r => r.1.sequenceNumber) = (List.range as.length).map UInt64.ofNat ∧
      ∀ r ∈ rs, r.1.crc32 =
        crc32Update (crc32Update 0xFFFFFFFF r.1.zeroed.bytes) r.2 ^^^ 0xFFFFFFFF := by
  refine ⟨records 0 as, readBack 0 as, fun useMmap file => sessionBytes_spec file has,
    decode_records has 0, readBack_payloads 0 as, ?_, fun r hr => readBack_crc32 hr⟩
  rw [List.range_eq_range']
  exact readBack_sequence 0 as

theorem stream_round_trip_trades :
    ∃ bytes rs, (∀ (useMmap : Bool) (file : List UInt8),
        (⟨useMmap, [smallAppend, smallAppend]⟩ : Session).bytes file = some bytes) ∧
      decode bytes = some rs ∧
      rs.map (fun r => (r.1.recordType, r.2)) = [(5, [1, 2, 3]), (5, [1, 2, 3])] := by
  obtain ⟨bytes, rs, hbytes, hdec, hpay, -⟩ :=
    @stream_round_trip [smallAppend, smallAppend] (by simp [smallAppend_proper])
  exact ⟨bytes, rs, hbytes, hdec, hpay⟩

end Aspira
