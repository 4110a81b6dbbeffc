import Aspira.Journal.Journal

/-!
# Journal — sessions

A session opens a journal, appends records and closes it.  `session_spec` says what it leaves: the
file, a gap of zeros, and the records.  The gap is there when the journal is opened in mmap mode on a
file shorter than the initial mapping: `journal_open` grows the file to the mapping first and takes
the grown size for the write position, and `journal_close` cuts at the write position.

So the file is the concatenation of its records exactly when every mmap session finds at least
256 MiB (`sessions_concat_iff`).
-/

namespace Aspira

/-- One session on a file. -/
structure Session where
  useMmap : Bool
  appends : List AppendArgs

/-- There is a payload of the size given, and the record is at most 256 MiB. -/
structure AppendArgs.Proper (a : AppendArgs) : Prop where
  payload : a.payloadSize = 0 ∨ ∃ p, a.payload = some p ∧ a.payloadSize.toNat ≤ p.length
  size : a.totalSize ≤ defaultMmapSize

/-- The records of a session, from a sequence number on. -/
def records (sequence : UInt64) : List AppendArgs → List UInt8
  | [] => []
  | a :: as => a.record sequence ++ records (sequence + 1) as

/-- Every append of a session, with system calls that succeed. -/
def appendAll (jrnl : Journal) (file : List UInt8) : List AppendArgs → Option (Journal × List UInt8)
  | [] => some (jrnl, file)
  | a :: as => do
      let r ← journalAppend (.good a) jrnl file a
      guard r.1
      appendAll r.2.1 r.2.2 as

/-- The file after a session, with system calls that succeed. -/
def Session.run (file : List UInt8) (s : Session) : Option (List UInt8) := do
  let r := journalOpen .good file s.useMmap
  let jrnl ← r.1
  let t ← appendAll jrnl r.2 s.appends
  return journalClose t.1 t.2

/-- The file after some sessions. -/
def runSessions (file : List UInt8) : List Session → Option (List UInt8)
  | [] => some file
  | s :: ss => do
      let file ← s.run file
      runSessions file ss

/-! ### Sizes -/

@[simp] theorem bytes32_length (x : UInt32) : (bytes32 x).length = 4 := rfl

@[simp] theorem bytes64_length (x : UInt64) : (bytes64 x).length = 8 := rfl

theorem header_length (h : JournalHeader) : h.bytes.length = 32 := by
  simp [JournalHeader.bytes]

theorem AppendArgs.Proper.data_length {a : AppendArgs} (h : a.Proper) :
    a.data.length = a.payloadSize.toNat := by
  unfold AppendArgs.data
  rcases h.payload with h₀ | ⟨p, hp, hlen⟩
  · rw [h₀]
    cases a.payload <;> rfl
  · rw [hp]
    by_cases hpos : 0 < a.payloadSize
    · simp only [hpos, if_true]
      rw [List.length_take, min_eq_left hlen]
    · have h₀ : a.payloadSize = 0 := by
        rw [UInt32.lt_iff_toNat_lt, not_lt] at hpos
        exact UInt32.toNat_inj.mp (Nat.le_zero.mp hpos)
      rw [h₀]
      rfl

theorem AppendArgs.Proper.record_length {a : AppendArgs} (h : a.Proper) (sequence : UInt64) :
    (a.record sequence).length = a.totalSize := by
  rw [AppendArgs.record, List.length_append, header_length, h.data_length]
  rfl

/-- A record takes at most what its header says. -/
theorem AppendArgs.record_length_le (a : AppendArgs) (sequence : UInt64) :
    (a.record sequence).length ≤ a.totalSize := by
  rw [AppendArgs.record, List.length_append, header_length, AppendArgs.totalSize]
  refine Nat.add_le_add_left ?_ 32
  unfold AppendArgs.data
  split
  · split
    · exact List.length_take_le _ _
    · exact Nat.zero_le _
  · exact Nat.zero_le _

theorem take_ftruncate {file : List UInt8} {n k : ℕ} (hk : k ≤ n) (hf : k ≤ file.length) :
    (ftruncate file n).take k = file.take k := by
  rw [ftruncate, List.take_append_of_le_length, List.take_take, min_eq_left hk]
  rw [List.length_take]
  exact le_min hk hf

theorem ftruncate_length (file : List UInt8) (n : ℕ) : (ftruncate file n).length = n := by
  rw [ftruncate, List.length_append, List.length_take, List.length_replicate]
  omega

theorem overwrite_length {file bytes : List UInt8} {offset : ℕ}
    (h : offset + bytes.length ≤ file.length) : (overwrite file offset bytes).length = file.length := by
  rw [overwrite, List.length_append, List.length_append, List.length_take, List.length_drop]
  omega

theorem take_overwrite {file bytes : List UInt8} {offset : ℕ} (h : offset ≤ file.length) :
    (overwrite file offset bytes).take (offset + bytes.length) = file.take offset ++ bytes := by
  have hlen : (file.take offset ++ bytes).length = offset + bytes.length := by
    rw [List.length_append, List.length_take, min_eq_left h]
  rw [overwrite, List.take_append_of_le_length hlen.ge, List.take_of_length_le hlen.le]

/-! ### Appends -/

/-- A mapping of the whole file, with the write position in it. -/
structure Journal.Mapped (jrnl : Journal) (file : List UInt8) : Prop where
  useMmap : jrnl.useMmap = true
  mapped : jrnl.mapped = true
  size : jrnl.mmapSize = file.length
  offset : jrnl.mmapOffset ≤ jrnl.mmapSize

/-- The bytes up to the write position. -/
def Journal.written (jrnl : Journal) (file : List UInt8) : List UInt8 := file.take jrnl.mmapOffset

/-- One extension of the mapping makes room for the record. -/
def Journal.Room (jrnl : Journal) (a : AppendArgs) : Prop :=
  jrnl.mmapOffset + a.totalSize ≤ jrnl.mmapSize + defaultMmapSize

/-- After the extension, if one is needed, the record fits. -/
theorem extend_spec {jrnl : Journal} {file : List UInt8} {a : AppendArgs} (h : jrnl.Mapped file)
    (hroom : jrnl.Room a) : ∃ jrnl' file', jrnl.extend (.good a) file a = (true, jrnl', file') ∧
      jrnl'.Mapped file' ∧ jrnl'.written file' = jrnl.written file ∧
      jrnl'.mmapOffset = jrnl.mmapOffset ∧ jrnl'.sequence = jrnl.sequence ∧
      jrnl'.mmapOffset + a.totalSize ≤ jrnl'.mmapSize := by
  unfold Journal.extend
  have hoff := h.offset
  by_cases hfit : jrnl.mmapSize < jrnl.mmapOffset + a.totalSize
  · rw [if_pos hfit]
    refine ⟨_, _, rfl, ⟨h.useMmap, rfl, ?_, ?_⟩, ?_, rfl, rfl, hroom⟩
    · exact (ftruncate_length _ _).symm
    · exact hoff.trans (Nat.le_add_right _ _)
    · exact take_ftruncate (hoff.trans (Nat.le_add_right _ _)) (hoff.trans h.size.le)
  · rw [if_neg hfit]
    exact ⟨jrnl, file, rfl, h, rfl, rfl, rfl, not_lt.mp hfit⟩

/-- **An append with room** writes what it has of the record at the write position. -/
theorem append_room {jrnl : Journal} {file : List UInt8} {a : AppendArgs} (h : jrnl.Mapped file)
    (hroom : jrnl.Room a) :
    ∃ jrnl' file', journalAppend (.good a) jrnl file a = some (true, jrnl', file') ∧
      jrnl'.Mapped file' ∧ jrnl'.sequence = jrnl.sequence + 1 ∧
      jrnl'.mmapOffset = jrnl.mmapOffset + a.totalSize ∧
      file'.take (jrnl.mmapOffset + (a.record jrnl.sequence).length) =
        jrnl.written file ++ a.record jrnl.sequence := by
  have h₁ : ({ jrnl with sequence := jrnl.sequence + 1 } : Journal).Mapped file :=
    ⟨h.useMmap, h.mapped, h.size, h.offset⟩
  obtain ⟨j, f, hext, hm, hwritten, hoff, hseq, hfit⟩ := extend_spec h₁ hroom
  have hfile : j.mmapOffset + (a.record jrnl.sequence).length ≤ f.length := by
    rw [← hm.size]
    exact (Nat.add_le_add_left (a.record_length_le _) _).trans hfit
  have hmap : j.mapWrite f (a.record jrnl.sequence) =
      some (overwrite f j.mmapOffset (a.record jrnl.sequence)) := by
    unfold Journal.mapWrite
    rw [if_pos]
    refine ⟨hm.mapped, ?_⟩
    rw [hm.size, min_self]
    exact hfile
  refine ⟨{ j with
      mmapOffset := j.mmapOffset + a.totalSize
      bytesWritten := j.bytesWritten + UInt64.ofNat a.totalSize },
    overwrite f j.mmapOffset (a.record jrnl.sequence), ?_, ⟨hm.useMmap, hm.mapped, ?_, hfit⟩, hseq,
    congrArg (· + a.totalSize) hoff, ?_⟩
  · unfold journalAppend
    dsimp only
    rw [if_pos h.useMmap, hext]
    dsimp only
    rw [show (a.header jrnl.sequence).bytes ++ a.data = a.record jrnl.sequence from rfl, hmap]
    rfl
  · show j.mmapSize = _
    rw [overwrite_length hfile]
    exact hm.size
  · change (overwrite f j.mmapOffset _).take (({ jrnl with
      sequence := jrnl.sequence + 1 } : Journal).mmapOffset + _) = _
    rw [← hoff, take_overwrite ((Nat.le_add_right _ _).trans hfile)]
    exact congrArg (· ++ _) hwritten

/-- **An append in mmap mode** writes the record at the write position. -/
theorem append_mapped {jrnl : Journal} {file : List UInt8} {a : AppendArgs} (h : jrnl.Mapped file)
    (ha : a.Proper) : ∃ jrnl' file', journalAppend (.good a) jrnl file a = some (true, jrnl', file') ∧
      jrnl'.Mapped file' ∧ jrnl'.sequence = jrnl.sequence + 1 ∧
      jrnl'.written file' = jrnl.written file ++ a.record jrnl.sequence := by
  obtain ⟨jrnl', file', happ, hm, hseq, hoff, htake⟩ :=
    append_room h (Nat.add_le_add h.offset ha.size)
  refine ⟨jrnl', file', happ, hm, hseq, ?_⟩
  rw [Journal.written, hoff, ← ha.record_length jrnl.sequence]
  exact htake

theorem appendAll_mapped {as : List AppendArgs} (has : ∀ a ∈ as, a.Proper) :
    ∀ {jrnl : Journal} {file : List UInt8}, jrnl.Mapped file →
      ∃ jrnl' file', appendAll jrnl file as = some (jrnl', file') ∧ jrnl'.Mapped file' ∧
        jrnl'.written file' = jrnl.written file ++ records jrnl.sequence as := by
  induction as with
  | nil =>
      intro jrnl file h
      exact ⟨jrnl, file, rfl, h, (List.append_nil _).symm⟩
  | cons a as ih =>
      intro jrnl file h
      obtain ⟨j, f, happ, hm, hseq, hw⟩ := append_mapped h (has a (List.mem_cons_self ..))
      obtain ⟨jrnl', file', hall, hm', hw'⟩ :=
        ih (fun a' ha' => has a' (List.mem_cons_of_mem a ha')) hm
      refine ⟨jrnl', file', ?_, hm', ?_⟩
      · simp [appendAll, happ, hall]
      · rw [hw', hw, hseq, List.append_assoc]
        rfl

/-- **An append to a stream** writes the record at the end. -/
theorem append_stream {jrnl : Journal} (file : List UInt8) (a : AppendArgs)
    (h : jrnl.useMmap = false) :
    ∃ jrnl', journalAppend (.good a) jrnl file a =
        some (true, jrnl', file ++ a.record jrnl.sequence) ∧
      jrnl'.useMmap = false ∧ jrnl'.sequence = jrnl.sequence + 1 := by
  refine ⟨{ jrnl with
      sequence := jrnl.sequence + 1
      bytesWritten := jrnl.bytesWritten + UInt64.ofNat a.totalSize }, ?_, h, rfl⟩
  have hhdr : ((a.header jrnl.sequence).bytes.take 32) = (a.header jrnl.sequence).bytes :=
    List.take_of_length_le (header_length _).le
  simp [journalAppend, h, AppendReply.good, hhdr, AppendArgs.record]

theorem appendAll_stream {as : List AppendArgs} :
    ∀ {jrnl : Journal} {file : List UInt8}, jrnl.useMmap = false →
      ∃ jrnl', appendAll jrnl file as = some (jrnl', file ++ records jrnl.sequence as) ∧
        jrnl'.useMmap = false := by
  induction as with
  | nil =>
      intro jrnl file h
      exact ⟨jrnl, by rw [records, List.append_nil]; rfl, h⟩
  | cons a as ih =>
      intro jrnl file h
      obtain ⟨j, happ, hj, hseq⟩ := append_stream file a h
      obtain ⟨jrnl', hall, hj'⟩ := @ih j (file ++ a.record jrnl.sequence) hj
      refine ⟨jrnl', ?_, hj'⟩
      simp [appendAll, happ, hall, hseq, records]

/-! ### Sessions -/

/-- The zeros a session puts before its records. -/
def Session.gap (s : Session) (n : ℕ) : ℕ := if s.useMmap then defaultMmapSize - n else 0

/-- Closing cuts the file at the write position. -/
theorem close_mapped {jrnl : Journal} {file : List UInt8} (h : jrnl.Mapped file) :
    journalClose jrnl file = jrnl.written file := by
  have hle : jrnl.mmapOffset ≤ file.length := h.offset.trans h.size.le
  rw [journalClose, if_pos h.useMmap, ftruncate, Nat.sub_eq_zero_of_le hle, List.replicate_zero,
    List.append_nil]
  rfl

/-- **Opening in mmap mode** puts the write position at the end of the mapping. -/
theorem open_mapped (file : List UInt8) :
    ∃ jrnl file', journalOpen .good file true = (some jrnl, file') ∧ jrnl.Mapped file' ∧
      jrnl.sequence = 0 ∧
      jrnl.written file' = file ++ List.replicate (defaultMmapSize - file.length) 0 := by
  by_cases hlt : file.length < defaultMmapSize
  · refine ⟨⟨true, 0, 0, defaultMmapSize, true, defaultMmapSize, defaultMmapSize⟩,
      ftruncate file defaultMmapSize, ?_, ⟨rfl, rfl, (ftruncate_length _ _).symm, le_rfl⟩, rfl, ?_⟩
    · simp [journalOpen, OpenReply.good, hlt]
    · show (ftruncate file defaultMmapSize).take defaultMmapSize = _
      rw [List.take_of_length_le (ftruncate_length _ _).le, ftruncate,
        List.take_of_length_le hlt.le]
  · refine ⟨⟨true, 0, 0, file.length, true, file.length, file.length⟩, file, ?_,
      ⟨rfl, rfl, rfl, le_rfl⟩, rfl, ?_⟩
    · simp [journalOpen, OpenReply.good, hlt]
    · show file.take file.length = _
      rw [List.take_length, Nat.sub_eq_zero_of_le (not_lt.mp hlt), List.replicate_zero,
        List.append_nil]

/-- **What a session leaves**: the file, a gap, and the records. -/
theorem session_spec (file : List UInt8) {s : Session} (hs : ∀ a ∈ s.appends, a.Proper) :
    s.run file = some (file ++ List.replicate (s.gap file.length) 0 ++ records 0 s.appends) := by
  obtain ⟨useMmap, as⟩ := s
  cases useMmap with
  | false =>
      obtain ⟨jrnl, hall, hj⟩ := @appendAll_stream as ⟨false, 0, 0, 0, false, 0, 0⟩ file rfl
      simp only [Session.run, journalOpen, OpenReply.good, Session.gap]
      simp [hall, journalClose, hj]
  | true =>
      obtain ⟨jrnl, f, hopen, hm, hseq, hw⟩ := open_mapped file
      obtain ⟨jrnl', f', hall, hm', hw'⟩ := appendAll_mapped hs hm
      rw [hseq, hw] at hw'
      simp [Session.run, hopen, hall, close_mapped hm', hw', Session.gap]

/-- The records of some sessions, one session after the other. -/
def allRecords (ss : List Session) : List UInt8 := ss.flatMap fun s => records 0 s.appends

/-- Every mmap session finds at least the initial mapping's size in the file: what was there at
first, `n` bytes, and the records of the sessions before it. -/
def Roomy : ℕ → List Session → Prop
  | _, [] => True
  | n, s :: ss => (s.useMmap = true → defaultMmapSize ≤ n) ∧
      Roomy (n + (records 0 s.appends).length) ss

/-- The file never gets shorter than what it had and the records. -/
theorem runSessions_length (ss : List Session) (hs : ∀ s ∈ ss, ∀ a ∈ s.appends, a.Proper) :
    ∀ file : List UInt8, ∃ file', runSessions file ss = some file' ∧
      file.length + (allRecords ss).length ≤ file'.length := by
  induction ss with
  | nil =>
      intro file
      exact ⟨file, rfl, le_rfl⟩
  | cons s ss ih =>
      intro file
      obtain ⟨file', hrun, hlen⟩ := ih (fun s' hs' => hs s' (List.mem_cons_of_mem s hs'))
        (file ++ List.replicate (s.gap file.length) 0 ++ records 0 s.appends)
      refine ⟨file', ?_, ?_⟩
      · rw [runSessions, session_spec file (hs s (List.mem_cons_self ..))]
        exact hrun
      · simp only [List.length_append, allRecords, List.flatMap_cons] at hlen ⊢
        omega

theorem gap_eq_zero_iff {s : Session} {n : ℕ} :
    s.gap n = 0 ↔ (s.useMmap = true → defaultMmapSize ≤ n) := by
  unfold Session.gap
  cases s.useMmap with
  | false => simp
  | true => simp [Nat.sub_eq_zero_iff_le]

/-- **The file is the concatenation of its records exactly when every mmap session finds 256 MiB.** -/
theorem sessions_concat_iff (file : List UInt8) {ss : List Session}
    (hs : ∀ s ∈ ss, ∀ a ∈ s.appends, a.Proper) :
    ∃ file', runSessions file ss = some file' ∧
      (file' = file ++ allRecords ss ↔ Roomy file.length ss) := by
  induction ss generalizing file with
  | nil => exact ⟨file, rfl, by simp [allRecords, Roomy]⟩
  | cons s ss ih =>
      have hs' : ∀ s' ∈ ss, ∀ a ∈ s'.appends, a.Proper := fun s' h =>
        hs s' (List.mem_cons_of_mem s h)
      have hspec := session_spec file (hs s (List.mem_cons_self ..))
      have hall : allRecords (s :: ss) = records 0 s.appends ++ allRecords ss := List.flatMap_cons
      rw [runSessions, hspec, Option.bind_eq_bind, Option.bind_some, Roomy, ← gap_eq_zero_iff, hall]
      by_cases hgap : s.gap file.length = 0
      · obtain ⟨file', hrun, hiff⟩ := ih (file ++ records 0 s.appends) hs'
        rw [List.length_append, List.append_assoc] at hiff
        rw [hgap, List.replicate_zero, List.append_nil]
        exact ⟨file', hrun, hiff.trans (and_iff_right rfl).symm⟩
      · -- the gap stays in the file
        obtain ⟨file', hrun, hlen⟩ := runSessions_length ss hs'
          (file ++ List.replicate (s.gap file.length) 0 ++ records 0 s.appends)
        refine ⟨file', hrun, fun e => ?_, fun h => absurd h.1 hgap⟩
        have hpos := Nat.pos_of_ne_zero hgap
        rw [e] at hlen
        simp only [List.length_append, List.length_replicate] at hlen
        omega

/-- A trade record with three bytes of payload. -/
def smallAppend : AppendArgs := ⟨.trade, some [1, 2, 3], 3, 0⟩

theorem smallAppend_proper : smallAppend.Proper :=
  ⟨.inr ⟨[1, 2, 3], rfl, by decide⟩, by decide⟩

theorem sessions_concat_iff_streams :
    ∃ file', runSessions [] [⟨false, [smallAppend]⟩, ⟨false, [smallAppend, smallAppend]⟩] =
        some file' ∧
      (file' = [] ++ allRecords [⟨false, [smallAppend]⟩, ⟨false, [smallAppend, smallAppend]⟩] ↔
        Roomy 0 [⟨false, [smallAppend]⟩, ⟨false, [smallAppend, smallAppend]⟩]) :=
  sessions_concat_iff [] (by simp [smallAppend_proper])

/-- **A new journal in mmap mode begins with a gap.** -/
theorem new_journal_gap : ∃ file', runSessions [] [⟨true, [smallAppend]⟩] = some file' ∧
    file' ≠ [] ++ allRecords [⟨true, [smallAppend]⟩] := by
  have hspec := session_spec [] (s := ⟨true, [smallAppend]⟩) (by simp [smallAppend_proper])
  refine ⟨_, by rw [runSessions, hspec]; rfl, fun e => ?_⟩
  have hlen := congrArg List.length e
  have hgap : (⟨true, [smallAppend]⟩ : Session).gap 0 = defaultMmapSize := rfl
  simp only [List.length_nil, hgap, allRecords, List.flatMap_cons, List.flatMap_nil,
    List.length_append, List.length_replicate] at hlen
  norm_num [defaultMmapSize] at hlen

end Aspira
