import Aspira.Support.Run
import Aspira.Journal.Decode

/-!
# Journal — Appends

Runs of `journal_append` on one handle, with whatever the system calls reply.

* A record is copied within the mapping, and the write position stays in it, exactly as long as one
  extension by 256 MiB makes room for each record (`mapped_writes_iff`).  `journal_append` extends
  once and does not look again.
* A failed append leaves nothing as it was: `sequence` has been counted up already, and the file may
  have been grown, or have got a part of the record (`append_unserved`).  A run keeps the journal in
  order exactly as long as no system call fails (`failed_append_iff`).
* A failed `mmap` stays in the handle.  `journal_close` looks for `MAP_FAILED`; `journal_append` does
  not, and the next record that fits is copied through it (`append_after_failed_mmap`).
-/

namespace Aspira

/-- One `journal_append`, and what its system calls reply. -/
def appendStep (s : Journal × List UInt8) (e : AppendArgs × AppendReply) :
    Option (Bool × Journal × List UInt8) := journalAppend e.2 s.1 s.2 e.1

/-- One `journal_append` whose system calls succeed. -/
def appendGood (s : Journal × List UInt8) (a : AppendArgs) : Option (Bool × Journal × List UInt8) :=
  journalAppend (.good a) s.1 s.2 a

/-! ### Opening -/

/-- **What a `journal_open` that succeeds gives**: a new stream, or a mapping of the whole file with
the write position at its end. -/
theorem open_cases {os : OpenReply} {file file' : List UInt8} {useMmap : Bool} {jrnl : Journal}
    (h : journalOpen os file useMmap = (some jrnl, file')) :
    (useMmap = false ∧ jrnl = ⟨false, 0, 0, 0, false, 0, 0⟩ ∧ file' = file) ∨
    (useMmap = true ∧ jrnl = ⟨true, 0, 0, file'.length, true, file'.length, file'.length⟩) := by
  obtain ⟨opens, fstat, truncates, maps⟩ := os
  cases opens with
  | false => cases h
  | true =>
      cases useMmap with
      | false =>
          obtain ⟨hj, hf⟩ := Prod.mk.inj h
          exact .inl ⟨rfl, (Option.some.inj hj).symm, hf.symm⟩
      | true =>
          right
          simp only [journalOpen, Bool.true_eq_false, if_false, if_true] at h
          by_cases hlt : (if fstat = true then file.length else 0) < defaultMmapSize
          · rw [if_pos hlt] at h
            cases truncates <;> cases maps <;> simp at h
            obtain ⟨rfl, rfl⟩ := h
            rw [ftruncate_length]
            exact ⟨rfl, rfl⟩
          · rw [if_neg hlt] at h
            cases fstat with
            | false => exact absurd (show 0 < defaultMmapSize by decide) hlt
            | true =>
                cases maps <;> simp at h
                obtain ⟨rfl, rfl⟩ := h
                exact ⟨rfl, rfl⟩

/-! ### Writes within the mapping -/

/-- Without room, the write position leaves the mapping, if the copies do not. -/
theorem append_without_room {jrnl jrnl' : Journal} {file file' : List UInt8} {a : AppendArgs}
    {ok : Bool} (h : jrnl.useMmap = true) (hroom : ¬ jrnl.Room a)
    (happ : journalAppend (.good a) jrnl file a = some (ok, jrnl', file')) :
    jrnl'.mmapSize < jrnl'.mmapOffset := by
  have hlt : jrnl.mmapSize + defaultMmapSize < jrnl.mmapOffset + a.totalSize := not_le.mp hroom
  have hext : jrnl.mmapSize < jrnl.mmapOffset + a.totalSize :=
    (Nat.le_add_right _ _).trans_lt hlt
  simp only [journalAppend, h, if_true, Journal.extend, hext, AppendReply.good,
    Bool.true_eq_false, if_false, Option.bind_eq_bind, Option.bind_eq_some_iff] at happ
  obtain ⟨f, -, heq⟩ := happ
  obtain ⟨-, hrest⟩ := Prod.mk.inj (Option.some.inj heq)
  obtain ⟨rfl, -⟩ := Prod.mk.inj hrest
  exact hlt

/-- **Mapped writes stay inside the mapping exactly as long as one extension makes room.**  A run of
appends on a mapped journal: every copy lies within the mapping, and the write position does not
leave it. -/
theorem mapped_writes_iff {os : OpenReply} {file file' : List UInt8} {jrnl : Journal}
    (hopen : journalOpen os file true = (some jrnl, file')) (as : List AppendArgs) :
    Run.Always appendGood (fun s a _ s' =>
        s.1.mmapOffset + (a.record s.1.sequence).length ≤ s'.1.mmapSize ∧
        s'.1.mmapOffset ≤ s'.1.mmapSize) (jrnl, file') as ↔
      Run.Along appendGood (fun s a => s.1.Room a) (jrnl, file') as := by
  refine Run.always_iff_along (I := fun s => s.1.Mapped s.2) (fun s a hm hroom => ?_)
    (fun s a r s' hm hroom happ hq => ?_) ?_
  · obtain ⟨j, f, happ, hm', -, hoff, -⟩ := append_room hm hroom
    refine ⟨true, (j, f), happ, hm', ?_, hm'.offset⟩
    exact (Nat.add_le_add_left (a.record_length_le _) _).trans (hoff.symm.trans_le hm'.offset)
  · exact absurd (append_without_room hm.useMmap hroom happ) (not_lt.mpr hq.2)
  · rcases open_cases hopen with ⟨hfalse, -⟩ | ⟨-, rfl⟩
    · cases hfalse
    · exact ⟨rfl, rfl, rfl, le_rfl⟩

theorem mapped_writes_iff_small :
    ∃ jrnl file', journalOpen .good [] true = (some jrnl, file') ∧
      (Run.Always appendGood (fun s a _ s' =>
          s.1.mmapOffset + (a.record s.1.sequence).length ≤ s'.1.mmapSize ∧
          s'.1.mmapOffset ≤ s'.1.mmapSize) (jrnl, file') [smallAppend] ↔
        Run.Along appendGood (fun s a => s.1.Room a) (jrnl, file') [smallAppend]) := by
  obtain ⟨jrnl, file', hopen, -⟩ := open_mapped []
  exact ⟨jrnl, file', hopen, mapped_writes_iff hopen [smallAppend]⟩

/-- A record with a payload of 256 MiB. -/
def largeAppend : AppendArgs := ⟨.snapshot, some (List.replicate (256 * 1024 * 1024) 0), 268435456, 0⟩

/-- **A record of more than 256 MiB is copied past the end of the mapping** of a new journal. -/
theorem large_record_leaves_mapping :
    ∃ jrnl file', journalOpen .good [] true = (some jrnl, file') ∧
      ¬ Run.Always appendGood (fun s a _ s' =>
          s.1.mmapOffset + (a.record s.1.sequence).length ≤ s'.1.mmapSize ∧
          s'.1.mmapOffset ≤ s'.1.mmapSize) (jrnl, file') [largeAppend] := by
  obtain ⟨jrnl, file', hopen, hm, -⟩ := open_mapped []
  refine ⟨jrnl, file', hopen, fun hall => ?_⟩
  have hroom : ¬ jrnl.Room largeAppend := by
    rcases open_cases hopen with ⟨hfalse, -⟩ | ⟨-, rfl⟩
    · cases hfalse
    · refine not_le.mpr (Nat.add_lt_add_left ?_ _)
      decide
  cases happ : appendGood (jrnl, file') largeAppend with
  | none => simp only [Run.Always, happ] at hall
  | some r =>
      simp only [Run.Always, happ] at hall
      exact absurd (append_without_room hm.useMmap hroom happ) (not_lt.mpr hall.1.2)

/-! ### Failed appends -/

/-- The system calls an append makes succeed: `ftruncate` and `mmap` when the record does not fit in
the mapping, and every `fwrite`. -/
def Served (jrnl : Journal) (a : AppendArgs) (os : AppendReply) : Prop :=
  if jrnl.useMmap then
    jrnl.mmapSize < jrnl.mmapOffset + a.totalSize → os.ftruncate = true ∧ os.mmap = true
  else 32 ≤ os.fwriteHeader ∧ a.data.length ≤ os.fwritePayload

/-- The record stream: what a replay would read if the journal were closed here. -/
def Journal.stream (jrnl : Journal) (file : List UInt8) : List UInt8 :=
  ftruncate file (jrnl.position file)

theorem extend_served {jrnl : Journal} (file : List UInt8) {a : AppendArgs} {os : AppendReply}
    (hmode : jrnl.useMmap = true) (h : Served jrnl a os) :
    jrnl.extend os file a = jrnl.extend (.good a) file a := by
  rw [Served, if_pos hmode] at h
  unfold Journal.extend
  by_cases hfit : jrnl.mmapSize < jrnl.mmapOffset + a.totalSize
  · simp [hfit, h hfit, AppendReply.good]
  · simp [hfit]

theorem append_served {jrnl : Journal} {file : List UInt8} {a : AppendArgs} {os : AppendReply}
    (h : Served jrnl a os) : journalAppend os jrnl file a = journalAppend (.good a) jrnl file a := by
  cases hmode : jrnl.useMmap with
  | true =>
      have hext := @extend_served { jrnl with sequence := jrnl.sequence + 1 } file a os hmode h
      unfold journalAppend
      dsimp only
      rw [if_pos hmode, if_pos hmode, hext]
  | false =>
      rw [Served, hmode, if_neg Bool.false_ne_true] at h
      have hhdr : (a.header jrnl.sequence).bytes.take os.fwriteHeader =
          (a.header jrnl.sequence).bytes :=
        List.take_of_length_le ((header_length _).trans_le h.1)
      have hhdr' : (a.header jrnl.sequence).bytes.take 32 = (a.header jrnl.sequence).bytes :=
        List.take_of_length_le (header_length _).le
      have hdata : a.data.take os.fwritePayload = a.data := List.take_of_length_le h.2
      simp [journalAppend, hmode, AppendReply.good, hhdr, hhdr', hdata, not_lt.mpr h.1,
        not_lt.mpr h.2]

/-- **A failed append has counted up.** -/
theorem append_unserved {jrnl : Journal} (file : List UInt8) {a : AppendArgs} {os : AppendReply}
    (h : ¬ Served jrnl a os) :
    ∃ jrnl' file', journalAppend os jrnl file a = some (false, jrnl', file') ∧
      jrnl'.sequence = jrnl.sequence + 1 := by
  unfold Served at h
  cases hmode : jrnl.useMmap with
  | true =>
      rw [hmode, if_pos rfl, Classical.not_imp, not_and_or, Bool.not_eq_true, Bool.not_eq_true] at h
      obtain ⟨hfit, hcall⟩ := h
      cases htr : os.ftruncate with
      | false =>
          refine ⟨{ jrnl with sequence := jrnl.sequence + 1 }, file, ?_, rfl⟩
          simp [journalAppend, hmode, Journal.extend, hfit, htr]
      | true =>
          have hmap : os.mmap = false := by simpa [htr] using hcall
          refine ⟨{ jrnl with sequence := jrnl.sequence + 1, mapped := false },
            ftruncate file (jrnl.mmapSize + defaultMmapSize), ?_, rfl⟩
          simp [journalAppend, hmode, Journal.extend, hfit, htr, hmap]
  | false =>
      rw [hmode, if_neg Bool.false_ne_true, not_and_or, not_le, not_le] at h
      by_cases hhdr : os.fwriteHeader < 32
      · refine ⟨{ jrnl with sequence := jrnl.sequence + 1 },
          file ++ (a.header jrnl.sequence).bytes.take os.fwriteHeader, ?_, rfl⟩
        simp [journalAppend, hmode, hhdr]
      · have hdata : os.fwritePayload < a.data.length := h.resolve_left hhdr
        refine ⟨{ jrnl with sequence := jrnl.sequence + 1 },
          file ++ (a.header jrnl.sequence).bytes.take os.fwriteHeader ++
            a.data.take os.fwritePayload, ?_, rfl⟩
        simp [journalAppend, hmode, hhdr, hdata]

/-- What a failed append is to leave as it was. -/
structure Unchanged (s s' : Journal × List UInt8) : Prop where
  stream : s'.1.stream s'.2 = s.1.stream s.2
  sequence : s'.1.sequence = s.1.sequence
  bytesWritten : s'.1.bytesWritten = s.1.bytesWritten
  mapped : s'.1.mapped = s.1.mapped
  mmapSize : s'.1.mmapSize = s.1.mmapSize
  mmapOffset : s'.1.mmapOffset = s.1.mmapOffset

/-- What a successful append is to do: the next number, and, if there is a payload of the size given,
one more whole record. -/
structure Appended (a : AppendArgs) (s s' : Journal × List UInt8) : Prop where
  sequence : s'.1.sequence = s.1.sequence + 1
  stream : a.data.length = a.payloadSize.toNat →
    s'.1.stream s'.2 = s.1.stream s.2 ++ a.record s.1.sequence

/-- An append that keeps the journal in order, whether it succeeds or fails. -/
structure InOrder (s : Journal × List UInt8) (e : AppendArgs × AppendReply) : Prop where
  /-- Where the copies are reached, the mapping is one. -/
  mapping : s.1.useMmap = true → ∀ jrnl file,
    ({ s.1 with sequence := s.1.sequence + 1 } : Journal).extend e.2 s.2 e.1 = (true, jrnl, file) →
      jrnl.mapped = true
  failed : ∀ s', appendStep s e = some (false, s') → Unchanged s s'
  done : ∀ s', appendStep s e = some (true, s') → Appended e.1 s s'

/-- A handle whose mapping, if it has one, is valid and as long as the file. -/
def Attached (s : Journal × List UInt8) : Prop :=
  s.1.useMmap = true → s.1.mapped = true ∧ s.1.mmapSize = s.2.length

theorem ftruncate_of_le {file : List UInt8} {k : ℕ} (h : k ≤ file.length) :
    ftruncate file k = file.take k := by
  rw [ftruncate, Nat.sub_eq_zero_of_le h, List.replicate_zero, List.append_nil]

/-- Cut twice is cut once. -/
theorem take_ftruncate_eq (file : List UInt8) {k n : ℕ} (h : k ≤ n) :
    (ftruncate file n).take k = ftruncate file k := by
  by_cases hk : k ≤ file.length
  · rw [take_ftruncate h hk, ftruncate_of_le hk]
  · have hk' : file.length ≤ k := le_of_not_ge hk
    rw [ftruncate, ftruncate, List.take_of_length_le (hk'.trans h), List.take_of_length_le hk',
      List.take_append, List.take_of_length_le hk', List.take_replicate,
      min_eq_left (Nat.sub_le_sub_right h _)]

/-- An extension keeps the handle attached, and the stream. -/
theorem extend_attached {jrnl : Journal} {file : List UInt8} (a : AppendArgs)
    (hmap : jrnl.mapped = true) (hsize : jrnl.mmapSize = file.length) :
    ∃ j f, jrnl.extend (.good a) file a = (true, j, f) ∧ j.mapped = true ∧
      j.mmapSize = f.length ∧ j.mmapOffset = jrnl.mmapOffset ∧ j.sequence = jrnl.sequence ∧
      j.useMmap = jrnl.useMmap ∧ ∀ k ≤ f.length, f.take k = ftruncate file k := by
  unfold Journal.extend
  by_cases hfit : jrnl.mmapSize < jrnl.mmapOffset + a.totalSize
  · rw [if_pos hfit]
    refine ⟨_, _, rfl, rfl, (ftruncate_length _ _).symm, rfl, rfl, rfl, fun k hk => ?_⟩
    rw [ftruncate_length] at hk
    exact take_ftruncate_eq file hk
  · rw [if_neg hfit]
    exact ⟨jrnl, file, rfl, hmap, hsize, rfl, rfl, rfl, fun k hk => (ftruncate_of_le hk).symm⟩

/-- **An append whose calls succeed** appends the record, or copies it past the end of the mapping. -/
theorem append_attached {jrnl : Journal} {file : List UInt8} {a : AppendArgs}
    {r : Bool × Journal × List UInt8} (h : Attached (jrnl, file))
    (happ : journalAppend (.good a) jrnl file a = some r) :
    r.1 = true ∧ Attached r.2 ∧ Appended a (jrnl, file) r.2 := by
  cases hmode : jrnl.useMmap with
  | false =>
      obtain ⟨jrnl', happ', hmode', hseq⟩ := append_stream file a hmode
      obtain rfl : (true, jrnl', file ++ a.record jrnl.sequence) = r :=
        Option.some.inj (happ'.symm.trans happ)
      refine ⟨rfl, fun ht => ?_, hseq, fun _ => ?_⟩
      · rw [show jrnl'.useMmap = true from ht] at hmode'
        cases hmode'
      · simp [Journal.stream, Journal.position, hmode, hmode', ftruncate_of_le]
  | true =>
      obtain ⟨hmap, hsize⟩ := h hmode
      obtain ⟨j, f, hext, hjmap, hjsize, hoff, hseq, hjmode, htake⟩ :=
        @extend_attached { jrnl with sequence := jrnl.sequence + 1 } file a hmap hsize
      simp only [journalAppend, if_pos hmode, hext, Option.bind_eq_bind, Option.bind_eq_some_iff,
        Journal.mapWrite] at happ
      obtain ⟨file', hwrite, heq⟩ := happ
      split at hwrite
      · rename_i hin
        obtain rfl := Option.some.inj hwrite
        obtain rfl := Option.some.inj heq
        have hfile : j.mmapOffset + (a.record jrnl.sequence).length ≤ f.length :=
          hin.2.trans (min_le_right _ _)
        refine ⟨rfl, fun _ => ⟨hjmap, ?_⟩, hseq, fun hdata => ?_⟩
        · exact hjsize.trans (overwrite_length hfile).symm
        · have hrec : (a.record jrnl.sequence).length = a.totalSize := by
            rw [AppendArgs.record, List.length_append, header_length, hdata]
            rfl
          have hstream : jrnl.stream file = f.take j.mmapOffset := by
            rw [Journal.stream, Journal.position, if_pos hmode, hoff]
            exact (htake _ ((hoff.symm.le.trans (Nat.le_add_right _ _)).trans hfile)).symm
          have hlen : j.mmapOffset + a.totalSize ≤
              (overwrite f j.mmapOffset (a.record jrnl.sequence)).length := by
            rw [overwrite_length hfile, ← hrec]
            exact hfile
          change ftruncate (overwrite f j.mmapOffset (a.record jrnl.sequence))
            (if j.useMmap = true then j.mmapOffset + a.totalSize else _) = _
          rw [if_pos (hjmode.trans hmode), ftruncate_of_le hlen, ← hrec,
            take_overwrite ((Nat.le_add_right _ _).trans hfile), hstream]
      · cases hwrite

/-- **An append keeps the journal in order exactly when its system calls succeed.** -/
theorem inOrder_iff {s : Journal × List UInt8} {e : AppendArgs × AppendReply} (h : Attached s) :
    InOrder s e ↔ Served s.1 e.1 e.2 := by
  constructor
  · intro hord
    by_contra hserved
    obtain ⟨jrnl', file', happ, hseq⟩ := append_unserved s.2 hserved
    have hsame := (hord.failed (jrnl', file') happ).sequence
    rw [show (jrnl', file').1.sequence = s.1.sequence + 1 from hseq] at hsame
    exact absurd hsame (by simp)
  · intro hserved
    refine ⟨fun hmode jrnl file hext => ?_, fun s' happ => ?_, fun s' happ => ?_⟩
    · obtain ⟨hmap, hsize⟩ := h hmode
      obtain ⟨j, f, hext', hjmap, -⟩ :=
        @extend_attached { s.1 with sequence := s.1.sequence + 1 } s.2 e.1 hmap hsize
      rw [@extend_served { s.1 with sequence := s.1.sequence + 1 } s.2 e.1 e.2 hmode hserved, hext']
        at hext
      obtain ⟨-, hrest⟩ := Prod.mk.inj hext
      obtain ⟨rfl, -⟩ := Prod.mk.inj hrest
      exact hjmap
    · rw [appendStep, append_served hserved] at happ
      exact absurd (append_attached h happ).1 Bool.false_ne_true
    · rw [appendStep, append_served hserved] at happ
      exact (append_attached h happ).2.2

/-- **A run of appends keeps the journal in order exactly as long as no system call fails.**  In order:
an append that fails leaves the stream and the handle as they were, one that succeeds adds one whole
record with the next number, and none copies through an invalid mapping. -/
theorem failed_append_iff {os : OpenReply} {file file' : List UInt8} {useMmap : Bool} {jrnl : Journal}
    (hopen : journalOpen os file useMmap = (some jrnl, file'))
    (calls : List (AppendArgs × AppendReply)) :
    Run.Along appendStep InOrder (jrnl, file') calls ↔
      Run.Along appendStep (fun s e => Served s.1 e.1 e.2) (jrnl, file') calls := by
  refine Run.along_iff_along (I := Attached) (fun s e h => inOrder_iff h)
    (fun s e r s' h hserved happ => ?_) ?_
  · rw [appendStep, append_served hserved] at happ
    exact (append_attached h happ).2.1
  · rcases open_cases hopen with ⟨-, rfl, -⟩ | ⟨-, rfl⟩
    · intro hmode
      cases hmode
    · exact fun _ => ⟨rfl, rfl⟩

/-- A stream that takes one record and half the header of the next. -/
theorem failed_append_iff_torn :
    Run.Along appendStep InOrder (⟨false, 0, 0, 0, false, 0, 0⟩, [])
        [(smallAppend, .good smallAppend), (smallAppend, ⟨true, true, 16, 0⟩)] ↔
      Run.Along appendStep (fun s e => Served s.1 e.1 e.2) (⟨false, 0, 0, 0, false, 0, 0⟩, [])
        [(smallAppend, .good smallAppend), (smallAppend, ⟨true, true, 16, 0⟩)] :=
  @failed_append_iff .good [] [] false ⟨false, 0, 0, 0, false, 0, 0⟩ rfl _

/-- **A header written in part** is a failed append that leaves its bytes in the stream and its number
used. -/
theorem torn_header_changes :
    ∃ jrnl file, journalOpen .good [] false = (some jrnl, file) ∧
      ¬ Run.Along appendStep InOrder (jrnl, file) [(smallAppend, ⟨true, true, 16, 0⟩)] := by
  refine ⟨⟨false, 0, 0, 0, false, 0, 0⟩, [], rfl, fun h => ?_⟩
  have hsame := (h.1.failed _ rfl).sequence
  exact absurd hsame (by decide)

/-- **After an `mmap` that failed**, a record that fits in what the mapping was is copied through the
invalid one. -/
theorem append_after_failed_mmap {jrnl : Journal} {file : List UInt8} {a b : AppendArgs}
    {os os' : AppendReply} (hmode : jrnl.useMmap = true)
    (hext : jrnl.mmapSize < jrnl.mmapOffset + a.totalSize) (htr : os.ftruncate = true)
    (hmap : os.mmap = false) (hfits : jrnl.mmapOffset + b.totalSize ≤ jrnl.mmapSize) :
    ∃ s', appendStep (jrnl, file) (a, os) = some (false, s') ∧ appendStep s' (b, os') = none := by
  refine ⟨({ jrnl with sequence := jrnl.sequence + 1, mapped := false },
    ftruncate file (jrnl.mmapSize + defaultMmapSize)), ?_, ?_⟩
  · simp [appendStep, journalAppend, hmode, Journal.extend, hext, htr, hmap]
  · simp [appendStep, journalAppend, hmode, Journal.extend, not_lt.mpr hfits, Journal.mapWrite]

end Aspira
