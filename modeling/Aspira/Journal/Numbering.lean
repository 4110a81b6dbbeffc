import Aspira.Journal.Appends

/-!
# Journal — Numbering

The sequence numbers in a file that several sessions have written.  The counter is in the handle, and
`journal_open` starts it at 0; the records are in the file.

* The stream of a journal only grows, whatever the system calls reply (`append_grows`), so the records
  of later appends stand after those of earlier ones (`sessionMarks_position`), and stay there
  (`sessionMarks_in`).
* Within one session the numbers increase, failed appends included: each call uses one up
  (`marks_number`).  A second session starts at 0 again, so over a file they increase as long as at
  most one session writes records, and no longer (`numbers_increase`).
-/

namespace Aspira

/-- The appends of one session, each with what its system calls reply. -/
structure SessionCalls where
  useMmap : Bool
  calls : List (AppendArgs × AppendReply)

/-- A record in the file: where its header starts, and its sequence number. -/
structure Mark where
  position : ℕ
  number : UInt64
  deriving DecidableEq

/-- The records a run of appends writes, in the order of the calls. -/
def marks : Journal × List UInt8 → List (AppendArgs × AppendReply) → List Mark
  | _, [] => []
  | s, e :: es =>
      match appendStep s e with
      | none => []
      | some (ok, s') =>
          if ok then ⟨s.1.position s.2, s.1.sequence⟩ :: marks s' es else marks s' es

/-- The records each of some sessions writes, and the file at the end, if it is defined. -/
def runCalls (file : List UInt8) : List SessionCalls → List (List Mark) × Option (List UInt8)
  | [] => ([], some file)
  | s :: ss =>
      match journalOpen .good file s.useMmap with
      | (none, file) => runCalls file ss
      | (some jrnl, file) =>
          match Run.exec appendStep (jrnl, file) s.calls with
          | none => ([marks (jrnl, file) s.calls], none)
          | some (_, jrnl', file') =>
              let rest := runCalls (journalClose jrnl' file') ss
              (marks (jrnl, file) s.calls :: rest.1, rest.2)

/-- The records of a file, in the order in which they were written. -/
def fileMarks (file : List UInt8) (ss : List SessionCalls) : List Mark := (runCalls file ss).1.flatten

/-! ### The stream only grows -/

/-- The file is at most one extension longer than the mapping. -/
def Short (s : Journal × List UInt8) : Prop :=
  s.1.useMmap = true → s.2.length ≤ s.1.mmapSize + defaultMmapSize

theorem ftruncate_ftruncate {file : List UInt8} {n : ℕ} (h : file.length ≤ n) (k : ℕ) :
    ftruncate (ftruncate file n) k = ftruncate file k := by
  by_cases hk : k ≤ n
  · rw [ftruncate_of_le (hk.trans (ftruncate_length file n).ge), take_ftruncate_eq file hk]
  · have hk' : n ≤ k := le_of_not_ge hk
    have hzeros : n - file.length + (k - n) = k - file.length := by omega
    rw [ftruncate, ftruncate_length, List.take_of_length_le ((ftruncate_length file n).trans_le hk'),
      ftruncate, ftruncate, List.take_of_length_le h, List.take_of_length_le (h.trans hk'),
      List.append_assoc, List.replicate_append_replicate, hzeros]

theorem ftruncate_prefix (file : List UInt8) {k n : ℕ} (h : k ≤ n) :
    ftruncate file k <+: ftruncate file n := by
  rw [← take_ftruncate_eq file h]
  exact List.take_prefix _ _

theorem stream_length (jrnl : Journal) (file : List UInt8) :
    (jrnl.stream file).length = jrnl.position file := ftruncate_length _ _

theorem stream_of_stdio {jrnl : Journal} (h : jrnl.useMmap = false) (file : List UInt8) :
    jrnl.stream file = file := by
  rw [Journal.stream, Journal.position, h, if_neg Bool.false_ne_true, ftruncate_of_le le_rfl,
    List.take_length]

theorem stream_of_mmap {jrnl : Journal} (h : jrnl.useMmap = true) (file : List UInt8) :
    jrnl.stream file = ftruncate file jrnl.mmapOffset := by
  rw [Journal.stream, Journal.position, h, if_pos rfl]

/-- Closing leaves the stream. -/
theorem close_eq_stream (jrnl : Journal) (file : List UInt8) :
    journalClose jrnl file = jrnl.stream file := by
  cases h : jrnl.useMmap with
  | false => rw [stream_of_stdio h, journalClose, h, if_neg Bool.false_ne_true]
  | true => rw [stream_of_mmap h, journalClose, h, if_pos rfl]

/-- What an extension can do, whatever the system calls reply: the file gets longer, if anything. -/
theorem extend_grows {os : AppendReply} {jrnl j : Journal} {file f : List UInt8} {a : AppendArgs}
    {ok : Bool} (h : file.length ≤ jrnl.mmapSize + defaultMmapSize)
    (hext : jrnl.extend os file a = (ok, j, f)) :
    j.sequence = jrnl.sequence ∧ j.useMmap = jrnl.useMmap ∧ j.mmapOffset = jrnl.mmapOffset ∧
      f.length ≤ j.mmapSize + defaultMmapSize ∧ ∀ k, ftruncate f k = ftruncate file k := by
  unfold Journal.extend at hext
  split at hext
  · split at hext
    · obtain ⟨-, rfl, rfl⟩ := by simpa using hext
      exact ⟨rfl, rfl, rfl, h, fun _ => rfl⟩
    · split at hext
      · obtain ⟨-, rfl, rfl⟩ := by simpa using hext
        exact ⟨rfl, rfl, rfl, (ftruncate_length _ _).le, ftruncate_ftruncate h⟩
      · obtain ⟨-, rfl, rfl⟩ := by simpa using hext
        exact ⟨rfl, rfl, rfl, (ftruncate_length _ _).le.trans (Nat.le_add_right _ _),
          ftruncate_ftruncate h⟩
  · obtain ⟨-, rfl, rfl⟩ := by simpa using hext
    exact ⟨rfl, rfl, rfl, h, fun _ => rfl⟩

/-- Every call uses one number up, and the stream before it is a prefix of the one after it; if it
succeeds, the header comes next. -/
structure Grows (s : Journal × List UInt8) (e : AppendArgs × AppendReply) (ok : Bool)
    (s' : Journal × List UInt8) : Prop where
  short : Short s'
  sequence : s'.1.sequence = s.1.sequence + 1
  stream : s.1.stream s.2 <+: s'.1.stream s'.2
  header : ok = true → s.1.stream s.2 ++ (e.1.header s.1.sequence).bytes <+: s'.1.stream s'.2

theorem append_grows_stdio {s s' : Journal × List UInt8} {e : AppendArgs × AppendReply} {ok : Bool}
    (hmode : s.1.useMmap = false) (happ : appendStep s e = some (ok, s')) : Grows s e ok s' := by
  have hgrow : ∀ (jrnl : Journal) (more : List UInt8) (ok : Bool), jrnl.useMmap = false →
      jrnl.sequence = s.1.sequence + 1 →
      (ok = true → (e.1.header s.1.sequence).bytes <+: more) → Grows s e ok (jrnl, s.2 ++ more) := by
    intro jrnl more ok hj hseq hhdr
    have hshort : Short (jrnl, s.2 ++ more) := by
      intro ht
      rw [show jrnl.useMmap = true from ht] at hj
      cases hj
    have hstream : jrnl.stream (s.2 ++ more) = s.1.stream s.2 ++ more := by
      rw [stream_of_stdio hmode, stream_of_stdio hj]
    refine ⟨hshort, hseq, ?_, fun hok => ?_⟩
    · exact hstream ▸ List.prefix_append _ _
    · exact hstream ▸ (List.prefix_append_right_inj _).mpr (hhdr hok)
  simp only [appendStep, journalAppend, hmode, Bool.false_eq_true, if_false] at happ
  split at happ
  · obtain ⟨rfl, rfl⟩ := Prod.mk.inj (Option.some.inj happ)
    exact hgrow _ _ _ rfl rfl Bool.false_ne_true.elim
  · rename_i hfull
    have hhdr : (e.1.header s.1.sequence).bytes.take e.2.fwriteHeader =
        (e.1.header s.1.sequence).bytes :=
      List.take_of_length_le ((header_length _).trans_le (not_lt.mp hfull))
    rw [hhdr, List.append_assoc] at happ
    split at happ
    · obtain ⟨rfl, rfl⟩ := Prod.mk.inj (Option.some.inj happ)
      exact hgrow _ _ _ rfl rfl Bool.false_ne_true.elim
    · obtain ⟨rfl, rfl⟩ := Prod.mk.inj (Option.some.inj happ)
      exact hgrow _ _ _ rfl rfl fun _ => List.prefix_append _ _

theorem append_grows_mmap {s s' : Journal × List UInt8} {e : AppendArgs × AppendReply} {ok : Bool}
    (h : Short s) (hmode : s.1.useMmap = true) (happ : appendStep s e = some (ok, s')) :
    Grows s e ok s' := by
  obtain ⟨jrnl, file⟩ := s
  cases hext : ({ jrnl with sequence := jrnl.sequence + 1 } : Journal).extend e.2 file e.1 with
  | mk ok' r =>
      obtain ⟨j, f⟩ := r
      have hshort : file.length ≤ ({ jrnl with sequence := jrnl.sequence + 1 } : Journal).mmapSize +
          defaultMmapSize := h hmode
      obtain ⟨hseq, hjmode, hoff, hlen, hcut⟩ := extend_grows hshort hext
      have hstream : jrnl.stream file = ftruncate f j.mmapOffset := by
        rw [stream_of_mmap hmode, hcut, hoff]
      simp only [appendStep, journalAppend, if_pos hmode, hext] at happ
      cases ok' with
      | false =>
          obtain ⟨rfl, rfl⟩ := Prod.mk.inj (Option.some.inj happ)
          refine ⟨fun _ => hlen, hseq, ?_, Bool.false_ne_true.elim⟩
          rw [hstream, stream_of_mmap (hjmode.trans hmode)]
      | true =>
          simp only [Journal.mapWrite, Option.bind_eq_bind, Option.bind_eq_some_iff] at happ
          obtain ⟨f', hwrite, heq⟩ := happ
          split at hwrite
          · rename_i hin
            obtain rfl := Option.some.inj hwrite
            obtain ⟨rfl, rfl⟩ := Prod.mk.inj (Option.some.inj heq)
            -- the record lies within the file, and the new position is not before its end
            have hfile : j.mmapOffset + (e.1.record jrnl.sequence).length ≤ f.length :=
              hin.2.trans (min_le_right _ _)
            have hlen' := overwrite_length hfile
            have hnew := @stream_of_mmap { j with
              mmapOffset := j.mmapOffset + e.1.totalSize
              bytesWritten := j.bytesWritten + UInt64.ofNat e.1.totalSize } (hjmode.trans hmode)
              (overwrite f j.mmapOffset (e.1.record jrnl.sequence))
            have hrec : jrnl.stream file ++ e.1.record jrnl.sequence <+:
                ftruncate (overwrite f j.mmapOffset (e.1.record jrnl.sequence))
                  (j.mmapOffset + e.1.totalSize) := by
              have hpre := ftruncate_prefix (overwrite f j.mmapOffset (e.1.record jrnl.sequence))
                (Nat.add_le_add_left (e.1.record_length_le jrnl.sequence) j.mmapOffset)
              have hstart : j.mmapOffset ≤ f.length := (Nat.le_add_right _ _).trans hfile
              rwa [ftruncate_of_le (hlen'.symm ▸ hfile), take_overwrite hstart,
                ← ftruncate_of_le hstart, ← hstream] at hpre
            rw [← hnew] at hrec
            refine ⟨fun _ => (hlen'.trans_le hlen), hseq, ?_, fun _ => ?_⟩
            · exact (List.prefix_append _ _).trans hrec
            · refine List.IsPrefix.trans ?_ hrec
              exact (List.prefix_append_right_inj _).mpr (List.prefix_append _ _)
          · cases hwrite

/-- **The stream only grows**, whatever the system calls reply. -/
theorem append_grows {s s' : Journal × List UInt8} {e : AppendArgs × AppendReply} {ok : Bool}
    (h : Short s) (happ : appendStep s e = some (ok, s')) : Grows s e ok s' := by
  cases hmode : s.1.useMmap with
  | false => exact append_grows_stdio hmode happ
  | true => exact append_grows_mmap h hmode happ

theorem Grows.position_le {s s' : Journal × List UInt8} {e : AppendArgs × AppendReply} {ok : Bool}
    (h : Grows s e ok s') : s.1.position s.2 ≤ s'.1.position s'.2 := by
  rw [← stream_length, ← stream_length]
  exact h.stream.length_le

theorem Grows.position_lt {s s' : Journal × List UInt8} {e : AppendArgs × AppendReply}
    (h : Grows s e true s') : s.1.position s.2 < s'.1.position s'.2 := by
  have hlen := (h.header rfl).length_le
  rw [List.length_append, header_length, stream_length, stream_length] at hlen
  omega

/-! ### One session -/

theorem marks_done {s s' : Journal × List UInt8} {e : AppendArgs × AppendReply}
    (h : appendStep s e = some (true, s')) (es : List (AppendArgs × AppendReply)) :
    marks s (e :: es) = ⟨s.1.position s.2, s.1.sequence⟩ :: marks s' es := by
  simp [marks, h]

theorem marks_failed {s s' : Journal × List UInt8} {e : AppendArgs × AppendReply}
    (h : appendStep s e = some (false, s')) (es : List (AppendArgs × AppendReply)) :
    marks s (e :: es) = marks s' es := by
  simp [marks, h]

theorem marks_undefined {s : Journal × List UInt8} {e : AppendArgs × AppendReply}
    (h : appendStep s e = none) (es : List (AppendArgs × AppendReply)) : marks s (e :: es) = [] := by
  simp [marks, h]

/-- **What increases along a session.**  `J s n k` says that `n` is reached in the state `s` and that
`k` more calls are allowed; a record is worth what was reached before it. -/
theorem marks_increase {J : Journal × List UInt8 → ℕ → ℕ → Prop} {v : Mark → ℕ}
    (hmark : ∀ {s n k}, J s n (k + 1) → v ⟨s.1.position s.2, s.1.sequence⟩ = n)
    (hstep : ∀ {s n k e ok s'}, J s n (k + 1) → appendStep s e = some (ok, s') →
      ∃ n', J s' n' k ∧ n ≤ n' ∧ (ok = true → n < n')) (es : List (AppendArgs × AppendReply)) :
    ∀ {s : Journal × List UInt8} {n : ℕ}, J s n es.length →
      (∀ m ∈ marks s es, n ≤ v m) ∧ (marks s es).Pairwise fun m m' => v m < v m' := by
  induction es with
  | nil =>
      intro s n _
      exact ⟨by simp [marks], .nil⟩
  | cons e es ih =>
      intro s n h
      match happ : appendStep s e with
      | none =>
          rw [marks_undefined happ]
          exact ⟨by simp, .nil⟩
      | some (false, s') =>
          obtain ⟨n', h', hn, -⟩ := hstep h happ
          obtain ⟨hle, hpair⟩ := ih h'
          rw [marks_failed happ]
          exact ⟨fun m hm => hn.trans (hle m hm), hpair⟩
      | some (true, s') =>
          obtain ⟨n', h', hn, hlt⟩ := hstep h happ
          obtain ⟨hle, hpair⟩ := ih h'
          have hvalue : v ⟨s.1.position s.2, s.1.sequence⟩ = n := hmark h
          rw [marks_done happ, List.pairwise_cons]
          refine ⟨fun m hm => ?_, fun m hm => ?_, hpair⟩
          · rcases List.mem_cons.mp hm with rfl | hm
            · exact hvalue.ge
            · exact hn.trans (hle m hm)
          · rw [hvalue]
            exact (hlt rfl).trans_le (hle m hm)

/-- The records of a session stand one after the other, from the write position on. -/
theorem marks_position (es : List (AppendArgs × AppendReply)) {s : Journal × List UInt8}
    (h : Short s) : (∀ m ∈ marks s es, s.1.position s.2 ≤ m.position) ∧
      (marks s es).Pairwise fun m m' => m.position < m'.position := by
  refine marks_increase (J := fun s n _ => Short s ∧ s.1.position s.2 = n) (v := Mark.position)
    (fun h => h.2) ?_ es ⟨h, rfl⟩
  rintro s n k e ok s' ⟨hs, rfl⟩ happ
  have hg := append_grows hs happ
  refine ⟨_, ⟨hg.short, rfl⟩, hg.position_le, ?_⟩
  rintro rfl
  exact hg.position_lt

/-- **Within a session the numbers increase**: each call uses one up. -/
theorem marks_number (es : List (AppendArgs × AppendReply)) {s : Journal × List UInt8} {n : ℕ}
    (h : Short s) (hseq : s.1.sequence = UInt64.ofNat n) (hlen : n + es.length ≤ 2 ^ 64) :
    (∀ m ∈ marks s es, n ≤ m.number.toNat) ∧
      (marks s es).Pairwise fun m m' => m.number < m'.number := by
  refine marks_increase (J := fun s n k => Short s ∧ s.1.sequence = UInt64.ofNat n ∧ n + k ≤ 2 ^ 64)
    (v := fun m => m.number.toNat) ?_ ?_ es ⟨h, hseq, hlen⟩
  · rintro s n k ⟨-, hseq, hlen⟩
    show s.1.sequence.toNat = n
    rw [hseq]
    exact UInt64.toNat_ofNat_of_lt' (by change n < 2 ^ 64; omega)
  · rintro s n k e ok s' ⟨hs, hseq, hlen⟩ happ
    have hg := append_grows hs happ
    refine ⟨n + 1, ⟨hg.short, ?_, by omega⟩, Nat.le_succ n, fun _ => Nat.lt_succ_self n⟩
    rw [hg.sequence, hseq, UInt64.ofNat_add]
    rfl

/-- The header of a record stands in some bytes. -/
def Mark.In (m : Mark) (bytes : List UInt8) : Prop :=
  ∃ hdr : JournalHeader, hdr.sequenceNumber = m.number ∧ hdr.bytes <+: bytes.drop m.position

theorem Mark.In.mono {m : Mark} {bytes bytes' : List UInt8} (h : m.In bytes)
    (hpre : bytes <+: bytes') : m.In bytes' := by
  obtain ⟨hdr, hnum, hin⟩ := h
  exact ⟨hdr, hnum, hin.trans (hpre.drop _)⟩

theorem Mark.In.position_lt {m : Mark} {bytes : List UInt8} (h : m.In bytes) :
    m.position < bytes.length := by
  obtain ⟨hdr, -, hin⟩ := h
  have hlen := hin.length_le
  rw [header_length, List.length_drop] at hlen
  omega

/-- A reader finds the number. -/
theorem Mark.In.read {m : Mark} {bytes : List UInt8} (h : m.In bytes) :
    (readHeader (bytes.drop m.position)).sequenceNumber = m.number := by
  obtain ⟨hdr, hnum, rest, hrest⟩ := h
  rw [← hrest, readHeader_bytes, hnum]

/-- **The records of a session stay in the stream.** -/
theorem exec_grows (es : List (AppendArgs × AppendReply)) :
    ∀ {s s' : Journal × List UInt8} {rs : List Bool}, Short s →
      Run.exec appendStep s es = some (rs, s') →
      s.1.stream s.2 <+: s'.1.stream s'.2 ∧ ∀ m ∈ marks s es, m.In (s'.1.stream s'.2) := by
  induction es with
  | nil =>
      intro s s' rs _ hexec
      obtain ⟨-, rfl⟩ := Prod.mk.inj (Option.some.inj hexec)
      exact ⟨List.prefix_rfl, by simp [marks]⟩
  | cons e es ih =>
      intro s s' rs h hexec
      obtain ⟨ok, s₁, rs', happ, hexec', -⟩ := Run.exec_cons_some hexec
      have hg := append_grows h happ
      obtain ⟨hpre, hin⟩ := ih hg.short hexec'
      refine ⟨hg.stream.trans hpre, ?_⟩
      cases ok with
      | false =>
          rw [marks_failed happ]
          exact hin
      | true =>
          rw [marks_done happ]
          intro m hm
          rcases List.mem_cons.mp hm with rfl | hm
          · refine ⟨e.1.header s.1.sequence, rfl, ?_⟩
            have hdrop := ((hg.header rfl).trans hpre).drop (s.1.position s.2)
            rwa [List.drop_left' (stream_length s.1 s.2)] at hdrop
          · exact hin m hm

/-! ### Sessions on one file -/

/-- The mapping has no room. -/
def Full (s : Journal × List UInt8) : Prop := s.1.useMmap = true → s.1.mmapSize ≤ s.1.mmapOffset

theorem open_good (file : List UInt8) (useMmap : Bool) :
    ∃ jrnl file', journalOpen .good file useMmap = (some jrnl, file') ∧
      (jrnl.useMmap = true → jrnl.Mapped file') ∧ jrnl.sequence = 0 ∧
      file <+: jrnl.stream file' ∧ Full (jrnl, file') ∧ jrnl.useMmap = useMmap := by
  cases useMmap with
  | false =>
      refine ⟨⟨false, 0, 0, 0, false, 0, 0⟩, file, rfl, Bool.false_ne_true.elim, rfl, ?_,
        Bool.false_ne_true.elim, rfl⟩
      rw [stream_of_stdio rfl]
  | true =>
      obtain ⟨jrnl, file', hopen, hm, hseq, hw⟩ := open_mapped file
      refine ⟨jrnl, file', hopen, fun _ => hm, hseq, ?_, fun _ => ?_, hm.useMmap⟩
      · rw [stream_of_mmap hm.useMmap, ftruncate_of_le (hm.offset.trans hm.size.le)]
        exact ⟨_, hw.symm⟩
      · -- the write position is at the end of the mapping
        by_cases hlt : file.length < defaultMmapSize
        · simp [journalOpen, OpenReply.good, hlt] at hopen
          rw [← hopen.1]
        · simp [journalOpen, OpenReply.good, hlt] at hopen
          rw [← hopen.1]

theorem short_of_mapped {s : Journal × List UInt8}
    (h : s.1.useMmap = true → s.1.Mapped s.2) : Short s := by
  intro hmode
  exact (h hmode).size.ge.trans (Nat.le_add_right _ _)

section
variable {file f : List UInt8} {jrnl : Journal} {s : SessionCalls} {ss : List SessionCalls}

theorem fileMarks_cut (hopen : journalOpen .good file s.useMmap = (some jrnl, f))
    (hexec : Run.exec appendStep (jrnl, f) s.calls = none) :
    fileMarks file (s :: ss) = marks (jrnl, f) s.calls ∧ (runCalls file (s :: ss)).2 = none := by
  simp [fileMarks, runCalls, hopen, hexec]

theorem fileMarks_cons (hopen : journalOpen .good file s.useMmap = (some jrnl, f))
    {rs : List Bool} {t : Journal × List UInt8}
    (hexec : Run.exec appendStep (jrnl, f) s.calls = some (rs, t)) :
    fileMarks file (s :: ss) =
        marks (jrnl, f) s.calls ++ fileMarks (t.1.stream t.2) ss ∧
      (runCalls file (s :: ss)).2 = (runCalls (t.1.stream t.2) ss).2 := by
  simp [fileMarks, runCalls, hopen, hexec, close_eq_stream]

end

/-- **The order of writing is the order in the file.** -/
theorem sessionMarks_position (ss : List SessionCalls) :
    ∀ file, (∀ m ∈ fileMarks file ss, file.length ≤ m.position) ∧
      (fileMarks file ss).Pairwise fun m m' => m.position < m'.position := by
  induction ss with
  | nil =>
      intro file
      exact ⟨by simp [fileMarks, runCalls], .nil⟩
  | cons s ss ih =>
      intro file
      obtain ⟨jrnl, f, hopen, hm, -, hpre, -⟩ := open_good file s.useMmap
      have hshort : Short (jrnl, f) := short_of_mapped hm
      obtain ⟨hle, hpair⟩ := marks_position s.calls hshort
      have hstart : file.length ≤ jrnl.position f := by
        rw [← stream_length]
        exact hpre.length_le
      cases hexec : Run.exec appendStep (jrnl, f) s.calls with
      | none =>
          rw [(fileMarks_cut hopen hexec).1]
          exact ⟨fun m hm => hstart.trans (hle m hm), hpair⟩
      | some r =>
          obtain ⟨hpre', hin⟩ := exec_grows s.calls hshort hexec
          obtain ⟨hle', hpair'⟩ := ih (r.2.1.stream r.2.2)
          rw [(fileMarks_cons hopen hexec).1]
          refine ⟨fun m hm => ?_, List.pairwise_append.mpr ⟨hpair, hpair', fun m hm m' hm' => ?_⟩⟩
          · rcases List.mem_append.mp hm with hm | hm
            · exact hstart.trans (hle m hm)
            · exact (hpre.trans hpre').length_le.trans (hle' m hm)
          · exact (hin m hm).position_lt.trans_le (hle' m' hm')

/-- **What was in the file stays**, and the records with it. -/
theorem sessionMarks_in (ss : List SessionCalls) :
    ∀ {file file' : List UInt8}, (runCalls file ss).2 = some file' →
      file <+: file' ∧ ∀ m ∈ fileMarks file ss, m.In file' := by
  induction ss with
  | nil =>
      intro file file' h
      obtain rfl := Option.some.inj h
      exact ⟨List.prefix_rfl, by simp [fileMarks, runCalls]⟩
  | cons s ss ih =>
      intro file file' h
      obtain ⟨jrnl, f, hopen, hm, -, hpre, -⟩ := open_good file s.useMmap
      cases hexec : Run.exec appendStep (jrnl, f) s.calls with
      | none =>
          rw [(fileMarks_cut hopen hexec).2] at h
          cases h
      | some r =>
          obtain ⟨hpre', hin⟩ := exec_grows s.calls (short_of_mapped hm) hexec
          rw [(fileMarks_cons hopen hexec).2] at h
          obtain ⟨hpre'', hin'⟩ := ih h
          refine ⟨(hpre.trans hpre').trans hpre'', fun m hm => ?_⟩
          rw [(fileMarks_cons hopen hexec).1] at hm
          rcases List.mem_append.mp hm with hm | hm
          · exact (hin m hm).mono hpre''
          · exact hin' m hm

/-! ### Numbers over a file -/

/-- What the system calls of an append reply when it writes no record: the mapping is not extended, or
the stream does not take the whole of it. -/
def Failing (useMmap : Bool) (e : AppendArgs × AppendReply) : Prop :=
  if useMmap then e.2.ftruncate = false ∨ e.2.mmap = false
  else e.2.fwriteHeader < 32 ∨ e.2.fwritePayload < e.1.data.length

/-- A session none of whose appends writes a record. -/
def SessionCalls.Idle (s : SessionCalls) : Prop := ∀ e ∈ s.calls, Failing s.useMmap e

/-- At most one of the sessions writes records. -/
def OneWrites (ss : List SessionCalls) : Prop := ss.Pairwise fun s s' => s.Idle ∨ s'.Idle

theorem append_failing {s : Journal × List UInt8} {e : AppendArgs × AppendReply} (h : Full s)
    (he : Failing s.1.useMmap e) :
    ∃ s', appendStep s e = some (false, s') ∧ Full s' ∧ s'.1.useMmap = s.1.useMmap := by
  obtain ⟨jrnl, file⟩ := s
  cases hmode : jrnl.useMmap with
  | false =>
      have hstream : ∀ (j : Journal) (f : List UInt8), j.useMmap = false → Full (j, f) :=
        fun j f hj ht => by
          rw [show j.useMmap = true from ht] at hj
          cases hj
      simp only [Failing, hmode, Bool.false_eq_true, if_false] at he
      simp only [appendStep, journalAppend, hmode, Bool.false_eq_true, if_false]
      by_cases hhdr : e.2.fwriteHeader < 32
      · rw [if_pos hhdr]
        exact ⟨_, rfl, hstream _ _ rfl, rfl⟩
      · rw [if_neg hhdr, if_pos (he.resolve_left hhdr)]
        exact ⟨_, rfl, hstream _ _ rfl, rfl⟩
  | true =>
      have hfull : jrnl.mmapSize ≤ jrnl.mmapOffset := h hmode
      have hroom : jrnl.mmapSize < jrnl.mmapOffset + e.1.totalSize := by
        have hsize : 32 ≤ e.1.totalSize := Nat.le_add_right ..
        omega
      simp only [Failing, hmode, if_true] at he
      simp only [appendStep, journalAppend, Journal.extend, hmode, if_true, if_pos hroom]
      by_cases htrunc : e.2.ftruncate = false
      · rw [if_pos htrunc]
        exact ⟨_, rfl, fun _ => hfull, rfl⟩
      · rw [if_neg htrunc, if_pos (he.resolve_left htrunc)]
        exact ⟨_, rfl, fun _ => hfull, rfl⟩

/-- Appends that all fail write no record. -/
theorem marks_failing {es : List (AppendArgs × AppendReply)} {s : Journal × List UInt8} (h : Full s)
    (hes : ∀ e ∈ es, Failing s.1.useMmap e) :
    marks s es = [] ∧ ∃ rs t, Run.exec appendStep s es = some (rs, t) := by
  induction es generalizing s with
  | nil => exact ⟨rfl, [], s, rfl⟩
  | cons e es ih =>
      obtain ⟨s', happ, h', hmode⟩ := append_failing h (hes e (List.mem_cons_self ..))
      obtain ⟨hnone, rs, t, hexec⟩ := ih h' fun e' he' => by
        rw [hmode]
        exact hes e' (List.mem_cons_of_mem e he')
      rw [marks_failed happ]
      exact ⟨hnone, false :: rs, t, Run.exec_cons happ hexec⟩

theorem fileMarks_cons_idle {s : SessionCalls} (hs : s.Idle) (file : List UInt8)
    (ss : List SessionCalls) : ∃ file', fileMarks file (s :: ss) = fileMarks file' ss := by
  obtain ⟨jrnl, f, hopen, -, -, -, hfull, hmode⟩ := open_good file s.useMmap
  obtain ⟨hnone, rs, t, hexec⟩ := marks_failing (s := (jrnl, f)) hfull (by rw [hmode]; exact hs)
  rw [(fileMarks_cons hopen hexec).1, hnone]
  exact ⟨_, List.nil_append _⟩

theorem fileMarks_of_idle {ss : List SessionCalls} (h : ∀ s ∈ ss, s.Idle) :
    ∀ file, fileMarks file ss = [] := by
  induction ss with
  | nil =>
      intro file
      rfl
  | cons s ss ih =>
      intro file
      obtain ⟨file', heq⟩ := fileMarks_cons_idle (h s (List.mem_cons_self ..)) file ss
      rw [heq]
      exact ih (fun s' hs' => h s' (List.mem_cons_of_mem s hs')) file'

theorem increasing_of_one {ss : List SessionCalls} (h : OneWrites ss)
    (hlen : ∀ s ∈ ss, s.calls.length ≤ 2 ^ 64) :
    ∀ file, (fileMarks file ss).Pairwise fun m m' => m.number < m'.number := by
  induction ss with
  | nil =>
      intro file
      exact .nil
  | cons s ss ih =>
      intro file
      obtain ⟨hone, hrest⟩ := List.pairwise_cons.mp h
      by_cases hidle : s.Idle
      · obtain ⟨file', heq⟩ := fileMarks_cons_idle hidle file ss
        rw [heq]
        exact ih hrest (fun s' hs' => hlen s' (List.mem_cons_of_mem s hs')) file'
      obtain ⟨jrnl, f, hopen, hm, hseq, -⟩ := open_good file s.useMmap
      have hpair := (marks_number s.calls (n := 0) (short_of_mapped (s := (jrnl, f)) hm) hseq
        (by rw [Nat.zero_add]; exact hlen s (List.mem_cons_self ..))).2
      cases hexec : Run.exec appendStep (jrnl, f) s.calls with
      | none =>
          rw [(fileMarks_cut hopen hexec).1]
          exact hpair
      | some r =>
          rw [(fileMarks_cons hopen hexec).1,
            fileMarks_of_idle (fun s' hs' => (hone s' hs').resolve_left hidle), List.append_nil]
          exact hpair

/-- A call whose system calls succeed, with a payload of the size given and a record of at most
256 MiB. -/
def Untroubled (e : AppendArgs × AppendReply) : Prop := e.2 = .good e.1 ∧ e.1.Proper

theorem append_untroubled {s : Journal × List UInt8} {e : AppendArgs × AppendReply}
    (h : s.1.useMmap = true → s.1.Mapped s.2) (he : Untroubled e) :
    ∃ s', appendStep s e = some (true, s') ∧ (s'.1.useMmap = true → s'.1.Mapped s'.2) := by
  obtain ⟨a, os⟩ := e
  obtain rfl : os = .good a := he.1
  cases hmode : s.1.useMmap with
  | false =>
      obtain ⟨jrnl', happ, hj, -⟩ := append_stream s.2 a hmode
      refine ⟨(jrnl', s.2 ++ a.record s.1.sequence), happ, fun ht => ?_⟩
      rw [show jrnl'.useMmap = true from ht] at hj
      cases hj
  | true =>
      obtain ⟨jrnl', file', happ, hm, -⟩ := append_mapped (h hmode) he.2
      exact ⟨(jrnl', file'), happ, fun _ => hm⟩

theorem exec_untroubled {s : Journal × List UInt8} {es : List (AppendArgs × AppendReply)}
    (h : s.1.useMmap = true → s.1.Mapped s.2) (hes : ∀ e ∈ es, Untroubled e) :
    ∃ rs t, Run.exec appendStep s es = some (rs, t) := by
  obtain ⟨rs, t, hexec, -⟩ := Run.exec_of_step
    (fun s e hs he => (append_untroubled hs he).elim fun t ht => ⟨true, t, ht⟩) h
    (Run.along_of_forall hes s)
  exact ⟨rs, t, hexec⟩

/-- A session that appends, among sessions without failures, writes a record with number 0. -/
theorem zero_of_appends {ss : List SessionCalls} (hcalm : ∀ s ∈ ss, ∀ e ∈ s.calls, Untroubled e) :
    ∀ file, (∃ s ∈ ss, s.calls ≠ []) → ∃ m ∈ fileMarks file ss, m.number = 0 := by
  induction ss with
  | nil =>
      rintro file ⟨s, hs, -⟩
      cases hs
  | cons s ss ih =>
      rintro file ⟨s', hs', hcalls'⟩
      obtain ⟨jrnl, f, hopen, hm, hseq, -⟩ := open_good file s.useMmap
      have hs := hcalm s (List.mem_cons_self ..)
      obtain ⟨rs, t, hexec⟩ := exec_untroubled (s := (jrnl, f)) hm hs
      rw [(fileMarks_cons hopen hexec).1]
      cases hcalls : s.calls with
      | nil =>
          rcases List.mem_cons.mp hs' with rfl | hs'
          · exact absurd hcalls hcalls'
          · obtain ⟨m, hm', hnum⟩ := ih (fun s'' h'' => hcalm s'' (List.mem_cons_of_mem s h''))
              (t.1.stream t.2) ⟨s', hs', hcalls'⟩
            exact ⟨m, List.mem_append_right _ hm', hnum⟩
      | cons e es =>
          obtain ⟨t', happ, -⟩ := append_untroubled (s := (jrnl, f)) hm (hs e (by rw [hcalls]; simp))
          refine ⟨⟨jrnl.position f, jrnl.sequence⟩, List.mem_append_left _ ?_, hseq⟩
          rw [marks_done happ]
          exact List.mem_cons_self ..

theorem one_of_increasing {ss : List SessionCalls} (hcalm : ∀ s ∈ ss, ∀ e ∈ s.calls, Untroubled e) :
    ∀ file, (fileMarks file ss).Pairwise (fun m m' => m.number < m'.number) → OneWrites ss := by
  induction ss with
  | nil =>
      intro file _
      exact .nil
  | cons s ss ih =>
      intro file hinc
      have hrest : ∀ s' ∈ ss, ∀ e ∈ s'.calls, Untroubled e :=
        fun s' hs' => hcalm s' (List.mem_cons_of_mem s hs')
      have hs := hcalm s (List.mem_cons_self ..)
      obtain ⟨jrnl, f, hopen, hm, hseq, -⟩ := open_good file s.useMmap
      obtain ⟨rs, t, hexec⟩ := exec_untroubled (s := (jrnl, f)) hm hs
      rw [(fileMarks_cons hopen hexec).1, List.pairwise_append] at hinc
      refine List.pairwise_cons.mpr ⟨fun s' hs' => ?_, ih hrest _ hinc.2.1⟩
      by_contra hboth
      have happends : ∀ {s : SessionCalls}, ¬ s.Idle → s.calls ≠ [] := fun hs hnil => hs fun e he => by
        rw [hnil] at he
        cases he
      have hcalls := happends (not_or.mp hboth).1
      have hcalls' := happends (not_or.mp hboth).2
      -- a record of this session, and a later one that is numbered 0
      obtain ⟨m', hm', hzero⟩ := zero_of_appends hrest (t.1.stream t.2) ⟨s', hs', hcalls'⟩
      obtain ⟨e, es, hcons⟩ := List.exists_cons_of_ne_nil hcalls
      obtain ⟨t', happ, -⟩ := append_untroubled (s := (jrnl, f)) hm (hs e (by rw [hcons]; simp))
      have hfirst : ⟨jrnl.position f, jrnl.sequence⟩ ∈ marks (jrnl, f) s.calls := by
        rw [hcons, marks_done happ]
        exact List.mem_cons_self ..
      have hlt := hinc.2.2 _ hfirst m' hm'
      rw [hzero, UInt64.lt_iff_toNat_lt] at hlt
      exact absurd hlt (Nat.not_lt_zero _)

/-- **Sequence numbers increase over a file as long as at most one session writes records**, and, where
no system call fails, no longer.  The records of the file are in the order of their positions, each with
its number in it. -/
theorem numbers_increase (file : List UInt8) (ss : List SessionCalls) :
    ((fileMarks file ss).Pairwise fun m m' => m.position < m'.position) ∧
    (∀ file', (runCalls file ss).2 = some file' → ∀ m ∈ fileMarks file ss,
      (readHeader (file'.drop m.position)).sequenceNumber = m.number) ∧
    (OneWrites ss → (∀ s ∈ ss, s.calls.length ≤ 2 ^ 64) →
      (fileMarks file ss).Pairwise fun m m' => m.number < m'.number) ∧
    ((∀ s ∈ ss, ∀ e ∈ s.calls, Untroubled e) →
      ((fileMarks file ss).Pairwise fun m m' => m.number < m'.number) → OneWrites ss) :=
  ⟨(sessionMarks_position ss file).2, fun _ h m hm => ((sessionMarks_in ss h).2 m hm).read,
    fun h hlen => increasing_of_one h hlen file, fun h => one_of_increasing h file⟩

/-- Three sessions: the stream takes nothing of the record of the first; the second writes one record,
then a header in part, then another; the third does not append. -/
theorem numbers_increase_torn :
    (fileMarks [] [⟨false, [(smallAppend, ⟨true, true, 0, 0⟩)]⟩,
      ⟨false, [(smallAppend, .good smallAppend), (smallAppend, ⟨true, true, 16, 0⟩),
        (smallAppend, .good smallAppend)]⟩, ⟨true, []⟩]).Pairwise
      fun m m' => m.number < m'.number := by
  refine (numbers_increase [] _).2.2.1 ?_ ?_
  · simp [OneWrites, SessionCalls.Idle, Failing]
  · simp

/-- **A second session starts at 0 again.** -/
theorem second_session_restarts :
    ¬ (fileMarks [] [⟨false, [(smallAppend, .good smallAppend)]⟩,
        ⟨false, [(smallAppend, .good smallAppend)]⟩]).Pairwise
      fun m m' => m.number < m'.number := by
  intro hinc
  have hone := one_of_increasing (by simp [Untroubled, smallAppend_proper]) [] hinc
  simp [OneWrites, SessionCalls.Idle, Failing, AppendReply.good] at hone

end Aspira
