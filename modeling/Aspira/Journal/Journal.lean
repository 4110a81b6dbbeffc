import Mathlib

/-!
# Journal — Journal

`src/journal.c`.  The file is its list of bytes; a mapped write goes to the file at once
(`MAP_SHARED`), and a stdio stream opened with `"ab"` writes at the end.  What the operating system
replies is an argument of each call (`OpenReply`, `AppendReply`), so that every error path is
modelled.  A write outside the mapping, or through a mapping that failed, has no result.

File sizes and offsets are natural numbers: the source's 64-bit ones never wrap on a file that
exists.  The fields `fd`, `file` and `mmap_base` are the file itself; of `mmap_base` the model keeps
whether it is a mapping (`mapped`).
-/

namespace Aspira

/-! ### Records -/

/-- `journal_record_type_t`. -/
inductive RecordType where
  | orderNew
  | orderFilled
  | orderCancel
  | orderReject
  | trade
  | snapshot
  deriving DecidableEq, Repr

/-- The value of the enumerator. -/
def RecordType.code : RecordType → UInt32
  | orderNew => 1
  | orderFilled => 2
  | orderCancel => 3
  | orderReject => 4
  | trade => 5
  | snapshot => 99

/-- `journal_header_t`. -/
structure JournalHeader where
  timestampNs : UInt64
  recordType : UInt32
  payloadSize : UInt32
  sequenceNumber : UInt64
  crc32 : UInt32
  reserved : UInt32

/-- A 32-bit word in memory, low byte first. -/
def bytes32 (x : UInt32) : List UInt8 :=
  [x.toUInt8, (x >>> 8).toUInt8, (x >>> 16).toUInt8, (x >>> 24).toUInt8]

/-- A 64-bit word in memory, low byte first. -/
def bytes64 (x : UInt64) : List UInt8 := bytes32 x.toUInt32 ++ bytes32 (x >>> 32).toUInt32

/-- The packed header in memory. -/
def JournalHeader.bytes (h : JournalHeader) : List UInt8 :=
  bytes64 h.timestampNs ++ bytes32 h.recordType ++ bytes32 h.payloadSize ++
    bytes64 h.sequenceNumber ++ bytes32 h.crc32 ++ bytes32 h.reserved

/-- The inner loop of `crc32_init`: the table entry of a byte. -/
def crc32Entry (i : UInt32) : UInt32 :=
  (List.range 8).foldl (fun crc _ => (crc >>> 1) ^^^ (if crc &&& 1 = 1 then 0xEDB88320 else 0)) i

/-- `crc32_table`. -/
def crc32Table : Vector UInt32 256 := Vector.ofFn fun i => crc32Entry (UInt32.ofNat i)

/-- `crc32_update`. -/
def crc32Update (crc : UInt32) (data : List UInt8) : UInt32 :=
  data.foldl
    (fun crc p => (crc >>> 8) ^^^
      crc32Table.get (Fin.ofNat 256 ((crc ^^^ p.toUInt32) &&& 0xFF).toNat)) crc

/-- The arguments of one `journal_append`, and the clock it reads.  `payload` is the memory at the
pointer, `none` for `NULL`. -/
structure AppendArgs where
  type : RecordType
  payload : Option (List UInt8)
  payloadSize : UInt32
  now : UInt64

/-- The payload bytes a record gets. -/
def AppendArgs.data (a : AppendArgs) : List UInt8 :=
  match a.payload with
  | some p => if 0 < a.payloadSize then p.take a.payloadSize.toNat else []
  | none => []

/-- The header `journal_append` builds. -/
def AppendArgs.header (a : AppendArgs) (sequence : UInt64) : JournalHeader :=
  let hdr : JournalHeader :=
    { timestampNs := a.now
      recordType := a.type.code
      payloadSize := a.payloadSize
      sequenceNumber := sequence
      crc32 := 0
      reserved := 0 }
  { hdr with crc32 := crc32Update (crc32Update 0xFFFFFFFF hdr.bytes) a.data ^^^ 0xFFFFFFFF }

/-- `total_size`. -/
def AppendArgs.totalSize (a : AppendArgs) : ℕ := 32 + a.payloadSize.toNat

/-- Header and payload. -/
def AppendArgs.record (a : AppendArgs) (sequence : UInt64) : List UInt8 :=
  (a.header sequence).bytes ++ a.data

/-! ### The file -/

/-- `ftruncate`: cut, or filled with zeros. -/
def ftruncate (file : List UInt8) (n : ℕ) : List UInt8 :=
  file.take n ++ List.replicate (n - file.length) 0

/-- Bytes written over the file at an offset. -/
def overwrite (file : List UInt8) (offset : ℕ) (bytes : List UInt8) : List UInt8 :=
  file.take offset ++ bytes ++ file.drop (offset + bytes.length)

/-! ### The handle -/

/-- `DEFAULT_MMAP_SIZE`. -/
def defaultMmapSize : ℕ := 256 * 1024 * 1024

/-- `struct journal_t`. -/
structure Journal where
  useMmap : Bool
  sequence : UInt64
  bytesWritten : UInt64
  fileSize : ℕ
  mapped : Bool
  mmapSize : ℕ
  mmapOffset : ℕ

/-- What the system calls of `journal_open` reply. -/
structure OpenReply where
  opens : Bool
  fstat : Bool
  ftruncate : Bool
  mmap : Bool

/-- What the system calls of one `journal_append` reply; of the stream, how many bytes each `fwrite`
takes. -/
structure AppendReply where
  ftruncate : Bool
  mmap : Bool
  fwriteHeader : ℕ
  fwritePayload : ℕ

/-- Every call succeeds. -/
def OpenReply.good : OpenReply := ⟨true, true, true, true⟩

/-- Every call succeeds, and the stream takes all it is given. -/
def AppendReply.good (a : AppendArgs) : AppendReply := ⟨true, true, 32, a.data.length⟩

/-- `journal_open`: the handle, if it succeeds, and the file. -/
def journalOpen (os : OpenReply) (file : List UInt8) (useMmap : Bool) : Option Journal × List UInt8 :=
  let jrnl : Journal := ⟨useMmap, 0, 0, 0, false, 0, 0⟩
  if os.opens = false then (none, file)
  else if useMmap then
    let fileSize := if os.fstat then file.length else 0
    if fileSize < defaultMmapSize then
      if os.ftruncate = false then (none, file)
      else
        let file := ftruncate file defaultMmapSize
        if os.mmap = false then (none, file)
        else
          (some { jrnl with
            fileSize := defaultMmapSize
            mapped := true
            mmapSize := defaultMmapSize
            mmapOffset := defaultMmapSize }, file)
    else if os.mmap = false then (none, file)
    else
      (some { jrnl with
        fileSize := fileSize
        mapped := true
        mmapSize := fileSize
        mmapOffset := fileSize }, file)
  else (some jrnl, file)

/-- The extension of the mapping that `journal_append` makes when the record does not fit: whether it
succeeds, and the handle and the file as they then are. -/
def Journal.extend (os : AppendReply) (jrnl : Journal) (file : List UInt8) (a : AppendArgs) :
    Bool × Journal × List UInt8 :=
  if jrnl.mmapSize < jrnl.mmapOffset + a.totalSize then
    let newSize := jrnl.mmapSize + defaultMmapSize
    if os.ftruncate = false then (false, jrnl, file)
    else
      let file := ftruncate file newSize
      if os.mmap = false then (false, { jrnl with mapped := false }, file)
      else (true, { jrnl with mapped := true, mmapSize := newSize }, file)
  else (true, jrnl, file)

/-- The copies into the mapping. -/
def Journal.mapWrite (jrnl : Journal) (file : List UInt8) (record : List UInt8) : Option (List UInt8) :=
  if jrnl.mapped ∧ jrnl.mmapOffset + record.length ≤ min jrnl.mmapSize file.length then
    some (overwrite file jrnl.mmapOffset record)
  else none

/-- `journal_append`: whether it returns 0, the handle and the file. -/
def journalAppend (os : AppendReply) (jrnl : Journal) (file : List UInt8) (a : AppendArgs) :
    Option (Bool × Journal × List UInt8) :=
  let hdr := a.header jrnl.sequence
  let jrnl := { jrnl with sequence := jrnl.sequence + 1 }
  let done (jrnl : Journal) : Journal :=
    { jrnl with bytesWritten := jrnl.bytesWritten + UInt64.ofNat a.totalSize }
  if jrnl.useMmap then
    match jrnl.extend os file a with
    | (false, jrnl, file) => some (false, jrnl, file)
    | (true, jrnl, file) => do
        let file ← jrnl.mapWrite file (hdr.bytes ++ a.data)
        return (true, done { jrnl with mmapOffset := jrnl.mmapOffset + a.totalSize }, file)
  else
    let file := file ++ hdr.bytes.take os.fwriteHeader
    if os.fwriteHeader < 32 then some (false, jrnl, file)
    else
      let file := file ++ a.data.take os.fwritePayload
      if os.fwritePayload < a.data.length then some (false, jrnl, file)
      else some (true, done jrnl, file)

/-- `journal_close`: the file. -/
def journalClose (jrnl : Journal) (file : List UInt8) : List UInt8 :=
  if jrnl.useMmap then ftruncate file jrnl.mmapOffset else file

end Aspira
