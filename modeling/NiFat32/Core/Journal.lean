import NiFat32.Core.Cluster

/-!
# `Core.Journal`: the operation journal (`src/journal.c`)

A record is one encoded `journal_entry_t` in the first sector of every journal copy. The
directory operations add a record before they write a cluster and clear it afterwards;
`restore_from_journal` replays the records that were not cleared.
-/

set_option autoImplicit false

namespace NiFat32

/-- `squeezed_entry_t` -/
structure SqueezedEntry where
  fileName : Name
  attributes : UInt8
  rca : UInt32
  dca : UInt32
  fileSize : UInt32
  deriving DecidableEq

/-- `NO_OP` -/
abbrev NO_OP : UInt8 := 0x00

/-- `ADD_OP` -/
abbrev ADD_OP : UInt8 := 0x01

/-- `EDIT_OP` -/
abbrev EDIT_OP : UInt8 := 0x02

/-- `DEL_OP` -/
abbrev DEL_OP : UInt8 := 0x03

/-- `journal_entry_t` -/
structure JournalEntry where
  op : UInt8
  ca : UInt32
  offset : UInt8
  entry : SqueezedEntry
  checksum : UInt32
  deriving DecidableEq

/-- `sizeof(journal_entry_t)` -/
abbrev JOURNAL_ENTRY_SIZE : Nat := 34

namespace JournalEntry

/-- The bytes of the packed structure. -/
def bytes (j : JournalEntry) : List UInt8 :=
  j.op :: (bytesOfU32 j.ca ++ (j.offset :: (j.entry.fileName.toList ++ (j.entry.attributes ::
    (bytesOfU32 j.entry.rca ++ (bytesOfU32 j.entry.dca ++ (bytesOfU32 j.entry.fileSize ++
      bytesOfU32 j.checksum)))))))

/-- The structure over a 34-byte buffer. -/
def ofBytes (bs : List UInt8) : JournalEntry where
  op := bs.getD 0 0
  ca := DirEntry.fieldAt bs 1
  offset := bs.getD 5 0
  entry := {
    fileName := Vector.ofFn fun i => bs.getD (6 + i.val) 0
    attributes := bs.getD 17 0
    rca := DirEntry.fieldAt bs 18
    dca := DirEntry.fieldAt bs 22
    fileSize := DirEntry.fieldAt bs 26 }
  checksum := DirEntry.fieldAt bs 30

/-- The all-zero record, the `{ 0 }` of the source. -/
def zero : JournalEntry := ofBytes []

end JournalEntry

variable (m : Mount)

/-- `__write_journal__` -/
def writeJournalCopy (index : Nat) (j : JournalEntry) (journal : Nat) (s : FS) : Bool × FS :=
  match dskWriteoffSectors m s.medium (getJournalSector journal m.fi.totalSectors)
      (u32 (index * (2 * JOURNAL_ENTRY_SIZE))) (packMemory j.bytes) 1 with
  | (false, d) => (false, registerError m .journalWriteError { s with medium := d })
  | (true, d) => (true, { s with medium := d })

/-- `_write_journal` -/
def writeJournal (index : Nat) (j : JournalEntry) (s : FS) : FS :=
  (List.range m.fi.journalsCount).foldl (fun s i => (writeJournalCopy m index j i s).2) s

/-- `__read_journal__`: the record, or `none` when the sector is not readable. -/
def readJournalCopy (index journal : Nat) (s : FS) : Option JournalEntry × FS :=
  match dskReadoffSectors m s.medium (getJournalSector journal m.fi.totalSectors)
      (u32 (index * (2 * JOURNAL_ENTRY_SIZE))) (2 * JOURNAL_ENTRY_SIZE) 1 with
  | none => (none, registerError m .journalReadError s)
  | some bs =>
    (some (.ofBytes (unpackMemory (fillBuffer bs (2 * JOURNAL_ENTRY_SIZE)) JOURNAL_ENTRY_SIZE)),
      s)

/-- The vote loop of `_read_journal` over the record checksums, with the copy that was
elected last. -/
def voteJournal (index : Nat) (s : FS) : Vote.Ballot UInt32 × Option Nat × FS :=
  (List.range m.fi.journalsCount).foldl (fun acc i =>
    let (curr, s) := readJournalCopy m index i acc.2.2
    let sum := (curr.getD .zero).checksum
    (Vote.step acc.1 sum, if Vote.elects acc.1 sum then some i else acc.2.1, s))
    (Vote.start 0xFFFFFFFF, none, s)

/-- `_read_journal` into a variable that holds `prev`. -/
def readJournal (index : Nat) (prev : JournalEntry) (s : FS) : JournalEntry × FS :=
  match voteJournal m index s with
  | (_, none, s) => (prev, s)
  | (b, some copyPos, s) =>
    let (j, s) := readJournalCopy m index copyPos s
    let j := j.getD prev
    if 0 < b.wrong then (j, writeJournal m index j s) else (j, s)

/-- `_squeeze_entry` -/
def squeezeEntry (e : DirEntry) : SqueezedEntry :=
  { fileName := e.fileName, attributes := e.attributes, rca := e.rca, dca := e.dca
    fileSize := e.fileSize }

/-- `_unsqueeze_entry` into a variable whose checksum field holds `prev`: the checksum is
taken over the structure with that field as it was. -/
def unsqueezeEntry (q : SqueezedEntry) (prev : UInt32) : DirEntry :=
  let dst : DirEntry :=
    { fileName := q.fileName, nameHash := hashName q.fileName, attributes := q.attributes
      rca := q.rca, dca := q.dca, fileSize := q.fileSize, checksum := prev }
  { dst with checksum := murmur3 dst.bytes 0 }

/-- The number of records: `cluster_size / (sizeof(journal_entry_t) * sizeof(encoded_t))`. -/
def journalSlots : Nat := m.fi.clusterSize / (JOURNAL_ENTRY_SIZE * 2)

/-- The `switch` of `restore_from_journal`. -/
def replayRecord (j : JournalEntry) (restored : DirEntry) (s : FS) : FS :=
  let offset := j.offset.toNat * (2 * ENTRY_SIZE)
  if j.op = DEL_OP then
    (writeoffCluster m j.ca.toNat offset (List.replicate (2 * ENTRY_SIZE) 0) s).2
  else if j.op = ADD_OP ∨ j.op = EDIT_OP then
    (writeoffCluster m j.ca.toNat offset (packMemory restored.bytes) s).2
  else s

/-- The loop of `restore_from_journal`. The index is an `unsigned char`. -/
def restoreLoop : (fuel pass : Nat) → FS → Option FS
  | 0, _, _ => none
  | fuel + 1, pass, s =>
    if s.journalIndex < journalSlots m then
      let (j, s) := readJournal m s.journalIndex (.ofBytes (m.junk 0 pass)) s
      let s :=
        if j.op = NO_OP then s
        else
          let restored := unsqueezeEntry j.entry (DirEntry.fieldAt (m.junk 1 pass) 0)
          writeJournal m s.journalIndex { j with op := NO_OP } (replayRecord m j restored s)
      restoreLoop fuel (pass + 1) { s with journalIndex := (s.journalIndex + 1) % 256 }
    else some s

/-- `restore_from_journal` -/
def restoreFromJournal (fuel : Nat) (s : FS) : Option (Bool × FS) :=
  if m.fi.journalsCount = 0 then some (false, s)
  else
    (restoreLoop m fuel 0 { s with journalIndex := 0 }).map fun s =>
      (true, { s with journalIndex := 0 })

/-- The slot search of `journal_add_operation`, at most `delay` slots. -/
def journalAddLoop (j : JournalEntry) : (delay : Nat) → FS → Int × FS
  | 0, s => (-1, s)
  | delay + 1, s =>
    let index := s.journalIndex % journalSlots m
    let s := { s with journalIndex := (s.journalIndex + 1) % 256 }
    let (curr, s) := readJournal m index (.ofBytes (m.junk 2 delay)) s
    if curr.op = NO_OP then ((index : Int), writeJournal m index j s)
    else journalAddLoop j delay s

/-- `journal_add_operation` -/
def journalAddOperation (op : UInt8) (ca offset : Nat) (e : DirEntry) (s : FS) : Int × FS :=
  if m.fi.journalsCount = 0 then (0, s)
  else
    let j : JournalEntry :=
      { op := op, ca := UInt32.ofNat ca, offset := UInt8.ofNat offset, entry := squeezeEntry e
        checksum := 0 }
    let (index, s) := journalAddLoop m j 100 s
    (index, { s with journalAdded := s.medium.log.length })

/-- `journal_solve_operation` -/
def journalSolveOperation (index : Int) (s : FS) : FS :=
  if m.fi.journalsCount = 0 ∨ index < 0 then s
  else writeJournal m index.toNat .zero { s with journalSolving := s.medium.log.length }

end NiFat32
