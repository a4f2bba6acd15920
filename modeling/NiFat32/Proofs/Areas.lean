import NiFat32.Core.Journal
import NiFat32.Core.BootSector
import NiFat32.Lib.Window

/-!
# `Proofs.Areas`: the copies of the error ring and of the journal

The error ring and the journal are arrays of encoded records, and every copy of an array is
accessed through one sector: a request names the sector of the copy, and covers one sector. So a
copy is a window of the device, and a record is a cell of it (`Lib.Window`). Working I/O is all
that the rules need; nothing is assumed about the sector size or the position of the copies.

`writeError_cells` and `writeJournal_cells` say what a write leaves on the device, and
`voteError_works` and `readJournal_works` what a read elects and repairs.
-/

set_option autoImplicit false

namespace NiFat32

open ByteStore

variable {m : Mount}

/-! ### One sector -/

/-- A read through one sector gives the part of the record that the sector has. -/
theorem dskReadoffSectors_one (hw : m.Works) (d : Medium) (sa offset size : Nat) :
    dskReadoffSectors m d sa offset size 1
      = some (read d.bytes (sa * m.sectorSize + offset) (min size (m.sectorSize - offset))) := by
  unfold dskReadoffSectors readoffLoop
  by_cases h0 : size = 0
  · rw [if_pos h0, h0, Nat.zero_min]
    rfl
  rw [if_neg h0]
  by_cases ho : m.sectorSize < offset
  · rw [if_pos ho, Nat.sub_eq_zero_of_le (Nat.le_of_lt ho), Nat.min_zero]
    rfl
  · rw [if_neg ho]
    simp only [readSector_eq hw, readoffLoop, Option.map_some, List.append_nil]

/-- The buffer that such a read fills is the record. -/
theorem fillBuffer_one (d : Medium) (sa offset size : Nat) :
    fillBuffer (read d.bytes (sa * m.sectorSize + offset) (min size (m.sectorSize - offset))) size
      = cell 0 m.sectorSize d.bytes sa offset size := by
  unfold fillBuffer cell
  rw [length_read]
  congr 2
  omega

/-- A write through one sector stores the part of the record that the sector has. -/
theorem dskWriteoffSectors_one (hw : m.Works) (d : Medium) (sa offset : Nat) (data : List UInt8) :
    ∃ d', dskWriteoffSectors m d sa offset data 1 = (true, d') ∧
      d'.bytes = putCell m.sectorSize d.bytes sa offset data := by
  unfold dskWriteoffSectors writeoffLoop putCell
  by_cases h0 : data.length = 0
  · rw [if_pos h0, List.length_eq_zero_iff.mp h0, List.take_nil, write_nil]
    exact ⟨d, rfl, rfl⟩
  rw [if_neg h0]
  by_cases ho : m.sectorSize < offset
  · rw [if_pos ho, Nat.sub_eq_zero_of_le (Nat.le_of_lt ho), List.take_zero, write_nil]
    exact ⟨d, rfl, rfl⟩
  · rw [if_neg ho]
    have htake : data.take (min data.length (m.sectorSize - offset))
        = data.take (m.sectorSize - offset) := by
      rw [Nat.min_comm, ← List.take_take, List.take_length]
    simp only [writeSector_eq hw, htake, writeoffLoop]
    exact ⟨_, rfl, rfl⟩

/-! ### The error ring -/

/-- The sectors of the error areas. -/
def errorSectors (m : Mount) : List Nat :=
  (List.range m.fi.errorsCount).map fun i => getErrorsSector i m.fi.totalSectors

/-- The offset of the error ring's cell `index`. -/
def errorOffset (index : Nat) : Nat := u32 (index * 8)

/-- The code in an encoded cell of the ring. -/
def errorOf (bs : List UInt8) : UInt32 :=
  let code := unpackMemory bs 4
  u32OfBytes (code.getD 0 0) (code.getD 1 0) (code.getD 2 0) (code.getD 3 0)

/-- The code that copy `i` of the ring has at `index`. -/
def errorAt (m : Mount) (d : Medium) (index i : Nat) : UInt32 :=
  errorOf (cell 0 m.sectorSize d.bytes (getErrorsSector i m.fi.totalSectors) (errorOffset index) 8)

@[simp] theorem errorOf_pack (c : UInt32) : errorOf (packMemory (bytesOfU32 c)) = c := by
  have hunpack := unpackMemory_packMemory (bytesOfU32 c)
  rw [length_bytesOfU32] at hunpack
  unfold errorOf
  rw [hunpack]
  exact u32OfBytes_bytesOfU32 c

theorem length_packError (c : UInt32) : (packMemory (bytesOfU32 c)).length = 8 := by
  rw [length_packMemory, length_bytesOfU32]

theorem readErrorCopy_works (hw : m.Works) (index i : Nat) (s : FS) :
    readErrorCopy m index i s = some (errorAt m s.medium index i) := by
  unfold readErrorCopy
  rw [dskReadoffSectors_one hw, Option.map_some]
  unfold errorAt errorOf
  rw [← fillBuffer_one]
  rfl

/-- A write of a code to all copies. -/
theorem writeError_cells (hw : m.Works) (index : Nat) (c : UInt32) (s : FS) :
    ∃ d, writeError m index c s = (true, { s with medium := d }) ∧
      d.bytes = putAll m.sectorSize s.medium.bytes (errorSectors m) (errorOffset index)
        (packMemory (bytesOfU32 c)) := by
  unfold writeError errorSectors
  induction List.range m.fi.errorsCount generalizing s with
  | nil => exact ⟨s.medium, rfl, rfl⟩
  | cons i is ih =>
    obtain ⟨d₁, he₁, hd₁⟩ := dskWriteoffSectors_one hw s.medium
      (getErrorsSector i m.fi.totalSectors) (u32 (index * 8)) (packMemory (bytesOfU32 c))
    obtain ⟨d₂, he₂, hd₂⟩ := ih { s with medium := d₁ }
    refine ⟨d₂, ?_, ?_⟩
    · rw [List.foldl_cons]
      unfold writeErrorCopy at he₂ ⊢
      simp only [he₁, Bool.and_self]
      exact he₂
    · rw [hd₂, List.map_cons, putAll_cons]
      exact congrArg (putAll _ · _ _ _) hd₁

/-- A write to the error areas leaves the other sectors. -/
theorem writeError_window (hw : m.Works) {a : Nat} (ha : a ∉ errorSectors m) (index : Nat)
    (c : UInt32) (s : FS) :
    SameWindow m.sectorSize (writeError m index c s).2.medium.bytes s.medium.bytes a := by
  obtain ⟨d, he, hd⟩ := writeError_cells hw index c s
  rw [he]
  simp only [hd]
  exact .putAll_other ha

/-- The vote over the copies. -/
theorem voteError_works (hw : m.Works) (index : Nat) (s : FS) :
    voteError m index s =
      (Vote.run 0xFFFFFFFF ((List.range m.fi.errorsCount).map (errorAt m s.medium index)),
        Vote.seated 0xFFFFFFFF (errorAt m s.medium index) m.fi.errorsCount) := by
  unfold voteError
  simp only [readErrorCopy_works hw]
  exact Vote.foldl_seated _ _ _

/-! ### The journal -/

/-- The sectors of the journals. -/
def journalSectors (m : Mount) : List Nat :=
  (List.range m.fi.journalsCount).map fun i => getJournalSector i m.fi.totalSectors

/-- The offset of the journal's slot `index`. -/
def journalOffset (index : Nat) : Nat := u32 (index * (2 * JOURNAL_ENTRY_SIZE))

/-- The record in an encoded slot of the journal. -/
def recordOf (bs : List UInt8) : JournalEntry := .ofBytes (unpackMemory bs JOURNAL_ENTRY_SIZE)

/-- The record that journal `i` has in the slot `index`. -/
def recordAt (m : Mount) (d : Medium) (index i : Nat) : JournalEntry :=
  recordOf (cell 0 m.sectorSize d.bytes (getJournalSector i m.fi.totalSectors)
    (journalOffset index) (2 * JOURNAL_ENTRY_SIZE))

namespace JournalEntry

@[simp] theorem length_bytes (j : JournalEntry) : j.bytes.length = JOURNAL_ENTRY_SIZE := by
  simp [bytes]

/-- Reading the structure back from its bytes. -/
@[simp] theorem ofBytes_bytes (j : JournalEntry) : ofBytes j.bytes = j := by
  have hfield := fun rest i => fieldAt_vector rest j.entry.fileName i
  have hbyte := fun rest i => getD_vector rest j.entry.fileName i
  have hname : ∀ bs, (Vector.ofFn fun i : Fin 11 => bs.getD (6 + i.val) 0) = vectorAt bs 6 11 :=
    fun _ => rfl
  unfold ofBytes bytes
  rw [hname]
  simp [-List.getD_eq_getElem?_getD, List.getD_cons_succ, List.getD_cons_zero, hfield, hbyte]

end JournalEntry

@[simp] theorem recordOf_pack (j : JournalEntry) : recordOf (packMemory j.bytes) = j := by
  have hunpack := unpackMemory_packMemory j.bytes
  rw [JournalEntry.length_bytes] at hunpack
  unfold recordOf
  rw [hunpack, JournalEntry.ofBytes_bytes]

theorem length_packRecord (j : JournalEntry) :
    (packMemory j.bytes).length = 2 * JOURNAL_ENTRY_SIZE := by
  rw [length_packMemory, JournalEntry.length_bytes]

theorem readJournalCopy_works (hw : m.Works) (index i : Nat) (s : FS) :
    readJournalCopy m index i s = (some (recordAt m s.medium index i), s) := by
  unfold readJournalCopy
  rw [dskReadoffSectors_one hw]
  simp only [fillBuffer_one]
  rfl

/-- A write of a record to all journals. -/
theorem writeJournal_cells (hw : m.Works) (index : Nat) (j : JournalEntry) (s : FS) :
    ∃ d, writeJournal m index j s = { s with medium := d } ∧
      d.bytes = putAll m.sectorSize s.medium.bytes (journalSectors m) (journalOffset index)
        (packMemory j.bytes) := by
  unfold writeJournal journalSectors
  induction List.range m.fi.journalsCount generalizing s with
  | nil => exact ⟨s.medium, rfl, rfl⟩
  | cons i is ih =>
    obtain ⟨d₁, he₁, hd₁⟩ := dskWriteoffSectors_one hw s.medium
      (getJournalSector i m.fi.totalSectors) (u32 (index * (2 * JOURNAL_ENTRY_SIZE)))
      (packMemory j.bytes)
    obtain ⟨d₂, he₂, hd₂⟩ := ih { s with medium := d₁ }
    refine ⟨d₂, ?_, ?_⟩
    · rw [List.foldl_cons]
      unfold writeJournalCopy at he₂ ⊢
      simp only [he₁]
      exact he₂
    · rw [hd₂, List.map_cons, putAll_cons]
      exact congrArg (putAll _ · _ _ _) hd₁

/-- The vote over the journals reads the device only. -/
theorem voteJournal_works (hw : m.Works) (index : Nat) (s : FS) :
    voteJournal m index s =
      (Vote.run 0xFFFFFFFF
          ((List.range m.fi.journalsCount).map fun i => (recordAt m s.medium index i).checksum),
        Vote.seated 0xFFFFFFFF (fun i => (recordAt m s.medium index i).checksum)
          m.fi.journalsCount, s) := by
  unfold voteJournal
  simp only [readJournalCopy_works hw, Option.getD_some]
  induction m.fi.journalsCount with
  | zero => rfl
  | succ n ih =>
    rw [List.range_succ, List.foldl_append, ih, ← List.range_succ, Vote.run_range_succ,
      Vote.seated]
    rfl

/-- What a read of a slot returns, and what it leaves. -/
theorem readJournal_works (hw : m.Works) (index : Nat) (prev : JournalEntry) (s : FS) :
    readJournal m index prev s =
      match Vote.seated 0xFFFFFFFF (fun i => (recordAt m s.medium index i).checksum)
        m.fi.journalsCount with
      | none => (prev, s)
      | some p => (recordAt m s.medium index p,
          if 0 < (Vote.run 0xFFFFFFFF ((List.range m.fi.journalsCount).map fun i =>
            (recordAt m s.medium index i).checksum)).wrong
          then writeJournal m index (recordAt m s.medium index p) s else s) := by
  unfold readJournal
  rw [voteJournal_works hw]
  cases Vote.seated 0xFFFFFFFF (fun i => (recordAt m s.medium index i).checksum)
    m.fi.journalsCount with
  | none => rfl
  | some p =>
    simp only [readJournalCopy_works hw, Option.getD_some]
    split <;> rfl

end NiFat32
