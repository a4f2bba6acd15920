import NiFat32.Proofs.Areas
import NiFat32.Proofs.Volume

/-!
# `Proofs.Replay`: the replay of the journal ends

`restore_from_journal` counts its slots in an `unsigned char`. `replaySlot` is what it does with
one slot, `restoreLoop_run` the loop as a walk over the slots in order, and `restoreLoop_spins`
the loop when the counter cannot reach the number of slots. `replay_ends_iff` says for which
cluster sizes the replay examines each slot exactly once.
-/

set_option autoImplicit false

namespace NiFat32

open Run

variable {m : Mount} {s : FS}

/-- The replay of the slot `i` in the pass `pass` of the loop. -/
def replayPass (m : Mount) (pass i : Nat) (s : FS) : FS :=
  let (j, s) := readJournal m i (.ofBytes (m.junk 0 pass)) s
  if j.op = NO_OP then s
  else
    let restored := unsqueezeEntry j.entry (DirEntry.fieldAt (m.junk 1 pass) 0)
    writeJournal m i { j with op := NO_OP } (replayRecord m j restored s)

/-- The replay of the slot `i` in its own pass, with the counter behind it. -/
def replaySlot (m : Mount) (s : FS) (i : Nat) : FS :=
  { replayPass m i i s with journalIndex := i + 1 }

/-- The replay ends, and it examined each slot once, in order. -/
def ReplaysEachSlotOnce (m : Mount) (s : FS) : Prop :=
  Ensures (fun fuel => restoreFromJournal m fuel s) fun r =>
    r = (true, { (List.range (journalSlots m)).foldl (replaySlot m) { s with journalIndex := 0 }
      with journalIndex := 0 })

/-! ### The counter

Whether the requests are served or not, only the loop itself counts. -/

theorem writeError_journalIndex (index : Nat) (c : UInt32) :
    (writeError m index c s).2.journalIndex = s.journalIndex := by
  unfold writeError
  generalize true = ok
  induction List.range m.fi.errorsCount generalizing ok s with
  | nil => rfl
  | cons i is ih =>
    rw [List.foldl_cons]
    exact ih _

theorem registerError_journalIndex (code : ErrorCode) :
    (registerError m code s).journalIndex = s.journalIndex := by
  have hwrite := writeError_journalIndex (m := m) (s := s) s.errors.current code.toU32
  unfold registerError errorsRegisterError
  generalize writeError m s.errors.current code.toU32 s = w at hwrite
  obtain ⟨ok, s₁⟩ := w
  cases ok with
  | false => exact hwrite
  | true => exact (writeError_journalIndex _ _).trans hwrite

theorem writeJournalCopy_journalIndex (index : Nat) (j : JournalEntry) (i : Nat) :
    (writeJournalCopy m index j i s).2.journalIndex = s.journalIndex := by
  unfold writeJournalCopy
  split
  · exact registerError_journalIndex _
  · rfl

theorem writeJournal_journalIndex (index : Nat) (j : JournalEntry) :
    (writeJournal m index j s).journalIndex = s.journalIndex := by
  unfold writeJournal
  induction List.range m.fi.journalsCount generalizing s with
  | nil => rfl
  | cons i is ih =>
    rw [List.foldl_cons, ih, writeJournalCopy_journalIndex]

theorem readJournalCopy_journalIndex (index i : Nat) :
    (readJournalCopy m index i s).2.journalIndex = s.journalIndex := by
  unfold readJournalCopy
  split
  · exact registerError_journalIndex _
  · rfl

theorem voteJournal_journalIndex (index : Nat) :
    (voteJournal m index s).2.2.journalIndex = s.journalIndex := by
  unfold voteJournal
  generalize Vote.start (0xFFFFFFFF : UInt32) = b
  generalize (none : Option Nat) = p
  induction List.range m.fi.journalsCount generalizing b p s with
  | nil => rfl
  | cons i is ih =>
    rw [List.foldl_cons]
    exact (ih _ _).trans (readJournalCopy_journalIndex index i)

theorem readJournal_journalIndex (index : Nat) (prev : JournalEntry) :
    (readJournal m index prev s).2.journalIndex = s.journalIndex := by
  have hvote := voteJournal_journalIndex (m := m) (s := s) index
  unfold readJournal
  generalize voteJournal m index s = w at hvote
  obtain ⟨b, p, s₁⟩ := w
  cases p with
  | none => exact hvote
  | some p =>
    have hread := (readJournalCopy_journalIndex (m := m) index p).trans hvote
    simp only
    split
    · exact (writeJournal_journalIndex _ _).trans hread
    · exact hread

theorem replayRecord_journalIndex (j : JournalEntry) (restored : DirEntry) :
    (replayRecord m j restored s).journalIndex = s.journalIndex := by
  unfold replayRecord
  split
  · rfl
  · split <;> rfl

/-! ### The loop -/

/-- One pass of the loop. -/
theorem restoreLoop_pass (fuel pass : Nat) (h : s.journalIndex < journalSlots m) :
    restoreLoop m (fuel + 1) pass s = restoreLoop m fuel (pass + 1)
      { replayPass m pass s.journalIndex s with journalIndex := (s.journalIndex + 1) % 256 } := by
  have hread := readJournal_journalIndex (m := m) (s := s) s.journalIndex
    (.ofBytes (m.junk 0 pass))
  conv => lhs; unfold restoreLoop
  rw [if_pos h]
  unfold replayPass
  generalize readJournal m s.journalIndex (.ofBytes (m.junk 0 pass)) s = w at hread
  obtain ⟨j, s₁⟩ := w
  simp only at hread
  simp only [hread]
  by_cases hop : j.op = NO_OP
  · simp only [if_pos hop, hread]
  · simp only [if_neg hop, writeJournal_journalIndex, replayRecord_journalIndex, hread]

/-- As long as the counter does not wrap, the loop walks over the slots that are left. -/
theorem restoreLoop_run (hle : journalSlots m ≤ 255) (n i fuel : Nat)
    (hn : i + n = journalSlots m) (hi : s.journalIndex = i) (hfuel : n < fuel) :
    restoreLoop m fuel i s = some ((List.range' i n).foldl (replaySlot m) s) := by
  induction n generalizing i fuel s with
  | zero =>
    obtain ⟨fuel, rfl⟩ : ∃ k, fuel = k + 1 := ⟨fuel - 1, by omega⟩
    unfold restoreLoop
    rw [if_neg (by omega)]
    rfl
  | succ n ih =>
    subst hi
    obtain ⟨fuel, rfl⟩ : ∃ k, fuel = k + 1 := ⟨fuel - 1, by omega⟩
    have hmod : (s.journalIndex + 1) % 256 = s.journalIndex + 1 := Nat.mod_eq_of_lt (by omega)
    rw [restoreLoop_pass fuel _ (by omega), hmod]
    exact ih (s.journalIndex + 1) fuel (by omega) rfl (by omega)

/-- A counter that cannot reach the number of slots goes round for ever. -/
theorem restoreLoop_spins (hlt : 255 < journalSlots m) (fuel pass : Nat)
    (hi : s.journalIndex < 256) : restoreLoop m fuel pass s = none := by
  induction fuel generalizing pass s with
  | zero => rfl
  | succ fuel ih =>
    rw [restoreLoop_pass fuel pass (by omega)]
    exact ih (pass + 1) (Nat.mod_lt _ (by decide))

/-- The number of slots fits the counter when the cluster is smaller than 256 records. -/
theorem journalSlots_le_iff :
    journalSlots m ≤ 255 ↔ m.fi.clusterSize < 256 * (2 * JOURNAL_ENTRY_SIZE) := by
  have hslots : journalSlots m = m.fi.clusterSize / (2 * JOURNAL_ENTRY_SIZE) := rfl
  rw [hslots, ← Nat.div_lt_iff_lt_mul (by decide)]
  omega

/-- The replay is its loop from the slot `0` on. -/
theorem restoreFromJournal_eq (hjc : 0 < m.fi.journalsCount) (fuel : Nat) :
    restoreFromJournal m fuel s =
      (restoreLoop m fuel 0 { s with journalIndex := 0 }).map fun s =>
        (true, { s with journalIndex := 0 }) := if_neg (Nat.ne_of_gt hjc)

/-- With too many slots for the counter, the replay does not end. -/
theorem replay_spins (hjc : 0 < m.fi.journalsCount) (hlt : 255 < journalSlots m) (s : FS) :
    ¬ ReplaysEachSlotOnce m s := by
  rintro ⟨bound, hb⟩
  obtain ⟨r, hr, -⟩ := hb bound (Nat.le_refl bound)
  have hnone : restoreFromJournal m bound s = none := by
    rw [restoreFromJournal_eq hjc, restoreLoop_spins hlt bound 0 (Nat.zero_lt_succ _)]
    rfl
  rw [show restoreFromJournal m bound s = some r from hr] at hnone
  cases hnone

/-- The replay examines each slot exactly once when the slots are not more than the counter can
count, and otherwise it does not end. -/
theorem replay_ends_iff (m : Mount) (hjc : 0 < m.fi.journalsCount) (s : FS) :
    ReplaysEachSlotOnce m s ↔ m.fi.clusterSize < 256 * (2 * JOURNAL_ENTRY_SIZE) := by
  rw [← journalSlots_le_iff]
  constructor
  · intro hends
    by_contra hlt
    exact replay_spins hjc (by omega) s hends
  · intro hle
    refine ⟨journalSlots m + 1, fun fuel hfuel => ⟨_, ?_, rfl⟩⟩
    show restoreFromJournal m fuel s = _
    rw [restoreFromJournal_eq hjc, restoreLoop_run hle (journalSlots m) 0 fuel (Nat.zero_add _) rfl
      (by omega), List.range_eq_range']
    rfl

/-- A volume with clusters of 32 KiB, 64 sectors of 512 bytes. -/
def largeClusterMount : Mount :=
  { smallMount 1 with
    fi := { (smallMount 1).fi with
      totalSectors := 552, bytesPerSector := 512, sectorsPerCluster := 64
      clusterSize := 32768 }
    sectorSize := 512 }

/-- On clusters of 32 KiB the replay of an empty journal does not end. -/
theorem large_cluster_replay_spins :
    ¬ ReplaysEachSlotOnce largeClusterMount (zeroFS (oneFile 2 0)) :=
  replay_spins (by decide) (by decide) _

/-- On the small volume the replay of an empty journal ends. -/
theorem replay_ends_iff_small :
    ReplaysEachSlotOnce (smallMount 1) (zeroFS (oneFile 2 0)) ↔
      (smallMount 1).fi.clusterSize < 256 * (2 * JOURNAL_ENTRY_SIZE) :=
  replay_ends_iff (smallMount 1) (by decide) _

end NiFat32
