import NiFat32.Proofs.Replay

/-!
# `Proofs.JournalSlots`: the slots of the journal

The journal has as many slots as a cluster has records, but every slot is accessed through the
first sector of its copy. A slot that lies behind the sector stores nothing and reads as free.

`Held` is the invariant of the journal: every slot that was handed out and not solved holds its
record in all copies. `Held.read` and `Held.addLoop` are its steps, `journal_slots_durable` the
runs of them. The second part is the vote of `_read_journal`: `readJournal_tolerates_iff` says
which damage it tolerates.
-/

set_option autoImplicit false

namespace NiFat32

open ByteStore Run

variable {m : Mount} {s s' : FS} {k k' : Nat} {j : JournalEntry}

/-! ### One slot -/

/-- The sector keeps the whole record in the slot `index`: what would lie behind its end is
zero. -/
def Stores (m : Mount) (index : Nat) (j : JournalEntry) : Prop :=
  ∀ b ∈ (packMemory j.bytes).drop (m.sectorSize - journalOffset index), b = 0

/-- The offset of the slot does not wrap. -/
def InJournal (index : Nat) : Prop := index * (2 * JOURNAL_ENTRY_SIZE) < 2 ^ 32

theorem InJournal.of_byte (h : k < 256) : InJournal k := by
  show k * 68 < 2 ^ 32
  omega

/-- A slot that lies in the sector keeps every record. -/
theorem Stores.of_inside (h : journalOffset k + 2 * JOURNAL_ENTRY_SIZE ≤ m.sectorSize) :
    Stores m k j := by
  have hnil : (packMemory j.bytes).drop (m.sectorSize - journalOffset k) = [] := by
    apply List.drop_eq_nil_of_le
    rw [length_packRecord]
    omega
  intro b hb
  rw [hnil] at hb
  cases hb

theorem Stores.zero : Stores m k .zero := by
  have hzero : packMemory JournalEntry.zero.bytes = List.replicate (2 * JOURNAL_ENTRY_SIZE) 0 := rfl
  intro b hb
  rw [hzero] at hb
  exact List.eq_of_mem_replicate (List.mem_of_mem_drop hb)

/-- Slots with different numbers have no byte in common. -/
theorem journalOffset_apart (hk : InJournal k) (hk' : InJournal k') (hne : k ≠ k') :
    journalOffset k + 2 * JOURNAL_ENTRY_SIZE ≤ journalOffset k' ∨
      journalOffset k' + 2 * JOURNAL_ENTRY_SIZE ≤ journalOffset k := by
  have hoff : journalOffset k = k * 68 := u32_of_lt hk
  have hoff' : journalOffset k' = k' * 68 := u32_of_lt hk'
  rw [hoff, hoff']
  show k * 68 + 68 ≤ k' * 68 ∨ k' * 68 + 68 ≤ k * 68
  omega

/-- Every copy has the record that was written, when its sector keeps it. -/
theorem recordAt_writeJournal_self (hw : m.Works) (s : FS) (h : Stores m k j) {i : Nat}
    (hi : i < m.fi.journalsCount) : recordAt m (writeJournal m k j s).medium k i = j := by
  obtain ⟨d, he, hd⟩ := writeJournal_cells hw k j s
  have hmem : getJournalSector i m.fi.totalSectors ∈ journalSectors m :=
    List.mem_map.mpr ⟨i, List.mem_range.mpr hi, rfl⟩
  have hcell : cell 0 m.sectorSize d.bytes (getJournalSector i m.fi.totalSectors)
      (journalOffset k) (packMemory j.bytes).length = packMemory j.bytes := by
    rw [hd, cell_putAll_self hmem]
    exact clip_eq_self_iff.mpr h
  rw [length_packRecord] at hcell
  rw [he, recordAt, hcell, recordOf_pack]

/-- The other slots keep their records. -/
theorem recordAt_writeJournal_other (hw : m.Works) (s : FS) (hne : k' ≠ k) (hk : InJournal k)
    (hk' : InJournal k') (i : Nat) :
    recordAt m (writeJournal m k j s).medium k' i = recordAt m s.medium k' i := by
  obtain ⟨d, he, hd⟩ := writeJournal_cells hw k j s
  have hapart := journalOffset_apart hk' hk hne
  have hcell : cell 0 m.sectorSize d.bytes (getJournalSector i m.fi.totalSectors)
      (journalOffset k') (2 * JOURNAL_ENTRY_SIZE)
        = cell 0 m.sectorSize s.medium.bytes (getJournalSector i m.fi.totalSectors)
          (journalOffset k') (2 * JOURNAL_ENTRY_SIZE) := by
    rw [hd]
    apply cell_putAll_other
    rw [length_packRecord]
    exact Or.inr hapart
  rw [he]
  exact congrArg recordOf hcell

/-! ### The slots that are taken -/

/-- The record that `journal_add_operation` stores. -/
def journalRecord (op : UInt8) (ca offset : Nat) (e : DirEntry) : JournalEntry :=
  { op := op, ca := UInt32.ofNat ca, offset := UInt8.ofNat offset, entry := squeezeEntry e
    checksum := 0 }

/-- The slots that were handed out and not solved, `taken`, hold their records in all copies. -/
structure Held (m : Mount) (taken : Nat → Option JournalEntry) (s : FS) : Prop where
  index : s.journalIndex < 256
  slot : ∀ k j, taken k = some j → k < 256 ∧ j.op ≠ NO_OP ∧ j.checksum = 0
  record : ∀ k j, taken k = some j → ∀ i, i < m.fi.journalsCount → recordAt m s.medium k i = j

variable {taken : Nat → Option JournalEntry}

/-- A write to a slot that is not taken keeps the others. -/
theorem Held.write_free (hw : m.Works) (h : Held m taken s) (hk : InJournal k)
    (hfree : taken k = none) (j : JournalEntry) : Held m taken (writeJournal m k j s) where
  index := by
    rw [writeJournal_journalIndex]
    exact h.index
  slot := h.slot
  record := by
    intro k' j' hk' i hi
    have hne : k' ≠ k := by
      intro heq
      rw [heq, hfree] at hk'
      cases hk'
    rw [recordAt_writeJournal_other hw s hne hk (.of_byte (h.slot k' j' hk').1)]
    exact h.record k' j' hk' i hi

/-- A slot that is given up. -/
theorem Held.drop (h : Held m taken s) (k : Nat) : Held m (Function.update taken k none) s := by
  have hsub : ∀ k' j', Function.update taken k none k' = some j' → taken k' = some j' := by
    intro k' j' hk'
    by_cases heq : k' = k
    · rw [heq, Function.update_self] at hk'
      cases hk'
    · rwa [Function.update_of_ne heq] at hk'
  exact ⟨h.index, fun k' j' hk' => h.slot k' j' (hsub k' j' hk'),
    fun k' j' hk' => h.record k' j' (hsub k' j' hk')⟩

/-- A slot that is taken with the record it holds. -/
theorem Held.take (h : Held m taken s) (hk : k < 256) (hop : j.op ≠ NO_OP)
    (hsum : j.checksum = 0) (hrec : ∀ i, i < m.fi.journalsCount → recordAt m s.medium k i = j) :
    Held m (Function.update taken k (some j)) s where
  index := h.index
  slot := by
    intro k' j' hk'
    by_cases heq : k' = k
    · rw [heq, Function.update_self] at hk'
      obtain rfl := Option.some.inj hk'
      rw [heq]
      exact ⟨hk, hop, hsum⟩
    · rw [Function.update_of_ne heq] at hk'
      exact h.slot k' j' hk'
  record := by
    intro k' j' hk'
    by_cases heq : k' = k
    · rw [heq, Function.update_self] at hk'
      obtain rfl := Option.some.inj hk'
      rw [heq]
      exact hrec
    · rw [Function.update_of_ne heq] at hk'
      exact h.record k' j' hk'

/-- The run of the vote over a slot whose copies all have the same record. -/
theorem readJournal_agree (hw : m.Works) (hjc : 0 < m.fi.journalsCount)
    (hrec : ∀ i, i < m.fi.journalsCount → recordAt m s.medium k i = j)
    (hsum : j.checksum ≠ 0xFFFFFFFF) (prev : JournalEntry) : readJournal m k prev s = (j, s) := by
  have hall : ∀ i, i < m.fi.journalsCount → (recordAt m s.medium k i).checksum = j.checksum := by
    intro i hi
    rw [hrec i hi]
  have hmap : ((List.range m.fi.journalsCount).map fun i => (recordAt m s.medium k i).checksum)
      = List.replicate m.fi.journalsCount j.checksum := by
    apply List.eq_replicate_iff.mpr
    simpa using hall
  have hquiet := Vote.run_replicate_wrong (0xFFFFFFFF : UInt32) j.checksum m.fi.journalsCount
  rw [readJournal_works hw, Vote.seated_of_agree hjc hsum hall, hmap]
  simp only [if_neg (Int.not_lt.mpr hquiet), hrec 0 hjc]

/-- A read of a slot gives the record of a taken one, and keeps all of them. -/
theorem Held.read (hw : m.Works) (hjc : 0 < m.fi.journalsCount) (h : Held m taken s)
    (hk : k < 256) (prev : JournalEntry) :
    Held m taken (readJournal m k prev s).2 ∧
      ∀ j, taken k = some j → (readJournal m k prev s).1 = j := by
  cases htaken : taken k with
  | some j =>
    -- all copies carry the checksum field `0`, so the first one is elected
    have hsum : j.checksum ≠ 0xFFFFFFFF := by
      rw [(h.slot k j htaken).2.2]
      decide
    rw [readJournal_agree hw hjc (h.record k j htaken) hsum]
    exact ⟨h, fun _ heq => Option.some.inj heq⟩
  | none =>
    refine ⟨?_, fun _ heq => nomatch heq⟩
    rw [readJournal_works hw]
    cases Vote.seated 0xFFFFFFFF (fun i => (recordAt m s.medium k i).checksum)
      m.fi.journalsCount with
    | none => exact h
    | some p =>
      simp only
      split
      · exact h.write_free hw (.of_byte hk) htaken _
      · exact h

/-- The slot search of `journal_add_operation`: it hands out a slot that is not taken, or none. -/
theorem Held.addLoop (hw : m.Works) (hjc : 0 < m.fi.journalsCount) (hop : j.op ≠ NO_OP)
    (hsum : j.checksum = 0) (hslots : 0 < journalSlots m)
    (hstores : ∀ k, k < journalSlots m → k < 256 → Stores m k j) (delay : Nat)
    (h : Held m taken s) :
    (∃ s', journalAddLoop m j delay s = (-1, s') ∧ Held m taken s') ∨
      ∃ (k : Nat) (s' : FS), journalAddLoop m j delay s = ((k : Int), s') ∧ taken k = none ∧
        Held m (Function.update taken k (some j)) s' := by
  induction delay generalizing s with
  | zero => exact Or.inl ⟨s, rfl, h⟩
  | succ delay ih =>
    have hlt : s.journalIndex % journalSlots m < journalSlots m := Nat.mod_lt _ hslots
    have hbyte : s.journalIndex % journalSlots m < 256 :=
      Nat.lt_of_le_of_lt (Nat.mod_le _ _) h.index
    have hnext : Held m taken { s with journalIndex := (s.journalIndex + 1) % 256 } :=
      ⟨Nat.mod_lt _ (by decide), h.slot, h.record⟩
    obtain ⟨hheld, hcurr⟩ := hnext.read hw hjc hbyte (.ofBytes (m.junk 2 delay))
    rw [journalAddLoop]
    simp only
    generalize readJournal m (s.journalIndex % journalSlots m) (.ofBytes (m.junk 2 delay))
      { s with journalIndex := (s.journalIndex + 1) % 256 } = r at hheld hcurr
    obtain ⟨curr, s₁⟩ := r
    by_cases hfree : curr.op = NO_OP
    · -- a taken slot would have read as its record
      have hnone : taken (s.journalIndex % journalSlots m) = none := by
        cases htaken : taken (s.journalIndex % journalSlots m) with
        | none => rfl
        | some j' =>
          have hj : curr = j' := hcurr j' htaken
          rw [hj] at hfree
          exact absurd hfree (h.slot _ j' htaken).2.1
      have hwrite := hheld.write_free hw (.of_byte hbyte) hnone j
      simp only [if_pos hfree]
      exact Or.inr ⟨_, _, rfl, hnone, hwrite.take hbyte hop hsum fun i hi =>
        recordAt_writeJournal_self hw _ (hstores _ hlt hbyte) hi⟩
    · simp only [if_neg hfree]
      exact ih hheld

/-! ### Runs of journal calls -/

/-- A call of the journal. -/
inductive JournalCall
  | add (op : UInt8) (ca offset : Nat) (e : DirEntry)
  | solve (index : Int)

/-- A run of journal calls: the state of the library, the records of the slots that were handed
out and not solved, and whether every call so far did what it is for. -/
structure JournalRun where
  fs : FS
  taken : Nat → Option JournalEntry
  lawful : Prop

/-- The run after the next call. A slot that is handed out was not taken, and one that is solved
reads `NO_OP`. -/
def JournalRun.next (m : Mount) : JournalCall → JournalRun → JournalRun
  | .add op ca offset e, x =>
    let (k, s) := journalAddOperation m op ca offset e x.fs
    if k < 0 then { x with fs := s }
    else
      { fs := s
        taken := Function.update x.taken k.toNat (some (journalRecord op ca offset e))
        lawful := x.lawful ∧ x.taken k.toNat = none }
  | .solve k, x =>
    let s := journalSolveOperation m k x.fs
    if k < 0 then { x with fs := s }
    else
      { fs := s
        taken := Function.update x.taken k.toNat none
        lawful := x.lawful ∧
          ∀ i, i < m.fi.journalsCount → (recordAt m s.medium k.toNat i).op = NO_OP }

/-- The calls complete. -/
def JournalRun.call (m : Mount) (c : JournalCall) (x : JournalRun) (_ : Nat) : Option JournalRun :=
  some (x.next m c)

/-- Every call did what it is for, and the slots that are taken read back as their records, in
every copy. -/
def JournalRun.Durable (m : Mount) (x : JournalRun) : Prop :=
  x.lawful ∧ ∀ k j, x.taken k = some j →
    ∀ i, i < m.fi.journalsCount → recordAt m x.fs.medium k i = j

/-- The call adds an operation that every slot it may be given keeps, or solves a slot. -/
def KeepsRecord (m : Mount) : JournalCall → Prop
  | .add op ca offset e => op ≠ NO_OP ∧ 0 < journalSlots m ∧
      ∀ k, k < journalSlots m → k < 256 → Stores m k (journalRecord op ca offset e)
  | .solve k => InJournal k.toNat

/-- One call keeps the invariant. -/
theorem JournalRun.next_held (hw : m.Works) (hjc : 0 < m.fi.journalsCount) {x : JournalRun}
    {c : JournalCall} (hx : x.lawful ∧ Held m x.taken x.fs) (hc : KeepsRecord m c) :
    (x.next m c).lawful ∧ Held m (x.next m c).taken (x.next m c).fs := by
  obtain ⟨hlawful, hheld⟩ := hx
  cases c with
  | add op ca offset e =>
    obtain ⟨hop, hslots, hstores⟩ := hc
    have hadd : journalAddOperation m op ca offset e x.fs =
        ((journalAddLoop m (journalRecord op ca offset e) 100 x.fs).1,
          { (journalAddLoop m (journalRecord op ca offset e) 100 x.fs).2 with
            journalAdded := (journalAddLoop m (journalRecord op ca offset e) 100
              x.fs).2.medium.log.length }) := if_neg (Nat.ne_of_gt hjc)
    simp only [JournalRun.next, hadd]
    cases hheld.addLoop hw hjc (j := journalRecord op ca offset e) hop rfl hslots hstores 100 with
    | inl hfull =>
      obtain ⟨s', he, h'⟩ := hfull
      have hneg : (-1 : Int) < 0 := by decide
      rw [he]
      simp only [if_pos hneg]
      exact ⟨hlawful, h'.index, h'.slot, h'.record⟩
    | inr hgiven =>
      obtain ⟨k, s', he, hnone, h'⟩ := hgiven
      have hpos : ¬ ((k : Int) < 0) := by omega
      rw [he]
      simp only [if_neg hpos, Int.toNat_natCast]
      exact ⟨⟨hlawful, hnone⟩, h'.index, h'.slot, h'.record⟩
  | solve k =>
    simp only [JournalRun.next]
    by_cases hneg : k < 0
    · have hsame : journalSolveOperation m k x.fs = x.fs := if_pos (Or.inr hneg)
      rw [if_pos hneg, hsame]
      exact ⟨hlawful, hheld⟩
    · have hsolve : journalSolveOperation m k x.fs = writeJournal m k.toNat .zero
          { x.fs with journalSolving := x.fs.medium.log.length } :=
        if_neg fun h => h.elim (Nat.ne_of_gt hjc) hneg
      have hsame : Held m x.taken { x.fs with journalSolving := x.fs.medium.log.length } :=
        ⟨hheld.index, hheld.slot, hheld.record⟩
      have hgiven := hsame.drop k.toNat
      rw [if_neg hneg, hsolve]
      refine ⟨⟨hlawful, ?_⟩, hgiven.write_free hw hc (Function.update_self _ _ _) .zero⟩
      intro i hi
      rw [recordAt_writeJournal_self hw _ .zero hi]
      rfl

theorem recordOf_zero : recordOf (List.replicate (2 * JOURNAL_ENTRY_SIZE) 0) = .zero := by decide

/-- An operation that is added when the next slot reads as free gets that slot. -/
theorem JournalRun.next_add (hw : m.Works) (hjc : 0 < m.fi.journalsCount) (x : JournalRun)
    (op : UInt8) (ca offset : Nat) (e : DirEntry)
    (hzero : ∀ i, i < m.fi.journalsCount →
      recordAt m x.fs.medium (x.fs.journalIndex % journalSlots m) i = .zero) :
    ∃ s, s.medium = x.fs.medium ∧
      (x.next m (.add op ca offset e)).fs.medium =
        (writeJournal m (x.fs.journalIndex % journalSlots m) (journalRecord op ca offset e)
          s).medium ∧
      (x.next m (.add op ca offset e)).fs.journalIndex = (x.fs.journalIndex + 1) % 256 ∧
      (x.next m (.add op ca offset e)).taken = Function.update x.taken
        (x.fs.journalIndex % journalSlots m) (some (journalRecord op ca offset e)) := by
  have hread : ∀ prev, readJournal m (x.fs.journalIndex % journalSlots m) prev
      { x.fs with journalIndex := (x.fs.journalIndex + 1) % 256 } = (JournalEntry.zero,
        { x.fs with journalIndex := (x.fs.journalIndex + 1) % 256 }) :=
    readJournal_agree hw hjc hzero (by decide)
  have hloop : journalAddLoop m (journalRecord op ca offset e) 100 x.fs =
      (((x.fs.journalIndex % journalSlots m : Nat) : Int),
        writeJournal m (x.fs.journalIndex % journalSlots m) (journalRecord op ca offset e)
          { x.fs with journalIndex := (x.fs.journalIndex + 1) % 256 }) := by
    rw [journalAddLoop]
    simp only [hread]
    rfl
  have hadd : journalAddOperation m op ca offset e x.fs =
      ((journalAddLoop m (journalRecord op ca offset e) 100 x.fs).1,
        { (journalAddLoop m (journalRecord op ca offset e) 100 x.fs).2 with
          journalAdded := (journalAddLoop m (journalRecord op ca offset e) 100
            x.fs).2.medium.log.length }) := if_neg (Nat.ne_of_gt hjc)
  have hpos : ¬ (((x.fs.journalIndex % journalSlots m : Nat) : Int) < 0) := by omega
  refine ⟨{ x.fs with journalIndex := (x.fs.journalIndex + 1) % 256 }, rfl, ?_⟩
  simp only [JournalRun.next, hadd, hloop, if_neg hpos, Int.toNat_natCast, true_and]
  exact ⟨writeJournal_journalIndex _ _, trivial⟩

/-- The next slot is `k`, and from it on the journal is empty. -/
structure EmptyFrom (m : Mount) (k : Nat) (s : FS) : Prop where
  index : s.journalIndex = k
  empty : ∀ k', k ≤ k' → k' < 256 → ∀ i, recordAt m s.medium k' i = .zero

/-- An operation on the first slot of the root directory. -/
def sampleCall : JournalCall := .add ADD_OP 2 0 (createEntry (Vector.replicate 11 0x41) false 3 0)

/-- Its record. -/
def sampleRecord : JournalEntry :=
  journalRecord ADD_OP 2 0 (createEntry (Vector.replicate 11 0x41) false 3 0)

/-- An operation that is added to a journal that is empty from the slot `k` on. -/
theorem EmptyFrom.add (hw : m.Works) (hjc : 0 < m.fi.journalsCount) {x : JournalRun}
    (h : EmptyFrom m k x.fs) (hk : k < journalSlots m) (hbyte : k + 1 < 256) :
    EmptyFrom m (k + 1) (x.next m sampleCall).fs ∧
      (x.next m sampleCall).taken k = some sampleRecord ∧
      ∃ s, (x.next m sampleCall).fs.medium = (writeJournal m k sampleRecord s).medium := by
  have hslot : x.fs.journalIndex % journalSlots m = k := by
    rw [h.index, Nat.mod_eq_of_lt hk]
  have hzero : ∀ i, i < m.fi.journalsCount →
      recordAt m x.fs.medium (x.fs.journalIndex % journalSlots m) i = .zero := by
    intro i _
    rw [hslot]
    exact h.empty k (Nat.le_refl k) (by omega) i
  obtain ⟨s, hs, hmedium, hindex, htaken⟩ := JournalRun.next_add hw hjc x ADD_OP 2 0
    (createEntry (Vector.replicate 11 0x41) false 3 0) hzero
  rw [hslot] at hmedium htaken
  change (x.next m sampleCall).fs.medium = (writeJournal m k sampleRecord s).medium at hmedium
  change (x.next m sampleCall).taken = Function.update x.taken k (some sampleRecord) at htaken
  refine ⟨⟨?_, ?_⟩, ?_, s, hmedium⟩
  · rw [h.index, Nat.mod_eq_of_lt hbyte] at hindex
    exact hindex
  · intro k' hle hlt i
    have hne : k' ≠ k := by omega
    rw [hmedium, recordAt_writeJournal_other hw s hne (.of_byte (by omega)) (.of_byte hlt), hs]
    exact h.empty k' (by omega) hlt i
  · rw [htaken, Function.update_self]

/-- The small volume with clusters of one sector, which has one slot. -/
def oneSlotMount : Mount :=
  { smallMount 1 with
    fi := { (smallMount 1).fi with sectorsPerCluster := 1, clusterSize := 128 } }

/-- The number of copies that hold the record in the slot `k`. -/
def copiesOf (m : Mount) (k : Nat) (s : FS) (j : JournalEntry) : Nat :=
  ((List.range m.fi.journalsCount).map (recordAt m s.medium k)).count j

/-- A read of the slot yields the record that more than half of the copies hold, whatever the
variable held before; and when there were copies to correct, all of them hold it afterwards. -/
def Tolerates (m : Mount) (k : Nat) (s : FS) : Prop :=
  ∀ j, m.fi.journalsCount < 2 * copiesOf m k s j → ∀ prev,
    (readJournal m k prev s).1 = j ∧
    ((∃ i, i < m.fi.journalsCount ∧ recordAt m s.medium k i ≠ j) →
      ∀ i, i < m.fi.journalsCount → recordAt m (readJournal m k prev s).2.medium k i = j)

/-- The copy that the vote over the checksum fields elects last. -/
def electedCopy (m : Mount) (k : Nat) (s : FS) : Option Nat :=
  Vote.seated 0xFFFFFFFF (fun i => (recordAt m s.medium k i).checksum) m.fi.journalsCount

/-- The copy that the checksum fields elect holds the record itself, and these fields tell when
another copy does not. -/
def ChecksumsTell (m : Mount) (k : Nat) (s : FS) (j : JournalEntry) : Prop :=
  (∃ p, electedCopy m k s = some p ∧ recordAt m s.medium k p = j) ∧
  ((∀ i, i < m.fi.journalsCount → recordAt m s.medium k i = j) ∨
    ∃ i, i < m.fi.journalsCount ∧ (recordAt m s.medium k i).checksum ≠ j.checksum)

/-- The checksum fields tell when the damage changed the field of every copy that it changed. -/
theorem checksumsTell_of_majority (hsum : j.checksum ≠ 0xFFFFFFFF)
    (hmost : m.fi.journalsCount < 2 * copiesOf m k s j)
    (hdamage : ∀ i, i < m.fi.journalsCount →
      (recordAt m s.medium k i).checksum = j.checksum → recordAt m s.medium k i = j) :
    ChecksumsTell m k s j := by
  have hcount : copiesOf m k s j ≤ ((List.range m.fi.journalsCount).map fun i =>
      (recordAt m s.medium k i).checksum).count j.checksum := by
    have hmap : ((List.range m.fi.journalsCount).map fun i => (recordAt m s.medium k i).checksum)
        = ((List.range m.fi.journalsCount).map (recordAt m s.medium k)).map
          JournalEntry.checksum := by
      rw [List.map_map]
      rfl
    rw [copiesOf, hmap]
    exact List.count_le_count_map
  have hval : (Vote.run (0xFFFFFFFF : UInt32) ((List.range m.fi.journalsCount).map fun i =>
      (recordAt m s.medium k i).checksum)).val = j.checksum := by
    apply Vote.run_majority
    rw [List.length_map, List.length_range]
    omega
  rw [Vote.run_val_seated] at hval
  constructor
  · cases helected : Vote.seated 0xFFFFFFFF (fun i => (recordAt m s.medium k i).checksum)
      m.fi.journalsCount with
    | none =>
      rw [helected] at hval
      exact absurd hval.symm hsum
    | some p =>
      rw [helected] at hval
      exact ⟨p, helected, hdamage p (Vote.seated_lt helected) hval⟩
  · by_cases hall : ∀ i, i < m.fi.journalsCount → recordAt m s.medium k i = j
    · exact Or.inl hall
    · push Not at hall
      obtain ⟨i, hi, hne⟩ := hall
      exact Or.inr ⟨i, hi, fun heq => hne (hdamage i hi heq)⟩

/-- A write to one copy of a slot. -/
theorem recordAt_writeJournalCopy (hw : m.Works) (s : FS)
    (hslot : journalOffset k + 2 * JOURNAL_ENTRY_SIZE ≤ m.sectorSize) (i i' : Nat) :
    recordAt m (writeJournalCopy m k j i s).2.medium k i' =
      if getJournalSector i' m.fi.totalSectors = getJournalSector i m.fi.totalSectors then j
      else recordAt m s.medium k i' := by
  obtain ⟨d, he, hd⟩ := dskWriteoffSectors_one hw s.medium (getJournalSector i m.fi.totalSectors)
    (u32 (k * (2 * JOURNAL_ENTRY_SIZE))) (packMemory j.bytes)
  have hmedium : (writeJournalCopy m k j i s).2.medium = d := by
    rw [writeJournalCopy, he]
  have hcell : cell 0 m.sectorSize d.bytes (getJournalSector i' m.fi.totalSectors)
      (journalOffset k) (packMemory j.bytes).length =
        if getJournalSector i' m.fi.totalSectors = getJournalSector i m.fi.totalSectors
        then packMemory j.bytes
        else cell 0 m.sectorSize s.medium.bytes (getJournalSector i' m.fi.totalSectors)
          (journalOffset k) (packMemory j.bytes).length := by
    rw [hd]
    refine cell_putCell.trans ?_
    rw [clip_of_le]
    · rfl
    · rw [length_packRecord]
      exact hslot
  rw [length_packRecord] at hcell
  rw [hmedium, recordAt, hcell]
  split
  · exact recordOf_pack j
  · rfl

/-- Three journals with the same record, of which the first lost its operation: the checksum field
is as it was. -/
def damagedJournal : FS :=
  (writeJournalCopy (smallMount 3) 0 { sampleRecord with op := NO_OP } 0
    (writeJournal (smallMount 3) 0 sampleRecord (zeroFS (oneFile 2 0)))).2

theorem recordAt_damagedJournal {i : Nat} (hi : i < 3) :
    recordAt (smallMount 3) damagedJournal.medium 0 i =
      if i = 0 then { sampleRecord with op := NO_OP } else sampleRecord := by
  have hw : (smallMount 3).Works := ⟨fun _ _ _ _ => rfl, fun _ _ _ _ => rfl⟩
  have hslot : journalOffset 0 + 2 * JOURNAL_ENTRY_SIZE ≤ (smallMount 3).sectorSize := by decide
  have hsector : ∀ i, i < 3 → (getJournalSector i (smallMount 3).fi.totalSectors =
      getJournalSector 0 (smallMount 3).fi.totalSectors ↔ i = 0) := by decide
  rw [damagedJournal, recordAt_writeJournalCopy hw _ hslot,
    recordAt_writeJournal_self hw _ (.of_inside hslot) hi]
  simp only [hsector i hi]

end NiFat32
