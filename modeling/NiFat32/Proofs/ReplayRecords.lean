import NiFat32.Proofs.JournalSlots
import NiFat32.Proofs.Walk

/-!
# `Proofs.ReplayRecords`: what the replay of the journal does to the volume

The journal is read as a function from slots to records (`Records`). The replay carries out the
records that were not solved, in the order of their slots (`Vol.replayAll`), and marks each of
them as solved. `replayPass_shows` is one slot, `replay_applies_records` the whole loop: what it
leaves is a journal without open records, so that a second replay changes nothing.

A slot may lie partly behind the sector of its copy. What is read from it is zero there, and stays
so when the record is written back (`stores_recordAt`).
-/

set_option autoImplicit false

namespace NiFat32

open ByteStore Run

variable {m : Mount} {s s' : FS} {v : Vol} {records : Nat → JournalEntry} {k : Nat}

/-! ### A record that was read fits its slot -/

/-- The bytes of a structure read from 34 bytes. -/
theorem JournalEntry.bytes_ofBytes (bs : List UInt8) (h : bs.length = JOURNAL_ENTRY_SIZE) :
    (JournalEntry.ofBytes bs).bytes = bs := by
  match bs, h with
  | o :: a0 :: a1 :: a2 :: a3 :: [b, n0, n1, n2, n3, n4, n5, n6, n7, n8, n9, n10, c, d0, d1, d2,
      d3, e0, e1, e2, e3, f0, f1, f2, f3, g0, g1, g2, g3], _ =>
    simp only [JournalEntry.ofBytes, JournalEntry.bytes, DirEntry.fieldAt, List.getD_cons_zero,
      List.getD_cons_succ, bytesOfU32_u32OfBytes]
    rfl

/-- The record with another operation: only the first byte changes. -/
theorem JournalEntry.bytes_solved (j : JournalEntry) :
    { j with op := NO_OP : JournalEntry }.bytes = 0 :: j.bytes.tail := rfl

/-- Decoding splits where an even number of bytes ends. -/
theorem unpackMemory_append {xs : List UInt8} (ys : List UInt8) {t n : Nat}
    (h : xs.length = 2 * t) :
    unpackMemory (xs ++ ys) (t + n) = unpackMemory xs t ++ unpackMemory ys n := by
  induction t generalizing xs with
  | zero =>
    obtain rfl := List.length_eq_zero_iff.mp h
    simp
  | succ t ih =>
    match xs, h with
    | lo :: hi :: xs, h =>
      have hlen : xs.length = 2 * t := by
        simp only [List.length_cons] at h
        omega
      rw [Nat.add_right_comm, List.cons_append, List.cons_append, unpackMemory, unpackMemory,
        ih hlen, List.cons_append]
    | [a], h => simp at h; omega

/-- Encoding splits between the bytes. -/
theorem packMemory_drop (xs : List UInt8) (t : Nat) :
    (packMemory xs).drop (2 * t) = packMemory (xs.drop t) := by
  induction xs generalizing t with
  | nil => simp
  | cons b xs ih =>
    cases t with
    | zero => rfl
    | succ t =>
      rw [packMemory_cons, Nat.mul_succ, Nat.add_comm, ← List.drop_drop]
      exact ih t

theorem packMemory_of_zero {xs : List UInt8} (h : ∀ b ∈ xs, b = 0) :
    ∀ b ∈ packMemory xs, b = 0 := by
  intro b hb
  obtain ⟨x, hx, hbx⟩ := List.mem_flatMap.mp hb
  rw [h x hx] at hbx
  have hword : bytesOfWord (setByte 0) = [0, 0] := by decide
  rw [hword] at hbx
  simpa using hbx

/-- Of a slot that was read, the bytes behind the sector are zero, and the record has zeros there.
So the sector keeps the record when it is written back as solved. -/
theorem stores_recordAt (hss : 2 ∣ m.sectorSize) (hk : InJournal k) (d : Medium) (i : Nat) :
    Stores m k { recordAt m d k i with op := NO_OP } := by
  have hoff : journalOffset k = k * 68 := u32_of_lt hk
  intro b hb
  obtain ⟨t, ht⟩ : ∃ t, m.sectorSize - journalOffset k = 2 * t :=
    ⟨(m.sectorSize - journalOffset k) / 2, by omega⟩
  rw [ht, packMemory_drop, JournalEntry.bytes_solved] at hb
  refine packMemory_of_zero (fun c hc => ?_) b hb
  -- the decoded bytes from `t` on are zero
  have hzero : ∀ c ∈ ((recordAt m d k i).bytes).drop t, c = 0 := by
    by_cases hlong : 34 ≤ t
    · intro c hc
      rw [List.drop_of_length_le (by rw [JournalEntry.length_bytes]; exact hlong)] at hc
      exact absurd hc List.not_mem_nil
    · have hcell : cell 0 m.sectorSize d.bytes (getJournalSector i m.fi.totalSectors)
          (journalOffset k) (2 * JOURNAL_ENTRY_SIZE)
          = read d.bytes (getJournalSector i m.fi.totalSectors * m.sectorSize + journalOffset k)
            (2 * t) ++ List.replicate (2 * (34 - t)) 0 := by
        unfold cell JOURNAL_ENTRY_SIZE
        rw [ht, Nat.min_eq_right (by omega), ← Nat.mul_sub]
      have hunpack := unpackMemory_append (List.replicate (2 * (34 - t)) 0) (n := 34 - t)
        (length_read d.bytes (getJournalSector i m.fi.totalSectors * m.sectorSize + journalOffset k)
          (2 * t))
      rw [Nat.add_sub_cancel' (by omega)] at hunpack
      have hlen := length_unpackMemory t (read d.bytes (getJournalSector i m.fi.totalSectors
        * m.sectorSize + journalOffset k) (2 * t)) (by rw [length_read])
      unfold recordAt recordOf
      have hbytes : (unpackMemory (read d.bytes (getJournalSector i m.fi.totalSectors
          * m.sectorSize + journalOffset k) (2 * t)) t ++ List.replicate (34 - t) 0).length
          = JOURNAL_ENTRY_SIZE := by
        unfold JOURNAL_ENTRY_SIZE
        rw [List.length_append, hlen, List.length_replicate]
        omega
      rw [hcell, show JOURNAL_ENTRY_SIZE = 34 from rfl, hunpack, unpackMemory_replicate_zero,
        JournalEntry.bytes_ofBytes _ hbytes, List.drop_left' hlen]
      exact fun c hc => List.eq_of_mem_replicate hc
  cases t with
  | zero =>
    rw [List.drop_zero] at hc hzero
    cases List.mem_cons.mp hc with
    | inl heq => exact heq
    | inr htail => exact hzero c (List.mem_of_mem_tail htail)
  | succ t =>
    rw [List.drop_succ_cons, List.drop_tail] at hc
    exact hzero c hc

/-! ### The journal as records -/

/-- The record after it was solved. -/
def JournalEntry.solved (j : JournalEntry) : JournalEntry := { j with op := NO_OP }

/-- Every copy of the journal has the same record in a slot; none of them has the checksum field
that a vote starts from. -/
structure Records (m : Mount) (records : Nat → JournalEntry) (s : FS) : Prop where
  record : ∀ k, k < journalSlots m → ∀ i, i < m.fi.journalsCount →
    recordAt m s.medium k i = records k
  sum : ∀ k, k < journalSlots m → (records k).checksum ≠ 0xFFFFFFFF

/-- The record names a slot of a cluster of the volume. -/
structure JournalEntry.Reaches (j : JournalEntry) (m : Mount) : Prop where
  inVol : InVol m j.ca.toNat
  inside : j.offset.toNat * (2 * ENTRY_SIZE) + 2 * ENTRY_SIZE ≤ m.fi.clusterSize

/-- What the record in the slot `k` does to the volume: a deletion zeroes its slot, the other two
operations write the entry of the record. -/
def Vol.replay (v : Vol) (m : Mount) (k : Nat) (j : JournalEntry) : Vol :=
  let put := fun bs : List UInt8 => v.setRaw j.ca.toNat
    (splice (v.raw j.ca.toNat) (j.offset.toNat * (2 * ENTRY_SIZE)) bs)
  if j.op = DEL_OP then put (List.replicate (2 * ENTRY_SIZE) 0)
  else if j.op = ADD_OP ∨ j.op = EDIT_OP then
    put (packMemory (unsqueezeEntry j.entry (DirEntry.fieldAt (m.junk 1 k) 0)).bytes)
  else v

/-- The records of the first `n` slots, in order. -/
def Vol.replayAll (v : Vol) (m : Mount) (records : Nat → JournalEntry) (n : Nat) : Vol :=
  (List.range n).foldl (fun v k => v.replay m k (records k)) v

theorem Vol.replay_solved (v : Vol) (k : Nat) {j : JournalEntry} (h : j.op = NO_OP) :
    v.replay m k j = v := by
  unfold Vol.replay
  rw [h]
  rfl

/-! ### One slot -/

/-- The journal does not see the clusters. -/
theorem Records.writeoffCluster (L : Layout m) (h : Records m records s) {ca : Nat}
    (hca : InVol m ca) (offset : Nat) (data : List UInt8) :
    Records m records (writeoffCluster m ca offset data s).2 where
  sum := h.sum
  record k hk i hi := by
    have hapart := L.cluster_log ca (getJournalSector i m.fi.totalSectors) hca
      (Or.inr ⟨i, hi, rfl⟩)
    have hwindow : SameWindow m.sectorSize
        (NiFat32.writeoffCluster m ca offset data s).2.medium.bytes s.medium.bytes
        (getJournalSector i m.fi.totalSectors) := by
      intro o ho
      refine (writeoffLoop_outside L.works m.fi.sectorsPerCluster (clusterSector m ca) offset data
        s.medium).2 _ ?_
      unfold Apart clusterAddr at hapart
      rw [L.clusterSize_sectors, ← Nat.add_mul] at hapart
      omega
    rw [← h.record k hk i hi]
    exact congrArg recordOf hwindow.cell

theorem replayRecord_shows (L : Layout m) (h : Shows m s v) (hr : Records m records s)
    {j : JournalEntry} (hj : j.Reaches m) (k : Nat) :
    let restored := unsqueezeEntry j.entry (DirEntry.fieldAt (m.junk 1 k) 0)
    Shows m (replayRecord m j restored s) (v.replay m k j) ∧
      Records m records (replayRecord m j restored s) ∧
      Keeps [] s (replayRecord m j restored s) := by
  intro restored
  have hlen : ∀ bs : List UInt8, bs.length = 2 * ENTRY_SIZE →
      j.offset.toNat * (2 * ENTRY_SIZE) + bs.length ≤ m.fi.clusterSize := by
    intro bs hbs
    rw [hbs]
    exact hj.inside
  have hput : ∀ bs : List UInt8, bs.length = 2 * ENTRY_SIZE →
      let s' := (writeoffCluster m j.ca.toNat (j.offset.toNat * (2 * ENTRY_SIZE)) bs s).2
      Shows m s' (v.setRaw j.ca.toNat
        (splice (v.raw j.ca.toNat) (j.offset.toNat * (2 * ENTRY_SIZE)) bs)) ∧
      Records m records s' ∧ Keeps [] s s' := by
    intro bs hbs
    obtain ⟨s', he, hs, hk⟩ := writeoffCluster_shows L h hj.inVol
      (j.offset.toNat * (2 * ENTRY_SIZE)) bs (hlen bs hbs)
    have hrec := hr.writeoffCluster L hj.inVol (j.offset.toNat * (2 * ENTRY_SIZE)) bs
    rw [he] at hrec ⊢
    exact ⟨hs, hrec, hk⟩
  unfold replayRecord Vol.replay
  split
  · exact hput _ (List.length_replicate)
  · split
    · exact hput _ (by rw [length_packMemory, DirEntry.length_bytes])
    · exact ⟨h, hr, Keeps.refl s⟩

/-- A record is marked as solved in its slot. -/
theorem Records.solve (L : Layout m) (hr : Records m records s) (hk : k < journalSlots m)
    (hbyte : k < 256) (hslots : journalSlots m ≤ 255) (hold : ∃ d i, recordAt m d k i = records k) :
    Records m (Function.update records k (records k).solved)
      (writeJournal m k (records k).solved s) where
  sum k' hk' := by
    by_cases heq : k' = k
    · rw [heq, Function.update_self]
      exact hr.sum k hk
    · rw [Function.update_of_ne heq]
      exact hr.sum k' hk'
  record k' hk' i hi := by
    by_cases heq : k' = k
    · rw [heq, Function.update_self]
      obtain ⟨d, i', hold⟩ := hold
      have hss : 2 ∣ m.sectorSize := by
        rw [L.sectorSize_eq]
        have hcells := L.sector_cells
        omega
      have hstores := stores_recordAt hss (.of_byte hbyte) d i'
      rw [hold] at hstores
      exact recordAt_writeJournal_self L.works s hstores hi
    · rw [Function.update_of_ne heq, recordAt_writeJournal_other L.works s heq (.of_byte hbyte)
        (.of_byte (by omega))]
      exact hr.record k' hk' i hi

/-- The replay of one slot carries out its record and marks it as solved. -/
theorem replayPass_shows (L : Layout m) (hjc : 0 < m.fi.journalsCount)
    (hslots : journalSlots m ≤ 255) (h : Shows m s v) (hr : Records m records s)
    (hk : k < journalSlots m) (hreach : (records k).op ≠ NO_OP → (records k).Reaches m) :
    Shows m (replayPass m k k s) (v.replay m k (records k)) ∧
      Records m (Function.update records k (records k).solved) (replayPass m k k s) ∧
      Keeps [] s (replayPass m k k s) := by
  have hread := readJournal_agree L.works hjc (hr.record k hk) (hr.sum k hk)
    (.ofBytes (m.junk 0 k))
  unfold replayPass
  rw [hread]
  by_cases hop : (records k).op = NO_OP
  · -- nothing is written, and the record is solved already
    have hsolved : (records k).solved = records k := by
      unfold JournalEntry.solved
      rw [← hop]
    simp only [if_pos hop]
    rw [Vol.replay_solved v k hop, hsolved, Function.update_eq_self]
    exact ⟨h, hr, Keeps.refl s⟩
  · simp only [if_neg hop]
    obtain ⟨hs₁, hr₁, hk₁⟩ := replayRecord_shows L h hr (hreach hop) k
    have hlog := writeJournal_logOnly L.works k (records k).solved
      (replayRecord m (records k)
        (unsqueezeEntry (records k).entry (DirEntry.fieldAt (m.junk 1 k) 0)) s)
    exact ⟨hs₁.of_logOnly L hlog, hr₁.solve L hk (by omega) hslots
      ⟨s.medium, 0, hr.record k hk 0 hjc⟩, hk₁.nil_trans hlog.keeps⟩

/-! ### All slots -/

/-- The records when the first `n` slots were solved. -/
def solvedTo (records : Nat → JournalEntry) (n k : Nat) : JournalEntry :=
  if k < n then (records k).solved else records k

theorem solvedTo_succ (records : Nat → JournalEntry) (n : Nat) :
    Function.update (solvedTo records n) n (solvedTo records n n).solved
      = solvedTo records (n + 1) := by
  funext k
  by_cases heq : k = n
  · rw [heq, Function.update_self]
    unfold solvedTo
    rw [if_neg (Nat.lt_irrefl n), if_pos (Nat.lt_succ_self n)]
  · rw [Function.update_of_ne heq]
    unfold solvedTo
    by_cases hlt : k < n
    · rw [if_pos hlt, if_pos (by omega)]
    · rw [if_neg hlt, if_neg (by omega)]

theorem Records.congr (h : Records m records s) (hmedium : s'.medium = s.medium) :
    Records m records s' :=
  ⟨fun k hk i hi => hmedium ▸ h.record k hk i hi, h.sum⟩

/-- The first `n` slots: the induction is on their number. -/
theorem replaySlots_shows (L : Layout m) (hjc : 0 < m.fi.journalsCount)
    (hslots : journalSlots m ≤ 255) (h : Shows m s v) (hr : Records m records s)
    (hreach : ∀ k, k < journalSlots m → (records k).op ≠ NO_OP → (records k).Reaches m) {n : Nat}
    (hn : n ≤ journalSlots m) :
    Shows m ((List.range n).foldl (replaySlot m) s) (v.replayAll m records n) ∧
      Records m (solvedTo records n) ((List.range n).foldl (replaySlot m) s) ∧
      Keeps [] s ((List.range n).foldl (replaySlot m) s) := by
  induction n with
  | zero => exact ⟨h, hr, Keeps.refl s⟩
  | succ n ih =>
    obtain ⟨hs, hrec, hkeeps⟩ := ih (Nat.le_of_succ_le hn)
    have hfirst : solvedTo records n n = records n := if_neg (Nat.lt_irrefl n)
    obtain ⟨hs₁, hrec₁, hkeeps₁⟩ := replayPass_shows L hjc hslots hs hrec hn
      (by rw [hfirst]; exact hreach n hn)
    rw [hfirst] at hs₁
    rw [solvedTo_succ] at hrec₁
    unfold Vol.replayAll
    rw [List.range_succ, List.foldl_append, List.foldl_append]
    exact ⟨hs₁.congr rfl rfl, hrec₁.congr rfl, hkeeps.nil_trans ⟨hkeeps₁.contents, hkeeps₁.heap,
      hkeeps₁.mallocs, hkeeps₁.allocs⟩⟩

/-- With every record solved the slots are only read. -/
theorem replaySlots_solved (L : Layout m) (hjc : 0 < m.fi.journalsCount)
    (hr : Records m records s) (hsolved : ∀ k, k < journalSlots m → (records k).op = NO_OP)
    {n : Nat} (hn : n ≤ journalSlots m) : ∃ index,
    (List.range n).foldl (replaySlot m) s = { s with journalIndex := index } := by
  induction n with
  | zero => exact ⟨s.journalIndex, rfl⟩
  | succ n ih =>
    obtain ⟨index, he⟩ := ih (Nat.le_of_succ_le hn)
    have hr' : Records m records { s with journalIndex := index } := hr.congr rfl
    have hread := readJournal_agree L.works hjc (hr'.record n hn) (hr.sum n hn)
      (.ofBytes (m.junk 0 n))
    rw [List.range_succ, List.foldl_append, he]
    refine ⟨n + 1, ?_⟩
    show { replayPass m n n _ with journalIndex := n + 1 } = _
    unfold replayPass
    rw [hread]
    simp only [if_pos (hsolved n hn)]

/-- With enough fuel the replay is the walk over the slots. -/
theorem restoreFromJournal_run (hjc : 0 < m.fi.journalsCount) (hslots : journalSlots m ≤ 255)
    {fuel : Nat} (hfuel : journalSlots m + 1 ≤ fuel) (s : FS) :
    restoreFromJournal m fuel s = some (true,
      { (List.range (journalSlots m)).foldl (replaySlot m) { s with journalIndex := 0 }
        with journalIndex := 0 }) := by
  rw [restoreFromJournal_eq hjc, restoreLoop_run hslots (journalSlots m) 0 fuel (Nat.zero_add _)
    rfl (by omega), List.range_eq_range']
  rfl

/-- The replay carries out the open records on the volume, in the order of their slots, and leaves
a journal in which every record is solved. The handles and the heap stay as they are. -/
def ReplaysRecords (m : Mount) (s : FS) (v : Vol) (records : Nat → JournalEntry) : Prop :=
  Ensures (fun fuel => restoreFromJournal m fuel s) fun r =>
    r.1 = true ∧ Shows m r.2 (v.replayAll m records (journalSlots m)) ∧
      Records m (fun k => (records k).solved) r.2 ∧ Keeps [] s r.2 ∧
      Ensures (fun fuel => restoreFromJournal m fuel r.2) fun r' => r' = (true, r.2)

/-- A crash between the record of an operation and its entry: the first slot of the journal holds
the open record, and the root directory is still empty. -/
def crashedFS : FS := writeJournal (smallMount 1) 0 sampleRecord (zeroFS (oneFile 2 0))

/-- The records on it. -/
def crashedRecords : Nat → JournalEntry := Function.update (fun _ => .zero) 0 sampleRecord

theorem crashedFS_records : Records (smallMount 1) crashedRecords crashedFS := by
  have hw : (smallMount 1).Works := ⟨fun _ _ _ _ => rfl, fun _ _ _ _ => rfl⟩
  have hslots : journalSlots (smallMount 1) = 3 := by decide
  constructor
  · intro k hk i hi
    by_cases hzero : k = 0
    · subst hzero
      exact recordAt_writeJournal_self hw _ (.of_inside (by decide)) hi
    · -- the other slots are still filled with zeros
      have hother : recordAt (smallMount 1) (zeroFS (oneFile 2 0)).medium k i = .zero := by
        rw [recordAt, show (zeroFS (oneFile 2 0)).medium.bytes = fun _ => 0 from rfl, cell_const]
        exact recordOf_zero
      unfold crashedRecords
      rw [Function.update_of_ne hzero, ← hother]
      exact recordAt_writeJournal_other hw _ hzero (.of_byte (by decide)) (.of_byte (by omega)) i
  · intro k _
    by_cases hzero : k = 0
    · subst hzero
      decide
    · unfold crashedRecords
      rw [Function.update_of_ne hzero]
      decide

/-- The replay of that journal writes the entry to the first slot of the root directory. -/
theorem crashedFS_replayed :
    ((emptyVol (smallMount 1)).replayAll (smallMount 1) crashedRecords 3).raw 2
      = packMemory (unsqueezeEntry sampleRecord.entry 0).bytes ++ List.replicate 192 0 := by
  have hlen : (packMemory (unsqueezeEntry sampleRecord.entry 0).bytes).length = 64 := by
    rw [length_packMemory, DirEntry.length_bytes, ENTRY_SIZE]
  have hput : ∀ bs : List UInt8, bs.length = 64 →
      splice (List.replicate 256 (0 : UInt8)) 0 bs = bs ++ List.replicate 192 0 := by
    intro bs hbs
    rw [splice, hbs, List.drop_replicate]
    rfl
  rw [← hput _ hlen]
  rfl

end NiFat32
