import NiFat32.Proofs.Volume

/-!
# `Proofs.Fat`: the FAT and the clusters of a volume

One theorem for each operation of the lower layers says what it does to the volume that a
state shows: `readFat_shows`, `writeFat_shows`, `readoffCluster_shows`, `writeoffCluster_shows`,
`deallocCluster_shows` and `allocNext_shows`. The error ring and the journals are writes to
the log sectors (`LogOnly`), which no volume sees (`Shows.of_logOnly`).
-/

set_option autoImplicit false

namespace NiFat32

open ByteStore

variable {m : Mount} {s s' s'' : FS} {v : Vol}

/-! ### Writes to the log sectors -/

/-- Two states that differ in the log sectors only, as far as the volume goes. -/
structure LogOnly (m : Mount) (s s' : FS) : Prop where
  bytes : ∀ k, (∀ sa, LogSector m sa → k < sa * m.sectorSize ∨ (sa + 1) * m.sectorSize ≤ k) →
    s'.medium.bytes k = s.medium.bytes k
  fat : s'.fat = s.fat
  keeps : Keeps [] s s'

namespace LogOnly

theorem refl (s : FS) : LogOnly m s s := ⟨fun _ _ => rfl, rfl, Keeps.refl s⟩

theorem trans (h : LogOnly m s s') (h' : LogOnly m s' s'') : LogOnly m s s'' where
  bytes := fun k hk => (h'.bytes k hk).trans (h.bytes k hk)
  fat := h'.fat.trans h.fat
  keeps := h.keeps.nil_trans h'.keeps

/-- A request to one log sector. -/
theorem writeoff (hw : m.Works) {sa : Nat} (hsa : LogSector m sa) (offset : Nat)
    (data : List UInt8) (s : FS) :
    (dskWriteoffSectors m s.medium sa offset data 1).1 = true ∧
    LogOnly m s { s with medium := (dskWriteoffSectors m s.medium sa offset data 1).2 } := by
  have h := writeoffLoop_outside hw 1 sa offset data s.medium
  exact ⟨h.1, fun k hk => h.2 k (hk sa hsa), rfl, ⟨rfl, rfl, rfl, (List.append_nil _).symm⟩⟩

/-- A loop whose passes write to the log sectors only. -/
theorem foldl {α β : Type} (f : β × FS → α → β × FS) (xs : List α)
    (hf : ∀ x ∈ xs, ∀ b s, LogOnly m s (f (b, s) x).2) (b : β) (s : FS) :
    LogOnly m s (xs.foldl f (b, s)).2 := by
  induction xs generalizing b s with
  | nil => exact refl s
  | cons x xs ih =>
    rw [List.foldl_cons]
    have hx := hf x List.mem_cons_self b s
    exact hx.trans (ih (fun y hy => hf y (List.mem_cons_of_mem x hy)) (f (b, s) x).1 (f (b, s) x).2)

end LogOnly

theorem writeErrorCopy_logOnly (hw : m.Works) (index : Nat) (c : UInt32) {i : Nat}
    (hi : i < m.fi.errorsCount) (s : FS) : LogOnly m s (writeErrorCopy m index c i s).2 := by
  unfold writeErrorCopy
  exact (LogOnly.writeoff hw (Or.inl ⟨i, hi, rfl⟩) _ _ s).2

theorem writeError_logOnly (hw : m.Works) (index : Nat) (c : UInt32) (s : FS) :
    LogOnly m s (writeError m index c s).2 := by
  unfold writeError
  apply LogOnly.foldl
  intro i hi b s
  exact writeErrorCopy_logOnly hw index c (List.mem_range.mp hi) s

/-- Registering an error touches the log sectors only. -/
theorem registerError_logOnly (hw : m.Works) (code : ErrorCode) (s : FS) :
    LogOnly m s (registerError m code s) := by
  unfold registerError errorsRegisterError
  have h := writeError_logOnly hw s.errors.current code.toU32 s
  cases he : writeError m s.errors.current code.toU32 s with
  | mk ok s₁ =>
    rw [he] at h
    cases ok with
    | false => exact h
    | true =>
      refine h.trans (LogOnly.trans ?_ (writeError_logOnly hw _ _ _))
      exact ⟨fun k _ => rfl, rfl, ⟨rfl, rfl, rfl, (List.append_nil _).symm⟩⟩

/-- The log sectors lie apart from the FAT cells. -/
theorem LogOnly.cell (L : Layout m) (hl : LogOnly m s s') {ca i : Nat} (hca : InVol m ca)
    (hi : i < m.fi.fatCount) : fatCell m s'.medium.bytes ca i = fatCell m s.medium.bytes ca i := by
  unfold fatCell
  rw [read_congr s'.medium.bytes s.medium.bytes]
  intro k h1 h2
  refine hl.bytes k fun sa hsa => ?_
  have hapart := L.cell_log ca i sa hca hi hsa
  rw [Nat.succ_mul]
  unfold Apart at hapart
  omega

/-- The log sectors lie apart from the clusters. -/
theorem LogOnly.cluster (L : Layout m) (hl : LogOnly m s s') {ca : Nat} (hca : InVol m ca) :
    read s'.medium.bytes (clusterAddr m ca) m.fi.clusterSize
      = read s.medium.bytes (clusterAddr m ca) m.fi.clusterSize := by
  refine read_congr _ _ _ _ fun k h1 h2 => hl.bytes k fun sa hsa => ?_
  have hapart := L.cluster_log ca sa hca hsa
  rw [Nat.succ_mul]
  unfold Apart at hapart
  omega

/-- A volume does not see the log sectors. -/
theorem Shows.of_logOnly (L : Layout m) (h : Shows m s v) (hl : LogOnly m s s') :
    Shows m s' v := by
  apply Shows.intro
  · intro ca i hca hi
    rw [hl.cell L hca hi, h.copy_eq hca hi]
  · exact L.fatCount_pos
  · intro ca x hca hx
    rw [← h.fat_eq hca]
    apply h.coherent.cached ca x hca
    unfold cachedFat at hx ⊢
    rwa [hl.fat] at hx
  · exact fun ca hca => h.fat_outside hca
  · intro ca hca
    rw [← h.raw_eq hca]
    exact hl.cluster L hca
  · exact fun ca hca => h.raw_outside hca

/-- Registering an error keeps the volume. -/
theorem registerError_shows (L : Layout m) (h : Shows m s v) (code : ErrorCode) :
    Shows m (registerError m code s) v ∧ Keeps [] s (registerError m code s) :=
  have hl := registerError_logOnly L.works code s
  ⟨h.of_logOnly L hl, hl.keeps⟩

/-! ### Reading the FAT -/

theorem fillBuffer_of_length {bs : List UInt8} {n : Nat} (h : bs.length = n) :
    fillBuffer bs n = bs := by
  simp [fillBuffer, h]

/-- One copy of an entry is its cell. -/
theorem readFatCopy_eq (L : Layout m) (ca i : Nat) (s : FS) :
    readFatCopy m ca i s = (fatCell m s.medium.bytes ca i, s) := by
  unfold readFatCopy dskReadoffSectors
  simp only [readoffLoop_eq L.works _ _ _ _ _ (L.fatEntryPos_le ca i),
    fillBuffer_of_length (length_read _ _ _)]
  rfl

/-- The vote over the copies, when the state stays as it is. -/
theorem voteFat_eq (L : Layout m) (ca : Nat) (s : FS) :
    voteFat m ca s = (Vote.run FAT_CLUSTER_BAD
      ((List.range m.fi.fatCount).map fun i => fatCell m s.medium.bytes ca i), s) := by
  have h : ∀ (xs : List Nat) (b : Vote.Ballot Nat),
      xs.foldl (fun acc i =>
        (Vote.step acc.1 (readFatCopy m ca i acc.2).1, (readFatCopy m ca i acc.2).2)) (b, s)
      = ((xs.map fun i => fatCell m s.medium.bytes ca i).foldl Vote.step b, s) := by
    intro xs
    induction xs with
    | nil => exact fun b => rfl
    | cons i xs ih =>
      intro b
      rw [List.foldl_cons, List.map_cons, List.foldl_cons, readFatCopy_eq L]
      exact ih _
  exact h _ _

theorem noteFat_medium (ca x : Nat) (s : FS) : (noteFat ca x s).medium = s.medium := by
  unfold noteFat
  simp only
  split <;> rfl

theorem noteFat_fat (ca x : Nat) (s : FS) :
    (noteFat ca x s).fat = s.fat.map fun f k => if k = ca then x else f k := by
  unfold noteFat
  simp only
  split <;> rfl

theorem noteFat_keeps (ca x : Nat) (s : FS) : Keeps [] s (noteFat ca x s) := by
  unfold noteFat
  simp only
  split <;> exact ⟨rfl, rfl, rfl, (List.append_nil _).symm⟩

theorem cachedFat_noteFat (ca x k : Nat) (s : FS) {y : Nat}
    (h : cachedFat k (noteFat ca x s) = some y) :
    (k = ca ∧ y = x) ∨ (k ≠ ca ∧ cachedFat k s = some y) := by
  unfold cachedFat at h ⊢
  rw [noteFat_fat] at h
  cases hf : s.fat with
  | none => rw [hf] at h; cases h
  | some f =>
    rw [hf] at h
    by_cases hk : k = ca
    · left
      simp only [Option.map_some, Option.bind_some, hk, if_true] at h
      split at h
      · cases h
      · exact ⟨hk, (Option.some.inj h).symm⟩
    · right
      simp only [Option.map_some, Option.bind_some, hk, if_false] at h
      exact ⟨hk, h⟩

/-- Noting in the cache what the volume holds. -/
theorem noteFat_shows (L : Layout m) (h : Shows m s v) (ca : Nat) :
    Shows m (noteFat ca (v.fat ca) s) v := by
  apply Shows.intro
  · intro k i hk hi
    rw [noteFat_medium, h.copy_eq hk hi]
  · exact L.fatCount_pos
  · intro k x hk hx
    cases cachedFat_noteFat _ _ _ _ hx with
    | inl hc => rw [hc.1, hc.2]
    | inr hc => rw [h.coherent.cached k x hk hc.2, h.fat_eq hk]
  · exact fun k hk => h.fat_outside hk
  · intro k hk
    rw [noteFat_medium, h.raw_eq hk]
  · exact fun k hk => h.raw_outside hk

/-- `read_fat` returns the value that the volume holds. -/
theorem readFat_shows (L : Layout m) (h : Shows m s v) (ca : Nat) :
    ∃ s', readFat m ca s = (v.fat ca, s') ∧ Shows m s' v ∧ Keeps [] s s' := by
  unfold readFat
  by_cases hca : InVol m ca
  · have hrange : ¬ (ca < m.fi.extRootCluster ∨ m.fi.totalClusters ≤ ca) := by
      have h1 := hca.1
      have h2 := hca.2
      omega
    rw [if_neg hrange]
    cases hc : cachedFat ca s with
    | some x =>
      refine ⟨s, ?_, h, Keeps.refl s⟩
      rw [h.coherent.cached ca x hca hc, h.fat_eq hca]
    | none =>
      -- every copy votes for the same value, so the vote elects it and repairs nothing
      have hcopies : (List.range m.fi.fatCount).map (fun i => fatCell m s.medium.bytes ca i)
          = List.replicate m.fi.fatCount (v.fat ca) := by
        rw [List.eq_replicate_iff]
        refine ⟨by rw [List.length_map, List.length_range], fun x hx => ?_⟩
        obtain ⟨i, hi, rfl⟩ := List.mem_map.mp hx
        exact h.copy_eq hca (List.mem_range.mp hi)
      have hval := Vote.run_replicate FAT_CLUSTER_BAD (v.fat ca) m.fi.fatCount L.fatCount_pos
      have hwrong := Vote.run_replicate_wrong FAT_CLUSTER_BAD (v.fat ca) m.fi.fatCount
      simp only [voteFat_eq L, hcopies, hval]
      rw [if_neg (by omega)]
      exact ⟨_, rfl, noteFat_shows L h ca, noteFat_keeps ca _ s⟩
  · have hrange : ca < m.fi.extRootCluster ∨ m.fi.totalClusters ≤ ca := by
      unfold InVol at hca
      omega
    rw [if_pos hrange, h.fat_outside hca]
    have hr := registerError_shows L h .readFatError
    exact ⟨_, rfl, hr.1, hr.2⟩

/-! ### Writing the FAT -/

/-- The bytes of a FAT value in a cell. -/
def cellBytes (x : Nat) : List UInt8 := packMemory (bytesOfU32 (UInt32.ofNat x))

@[simp] theorem length_cellBytes (x : Nat) : (cellBytes x).length = 8 := by
  simp [cellBytes]

/-- A cell keeps the low 28 bits of a FAT value. -/
theorem leValue_cellBytes_mod (x : Nat) :
    leValue (unpackMemory (cellBytes x) 4) % 2 ^ 28 = x % 2 ^ 28 := by
  have hround := unpackMemory_packMemory (bytesOfU32 (UInt32.ofNat x))
  rw [length_bytesOfU32] at hround
  unfold cellBytes
  rw [hround]
  have hback : leValue (bytesOfU32 (UInt32.ofNat x)) = (UInt32.ofNat x).toNat :=
    congrArg UInt32.toNat (u32OfBytes_bytesOfU32 (UInt32.ofNat x))
  rw [hback, UInt32.toNat_ofNat']
  omega

/-- The round trip of a FAT value through its cell. -/
theorem leValue_cellBytes {x : Nat} (hx : x < 2 ^ 28) :
    leValue (unpackMemory (cellBytes x) 4) % 2 ^ 28 = x :=
  (leValue_cellBytes_mod x).trans (Nat.mod_eq_of_lt hx)

theorem writeFatCopy_eq (L : Layout m) (ca x i : Nat) (s : FS) :
    ∃ d, writeFatCopy m ca x i s = (true, { s with medium := d }) ∧
      d.bytes = write s.medium.bytes (fatAddr m ca i) (cellBytes x) := by
  have hlen : (cellBytes x).length = 8 := length_cellBytes x
  have hloop := writeoffLoop_eq L.works 1 (fatEntryPos m ca i).1 (fatEntryPos m ca i).2
    (cellBytes x) s.medium (by rw [hlen]; exact L.fatEntryPos_le ca i)
  cases hw : writeoffLoop m 1 (fatEntryPos m ca i).1 (fatEntryPos m ca i).2 (cellBytes x)
    s.medium with
  | mk ok d =>
    rw [hw] at hloop
    obtain ⟨rfl, hd⟩ := hloop
    have hsector : dskWriteoffSectors m s.medium (fatEntryPos m ca i).1 (fatEntryPos m ca i).2
        (packMemory (bytesOfU32 (UInt32.ofNat x))) 1 = (true, d) := hw
    refine ⟨d, ?_, hd⟩
    rw [writeFatCopy]
    simp only [hsector]

/-- After a write to some copies of an entry, those copies hold the value and nothing else
has changed. -/
theorem writeFatCopies_eq (L : Layout m) {ca : Nat} (hca : InVol m ca) (x : Nat) (is : List Nat)
    (his : ∀ i ∈ is, i < m.fi.fatCount) (s : FS) :
    ∃ d, is.foldl (fun acc i =>
        let (ok, s) := writeFatCopy m ca x i acc.2
        (ok && acc.1, s)) (true, s) = (true, { s with medium := d }) ∧
      (∀ i ∈ is, read d.bytes (fatAddr m ca i) 8 = cellBytes x) ∧
      (∀ k, (∀ i ∈ is, k < fatAddr m ca i ∨ fatAddr m ca i + 8 ≤ k) →
        d.bytes k = s.medium.bytes k) := by
  induction is generalizing s with
  | nil => exact ⟨s.medium, rfl, fun i hi => absurd hi List.not_mem_nil, fun k _ => rfl⟩
  | cons j is ih =>
    obtain ⟨d, hd, hbytes⟩ := writeFatCopy_eq L ca x j s
    have his' : ∀ i ∈ is, i < m.fi.fatCount := fun i hi => his i (List.mem_cons_of_mem j hi)
    obtain ⟨d', hd', hcells, hout⟩ := ih his' { s with medium := d }
    refine ⟨d', ?_, ?_, ?_⟩
    · rw [List.foldl_cons]
      simp only [hd, Bool.and_true]
      exact hd'
    · intro i hi
      by_cases hin : i ∈ is
      · exact hcells i hin
      · -- the copy written now is not written again
        have hij : i = j := by
          cases List.mem_cons.mp hi with
          | inl h => exact h
          | inr h => exact absurd h hin
        subst hij
        have hkeep : read d'.bytes (fatAddr m ca i) 8 = read d.bytes (fatAddr m ca i) 8 := by
          refine read_congr _ _ _ _ fun k h1 h2 => hout k fun i' hi' => ?_
          have hne : ¬ (ca = ca ∧ i = i') := fun h => hin (h.2 ▸ hi')
          have hapart := L.cells_apart ca ca i i' hca hca (his i hi) (his' i' hi') hne
          unfold Apart at hapart
          omega
        have hself := read_write_self s.medium.bytes (fatAddr m ca i) (cellBytes x)
        rw [length_cellBytes] at hself
        rw [hkeep, hbytes, hself]
    · intro k hk
      rw [hout k fun i hi => hk i (List.mem_cons_of_mem j hi)]
      show d.bytes k = s.medium.bytes k
      rw [hbytes]
      exact write_of_outside _ _ _ _ (by
        rw [length_cellBytes]
        exact hk j List.mem_cons_self)

/-- `write_fat` stores a value that fits into an entry of the volume. -/
theorem writeFat_shows (L : Layout m) (h : Shows m s v) {ca x : Nat} (hca : InVol m ca)
    (hx : x < 2 ^ 28) :
    ∃ s', writeFat m ca x s = (true, s') ∧ Shows m s' (v.setFat ca x) ∧ Keeps [] s s' := by
  have hrange : ¬ (ca < m.fi.extRootCluster ∨ m.fi.totalClusters ≤ ca) := by
    have h1 := hca.1
    have h2 := hca.2
    omega
  unfold writeFat writeFatLocked
  rw [if_neg hrange]
  obtain ⟨d, hd, hcells, hout⟩ := writeFatCopies_eq L hca x (List.range m.fi.fatCount)
    (fun i hi => List.mem_range.mp hi) (noteFat ca x s)
  have hmed := noteFat_medium ca x s
  -- every other cell of the FAT keeps its bytes
  have hother : ∀ k i, InVol m k → i < m.fi.fatCount → k ≠ ca →
      fatCell m d.bytes k i = fatCell m s.medium.bytes k i := by
    intro k i hk hi hne
    unfold fatCell
    rw [read_congr d.bytes s.medium.bytes]
    intro a h1 h2
    rw [hout a, hmed]
    intro i' hi'
    have hapart := L.cells_apart k ca i i' hk hca hi (List.mem_range.mp hi') fun hc => hne hc.1
    unfold Apart at hapart
    omega
  refine ⟨_, hd, ?_, (noteFat_keeps ca x s).nil_trans ⟨rfl, rfl, rfl, (List.append_nil _).symm⟩⟩
  apply Shows.intro
  · intro k i hk hi
    by_cases hne : k = ca
    · subst hne
      rw [Vol.setFat_fat_self]
      unfold fatCell
      rw [hcells i (List.mem_range.mpr hi), leValue_cellBytes hx]
    · rw [Vol.setFat_fat_ne v x hne]
      exact (hother k i hk hi hne).trans (h.copy_eq hk hi)
  · exact L.fatCount_pos
  · intro k y hk hy
    have hy' : cachedFat k (noteFat ca x s) = some y := hy
    cases cachedFat_noteFat _ _ _ _ hy' with
    | inl hc => rw [hc.1, hc.2, Vol.setFat_fat_self]
    | inr hc =>
      rw [Vol.setFat_fat_ne v x hc.1, h.coherent.cached k y hk hc.2, h.fat_eq hk]
  · intro k hk
    have hne : k ≠ ca := fun hc => hk (hc ▸ hca)
    rw [Vol.setFat_fat_ne v x hne]
    exact h.fat_outside hk
  · intro k hk
    rw [Vol.setFat_raw, ← h.raw_eq hk]
    refine read_congr _ _ _ _ fun a h1 h2 => ?_
    rw [hout a, hmed]
    intro i hi
    have hapart := L.cell_cluster ca k i hca hk (List.mem_range.mp hi)
    unfold Apart at hapart
    omega
  · exact fun k hk => h.raw_outside hk

/-- `write_fat` refuses a cluster outside the volume. -/
theorem writeFat_outside (L : Layout m) (h : Shows m s v) {ca : Nat} (hca : ¬ InVol m ca)
    (x : Nat) :
    ∃ s', writeFat m ca x s = (false, s') ∧ Shows m s' v ∧ Keeps [] s s' := by
  have hrange : ca < m.fi.extRootCluster ∨ m.fi.totalClusters ≤ ca := by
    unfold InVol at hca
    omega
  unfold writeFat
  rw [if_pos hrange]
  have hr := registerError_shows L h .writeFatError
  exact ⟨_, rfl, hr.1, hr.2⟩

theorem setClusterEnd_shows (L : Layout m) (h : Shows m s v) {ca : Nat} (hca : InVol m ca) :
    ∃ s', setClusterEnd m ca s = (true, s') ∧ Shows m s' (v.setFat ca FAT_CLUSTER_END) ∧
      Keeps [] s s' :=
  writeFat_shows L h hca (by decide)

/-! ### Allocation -/

theorem claimCluster_shows (L : Layout m) (h : Shows m s v) {ca : Nat} (hca : InVol m ca)
    (offt : Nat) :
    ∃ s', claimCluster m offt ca s = (ca, s') ∧ Shows m s' (v.setFat ca FAT_CLUSTER_RESERVED) ∧
      Keeps [] s s' := by
  obtain ⟨s₁, he, hs, hk⟩ := writeFat_shows L h (x := FAT_CLUSTER_RESERVED) hca (by decide)
  unfold claimCluster
  rw [he]
  simp only [moveOffset]
  split
  · exact ⟨_, rfl, hs.congr rfl rfl, hk.nil_trans ⟨rfl, rfl, rfl, (List.append_nil _).symm⟩⟩
  · exact ⟨_, rfl, hs, hk⟩

theorem moveOffset_shows (h : Shows m s v) (offt x : Nat) :
    Shows m (moveOffset offt x s) v ∧ Keeps [] s (moveOffset offt x s) := by
  unfold moveOffset
  split
  · exact ⟨h.congr rfl rfl, rfl, rfl, rfl, (List.append_nil _).symm⟩
  · exact ⟨h, Keeps.refl s⟩

/-- What an allocation does: it reserves a cluster that was free, or it fails and leaves the
volume. -/
def Allocates (m : Mount) (v : Vol) (ca : Nat) (s' : FS) : Prop :=
  (ca = FAT_CLUSTER_BAD ∧ Shows m s' v) ∨
  (InVol m ca ∧ v.fat ca = FAT_CLUSTER_FREE ∧ Shows m s' (v.setFat ca FAT_CLUSTER_RESERVED))

theorem allocScan_shows (L : Layout m) (offt passes ca skip : Nat) {s : FS} (h : Shows m s v) :
    ∃ ca' s', allocScan m offt passes ca skip s = (ca', s') ∧ Allocates m v ca' s' ∧
      Keeps [] s s' := by
  induction passes generalizing ca skip s with
  | zero =>
    have hmove := moveOffset_shows h offt m.fi.extRootCluster
    exact ⟨_, _, rfl, Or.inl ⟨rfl, hmove.1⟩, hmove.2⟩
  | succ passes ih =>
    unfold allocScan
    split
    · have hmove := moveOffset_shows h offt m.fi.extRootCluster
      exact ⟨_, _, rfl, Or.inl ⟨rfl, hmove.1⟩, hmove.2⟩
    · obtain ⟨s₁, he, hs, hk⟩ := readFat_shows L h ca
      rw [he]
      by_cases hfree : v.fat ca = FAT_CLUSTER_FREE
      · have hca : InVol m ca := h.inVol_of_fat (by rw [hfree]; decide)
        obtain ⟨s₂, he₂, hs₂, hk₂⟩ := claimCluster_shows L hs hca offt
        simp only [if_pos hfree]
        exact ⟨ca, s₂, he₂, Or.inr ⟨hca, hfree, hs₂⟩, hk.nil_trans hk₂⟩
      · simp only [if_neg hfree]
        split
        · obtain ⟨ca', s', h1, h2, h3⟩ := ih (ca + skip + 1) (skip + 1) hs
          exact ⟨ca', s', h1, h2, hk.nil_trans h3⟩
        · obtain ⟨ca', s', h1, h2, h3⟩ := ih (ca + 1) skip hs
          exact ⟨ca', s', h1, h2, hk.nil_trans h3⟩

theorem allocSearch_shows (L : Layout m) (h : Shows m s v) (offt : Nat) :
    ∃ ca s', allocSearch m offt s = (ca, s') ∧ Allocates m v ca s' ∧ Keeps [] s s' := by
  unfold allocSearch
  simp only
  generalize (if offt = NO_CLUSTER_OFFSET then s.lastAllocatedCluster else offt) = curr
  split
  · exact allocScan_shows L _ _ _ _ h
  · obtain ⟨s₁, he, hs, hk⟩ := readFat_shows L h (fatmapFindFree m curr 1 s)
    rw [he]
    simp only
    split
    · rename_i hfree
      have hca : InVol m _ := h.inVol_of_fat (by rw [hfree]; decide)
      obtain ⟨s₂, he₂, hs₂, hk₂⟩ := claimCluster_shows L hs hca offt
      exact ⟨_, s₂, he₂, Or.inr ⟨hca, hfree, hs₂⟩, hk.nil_trans hk₂⟩
    · obtain ⟨ca', s', h1, h2, h3⟩ := allocScan_shows L offt m.fi.totalClusters curr 0 hs
      exact ⟨ca', s', h1, h2, hk.nil_trans h3⟩

/-- An allocation as every caller makes it. -/
theorem allocNext_shows (L : Layout m) (h : Shows m s v) :
    ∃ ca s', allocNext m s = (ca, s') ∧ Allocates m v ca s' ∧ Keeps [ca] s s' := by
  unfold allocNext
  have hoff : Shows m (getClusterOffset m s).2 v ∧ Keeps [] s (getClusterOffset m s).2 := by
    unfold getClusterOffset
    split
    · exact ⟨h, Keeps.refl s⟩
    · exact ⟨h.congr rfl rfl, rfl, rfl, rfl, (List.append_nil _).symm⟩
  cases hg : getClusterOffset m s with
  | mk offt s₁ =>
    rw [hg] at hoff
    obtain ⟨ca, s₂, he, ha, hk⟩ := allocSearch_shows L hoff.1 offt
    simp only [allocCluster, he]
    refine ⟨ca, _, rfl, ?_, ?_⟩
    · cases ha with
      | inl hbad => exact Or.inl ⟨hbad.1, hbad.2.congr rfl rfl⟩
      | inr hok => exact Or.inr ⟨hok.1, hok.2.1, hok.2.2.congr rfl rfl⟩
    · have hk' := hoff.2.nil_trans hk
      refine ⟨hk'.contents, hk'.heap, hk'.mallocs, ?_⟩
      show s₂.allocs ++ [ca] = s.allocs ++ [ca]
      rw [hk'.allocs, List.append_nil]

/-! ### Deallocation -/

/-- `dealloc_cluster` frees a cluster of the volume. -/
theorem deallocCluster_shows (L : Layout m) (h : Shows m s v) {ca : Nat} (hca : InVol m ca) :
    ∃ s', deallocCluster m ca s = (true, s') ∧ Shows m s' (v.setFat ca FAT_CLUSTER_FREE) ∧
      Keeps [] s s' := by
  unfold deallocCluster
  obtain ⟨s₁, he, hs, hk⟩ := readFat_shows L h ca
  rw [he]
  simp only
  split
  · -- the cluster is free already
    rename_i hfree
    have hsame : v.setFat ca FAT_CLUSTER_FREE = v := by
      unfold Vol.setFat
      congr 1
      funext k
      split
      · rename_i hk
        rw [hk, hfree]
      · rfl
    rw [hsame]
    exact ⟨s₁, rfl, hs, hk⟩
  · obtain ⟨s₂, he₂, hs₂, hk₂⟩ := writeFat_shows L hs (x := FAT_CLUSTER_FREE) hca (by decide)
    simp only [setClusterFree, he₂]
    exact ⟨s₂, rfl, hs₂, hk.nil_trans hk₂⟩

/-- `dealloc_cluster` leaves the volume when the cluster is not in it. -/
theorem deallocCluster_outside (L : Layout m) (h : Shows m s v) {ca : Nat} (hca : ¬ InVol m ca) :
    ∃ s', deallocCluster m ca s = (false, s') ∧ Shows m s' v ∧ Keeps [] s s' := by
  unfold deallocCluster
  obtain ⟨s₁, he, hs, hk⟩ := readFat_shows L h ca
  rw [he, h.fat_outside hca]
  obtain ⟨s₂, he₂, hs₂, hk₂⟩ := writeFat_outside L hs hca FAT_CLUSTER_FREE
  simp only [setClusterFree, he₂]
  have hr := registerError_shows L hs₂ .writeFatError
  exact ⟨_, rfl, hr.1, (hk.nil_trans hk₂).nil_trans hr.2⟩

/-! ### Cluster contents -/

/-- A request inside a cluster of the volume reads the slice of its bytes. -/
theorem readoffCluster_shows (L : Layout m) (h : Shows m s v) {ca : Nat} (hca : InVol m ca)
    {offset size : Nat} (hle : offset + size ≤ m.fi.clusterSize) :
    readoffCluster m ca offset size s = some (((v.raw ca).drop offset).take size) := by
  unfold readoffCluster dskReadoffSectors
  rw [readoffLoop_eq L.works _ _ _ _ _ (by rw [← L.clusterSize_sectors]; exact hle)]
  rw [← h.raw_eq hca]
  exact congrArg some (read_sub _ _ _ _ _ hle)

/-- A request inside a cluster of the volume splices its bytes. -/
theorem writeoffCluster_shows (L : Layout m) (h : Shows m s v) {ca : Nat} (hca : InVol m ca)
    (offset : Nat) (data : List UInt8) (hle : offset + data.length ≤ m.fi.clusterSize) :
    ∃ s', writeoffCluster m ca offset data s = (true, s') ∧
      Shows m s' (v.setRaw ca (splice (v.raw ca) offset data)) ∧ Keeps [] s s' := by
  have hloop := writeoffLoop_eq L.works m.fi.sectorsPerCluster (clusterSector m ca) offset data
    s.medium (by rw [← L.clusterSize_sectors]; exact hle)
  unfold writeoffCluster dskWriteoffSectors
  cases hw : writeoffLoop m m.fi.sectorsPerCluster (clusterSector m ca) offset data s.medium with
  | mk ok d =>
    rw [hw] at hloop
    obtain ⟨rfl, hd⟩ := hloop
    have hbytes : d.bytes = write s.medium.bytes (clusterAddr m ca + offset) data := hd
    refine ⟨_, rfl, ?_, rfl, rfl, rfl, (List.append_nil _).symm⟩
    apply Shows.intro
    · intro k i hk hi
      rw [Vol.setRaw_fat, ← h.copy_eq hk hi]
      unfold fatCell
      rw [hbytes, read_write_of_disjoint]
      have hapart := L.cell_cluster k ca i hk hca hi
      unfold Apart at hapart
      omega
    · exact L.fatCount_pos
    · intro k x hk hx
      rw [Vol.setRaw_fat, ← h.fat_eq hk]
      exact h.coherent.cached k x hk hx
    · exact fun k hk => h.fat_outside hk
    · intro k hk
      by_cases hne : k = ca
      · subst hne
        rw [Vol.setRaw_raw_self, hbytes, read_write_within _ _ _ _ _ hle, h.raw_eq hk]
      · rw [Vol.setRaw_raw_ne v _ hne, ← h.raw_eq hk, hbytes, read_write_of_disjoint]
        have hapart := L.clusters_apart hk hca hne
        unfold Apart at hapart
        omega
    · intro k hk
      have hne : k ≠ ca := fun hc => hk (hc ▸ hca)
      rw [Vol.setRaw_raw_ne v _ hne]
      exact h.raw_outside hk

/-- A whole cluster. -/
theorem readCluster_shows (L : Layout m) (h : Shows m s v) {ca : Nat} (hca : InVol m ca) :
    readCluster m ca m.fi.clusterSize s = some (v.raw ca) := by
  unfold readCluster
  rw [readoffCluster_shows L h hca (by omega)]
  rw [List.drop_zero, List.take_of_length_le (Nat.le_of_eq (h.length_raw hca))]

/-- A whole cluster is replaced. -/
theorem writeCluster_shows (L : Layout m) (h : Shows m s v) {ca : Nat} (hca : InVol m ca)
    {data : List UInt8} (hlen : data.length = m.fi.clusterSize) :
    ∃ s', writeCluster m ca data s = (true, s') ∧ Shows m s' (v.setRaw ca data) ∧
      Keeps [] s s' := by
  unfold writeCluster
  have hw := writeoffCluster_shows L h hca 0 data (by omega)
  rwa [splice_zero_all _ _ (by rw [hlen, h.length_raw hca])] at hw

/-! ### States over a given volume -/

/-- Some state with the content table `contents` stores the volume `v`. -/
def Stored (m : Mount) (contents : Nat → Content) (v : Vol) : Prop :=
  ∃ s, Shows m s v ∧ Keeps [] (zeroFS contents) s

namespace Stored

variable {contents : Nat → Content}

theorem zero (L : Layout m) (contents : Nat → Content) : Stored m contents (emptyVol m) :=
  ⟨_, zeroFS_shows L contents, Keeps.refl _⟩

theorem setFat (L : Layout m) (h : Stored m contents v) {ca x : Nat} (hca : InVol m ca)
    (hx : x < 2 ^ 28) : Stored m contents (v.setFat ca x) := by
  obtain ⟨s, hs, hk⟩ := h
  obtain ⟨s', _, hs', hk'⟩ := writeFat_shows L hs hca hx
  exact ⟨s', hs', hk.nil_trans hk'⟩

theorem setRaw (L : Layout m) (h : Stored m contents v) {ca : Nat} (hca : InVol m ca)
    {data : List UInt8} (hlen : data.length = m.fi.clusterSize) :
    Stored m contents (v.setRaw ca data) := by
  obtain ⟨s, hs, hk⟩ := h
  obtain ⟨s', _, hs', hk'⟩ := writeCluster_shows L hs hca hlen
  exact ⟨s', hs', hk.nil_trans hk'⟩

end Stored

end NiFat32
