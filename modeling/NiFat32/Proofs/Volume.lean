import NiFat32.Core.NiFat32
import NiFat32.Lib.Chain
import NiFat32.Lib.Run

/-!
# `Proofs.Volume`: the volume that a state stores

`Layout` collects what a mounted volume promises about its geometry: the sector size divides
into FAT cells, no two FAT cells share a byte, the clusters lie apart from the FAT, and the
error and journal sectors lie apart from both.

`Vol` is the volume as the operations above the FAT see it: a value and `clusterSize` bytes
for each cluster. `view` reads it off a state, and `Shows m s v` says that the state `s` is
coherent (all FAT copies and the cache agree) and stores `v`. The other modules speak about
the abstract volume only.
-/

set_option autoImplicit false

namespace NiFat32

open ByteStore

/-- Two ranges of addresses without a common address. -/
def Apart (a n b k : Nat) : Prop := a + n ≤ b ∨ b + k ≤ a

instance (a n b k : Nat) : Decidable (Apart a n b k) :=
  inferInstanceAs (Decidable (a + n ≤ b ∨ b + k ≤ a))

section Geometry

variable (m : Mount)

/-- The cluster numbers that the FAT covers. -/
def InVol (ca : Nat) : Prop := m.fi.extRootCluster ≤ ca ∧ ca < m.fi.totalClusters

instance (ca : Nat) : Decidable (InVol m ca) :=
  inferInstanceAs (Decidable (m.fi.extRootCluster ≤ ca ∧ ca < m.fi.totalClusters))

/-- The address of the FAT cell of `ca` in copy `i`. -/
def fatAddr (ca i : Nat) : Nat := (fatEntryPos m ca i).1 * m.sectorSize + (fatEntryPos m ca i).2

/-- The address of the first byte of a cluster. -/
def clusterAddr (ca : Nat) : Nat := clusterSector m ca * m.sectorSize

/-- The sectors that hold the error ring and the journals. -/
def LogSector (sa : Nat) : Prop :=
  (∃ i, i < m.fi.errorsCount ∧ sa = getErrorsSector i m.fi.totalSectors) ∨
  (∃ i, i < m.fi.journalsCount ∧ sa = getJournalSector i m.fi.totalSectors)

/-- A well-formed mounted volume. The sector size and the number of sectors of a cluster have the
widths of the boot sector fields. -/
structure Layout : Prop where
  works : m.Works
  sectorSize_eq : m.sectorSize = m.fi.bytesPerSector
  sector_pos : 0 < m.fi.bytesPerSector
  sector_lt : m.fi.bytesPerSector < 2 ^ 16
  sector_cells : 8 ∣ m.fi.bytesPerSector
  clusterSize_eq : m.fi.clusterSize = m.fi.bytesPerSector * m.fi.sectorsPerCluster
  cluster_slot : 2 * ENTRY_SIZE ≤ m.fi.clusterSize
  sectors_lt : m.fi.sectorsPerCluster < 2 ^ 8
  root_pos : 0 < m.fi.extRootCluster
  clusters_le : m.fi.totalClusters ≤ FAT_CLUSTER_BAD
  sectors_le : m.fi.totalClusters * m.fi.sectorsPerCluster + m.fi.firstDataSector < 2 ^ 32
  fatCount_pos : 0 < m.fi.fatCount
  cells_apart : ∀ ca ca' i i', InVol m ca → InVol m ca' → i < m.fi.fatCount →
    i' < m.fi.fatCount → ¬ (ca = ca' ∧ i = i') → Apart (fatAddr m ca i) 8 (fatAddr m ca' i') 8
  cell_cluster : ∀ ca ca' i, InVol m ca → InVol m ca' → i < m.fi.fatCount →
    Apart (fatAddr m ca i) 8 (clusterAddr m ca') m.fi.clusterSize
  cell_log : ∀ ca i sa, InVol m ca → i < m.fi.fatCount → LogSector m sa →
    Apart (fatAddr m ca i) 8 (sa * m.sectorSize) m.sectorSize
  cluster_log : ∀ ca sa, InVol m ca → LogSector m sa →
    Apart (clusterAddr m ca) m.fi.clusterSize (sa * m.sectorSize) m.sectorSize

/-- The value in the FAT cell of `ca` in copy `i`. -/
def fatCell (d : Nat → UInt8) (ca i : Nat) : Nat :=
  leValue (unpackMemory (read d (fatAddr m ca i) 8) 4) % 2 ^ 28

end Geometry

namespace Layout

variable {m : Mount} (L : Layout m)

include L

theorem clusterSize_sectors : m.fi.clusterSize = m.fi.sectorsPerCluster * m.sectorSize := by
  rw [L.clusterSize_eq, L.sectorSize_eq, Nat.mul_comm]

theorem clusterSize_pos : 0 < m.fi.clusterSize :=
  Nat.lt_of_lt_of_le (by decide) L.cluster_slot

/-- The cluster size is far below the range of an `int`. -/
theorem clusterSize_lt : m.fi.clusterSize < 2 ^ 24 := by
  have hb := L.sector_lt
  have hs := L.sectors_lt
  rw [L.clusterSize_eq]
  calc m.fi.bytesPerSector * m.fi.sectorsPerCluster
    _ ≤ m.fi.bytesPerSector * 2 ^ 8 := Nat.mul_le_mul_left _ (Nat.le_of_lt hs)
    _ < 2 ^ 16 * 2 ^ 8 := Nat.mul_lt_mul_of_pos_right hb (by decide)
    _ = 2 ^ 24 := by decide

/-- A FAT cell lies inside one sector. -/
theorem fatEntryPos_le (ca i : Nat) : (fatEntryPos m ca i).2 + 8 ≤ 1 * m.sectorSize := by
  obtain ⟨k, hk⟩ := L.sector_cells
  have hpos := L.sector_pos
  have hoff : (fatEntryPos m ca i).2 = u32 (ca * 8) % m.fi.bytesPerSector := rfl
  have hlt : u32 (ca * 8) % m.fi.bytesPerSector < m.fi.bytesPerSector := Nat.mod_lt _ hpos
  -- offset and sector size are both multiples of the cell size
  have hdvd : 8 ∣ u32 (ca * 8) % m.fi.bytesPerSector := by
    refine (Nat.dvd_mod_iff L.sector_cells).mpr ?_
    unfold u32
    omega
  rw [L.sectorSize_eq, hoff]
  omega

theorem lt_bad {ca : Nat} (h : InVol m ca) : ca < FAT_CLUSTER_BAD :=
  Nat.lt_of_lt_of_le h.2 L.clusters_le

theorem ne_bad {ca : Nat} (h : InVol m ca) : ca ≠ FAT_CLUSTER_BAD := Nat.ne_of_lt (L.lt_bad h)

theorem ne_end {ca : Nat} (h : InVol m ca) : ca ≠ FAT_CLUSTER_END :=
  Nat.ne_of_lt (Nat.lt_trans (L.lt_bad h) (by decide))

theorem ne_reserved {ca : Nat} (h : InVol m ca) : ca ≠ FAT_CLUSTER_RESERVED :=
  Nat.ne_of_lt (Nat.lt_trans (L.lt_bad h) (by decide))

theorem ne_free {ca : Nat} (h : InVol m ca) : ca ≠ FAT_CLUSTER_FREE :=
  Nat.ne_of_gt (Nat.lt_of_lt_of_le L.root_pos h.1)

theorem lt_value {ca : Nat} (h : InVol m ca) : ca < 2 ^ 28 :=
  Nat.lt_trans (L.lt_bad h) (by decide)

theorem not_inVol_bad : ¬ InVol m FAT_CLUSTER_BAD := fun h => L.ne_bad h rfl

theorem not_inVol_end : ¬ InVol m FAT_CLUSTER_END := fun h => L.ne_end h rfl

theorem not_inVol_free : ¬ InVol m FAT_CLUSTER_FREE := fun h => L.ne_free h rfl

/-- The cluster arithmetic does not wrap inside the volume. -/
theorem clusterSector_eq {ca : Nat} (h : InVol m ca) : clusterSector m ca =
    (ca - m.fi.extRootCluster) * m.fi.sectorsPerCluster + m.fi.firstDataSector := by
  have hlt : ca < 2 ^ 32 := Nat.lt_trans (L.lt_value h) (by decide)
  have hle := L.sectors_le
  have hmul : (ca - m.fi.extRootCluster) * m.fi.sectorsPerCluster
      ≤ m.fi.totalClusters * m.fi.sectorsPerCluster :=
    Nat.mul_le_mul_right _ (Nat.le_trans (Nat.sub_le _ _) (Nat.le_of_lt h.2))
  unfold clusterSector
  rw [sub32_of_le h.1 hlt, Nat.mod_eq_of_lt (Nat.lt_trans L.sectors_lt (by decide)),
    u32_of_lt (by omega)]

/-- Two clusters have no byte in common. -/
theorem clusters_apart {ca ca' : Nat} (h : InVol m ca) (h' : InVol m ca') (hne : ca ≠ ca') :
    Apart (clusterAddr m ca) m.fi.clusterSize (clusterAddr m ca') m.fi.clusterSize := by
  -- the lower of the two ends where the next cluster begins
  have key : ∀ a b : Nat, InVol m a → InVol m b → a < b →
      clusterAddr m a + m.fi.clusterSize ≤ clusterAddr m b := by
    intro a b ha hb hab
    unfold clusterAddr
    rw [L.clusterSector_eq ha, L.clusterSector_eq hb, L.clusterSize_sectors, ← Nat.add_mul]
    apply Nat.mul_le_mul_right
    have hstep : (a - m.fi.extRootCluster + 1) * m.fi.sectorsPerCluster
        ≤ (b - m.fi.extRootCluster) * m.fi.sectorsPerCluster := by
      apply Nat.mul_le_mul_right
      have := ha.1
      omega
    rw [Nat.add_mul, Nat.one_mul] at hstep
    omega
  cases Nat.lt_or_gt_of_ne hne with
  | inl hlt => exact Or.inl (key ca ca' h h' hlt)
  | inr hgt => exact Or.inr (key ca' ca h' h hgt)

end Layout

/-! ### A small volume -/

/-- Six clusters of two sectors behind two FAT copies, with an error area and `jc` journals. -/
def smallMount (jc : Nat) : Mount where
  fi := {
    bsCount := 1, fatSize := 1, fatCount := 2, firstDataSector := 40, totalSectors := 77
    totalClusters := 8, bytesPerSector := 128, clusterSize := 256, sectorsPerCluster := 2
    extRootCluster := 2, sectorsPadd := 1, journalsCount := jc, errorsCount := 1
    entryOffset := 0 }
  sectorSize := 128
  readOk := fun _ _ _ _ => true
  writeOk := fun _ _ _ _ => true
  malloc := fun n => n + 1
  junk := fun _ _ => []

/-- The log sectors of the small volume. -/
theorem logSector_small {jc sa : Nat} (hjc : jc ≤ 1) (h : LogSector (smallMount jc) sa) :
    sa = 36 ∨ sa = 1 := by
  cases h with
  | inl h =>
    obtain ⟨i, hi, rfl⟩ := h
    obtain rfl : i = 0 := Nat.lt_one_iff.mp hi
    exact Or.inl (by show getErrorsSector 0 77 = 36; decide)
  | inr h =>
    obtain ⟨i, hi, rfl⟩ := h
    obtain rfl : i = 0 := Nat.lt_one_iff.mp (Nat.lt_of_lt_of_le hi hjc)
    exact Or.inr (by show getJournalSector 0 77 = 1; decide)

theorem smallMount_layout {jc : Nat} (hjc : jc ≤ 1) : Layout (smallMount jc) where
  works := ⟨fun _ _ _ _ => rfl, fun _ _ _ _ => rfl⟩
  sectorSize_eq := rfl
  sector_pos := by show 0 < 128; decide
  sector_lt := by show 128 < 2 ^ 16; decide
  sector_cells := by show 8 ∣ 128; decide
  clusterSize_eq := rfl
  cluster_slot := by show 2 * ENTRY_SIZE ≤ 256; decide
  sectors_lt := by show 2 < 2 ^ 8; decide
  root_pos := by show 0 < 2; decide
  clusters_le := by show 8 ≤ FAT_CLUSTER_BAD; decide
  sectors_le := by show 8 * 2 + 40 < 2 ^ 32; decide
  fatCount_pos := by show 0 < 2; decide
  cells_apart := by
    have h : ∀ ca, ca < 8 → ∀ ca', ca' < 8 → ∀ i, i < 2 → ∀ i', i' < 2 →
        (ca = ca' ∧ i = i') ∨
          Apart (fatAddr (smallMount 0) ca i) 8 (fatAddr (smallMount 0) ca' i') 8 := by decide
    exact fun ca ca' i i' hca hca' hi hi' hne =>
      (h ca hca.2 ca' hca'.2 i hi i' hi').resolve_left hne
  cell_cluster := by
    have h : ∀ ca, ca < 8 → ∀ ca', ca' < 8 → 2 ≤ ca' → ∀ i, i < 2 →
        Apart (fatAddr (smallMount 0) ca i) 8 (clusterAddr (smallMount 0) ca') 256 := by decide
    exact fun ca ca' i hca hca' hi => h ca hca.2 ca' hca'.2 hca'.1 i hi
  cell_log := by
    have h : ∀ ca, ca < 8 → ∀ i, i < 2 → Apart (fatAddr (smallMount 0) ca i) 8 (36 * 128) 128 ∧
        Apart (fatAddr (smallMount 0) ca i) 8 (1 * 128) 128 := by decide
    intro ca i sa hca hi hsa
    cases logSector_small hjc hsa with
    | inl he => rw [he]; exact (h ca hca.2 i hi).1
    | inr he => rw [he]; exact (h ca hca.2 i hi).2
  cluster_log := by
    have h : ∀ ca, ca < 8 → 2 ≤ ca → Apart (clusterAddr (smallMount 0) ca) 256 (36 * 128) 128 ∧
        Apart (clusterAddr (smallMount 0) ca) 256 (1 * 128) 128 := by decide
    intro ca sa hca hsa
    cases logSector_small hjc hsa with
    | inl he => rw [he]; exact (h ca hca.2 hca.1).1
    | inr he => rw [he]; exact (h ca hca.2 hca.1).2

/-- A content table whose slot `0` is the open file with the first cluster `ca`. -/
def oneFile (ca : Nat) (mode : UInt8) : Nat → Content := fun _ => {
  directoryName := [], fileName := [], fileExtension := [], indexRoot := 0
  parentCluster := 2, dataCluster := ca, entry := DirEntry.ofBytes []
  contentType := .file, mode := mode }

/-! ### The abstract volume -/

/-- The FAT values and the bytes of the clusters. -/
structure Vol where
  fat : Nat → Nat
  raw : Nat → List UInt8

namespace Vol

/-- The volume with a new FAT value. -/
def setFat (v : Vol) (ca x : Nat) : Vol :=
  { v with fat := fun k => if k = ca then x else v.fat k }

/-- The volume with new bytes in a cluster. -/
def setRaw (v : Vol) (ca : Nat) (bs : List UInt8) : Vol :=
  { v with raw := fun k => if k = ca then bs else v.raw k }

@[simp] theorem setFat_raw (v : Vol) (ca x : Nat) : (v.setFat ca x).raw = v.raw := rfl

@[simp] theorem setRaw_fat (v : Vol) (ca : Nat) (bs : List UInt8) :
    (v.setRaw ca bs).fat = v.fat := rfl

@[simp] theorem setFat_fat_self (v : Vol) (ca x : Nat) : (v.setFat ca x).fat ca = x :=
  if_pos rfl

@[simp] theorem setRaw_raw_self (v : Vol) (ca : Nat) (bs : List UInt8) :
    (v.setRaw ca bs).raw ca = bs := if_pos rfl

theorem setFat_fat_ne (v : Vol) {ca k : Nat} (x : Nat) (h : k ≠ ca) :
    (v.setFat ca x).fat k = v.fat k := if_neg h

theorem setRaw_raw_ne (v : Vol) {ca k : Nat} (bs : List UInt8) (h : k ≠ ca) :
    (v.setRaw ca bs).raw k = v.raw k := if_neg h

end Vol

section View

variable (m : Mount)

/-- The volume that a state stores, read from the first FAT copy and the clusters. -/
def view (s : FS) : Vol where
  fat ca := if InVol m ca then fatCell m s.medium.bytes ca 0 else FAT_CLUSTER_BAD
  raw ca := if InVol m ca then read s.medium.bytes (clusterAddr m ca) m.fi.clusterSize else []

/-- All FAT copies and the FAT cache agree. -/
structure Coherent (s : FS) : Prop where
  copies : ∀ ca i, InVol m ca → i < m.fi.fatCount →
    fatCell m s.medium.bytes ca i = fatCell m s.medium.bytes ca 0
  cached : ∀ ca x, InVol m ca → cachedFat ca s = some x → x = fatCell m s.medium.bytes ca 0

/-- The state `s` is coherent and stores the volume `v`. -/
structure Shows (s : FS) (v : Vol) : Prop where
  coherent : Coherent m s
  view_eq : view m s = v

/-- What the operations on the volume leave alone: the content table and the heap. The
clusters that they asked the allocator for are `l`. -/
structure Keeps (l : List Nat) (s s' : FS) : Prop where
  contents : s'.contents = s.contents
  heap : s'.heap = s.heap
  mallocs : s'.mallocs = s.mallocs
  allocs : s'.allocs = s.allocs ++ l

end View

namespace Keeps

variable {l k : List Nat} {s s' s'' : FS}

theorem refl (s : FS) : Keeps [] s s := ⟨rfl, rfl, rfl, (List.append_nil _).symm⟩

theorem trans (h : Keeps l s s') (h' : Keeps k s' s'') : Keeps (l ++ k) s s'' where
  contents := h'.contents.trans h.contents
  heap := h'.heap.trans h.heap
  mallocs := h'.mallocs.trans h.mallocs
  allocs := by rw [h'.allocs, h.allocs, List.append_assoc]

/-- After a part that allocates nothing. -/
theorem nil_trans (h : Keeps [] s s') (h' : Keeps k s' s'') : Keeps k s s'' := h.trans h'

/-- Before a part that allocates nothing. -/
theorem trans_nil (h : Keeps l s s') (h' : Keeps [] s' s'') : Keeps l s s'' := by
  have := h.trans h'
  rwa [List.append_nil] at this

end Keeps

namespace Shows

variable {m : Mount} {s s' : FS} {v : Vol}

theorem fat_eq (h : Shows m s v) {ca : Nat} (hca : InVol m ca) :
    fatCell m s.medium.bytes ca 0 = v.fat ca := by
  rw [← h.view_eq]
  exact (if_pos hca).symm

theorem copy_eq (h : Shows m s v) {ca i : Nat} (hca : InVol m ca) (hi : i < m.fi.fatCount) :
    fatCell m s.medium.bytes ca i = v.fat ca :=
  (h.coherent.copies ca i hca hi).trans (h.fat_eq hca)

theorem raw_eq (h : Shows m s v) {ca : Nat} (hca : InVol m ca) :
    read s.medium.bytes (clusterAddr m ca) m.fi.clusterSize = v.raw ca := by
  rw [← h.view_eq]
  exact (if_pos hca).symm

theorem length_raw (h : Shows m s v) {ca : Nat} (hca : InVol m ca) :
    (v.raw ca).length = m.fi.clusterSize := by
  rw [← h.raw_eq hca, length_read]

theorem fat_outside (h : Shows m s v) {ca : Nat} (hca : ¬ InVol m ca) :
    v.fat ca = FAT_CLUSTER_BAD := by
  rw [← h.view_eq]
  exact if_neg hca

theorem raw_outside (h : Shows m s v) {ca : Nat} (hca : ¬ InVol m ca) : v.raw ca = [] := by
  rw [← h.view_eq]
  exact if_neg hca

/-- A cluster with a FAT value other than bad is in the volume. -/
theorem inVol_of_fat (h : Shows m s v) {ca : Nat} (hne : v.fat ca ≠ FAT_CLUSTER_BAD) :
    InVol m ca := by
  by_contra hout
  exact hne (h.fat_outside hout)

/-- What a state shows, put together from the cells and the clusters. -/
theorem intro (hcopies : ∀ ca i, InVol m ca → i < m.fi.fatCount →
      fatCell m s.medium.bytes ca i = v.fat ca)
    (hpos : 0 < m.fi.fatCount)
    (hcached : ∀ ca x, InVol m ca → cachedFat ca s = some x → x = v.fat ca)
    (hfat : ∀ ca, ¬ InVol m ca → v.fat ca = FAT_CLUSTER_BAD)
    (hraw : ∀ ca, InVol m ca →
      read s.medium.bytes (clusterAddr m ca) m.fi.clusterSize = v.raw ca)
    (hout : ∀ ca, ¬ InVol m ca → v.raw ca = []) : Shows m s v where
  coherent := {
    copies := fun ca i hca hi => by rw [hcopies ca i hca hi, hcopies ca 0 hca hpos]
    cached := fun ca x hca hx => by rw [hcached ca x hca hx, hcopies ca 0 hca hpos] }
  view_eq := by
    obtain ⟨fat, raw⟩ := v
    unfold view
    congr 1
    · funext ca
      by_cases hca : InVol m ca
      · rw [if_pos hca]
        exact hcopies ca 0 hca hpos
      · rw [if_neg hca]
        exact (hfat ca hca).symm
    · funext ca
      by_cases hca : InVol m ca
      · rw [if_pos hca]
        exact hraw ca hca
      · rw [if_neg hca]
        exact (hout ca hca).symm

/-- Only the bytes and the FAT cache matter. -/
theorem congr (h : Shows m s v) (hb : s'.medium.bytes = s.medium.bytes) (hf : s'.fat = s.fat) :
    Shows m s' v where
  coherent := {
    copies := fun ca i hca hi => by rw [hb]; exact h.coherent.copies ca i hca hi
    cached := fun ca x hca hx => by
      rw [hb]
      apply h.coherent.cached ca x hca
      unfold cachedFat at hx ⊢
      rwa [hf] at hx }
  view_eq := by
    rw [← h.view_eq]
    unfold view
    rw [hb]

end Shows

/-! ### The zero-filled volume -/

/-- The volume whose clusters are all free and zero-filled. -/
def emptyVol (m : Mount) : Vol where
  fat ca := if InVol m ca then FAT_CLUSTER_FREE else FAT_CLUSTER_BAD
  raw ca := if InVol m ca then List.replicate m.fi.clusterSize 0 else []

/-- A state over a zero-filled device, with the content table `contents`. -/
def zeroFS (contents : Nat → Content) : FS where
  medium := { bytes := fun _ => 0, writes := 0, log := [] }
  fat := none
  bitmap := none
  lastAllocatedCluster := 0
  journalIndex := 0
  errors := { firstError := 1, current := 1, lastError := 1 }
  contents := contents
  heap := fun _ => default
  mallocs := 0
  allocs := []
  journalAdded := 0
  journalSolving := 0

theorem read_zero_store (a n : Nat) :
    ByteStore.read (fun _ => (0 : UInt8)) a n = List.replicate n 0 := by
  unfold ByteStore.read
  rw [List.map_const', List.length_range]

/-- A zero-filled device holds the empty volume. -/
theorem zeroFS_shows {m : Mount} (L : Layout m) (contents : Nat → Content) :
    Shows m (zeroFS contents) (emptyVol m) := by
  apply Shows.intro
  · intro ca i hca _
    have hcell : fatCell m (fun _ => 0) ca i = FAT_CLUSTER_FREE := by
      unfold fatCell
      rw [read_zero_store, show (8 : Nat) = 2 * 4 from rfl, unpackMemory_replicate_zero]
      rfl
    exact hcell.trans (if_pos hca).symm
  · exact L.fatCount_pos
  · intro ca x _ hx
    cases hx
  · exact fun ca hca => if_neg hca
  · intro ca hca
    exact (read_zero_store _ _).trans (if_pos hca).symm
  · exact fun ca hca => if_neg hca

end NiFat32
