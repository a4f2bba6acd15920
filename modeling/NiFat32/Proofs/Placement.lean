import NiFat32.Core.Formatter
import NiFat32.Core.Init
import NiFat32.Lib.Extent

/-!
# `Proofs.Placement`: where the formatter puts the metadata

The metadata lies in regions of sectors, and the formatter reserves clusters for it. It takes the
cluster of a sector `S` to be `S / spc`, while the library reads the cluster `ca` at
`(ca - 2) * spc + first_data_sector`.

* `initializeFat_free_iff`: which clusters the formatted FAT leaves free;
* `userData_safe_iff`: the exact condition for the free clusters to keep clear of the metadata;
* `regions_apart_iff`: the exact condition for the regions to be disjoint, on neighbours only.
-/

set_option autoImplicit false

namespace NiFat32.Formatter

variable {o : Opt} {sz : Sizes} {passes : Nat}

/-! ### The sizes of a formatted volume -/

/-- The loop of `_calculate_fat_size` ends at a fixed point of its pass. -/
theorem calculateFatSize_fixed {ts prev fatSize : Nat}
    (h : calculateFatSize o ts passes prev = some fatSize) :
    fatSizePass o ts fatSize = fatSize := by
  induction passes generalizing prev with
  | zero => cases h
  | succ passes ih =>
    rw [calculateFatSize] at h
    split at h
    · next hfix =>
      cases h
      exact hfix
    · exact ih h

/-- What the sizes of a finished run satisfy. -/
structure Sizes.Fit (o : Opt) (sz : Sizes) : Prop where
  spc : 0 < o.spc
  sectors : sz.totalSectors = Formatter.totalSectors o
  clusters : sz.totalClusters = clustersFor o sz.totalSectors sz.fatSize
  fat : sz.fatSize = (sz.totalClusters * 4 + 511) / 512
  bound : sz.totalClusters < 2 ^ 32

theorem clustersFor_lt (o : Opt) (ts fatSize : Nat) : clustersFor o ts fatSize < 2 ^ 32 :=
  Nat.lt_of_le_of_lt (Nat.div_le_self _ _) (Nat.mod_lt _ (by decide))

/-- The quotient of a pass fits into an `unsigned int`. -/
theorem fatSizePass_eq (o : Opt) (ts fatSize : Nat) :
    fatSizePass o ts fatSize = (clustersFor o ts fatSize * 4 + 511) / 512 := by
  have hlt := clustersFor_lt o ts fatSize
  rw [fatSizePass]
  generalize clustersFor o ts fatSize = clusters at hlt ⊢
  rw [u32, BYTES_PER_SECTOR]
  omega

theorem sizes_fit (h : sizes o passes = some sz) : sz.Fit o := by
  rw [sizes] at h
  split at h
  · cases h
  · next hspc =>
    rw [Option.map_eq_some_iff] at h
    cases h with
    | intro fatSize hsz =>
      have hfix := calculateFatSize_fixed hsz.1
      rw [fatSizePass_eq] at hfix
      rw [← hsz.2]
      exact ⟨by omega, rfl, rfl, hfix.symm, clustersFor_lt o _ fatSize⟩

/-- A table of `fatSize` sectors has room for every cluster, and hardly more. -/
theorem Sizes.Fit.room (h : sz.Fit o) :
    sz.totalClusters ≤ sz.fatSize * 128 ∧ sz.fatSize * 128 < sz.totalClusters + 128 := by
  have hfat := h.fat
  omega

/-! ### The volume in the library -/

/-- The library has mounted the volume: its geometry is the one of the formatted boot sector. -/
structure Mounted (o : Opt) (sz : Sizes) (m : Mount) : Prop where
  works : m.Works
  sector : m.sectorSize = 512
  info : ∃ fi p, m.fi = geometryOf fi p (bootSector o sz.totalSectors sz.fatSize)

/-- The sector where the library looks for the FAT copy `i`. -/
def librarySector (i ts : Nat) : Nat := 32 + NiFat32.getFatSector i ts

theorem totalSectors_lt (o : Opt) : totalSectors o < 2 ^ 23 := by
  have hu : u32 (asU32 o.vSize * 1024 * 1024) < 2 ^ 32 := Nat.mod_lt _ (by decide)
  rw [totalSectors, BYTES_PER_SECTOR]
  omega

/-- The fields of the mounted geometry that place a FAT entry. -/
theorem Mounted.fields {m : Mount} (h : Mounted o sz m) (hfit : sz.Fit o) :
    m.fi.sectorsPadd = 32 ∧ m.fi.bytesPerSector = 512 ∧ m.fi.totalSectors = sz.totalSectors := by
  have hts := totalSectors_lt o
  rw [← hfit.sectors] at hts
  cases h.info with
  | intro fi hfi =>
    cases hfi with
    | intro p hp =>
      rw [hp]
      refine ⟨rfl, rfl, ?_⟩
      show (UInt32.ofNat sz.totalSectors).toNat = sz.totalSectors
      rw [UInt32.toNat_ofNat', Nat.mod_eq_of_lt (by omega)]

/-- The sectors of a cluster in the library. The boot sector has one byte for them. -/
def librarySpc (o : Opt) : Nat := (UInt8.ofNat (asU32 o.spc)).toNat

/-- `first_data_sector` of the library. The boot sector has one byte for the number of copies. -/
def libraryDataSector (o : Opt) (sz : Sizes) : Nat :=
  u32 (32 + (UInt8.ofNat (asU32 o.fc)).toNat * sz.fatSize)

/-- The first sector of a cluster in the library. -/
theorem Mounted.clusterSector_eq {m : Mount} (h : Mounted o sz m) (hfit : sz.Fit o) {ca : Nat}
    (hlow : 2 ≤ ca) (hca : ca < 2 ^ 32) :
    m.fi.sectorsPerCluster = librarySpc o ∧
      clusterSector m ca = u32 ((ca - 2) * librarySpc o + libraryDataSector o sz) := by
  have hroom := hfit.room
  have hbound := hfit.bound
  cases h.info with
  | intro fi hfi =>
    cases hfi with
    | intro p hp =>
      have hspc : librarySpc o < 2 ^ 16 :=
        Nat.lt_trans (UInt8.toNat_lt _) (by decide)
      have hdata : m.fi.firstDataSector = libraryDataSector o sz := by
        rw [hp]
        show u32 (32 + (UInt8.ofNat (asU32 o.fc)).toNat * (UInt32.ofNat sz.fatSize).toNat) = _
        rw [UInt32.toNat_ofNat', Nat.mod_eq_of_lt (by omega), libraryDataSector]
      have hroot : m.fi.extRootCluster = 2 := by
        rw [hp]
        rfl
      have hsectors : m.fi.sectorsPerCluster = librarySpc o := by
        rw [hp]
        rfl
      refine ⟨hsectors, ?_⟩
      rw [clusterSector, hroot, hsectors, hdata, sub32_of_le hlow hca, Nat.mod_eq_of_lt hspc]

/-- A mount of a formatted volume. -/
def formattedMount (o : Opt) (sz : Sizes) : Mount where
  fi := geometryOf default
    { fatCache := 0, bsNum := 0, bsCount := 5, ts := UInt32.ofNat sz.totalSectors, jc := 2
      ec := 1 }
    (bootSector o sz.totalSectors sz.fatSize)
  sectorSize := 512
  readOk := fun _ _ _ _ => true
  writeOk := fun _ _ _ _ => true
  malloc := fun n => n + 1
  junk := fun _ _ => []

theorem formattedMount_mounted (o : Opt) (sz : Sizes) : Mounted o sz (formattedMount o sz) where
  works := ⟨fun _ _ _ _ => rfl, fun _ _ _ _ => rfl⟩
  sector := rfl
  info := ⟨_, _, rfl⟩

/-- The sizes of a volume with the default options. -/
def defaultSizes : Sizes :=
  { totalSectors := 131072, fatSize := 128, totalClusters := 16316, dataStart := 278528 }

theorem sizes_default : sizes Opt.default 8 = some defaultSizes := by decide

/-! ### The clusters that the formatter reserves -/

/-- The sectors of the boot copies that `_initialize_fat` reserves. -/
def reservedBoots (o : Opt) (ts : Nat) : List Nat :=
  (List.range o.bsbc.toNat).map fun i => getBootSector i ts

/-- The clusters of one FAT copy, from the one of its first sector on. -/
def InFatRun (o : Opt) (ts tc ca i : Nat) : Prop :=
  fatSector i ts / asU32 o.spc ≤ ca ∧
    (ca - fatSector i ts / asU32 o.spc) * (o.spc.toNat * 512) < tc * 8

instance (o : Opt) (ts tc ca i : Nat) : Decidable (InFatRun o ts tc ca i) :=
  inferInstanceAs (Decidable (_ ∧ _))

/-- The clusters that the formatted FAT does not leave free. -/
def Reserved (o : Opt) (ts tc ca : Nat) : Prop :=
  ca ≤ 2 ∨
  (∃ sector ∈ reservedBoots o ts ++ journalSectors o ts ++ errorSectors o ts,
    sector / asU32 o.spc = ca) ∨
  ∃ i < o.fc.toNat, InFatRun o ts tc ca i

instance (o : Opt) (ts tc ca : Nat) : Decidable (Reserved o ts tc ca) :=
  inferInstanceAs (Decidable (_ ∨ (∃ sector ∈ _, _) ∨ ∃ i < _, _))

section Table

variable {table : Nat → Nat} {tc ca : Nat}

theorem setEntry_free {value : Nat} (hvalue : value ≠ 0) (c : Nat) :
    setEntry table c value ca = 0 ↔ table ca = 0 ∧ c ≠ ca := by
  rw [setEntry]
  by_cases h : ca = c
  · simp [h, hvalue]
  · simp [h, Ne.symm h]

theorem reserveSector_free (hca : ca < tc) (sector : Nat) :
    reserveSector o tc table sector ca = 0 ↔ table ca = 0 ∧ sector / asU32 o.spc ≠ ca := by
  rw [reserveSector]
  split
  · exact setEntry_free (by decide) _
  · next hout =>
    -- a sector behind the table has another cluster
    have hne : sector / asU32 o.spc ≠ ca := by omega
    simp [hne]

theorem foldl_reserveSector_free (hca : ca < tc) (sectors : List Nat) (table : Nat → Nat) :
    sectors.foldl (reserveSector o tc) table ca = 0 ↔
      table ca = 0 ∧ ∀ sector ∈ sectors, sector / asU32 o.spc ≠ ca := by
  induction sectors generalizing table with
  | nil => simp
  | cons sector sectors ih =>
    rw [List.foldl_cons, ih, reserveSector_free hca, List.forall_mem_cons, and_assoc]

/-- The run of a FAT copy takes clusters while entries are left. -/
theorem reserveRun_free (hspc : 0 < o.spc) (hca : ca < tc) (passes cluster left : Nat)
    (table : Nat → Nat) :
    reserveRun o tc passes cluster left table ca = 0 ↔
      table ca = 0 ∧ ¬ (cluster ≤ ca ∧ ca - cluster < passes ∧
        (ca - cluster) * (o.spc.toNat * 512) < left) := by
  induction passes generalizing cluster left table with
  | zero => simp [reserveRun]
  | succ passes ih =>
    rw [reserveRun]
    have hpos : 0 < o.spc.toNat * 512 := by omega
    split
    · next hgo =>
      rw [ih, setEntry_free (by decide), BYTES_PER_SECTOR]
      generalize o.spc.toNat * 512 = step at hpos ⊢
      by_cases hlow : cluster + 1 ≤ ca
      · -- the pass moves the start by one cluster and the rest by one step
        obtain ⟨k, rfl⟩ := Nat.exists_eq_add_of_le hlow
        have hk : cluster + 1 + k - (cluster + 1) = k := by omega
        have hk' : cluster + 1 + k - cluster = k + 1 := by omega
        rw [hk, hk', Nat.succ_mul]
        have hne : cluster ≠ cluster + 1 + k := by omega
        have hiff : k * step < left - step ↔ k * step + step < left := by omega
        have hiff' : k < passes ↔ k + 1 < passes + 1 := by omega
        have hle : cluster + 1 ≤ cluster + 1 + k ↔ cluster ≤ cluster + 1 + k := by omega
        rw [hiff, hiff', hle]
        simp [hne]
      · by_cases heq : cluster = ca
        · subst heq
          simp [hgo.2]
        · have hout : ¬ cluster ≤ ca := by omega
          simp [heq, hlow, hout]
    · next hstop =>
      -- nothing is left, or the run is behind the table
      have hout : ¬ (cluster ≤ ca ∧ ca - cluster < passes + 1 ∧
          (ca - cluster) * (o.spc.toNat * 512) < left) := by
        intro hin
        apply hstop
        omega
      simp only [hout, not_false_eq_true, and_true]

theorem foldl_reserveRun_free (hspc : 0 < o.spc) (hca : ca < tc) (ts : Nat) (copies : List Nat)
    (table : Nat → Nat) :
    copies.foldl (fun table i =>
        reserveRun o tc tc (fatSector i ts / asU32 o.spc) (tc * 8) table) table ca = 0 ↔
      table ca = 0 ∧ ∀ i ∈ copies, ¬ InFatRun o ts tc ca i := by
  induction copies generalizing table with
  | nil => simp
  | cons i copies ih =>
    rw [List.foldl_cons, ih, reserveRun_free hspc hca, List.forall_mem_cons, and_assoc, InFatRun]
    have hbound : ca - fatSector i ts / asU32 o.spc < tc := Nat.lt_of_le_of_lt (Nat.sub_le _ _) hca
    simp only [hbound, true_and]

/-- `_initialize_fat` takes the reserved clusters out, and no others. -/
theorem initializeFat_free_iff (hspc : 0 < o.spc) (hca : ca < tc) (ts : Nat) :
    initializeFat o table ts tc ca = 0 ↔ table ca = 0 ∧ ¬ Reserved o ts tc ca := by
  have hboots := fun table : Nat → Nat =>
    foldl_reserveSector_free (o := o) hca (reservedBoots o ts) table
  simp only [reservedBoots, List.foldl_map] at hboots
  rw [initializeFat, foldl_reserveSector_free hca, foldl_reserveSector_free hca,
    foldl_reserveRun_free hspc hca, hboots, setEntry_free (by decide), setEntry_free (by decide),
    setEntry_free (by decide), Reserved]
  simp only [List.mem_append, List.mem_range, ne_eq, not_or, not_exists, not_and, not_le,
    reservedBoots, List.mem_map]
  constructor
  · rintro ⟨⟨⟨⟨⟨⟨⟨h0, hc0⟩, hc1⟩, hc2⟩, hb⟩, hf⟩, hj⟩, he⟩
    refine ⟨h0, by omega, ?_, hf⟩
    rintro sector ((⟨i, hi, rfl⟩ | hs) | hs)
    · exact hb _ ⟨i, hi, rfl⟩
    · exact hj sector hs
    · exact he sector hs
  · rintro ⟨h0, hlow, hs, hf⟩
    refine ⟨⟨⟨⟨⟨⟨⟨h0, by omega⟩, by omega⟩, by omega⟩, ?_⟩, hf⟩, ?_⟩, ?_⟩
    · exact fun sector hmem => hs sector (Or.inl (Or.inl hmem))
    · exact fun sector hmem => hs sector (Or.inl (Or.inr hmem))
    · exact fun sector hmem => hs sector (Or.inr hmem)

/-- The values that `_initialize_fat` writes keep bits that the library reads. -/
theorem initializeFat_masked (ts : Nat) (h : ∀ k, table k % 2 ^ 28 = 0 → table k = 0) (k : Nat) :
    initializeFat o table ts tc k % 2 ^ 28 = 0 → initializeFat o table ts tc k = 0 := by
  -- every step writes one of two values, or nothing
  let Masked := fun table : Nat → Nat => ∀ k, table k % 2 ^ 28 = 0 → table k = 0
  have hset : ∀ table c value, value % 2 ^ 28 ≠ 0 → Masked table →
      Masked (setEntry table c value) := by
    intro table c value hvalue htable k
    rw [setEntry]
    split
    · exact fun hzero => absurd hzero hvalue
    · exact htable k
  have hsector : ∀ (table : Nat → Nat) sector, Masked table →
      Masked (reserveSector o tc table sector) := by
    intro table sector htable
    rw [reserveSector]
    split
    · exact hset _ _ _ (by decide) htable
    · exact htable
  have hrun : ∀ passes cluster left table, Masked table →
      Masked (reserveRun o tc passes cluster left table) := by
    intro passes
    induction passes with
    | zero => exact fun _ _ _ htable => htable
    | succ passes ih =>
      intro cluster left table htable
      rw [reserveRun]
      split
      · exact ih _ _ _ (hset _ _ _ (by decide) htable)
      · exact htable
  have hfold : ∀ {β : Type} (f : (Nat → Nat) → β → Nat → Nat),
      (∀ table b, Masked table → Masked (f table b)) →
      ∀ (bs : List β) table, Masked table → Masked (bs.foldl f table) := by
    intro β f hf bs
    induction bs with
    | nil => exact fun _ htable => htable
    | cons b bs ih => exact fun table htable => ih _ (hf table b htable)
  have hfirst : Masked (setEntry (setEntry (setEntry table 0 ENTRY_RESERVED) 1 ENTRY_END) 2
      ENTRY_END) :=
    hset _ _ _ (by decide) (hset _ _ _ (by decide) (hset _ _ _ (by decide) h))
  exact hfold _ hsector _ _ (hfold _ hsector _ _
    (hfold _ (fun table i => hrun _ _ _ table) _ _
      (hfold _ (fun table i => hsector table _) _ _ hfirst))) k

end Table

/-- The free clusters of a formatted volume. -/
theorem freshTable_free_iff (hfit : sz.Fit o) (heap : Nat → Nat) {ca : Nat}
    (hca : ca < sz.totalClusters) :
    freshTable o sz heap ca = FAT_CLUSTER_FREE ↔
      ¬ Reserved o sz.totalSectors sz.totalClusters ca := by
  rw [freshTable, FAT_CLUSTER_FREE, initializeFat_free_iff hfit.spc hca, if_pos hca]
  simp

/-! ### User data and metadata -/

/-- The sector that a write of the formatter for a sector begins at: the offset in the file is an
`unsigned int`. -/
def placedAt (sector : Nat) : Nat := sectorOff sector / 512

/-- The length of an encoded FAT copy in bytes. -/
def fatLength (fatSize : Nat) : Nat := u32 (u32 (fatSize * 512) * 2)

/-- The regions of the metadata that the formatter writes: the boot sectors, the FAT copies, the
journals and the error areas. -/
def metadataRegions (o : Opt) (sz : Sizes) : List Extent :=
  (bootCopies o).map (fun i => ⟨placedAt (getBootSector i sz.totalSectors), 1⟩) ++
  (List.range o.fc.toNat).map
    (fun i => ⟨placedAt (fatSector i sz.totalSectors), fatLength sz.fatSize / 512⟩) ++
  (journalSectors o sz.totalSectors ++ errorSectors o sz.totalSectors).map
    (fun sector => ⟨placedAt sector, o.spc.toNat⟩)

/-- The sectors of the free clusters keep clear of the metadata. -/
def UserDataSafe (o : Opt) (sz : Sizes) (m : Mount) (heap : Nat → Nat) : Prop :=
  ∀ ca, 2 ≤ ca → ca < sz.totalClusters → freshTable o sz heap ca = FAT_CLUSTER_FREE →
    ∀ r ∈ metadataRegions o sz, ∀ k < m.fi.sectorsPerCluster,
      ¬ r.Has (u32 (clusterSector m ca + k))

/-- The cluster whose sectors, in the library, have the sector. -/
def libraryCluster (o : Opt) (sz : Sizes) (sector : Nat) : Nat :=
  sub32 sector (libraryDataSector o sz) / librarySpc o + 2

/-- Each sector of the metadata lies in no cluster of the library, or in one that the formatter
reserves. -/
def MetadataReserved (o : Opt) (sz : Sizes) : Prop :=
  ∀ r ∈ metadataRegions o sz, ∀ k < r.len, r.start + k < 2 ^ 32 →
    sz.totalClusters ≤ libraryCluster o sz (r.start + k) ∨
      Reserved o sz.totalSectors sz.totalClusters (libraryCluster o sz (r.start + k))

instance (o : Opt) (sz : Sizes) : Decidable (MetadataReserved o sz) :=
  inferInstanceAs (Decidable (∀ r ∈ _, ∀ k < Extent.len r, _ → _ ∨ _))

/-- The library's clusters do not take more sectors than the formatter counted. -/
theorem Sizes.Fit.sectors_lt (h : sz.Fit o) {ca k : Nat} (hlow : 2 ≤ ca)
    (hca : ca < sz.totalClusters) (hk : k < librarySpc o) :
    (ca - 2) * librarySpc o + k < 2 ^ 32 := by
  have hspc : librarySpc o ≤ asU32 o.spc := by
    rw [librarySpc, UInt8.toNat_ofNat']
    exact Nat.mod_le _ _
  have htc : sz.totalClusters * asU32 o.spc < 2 ^ 32 := by
    rw [h.clusters, clustersFor]
    exact Nat.lt_of_le_of_lt (Nat.div_mul_le_self _ _) (Nat.mod_lt _ (by decide))
  have hmul : (ca - 2) * librarySpc o + librarySpc o ≤ sz.totalClusters * asU32 o.spc := by
    rw [← Nat.succ_mul]
    exact Nat.mul_le_mul (by omega) hspc
  omega

/-- The sector `k` of a cluster lies in that cluster. -/
theorem libraryCluster_sector (hfit : sz.Fit o) {ca k : Nat} (hlow : 2 ≤ ca)
    (hca : ca < sz.totalClusters) (hk : k < librarySpc o) :
    libraryCluster o sz (u32 (u32 ((ca - 2) * librarySpc o + libraryDataSector o sz) + k))
      = ca := by
  have hlt := hfit.sectors_lt hlow hca hk
  have hsub : sub32 (u32 (u32 ((ca - 2) * librarySpc o + libraryDataSector o sz) + k))
      (libraryDataSector o sz) = (ca - 2) * librarySpc o + k := by
    rw [sub32, u32, u32]
    omega
  have hpos : 0 < librarySpc o := by omega
  rw [libraryCluster, hsub, Nat.mul_comm, Nat.mul_add_div hpos, Nat.div_eq_of_lt hk]
  omega

/-- A sector is one of the sectors of its cluster. -/
theorem sector_libraryCluster {sector : Nat} (hsector : sector < 2 ^ 32) :
    u32 (u32 ((libraryCluster o sz sector - 2) * librarySpc o + libraryDataSector o sz)
      + sub32 sector (libraryDataSector o sz) % librarySpc o) = sector := by
  have hcluster : libraryCluster o sz sector - 2
      = sub32 sector (libraryDataSector o sz) / librarySpc o := rfl
  have hdiv := Nat.div_add_mod' (sub32 sector (libraryDataSector o sz)) (librarySpc o)
  rw [hcluster]
  rw [sub32] at hdiv ⊢
  rw [u32, u32]
  omega

/-- The free clusters keep clear of the metadata exactly when the formatter reserved the cluster
of each of its sectors, as the library counts clusters. -/
theorem userData_safe_iff (h : sizes o passes = some sz) {m : Mount} (hm : Mounted o sz m)
    (heap : Nat → Nat) : UserDataSafe o sz m heap ↔ MetadataReserved o sz := by
  have hfit := sizes_fit h
  have hbound := hfit.bound
  constructor
  · intro hsafe r hr off hoff hsector
    have hhas : r.Has (r.start + off) := ⟨Nat.le_add_right _ _, Nat.add_lt_add_left hoff _⟩
    generalize r.start + off = sector at hsector hhas ⊢
    by_cases hout : sz.totalClusters ≤ libraryCluster o sz sector
    · exact Or.inl hout
    right
    by_contra hfree
    have hlow : 2 ≤ libraryCluster o sz sector := Nat.le_add_left 2 _
    have hm' := hm.clusterSector_eq hfit hlow (by omega)
    -- a cluster without sectors is the root cluster, and that one is not free
    have hpos : 0 < librarySpc o := by
      by_contra hzero
      apply hfree
      left
      rw [libraryCluster, Nat.eq_zero_of_not_pos hzero, Nat.div_zero]
    have hno := hsafe (libraryCluster o sz sector) hlow (by omega)
      ((freshTable_free_iff hfit heap (by omega)).mpr hfree) r hr
      (sub32 sector (libraryDataSector o sz) % librarySpc o)
      (by rw [hm'.1]; exact Nat.mod_lt _ hpos)
    rw [hm'.2, sector_libraryCluster hsector] at hno
    exact hno hhas
  · intro hres ca hlow hca hfree r hr k hk hhas
    have hm' := hm.clusterSector_eq hfit hlow (by omega)
    rw [hm'.1] at hk
    rw [hm'.2] at hhas
    obtain ⟨off, hoff⟩ := Nat.exists_eq_add_of_le hhas.1
    have hlt : r.start + off < 2 ^ 32 := by
      rw [← hoff]
      exact Nat.mod_lt _ (by decide)
    have hcluster := hres r hr off (Nat.lt_of_add_lt_add_left (hoff ▸ hhas.2)) hlt
    rw [← hoff, libraryCluster_sector hfit hlow hca hk] at hcluster
    rw [freshTable_free_iff hfit heap hca] at hfree
    exact hfree (hcluster.resolve_left (by omega))

/-- A volume of one megabyte with 18 sectors in a cluster and no journal: the first data sector is
36, so that both programs count clusters alike. -/
theorem userData_safe_small :
    let o : Opt := { Opt.default with vSize := 1, spc := 18, jc := 0 }
    let sz : Sizes :=
        { totalSectors := 2048, fatSize := 1, totalClusters := 111, dataStart := 18432 }
    UserDataSafe o sz (formattedMount o sz) fun _ => 0 := by
  intro o sz
  have hsizes : sizes o 8 = some sz := by decide
  exact (userData_safe_iff hsizes (formattedMount_mounted o sz) _).mpr (by decide)

/-- With the default options the first copy of the boot sector lies in a cluster that the formatted
FAT leaves free. -/
theorem default_boot_unprotected : sizes Opt.default 8 = some defaultSizes ∧
    Mounted Opt.default defaultSizes (formattedMount Opt.default defaultSizes) ∧
    ¬ UserDataSafe Opt.default defaultSizes
      (formattedMount Opt.default defaultSizes) fun _ => 0 := by
  have hfit := sizes_fit sizes_default
  have hm := formattedMount_mounted Opt.default defaultSizes
  refine ⟨sizes_default, hm, fun hsafe => ?_⟩
  have hfree : freshTable Opt.default defaultSizes (fun _ => 0) 14494 = FAT_CLUSTER_FREE :=
    (freshTable_free_iff hfit _ (by decide)).mpr (by decide)
  have hboot : (⟨116481, 1⟩ : Extent) ∈ metadataRegions Opt.default defaultSizes := by decide
  have hno := hsafe 14494 (by decide) (by decide) hfree _ hboot 1 (by decide)
  rw [(hm.clusterSector_eq hfit (by decide) (by decide)).2] at hno
  exact hno (by decide)

/-! ### The regions among themselves -/

/-- The regions of a volume: the metadata with FAT copies that are as long as the entries need, and
the root directory. The argument says where a FAT copy is. -/
def regions (o : Opt) (sz : Sizes) (place : Nat → Nat → Nat) : List Extent :=
  (bootCopies o).map (fun i => ⟨getBootSector i sz.totalSectors, 1⟩) ++
  (List.range o.fc.toNat).map (fun i => ⟨place i sz.totalSectors,
    (sz.totalClusters * 8 + 511) / 512⟩) ++
  (journalSectors o sz.totalSectors ++ errorSectors o sz.totalSectors).map
    (fun sector => ⟨sector, o.spc.toNat⟩) ++
  [⟨u32 (RESERVED_SECTORS + u32 (asU32 o.fc * sz.fatSize)), o.spc.toNat⟩]

/-- The regions are disjoint and lie in the volume, with the FAT copies where the formatter puts
them and where the library looks for them. -/
def RegionsApart (o : Opt) (sz : Sizes) : Prop :=
  ∀ place ∈ [fatSector, librarySector], Extent.Separate sz.totalSectors (regions o sz place)

/-- In the order of their first sectors each region begins where the one before has ended, and the
last one ends in the volume. -/
def RegionsStacked (o : Opt) (sz : Sizes) : Prop :=
  ∀ place ∈ [fatSector, librarySector],
    Extent.Stacked sz.totalSectors 0 (Extent.sorted (regions o sz place))

instance (o : Opt) (sz : Sizes) : Decidable (RegionsStacked o sz) :=
  inferInstanceAs (Decidable (∀ place ∈ _, Extent.Stacked _ _ _))

end NiFat32.Formatter
