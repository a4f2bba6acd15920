import Mathlib.Tactic.Ring
import NiFat32.Proofs.Mount
import NiFat32.Proofs.Replay

/-!
# `Proofs.Geometry`: computing with the geometry of a mounted volume

`NIFAT32_init` takes the fields of a verified boot sector as they are. The lists here hold the
divisors that an execution of a routine can evaluate on a geometry, the moduli of the placement
macros among them. `geometry_safe_iff` says for which boot sectors none of them is zero and the
clusters behind the root directory lie on the volume.

The sectors that the metadata leaves are an `int`. When it is positive, the clusters lie on the
volume exactly when `root_cluster + 1` of them fit behind the metadata. Otherwise the number of
clusters comes from the whole volume or has wrapped.
-/

set_option autoImplicit false

namespace NiFat32

variable {m : Mount} {p : Params} {b : BootSector} {fi : FatData} {s : FS} {sector : List UInt8}

/-! ### Divisors -/

/-- `errors_register_error`, which any failure calls: the modulus of `GET_ERRORSSECTOR`. -/
def errorDivisors (fi : FatData) : List Nat :=
  if fi.errorsCount = 0 then [] else [sub32 fi.totalSectors 2]

/-- `read_fat` and `write_fat`: the modulus of `GET_FATSECTOR`, and the sector size that a byte
offset is divided by. A copy is looked at for a cluster of the volume only. -/
def fatDivisors (fi : FatData) : List Nat :=
  errorDivisors fi ++
    if fi.fatCount = 0 ∨ fi.totalClusters ≤ fi.extRootCluster then []
    else [sub32 fi.totalSectors 23, fi.bytesPerSector]

/-- `get_cluster_offset`: the modulus of `GET_CLUSTER_OFF`. -/
def offsetDivisors (fi : FatData) : List Nat :=
  if fi.entryOffset = -1 then [] else [sub32 fi.totalClusters fi.extRootCluster]

/-- `alloc_cluster` divides in `read_fat` and `write_fat` only. -/
def allocDivisors (fi : FatData) : List Nat := fatDivisors fi

/-- `restore_from_journal`, `journal_add_operation` and `journal_solve_operation`: the number of
slots, which a new record takes its index by, and the modulus of `GET_JOURNALSECTOR`. -/
def journalDivisors (m : Mount) : List Nat :=
  if m.fi.journalsCount = 0 then []
  else journalSlots m :: sub32 m.fi.totalSectors 2 :: errorDivisors m.fi

/-- `NIFAT32_init` on the boot sector that it found: the modulus of `GET_BOOTSECTOR`, the size of a
sector, the guarded sectors of a cluster, and the FAT that the caches are filled from. -/
def initDivisors (fi : FatData) (p : Params) (b : BootSector) : List Nat :=
  sub32 p.ts.toNat 2 :: b.bytesPerSector.toNat ::
    (if b.sectorsPerCluster.toNat = 0 then 1 else b.sectorsPerCluster.toNat) :: fatDivisors fi

/-- The clusters behind the root directory lie on the volume. -/
structure InsideVolume (fi : FatData) : Prop where
  cluster_pos : 0 < fi.clusterSize
  root_lt : fi.extRootCluster < fi.totalClusters
  sectors_le : fi.firstDataSector +
    (fi.totalClusters - fi.extRootCluster) * fi.sectorsPerCluster ≤ fi.totalSectors

/-- The mount whose `_fs_data` is what `NIFAT32_init` computes from the boot sector. -/
def mounted (m : Mount) (p : Params) (b : BootSector) : Mount :=
  m.withInfo (geometryOf (startInfo m.fi p) p b)

/-- No routine divides by zero on the geometry of the boot sector, and when `NIFAT32_init` returns
`1` from it the clusters lie on the volume. -/
structure GeometrySafe (m : Mount) (p : Params) (sector : List UInt8) : Prop where
  init_div : ∀ d ∈ initDivisors (mounted m p (decodeBoot sector)).fi p (decodeBoot sector), d ≠ 0
  offset_div : ∀ d ∈ offsetDivisors (mounted m p (decodeBoot sector)).fi, d ≠ 0
  alloc_div : ∀ d ∈ allocDivisors (mounted m p (decodeBoot sector)).fi, d ≠ 0
  journal_div : ∀ d ∈ journalDivisors (mounted m p (decodeBoot sector)), d ≠ 0
  inside : ∀ fuel bsNum s m' s',
    mountFrom (m.withInfo (startInfo m.fi p)) fuel p bsNum sector s = some (true, m', s') →
      InsideVolume m'.fi

/-! ### The condition -/

/-- `root_dir_sectors` -/
def rootDirSectors (b : BootSector) : Nat :=
  (b.rootEntryCount.toNat * 32 + (b.bytesPerSector.toNat - 1)) / b.bytesPerSector.toNat

/-- The sectors in front of the root directory. -/
def metaSectors (b : BootSector) : Nat :=
  b.reservedSectorCount.toNat + b.tableCount.toNat * b.extendedSection.tableSize32.toNat

/-- The sectors that are left, as an `int`. -/
def sectorsLeft (b : BootSector) : Int :=
  ((b.totalSectors32.toNat : Int) - (metaSectors b + rootDirSectors b : Nat)).bmod (2 ^ 32)

/-- The clusters when no sectors are left, and when their number is negative. -/
def wrappedClusters (b : BootSector) : Nat :=
  if sectorsLeft b = 0 then b.totalSectors32.toNat / b.sectorsPerCluster.toNat
  else (2 ^ 32 - (-sectorsLeft b).toNat / b.sectorsPerCluster.toNat) % 2 ^ 32

/-- A cluster has sectors, and `root_cluster + 1` clusters fit behind the metadata; when the sectors
left are not positive, the wrapped clusters happen to lie on the volume. -/
def ClusterRoom (b : BootSector) : Prop :=
  b.sectorsPerCluster.toNat ≠ 0 ∧
  if 0 < sectorsLeft b then
    u32 (metaSectors b) + rootDirSectors b +
      (b.extendedSection.rootCluster.toNat + 1) * b.sectorsPerCluster.toNat
        ≤ b.totalSectors32.toNat
  else
    b.extendedSection.rootCluster.toNat < wrappedClusters b ∧
    u32 (metaSectors b) + (wrappedClusters b - b.extendedSection.rootCluster.toNat) *
      b.sectorsPerCluster.toNat ≤ b.totalSectors32.toNat

instance (b : BootSector) : Decidable (ClusterRoom b) := inferInstanceAs (Decidable (_ ∧ _))

/-- `total_clusters` of a volume whose clusters have sectors. -/
def clusterCount (b : BootSector) : Nat :=
  if 0 < sectorsLeft b then (sectorsLeft b).toNat / b.sectorsPerCluster.toNat
  else wrappedClusters b

/-- The bytes of a cluster. -/
def clusterBytes (b : BootSector) : Nat := b.bytesPerSector.toNat * b.sectorsPerCluster.toNat

/-- The replay counts slots in a byte, and ends on fewer than 256 of them. -/
def Replays (p : Params) (b : BootSector) : Prop :=
  p.jc = 0 ∨ clusterBytes b < 256 * (2 * JOURNAL_ENTRY_SIZE)

/-- The boot sectors and the parameters that can be computed with. A mount that returns needs room
for its clusters. One that replays its journal forever is only asked for its divisors. -/
structure GeometryFits (m : Mount) (p : Params) (b : BootSector) : Prop where
  boots : p.ts.toNat ≠ 2
  bytes : b.bytesPerSector.toNat ≠ 0
  areas : b.totalSectors32.toNat = 2 → p.jc = 0 ∧ p.ec = 0
  slots : p.jc ≠ 0 → 2 * JOURNAL_ENTRY_SIZE ≤ clusterBytes b
  room : Replays p b → ClusterRoom b
  tables : b.totalSectors32.toNat = 23 → b.tableCount.toNat = 0 ∨
    ¬ Replays p b ∧ clusterCount b ≤ b.extendedSection.rootCluster.toNat
  offset : Replays p b ∨ m.fi.entryOffset = -1 ∨
    clusterCount b ≠ b.extendedSection.rootCluster.toNat

/-! ### The number of clusters -/

theorem geometryOf_clusters (fi : FatData) (p : Params) (b : BootSector) :
    (geometryOf fi p b).totalClusters =
      if sectorsLeft b = 0 then
        b.totalSectors32.toNat /
          (if b.sectorsPerCluster.toNat = 0 then 1 else b.sectorsPerCluster.toNat)
      else
        ((sectorsLeft b).tdiv
          (if b.sectorsPerCluster.toNat = 0 then 1 else b.sectorsPerCluster.toNat : Nat)
            % 2 ^ 32).toNat := by
  simp only [geometryOf, sectorsLeft, metaSectors, rootDirSectors]
  push_cast
  rfl

/-- A positive number of sectors gives their whole clusters. -/
theorem clusters_positive (hspc : b.sectorsPerCluster.toNat ≠ 0) (hpos : 0 < sectorsLeft b) :
    (geometryOf fi p b).totalClusters = (sectorsLeft b).toNat / b.sectorsPerCluster.toNat := by
  have hbound : sectorsLeft b < 2 ^ 32 := Int.lt_of_lt_of_le (Int.bmod_lt (by decide)) (by decide)
  rw [geometryOf_clusters, if_neg (by omega), if_neg hspc]
  generalize sectorsLeft b = x at hpos hbound
  obtain ⟨n, rfl⟩ := Int.eq_ofNat_of_zero_le (Int.le_of_lt hpos)
  have hdiv : n / b.sectorsPerCluster.toNat ≤ n := Nat.div_le_self _ _
  rw [Int.tdiv_eq_ediv_of_nonneg (by omega), ← Int.natCast_ediv, Int.toNat_natCast]
  generalize n / b.sectorsPerCluster.toNat = q at hdiv ⊢
  omega

/-- Otherwise it is the wrapped one. -/
theorem clusters_wrapped (hspc : b.sectorsPerCluster.toNat ≠ 0) (hpos : ¬ 0 < sectorsLeft b) :
    (geometryOf fi p b).totalClusters = wrappedClusters b := by
  have hbound : -2 ^ 31 ≤ sectorsLeft b := Int.le_bmod (by decide)
  rw [geometryOf_clusters, wrappedClusters, if_neg hspc]
  by_cases hzero : sectorsLeft b = 0
  · rw [if_pos hzero, if_pos hzero]
  · rw [if_neg hzero, if_neg hzero]
    generalize sectorsLeft b = x at hpos hbound
    obtain ⟨n, hn⟩ := Int.eq_ofNat_of_zero_le (show 0 ≤ -x by omega)
    obtain rfl : x = -(n : Int) := by omega
    have hdiv : n / b.sectorsPerCluster.toNat ≤ n := Nat.div_le_self _ _
    rw [Int.neg_tdiv, Int.tdiv_eq_ediv_of_nonneg (by omega), ← Int.natCast_ediv, Int.neg_neg,
      Int.toNat_natCast]
    generalize n / b.sectorsPerCluster.toNat = q at hdiv ⊢
    omega

/-- A cluster is not empty when it has sectors. -/
theorem clusterSize_eq (fi : FatData) (p : Params) (b : BootSector) :
    (geometryOf fi p b).clusterSize = b.bytesPerSector.toNat * b.sectorsPerCluster.toNat := by
  have hbps : b.bytesPerSector.toNat < 2 ^ 16 := b.bytesPerSector.toNat_lt
  have hspc : b.sectorsPerCluster.toNat < 2 ^ 8 := b.sectorsPerCluster.toNat_lt
  have hprod : b.bytesPerSector.toNat * b.sectorsPerCluster.toNat < 2 ^ 16 * 2 ^ 8 :=
    Nat.mul_lt_mul'' hbps hspc
  exact u32_of_lt (Nat.lt_trans hprod (by decide))

theorem rootDirSectors_lt (b : BootSector) : rootDirSectors b < 2 ^ 22 := by
  have hroot : b.rootEntryCount.toNat < 2 ^ 16 := b.rootEntryCount.toNat_lt
  have hbytes : b.bytesPerSector.toNat < 2 ^ 16 := b.bytesPerSector.toNat_lt
  have hdiv : rootDirSectors b ≤ b.rootEntryCount.toNat * 32 + (b.bytesPerSector.toNat - 1) :=
    Nat.div_le_self _ _
  omega

/-- The sectors left are those of the volume without the metadata, up to a wrap. -/
theorem sectorsLeft_wraps (b : BootSector) : ∃ k : Int,
    sectorsLeft b = (b.totalSectors32.toNat : Int) - u32 (metaSectors b) - rootDirSectors b
      + k * 2 ^ 32 := by
  have hdvd : (2 ^ 32 : Int) ∣ sectorsLeft b -
      ((b.totalSectors32.toNat : Int) - (metaSectors b + rootDirSectors b : Nat)) :=
    Int.dvd_bmod_sub_self
  obtain ⟨j, hj⟩ := hdvd
  have hmeta : metaSectors b = 2 ^ 32 * (metaSectors b / 2 ^ 32) + u32 (metaSectors b) :=
    (Nat.div_add_mod _ _).symm
  refine ⟨j - (metaSectors b / 2 ^ 32 : Nat), ?_⟩
  generalize metaSectors b / 2 ^ 32 = q at hmeta ⊢
  generalize u32 (metaSectors b) = first at hmeta ⊢
  omega

/-- With a positive number of sectors the clusters lie on the volume exactly when enough of them fit
behind the metadata. -/
theorem inside_positive (hspc : b.sectorsPerCluster.toNat ≠ 0) (hpos : 0 < sectorsLeft b) :
    (b.extendedSection.rootCluster.toNat < (sectorsLeft b).toNat / b.sectorsPerCluster.toNat ∧
      u32 (metaSectors b) + ((sectorsLeft b).toNat / b.sectorsPerCluster.toNat -
        b.extendedSection.rootCluster.toNat) * b.sectorsPerCluster.toNat
          ≤ b.totalSectors32.toNat) ↔
    u32 (metaSectors b) + rootDirSectors b +
      (b.extendedSection.rootCluster.toNat + 1) * b.sectorsPerCluster.toNat
        ≤ b.totalSectors32.toNat := by
  have hhigh : sectorsLeft b < 2 ^ 31 := Int.bmod_lt (by decide)
  have hroot := rootDirSectors_lt b
  have hmeta : u32 (metaSectors b) < 2 ^ 32 := Nat.mod_lt _ (by decide)
  have htotal : b.totalSectors32.toNat < 2 ^ 32 := b.totalSectors32.toNat_lt
  obtain ⟨k, hk⟩ := sectorsLeft_wraps b
  obtain ⟨x, hx⟩ := Int.eq_ofNat_of_zero_le (Int.le_of_lt hpos)
  rw [hx] at hk hpos hhigh ⊢
  rw [Int.toNat_natCast]
  generalize u32 (metaSectors b) = first at *
  generalize rootDirSectors b = dir at *
  generalize b.totalSectors32.toNat = total at *
  generalize b.extendedSection.rootCluster.toNat = root at *
  generalize b.sectorsPerCluster.toNat = spc at *
  have hfloor : root < x / spc ↔ (root + 1) * spc ≤ x := by
    rw [Nat.lt_iff_add_one_le, Nat.le_div_iff_mul_le (Nat.pos_of_ne_zero hspc)]
  have hprod : (x / spc - root) * spc ≤ x :=
    Nat.le_trans (Nat.mul_le_mul_right spc (Nat.sub_le _ _)) (Nat.div_mul_le_self x spc)
  generalize (root + 1) * spc = need at *
  rw [hfloor]
  generalize (x / spc - root) * spc = behind at *
  omega

/-- The bounds in the fields of the boot sector. -/
theorem insideVolume_iff (hbps : b.bytesPerSector.toNat ≠ 0) :
    InsideVolume (geometryOf fi p b) ↔ ClusterRoom b := by
  by_cases hspc : b.sectorsPerCluster.toNat = 0
  · refine ⟨fun h => absurd h.cluster_pos ?_, fun h => absurd hspc h.1⟩
    rw [clusterSize_eq, hspc]
    simp
  · have hsize : 0 < (geometryOf fi p b).clusterSize := by
      rw [clusterSize_eq]
      exact Nat.mul_pos (Nat.pos_of_ne_zero hbps) (Nat.pos_of_ne_zero hspc)
    have hparts : InsideVolume (geometryOf fi p b) ↔
        b.extendedSection.rootCluster.toNat < (geometryOf fi p b).totalClusters ∧
        u32 (metaSectors b) + ((geometryOf fi p b).totalClusters -
          b.extendedSection.rootCluster.toNat) * b.sectorsPerCluster.toNat
            ≤ b.totalSectors32.toNat :=
      ⟨fun h => ⟨h.root_lt, h.sectors_le⟩, fun h => ⟨hsize, h.1, h.2⟩⟩
    rw [hparts, ClusterRoom]
    by_cases hpos : 0 < sectorsLeft b
    · rw [clusters_positive hspc hpos, if_pos hpos, inside_positive hspc hpos]
      exact (and_iff_right hspc).symm
    · rw [clusters_wrapped hspc hpos, if_neg hpos]
      exact (and_iff_right hspc).symm

/-! ### The routines -/

/-- The modulus of a placement macro is zero on one number only. -/
theorem sub32_ne_zero_iff {a c : Nat} (ha : a < 2 ^ 32) (hc : c < 2 ^ 32) :
    sub32 a c ≠ 0 ↔ a ≠ c := by
  have hsub : sub32 a c = (a + (2 ^ 32 - c)) % 2 ^ 32 := by
    rw [sub32, Nat.mod_eq_of_lt hc]
  rw [hsub]
  omega

theorem geometryOf_clusterCount (hspc : b.sectorsPerCluster.toNat ≠ 0) :
    (geometryOf fi p b).totalClusters = clusterCount b := by
  unfold clusterCount
  by_cases hpos : 0 < sectorsLeft b
  · rw [if_pos hpos, clusters_positive hspc hpos]
  · rw [if_neg hpos, clusters_wrapped hspc hpos]

theorem clusterCount_lt (b : BootSector) : clusterCount b < 2 ^ 32 := by
  have hhigh : sectorsLeft b < 2 ^ 31 := Int.bmod_lt (by decide)
  have htotal : b.totalSectors32.toNat < 2 ^ 32 := b.totalSectors32.toNat_lt
  have hdiv : ∀ n, n / b.sectorsPerCluster.toNat ≤ n := fun n => Nat.div_le_self n _
  unfold clusterCount wrappedClusters
  split
  · exact Nat.lt_of_le_of_lt (hdiv _) (by omega)
  · split
    · exact Nat.lt_of_le_of_lt (hdiv _) htotal
    · exact Nat.mod_lt _ (by decide)

/-- Where there is room, the root directory is in front of the last cluster. -/
theorem ClusterRoom.root_lt (h : ClusterRoom b) :
    b.extendedSection.rootCluster.toNat < clusterCount b := by
  obtain ⟨hspc, hroom⟩ := h
  unfold clusterCount
  split at hroom
  next hpos =>
    rw [if_pos hpos]
    exact ((inside_positive hspc hpos).mpr hroom).1
  next hpos =>
    rw [if_neg hpos]
    exact hroom.1

/-- `NIFAT32_init` behind the checksums: the geometry, then the replay. -/
theorem mountFrom_geometry (fuel bsNum : Nat) (hb : decodeBoot sector = b)
    (hbps : b.bytesPerSector.toNat ≠ 0) : ∃ s₁,
    mountFrom (m.withInfo (startInfo m.fi p)) fuel p bsNum sector s =
      if p.jc = 0 then some (true, mounted m p b, s₁)
      else
        (restoreFromJournal (mounted m p b) fuel s₁).map fun r => (true, mounted m p b, r.2) := by
  have hne : b.bytesPerSector ≠ 0 := fun h => hbps (by rw [h]; rfl)
  unfold mountFrom
  rw [hb, if_neg hne]
  exact ⟨_, rfl⟩

theorem mounted_slots (m : Mount) (p : Params) (b : BootSector) :
    journalSlots (mounted m p b) ≤ 255 ↔ clusterBytes b < 256 * (2 * JOURNAL_ENTRY_SIZE) := by
  rw [journalSlots_le_iff]
  exact Eq.to_iff (congrArg (· < _) (clusterSize_eq (startInfo m.fi p) p b))

/-- When the replay ends, there is a run of `NIFAT32_init` that returns `1`. -/
theorem mountFrom_returns (s : FS) (hb : decodeBoot sector = b) (hbps : b.bytesPerSector.toNat ≠ 0)
    (hret : Replays p b) : ∃ fuel s', mountFrom (m.withInfo (startInfo m.fi p)) fuel p 0 sector s =
      some (true, mounted m p b, s') := by
  obtain ⟨s₁, heq⟩ := mountFrom_geometry (m := m) (p := p) (s := s)
    (journalSlots (mounted m p b) + 1) 0 hb hbps
  refine ⟨journalSlots (mounted m p b) + 1, ?_⟩
  rw [heq]
  by_cases hjc : p.jc = 0
  · exact ⟨s₁, if_pos hjc⟩
  · have hcount : 0 < (mounted m p b).fi.journalsCount :=
      Nat.pos_of_ne_zero fun h => hjc (UInt8.toNat_inj.mp h)
    have hslots : journalSlots (mounted m p b) ≤ 255 :=
      (mounted_slots m p b).mpr (hret.resolve_left hjc)
    rw [if_neg hjc, restoreFromJournal_eq hcount, restoreLoop_run hslots _ 0 _ (Nat.zero_add _) rfl
      (Nat.lt_succ_self _)]
    exact ⟨_, rfl⟩

/-- A run that returns `1` computed the geometry, and its replay ended. -/
theorem mountFrom_true {fuel bsNum : Nat} {m' : Mount} {s' : FS} (hb : decodeBoot sector = b)
    (h : mountFrom (m.withInfo (startInfo m.fi p)) fuel p bsNum sector s = some (true, m', s')) :
    b.bytesPerSector.toNat ≠ 0 ∧ Replays p b ∧ m' = mounted m p b := by
  have hbps : b.bytesPerSector.toNat ≠ 0 := by
    intro hzero
    unfold mountFrom at h
    rw [hb, if_pos (UInt16.toNat_inj.mp hzero)] at h
    cases h
  obtain ⟨s₁, heq⟩ := mountFrom_geometry (m := m) (p := p) (s := s) fuel bsNum hb hbps
  rw [heq] at h
  by_cases hjc : p.jc = 0
  · rw [if_pos hjc] at h
    cases h
    exact ⟨hbps, .inl hjc, rfl⟩
  · have hcount : 0 < (mounted m p b).fi.journalsCount :=
      Nat.pos_of_ne_zero fun h => hjc (UInt8.toNat_inj.mp h)
    rw [if_neg hjc, restoreFromJournal_eq hcount] at h
    by_cases hslots : journalSlots (mounted m p b) ≤ 255
    · cases hloop : restoreLoop (mounted m p b) fuel 0 { s₁ with journalIndex := 0 } with
      | none => rw [hloop] at h; cases h
      | some s₂ =>
        rw [hloop] at h
        cases h
        exact ⟨hbps, .inr ((mounted_slots m p b).mp hslots), rfl⟩
    · have hspin := restoreLoop_spins (m := mounted m p b) (by omega) fuel 0
        (s := { s₁ with journalIndex := 0 }) (by show 0 < 256; omega)
      rw [hspin] at h
      cases h

/-! ### The divisors of a mounted volume -/

/-- A count of the parameters that is not zero. -/
theorem toNat_ne_zero_iff (n : UInt8) : n.toNat ≠ 0 ↔ n ≠ 0 :=
  not_congr (UInt8.toNat_inj (b := 0))

/-- No area is looked for on a volume of two sectors. -/
theorem errorDivisors_ne_zero_iff :
    (∀ d ∈ errorDivisors (mounted m p b).fi, d ≠ 0) ↔ (b.totalSectors32.toNat = 2 → p.ec = 0) := by
  have htotal := b.totalSectors32.toNat_lt
  have hlist : errorDivisors (mounted m p b).fi =
      if p.ec.toNat = 0 then [] else [sub32 b.totalSectors32.toNat 2] := rfl
  rw [hlist]
  by_cases hec : p.ec = 0
  · simp [hec]
  · have hmod := sub32_ne_zero_iff htotal (show 2 < 2 ^ 32 by decide)
    rw [if_neg ((toNat_ne_zero_iff _).mpr hec), List.forall_mem_singleton, hmod]
    exact ⟨fun h htwo => absurd htwo h, fun h htwo => hec (h htwo)⟩

/-- The FAT is looked at when it has copies and the volume has clusters behind the root. -/
theorem fatDivisors_ne_zero_iff (hbps : b.bytesPerSector.toNat ≠ 0) :
    (∀ d ∈ fatDivisors (mounted m p b).fi, d ≠ 0) ↔
      (b.totalSectors32.toNat = 2 → p.ec = 0) ∧
      (b.totalSectors32.toNat = 23 → b.tableCount.toNat = 0 ∨
        (mounted m p b).fi.totalClusters ≤ b.extendedSection.rootCluster.toNat) := by
  have htotal := b.totalSectors32.toNat_lt
  have hmod := sub32_ne_zero_iff htotal (show 23 < 2 ^ 32 by decide)
  have hlist : fatDivisors (mounted m p b).fi = errorDivisors (mounted m p b).fi ++
      if b.tableCount.toNat = 0 ∨
          (mounted m p b).fi.totalClusters ≤ b.extendedSection.rootCluster.toNat then []
      else [sub32 b.totalSectors32.toNat 23, b.bytesPerSector.toNat] := rfl
  rw [hlist, List.forall_mem_append, errorDivisors_ne_zero_iff]
  refine and_congr_right fun _ => ?_
  split
  next hskip => simp [hskip]
  next hread =>
    rw [List.forall_mem_cons, List.forall_mem_singleton, hmod]
    exact ⟨fun h h23 => absurd h23 h.1, fun h => ⟨fun h23 => hread (h h23), hbps⟩⟩

theorem offsetDivisors_ne_zero_iff (hspc : b.sectorsPerCluster.toNat ≠ 0) :
    (∀ d ∈ offsetDivisors (mounted m p b).fi, d ≠ 0) ↔
      (m.fi.entryOffset = -1 ∨ clusterCount b ≠ b.extendedSection.rootCluster.toNat) := by
  have hmod := sub32_ne_zero_iff (clusterCount_lt b) b.extendedSection.rootCluster.toNat_lt
  have hlist : offsetDivisors (mounted m p b).fi =
      if m.fi.entryOffset = -1 then []
      else [sub32 (mounted m p b).fi.totalClusters b.extendedSection.rootCluster.toNat] := rfl
  have hcount : (mounted m p b).fi.totalClusters = clusterCount b := geometryOf_clusterCount hspc
  rw [hlist, hcount]
  split
  next hfixed => simp [hfixed]
  next hmoves =>
    rw [List.forall_mem_singleton, hmod]
    exact (or_iff_right hmoves).symm

/-- A record needs a slot, and a volume that the journals can be placed on. -/
theorem journalDivisors_ne_zero_iff (hec : b.totalSectors32.toNat = 2 → p.ec = 0) :
    (∀ d ∈ journalDivisors (mounted m p b), d ≠ 0) ↔
      (p.jc ≠ 0 → 2 * JOURNAL_ENTRY_SIZE ≤ clusterBytes b ∧ b.totalSectors32.toNat ≠ 2) := by
  have htotal := b.totalSectors32.toNat_lt
  have hmod := sub32_ne_zero_iff htotal (show 2 < 2 ^ 32 by decide)
  have hsize : (mounted m p b).fi.clusterSize = clusterBytes b := clusterSize_eq _ _ _
  have hlist : journalDivisors (mounted m p b) = if p.jc.toNat = 0 then []
      else (clusterBytes b / (JOURNAL_ENTRY_SIZE * 2)) :: sub32 b.totalSectors32.toNat 2 ::
        errorDivisors (mounted m p b).fi := by rw [← hsize]; rfl
  rw [hlist]
  by_cases hjc : p.jc = 0
  · simp [hjc]
  · have hslot : clusterBytes b / (JOURNAL_ENTRY_SIZE * 2) ≠ 0 ↔
        2 * JOURNAL_ENTRY_SIZE ≤ clusterBytes b := by
      show clusterBytes b / 68 ≠ 0 ↔ 68 ≤ clusterBytes b
      omega
    rw [if_neg ((toNat_ne_zero_iff _).mpr hjc), List.forall_mem_cons, List.forall_mem_cons, hmod,
      hslot, errorDivisors_ne_zero_iff]
    exact ⟨fun h _ => ⟨h.1, h.2.1⟩, fun h => ⟨(h hjc).1, (h hjc).2, hec⟩⟩

/-! ### Exactly the boot sectors that are safe -/

/-- The room of the clusters is that of a mount that returns. -/
theorem inside_iff (hbps : (decodeBoot sector).bytesPerSector.toNat ≠ 0) :
    (∀ fuel bsNum s m' s',
      mountFrom (m.withInfo (startInfo m.fi p)) fuel p bsNum sector s = some (true, m', s') →
        InsideVolume m'.fi) ↔
          (Replays p (decodeBoot sector) → ClusterRoom (decodeBoot sector)) := by
  constructor
  · intro h hret
    obtain ⟨fuel, s', heq⟩ := mountFrom_returns (m := m) (zeroFS (oneFile 2 R_MODE)) rfl hbps hret
    exact (insideVolume_iff hbps).mp (h _ _ _ _ _ heq)
  · intro h fuel bsNum s m' s' heq
    obtain ⟨-, hret, rfl⟩ := mountFrom_true rfl heq
    exact (insideVolume_iff hbps).mpr (h hret)

/-- A cluster of a mount that does not return has sectors. -/
theorem spc_ne_zero_of_spins (h : ¬ Replays p b) : b.sectorsPerCluster.toNat ≠ 0 := by
  intro hspc
  refine h (.inr ?_)
  rw [clusterBytes, hspc, Nat.mul_zero]
  decide

/-- With `root_cluster` behind the clusters the FAT is never looked at. -/
theorem tables_iff (hroom : Replays p b → ClusterRoom b) (hspc : b.sectorsPerCluster.toNat ≠ 0) :
    (b.tableCount.toNat = 0 ∨
        (mounted m p b).fi.totalClusters ≤ b.extendedSection.rootCluster.toNat) ↔
      (b.tableCount.toNat = 0 ∨
        ¬ Replays p b ∧ clusterCount b ≤ b.extendedSection.rootCluster.toNat) := by
  have hcount : (mounted m p b).fi.totalClusters = clusterCount b := geometryOf_clusterCount hspc
  rw [hcount]
  refine or_congr_right ⟨fun hle => ⟨fun hret => ?_, hle⟩, fun h => h.2⟩
  exact Nat.not_lt.mpr hle (hroom hret).root_lt

/-- The divisors of `NIFAT32_init` in front of the FAT. -/
theorem initDivisors_ne_zero_iff {fi : FatData} :
    (∀ d ∈ initDivisors fi p b, d ≠ 0) ↔
      p.ts.toNat ≠ 2 ∧ b.bytesPerSector.toNat ≠ 0 ∧ ∀ d ∈ fatDivisors fi, d ≠ 0 := by
  have hmod := sub32_ne_zero_iff p.ts.toNat_lt (show 2 < 2 ^ 32 by decide)
  have hguard : (if b.sectorsPerCluster.toNat = 0 then 1 else b.sectorsPerCluster.toNat) ≠ 0 := by
    split <;> omega
  rw [initDivisors, List.forall_mem_cons, List.forall_mem_cons, List.forall_mem_cons, hmod]
  exact and_congr_right fun _ => and_congr_right fun _ => and_iff_right hguard

/-- The clusters of a boot sector that fits have sectors, whether the mount returns or not. -/
theorem spc_ne_zero (hroom : Replays p b → ClusterRoom b) : b.sectorsPerCluster.toNat ≠ 0 := by
  by_cases hret : Replays p b
  · exact (hroom hret).1
  · exact spc_ne_zero_of_spins hret

/-- The geometry can be computed with exactly when the boot sector fits. -/
theorem geometry_safe_iff (m : Mount) (p : Params) (sector : List UInt8) :
    GeometrySafe m p sector ↔ GeometryFits m p (decodeBoot sector) := by
  constructor
  · intro h
    obtain ⟨hts, hbps, hfat⟩ := initDivisors_ne_zero_iff.mp h.init_div
    obtain ⟨hec, htables⟩ := (fatDivisors_ne_zero_iff hbps).mp hfat
    have hroom := (inside_iff hbps).mp h.inside
    have hspc := spc_ne_zero hroom
    have hjournal := (journalDivisors_ne_zero_iff hec).mp h.journal_div
    have hoffset := (offsetDivisors_ne_zero_iff hspc).mp h.offset_div
    exact {
      boots := hts
      bytes := hbps
      areas := fun htwo => ⟨not_not.mp fun hjc => (hjournal hjc).2 htwo, hec htwo⟩
      slots := fun hjc => (hjournal hjc).1
      room := hroom
      tables := fun h23 => (tables_iff hroom hspc).mp (htables h23)
      offset := .inr hoffset }
  · intro h
    have hspc := spc_ne_zero h.room
    have hec := fun htwo => (h.areas htwo).2
    have hfat := (fatDivisors_ne_zero_iff (m := m) h.bytes).mpr
      ⟨hec, fun h23 => (tables_iff h.room hspc).mpr (h.tables h23)⟩
    -- A mount that returns has its root directory in front of the last cluster.
    have hoffset : m.fi.entryOffset = -1 ∨
        clusterCount (decodeBoot sector) ≠
          (decodeBoot sector).extendedSection.rootCluster.toNat := by
      cases h.offset with
      | inl hret => exact .inr (Nat.ne_of_gt (h.room hret).root_lt)
      | inr hoffset => exact hoffset
    exact {
      init_div := initDivisors_ne_zero_iff.mpr ⟨h.boots, h.bytes, hfat⟩
      offset_div := (offsetDivisors_ne_zero_iff hspc).mpr hoffset
      alloc_div := hfat
      journal_div := (journalDivisors_ne_zero_iff hec).mpr fun hjc =>
        ⟨h.slots hjc, fun htwo => hjc (h.areas htwo).1⟩
      inside := (inside_iff h.bytes).mpr h.room }

/-- A boot sector whose clusters have no sectors: the number of sectors that the formatter was
given does not fit the byte of the field. -/
def emptyClusters : BootSector := { sampleBoot with sectorsPerCluster := 0 }.withChecksums

/-- Its checksums verify, and the geometry has clusters without bytes. -/
theorem geometry_unsafe_small :
    (decodeBoot (bootSectorBytes emptyClusters 512)).Valid ∧
      ¬ GeometrySafe unmounted twoCopies (bootSectorBytes emptyClusters 512) := by
  have hdec : decodeBoot (bootSectorBytes emptyClusters 512) = emptyClusters :=
    decodeBoot_pack emptyClusters _
  refine ⟨?_, fun h => ?_⟩
  · rw [hdec]
    exact withChecksums_valid _
  · have hbps : (decodeBoot (bootSectorBytes emptyClusters 512)).bytesPerSector.toNat ≠ 0 := by
      rw [hdec]
      show (512 : Nat) ≠ 0
      decide
    have hroom := (inside_iff hbps).mp h.inside (.inl rfl)
    rw [hdec] at hroom
    exact hroom.1 rfl

end NiFat32
