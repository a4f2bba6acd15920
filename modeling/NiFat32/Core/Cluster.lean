import NiFat32.Core.Fat

/-!
# `Core.Cluster`: allocation and cluster I/O (`src/cluster.c`)

`dealloc_chain` follows links that it did not check, so it may meet a cycle; its loop takes
a bound on the number of passes and the result is `none` when the bound is used up.
-/

set_option autoImplicit false

namespace NiFat32

variable (m : Mount)

/-- `NO_CLUSTER_OFFSET` -/
abbrev NO_CLUSTER_OFFSET : Nat := 0xDEADBEEF

/-- `get_cluster_offset` -/
def getClusterOffset (s : FS) : Nat × FS :=
  if m.fi.entryOffset = -1 then (NO_CLUSTER_OFFSET, s)
  else
    let last := (((s.lastAllocatedCluster : Int) + m.fi.entryOffset) % 2 ^ 32).toNat
    (getClusterOff last (sub32 m.fi.totalClusters m.fi.extRootCluster),
      { s with lastAllocatedCluster := last })

/-- `*curr_offt = v`: the static pointer moves only when no offset was given. -/
def moveOffset (offt v : Nat) (s : FS) : FS :=
  if offt = NO_CLUSTER_OFFSET then { s with lastAllocatedCluster := v } else s

/-- The cluster `ca` was found free: mark it reserved and return it. -/
def claimCluster (offt ca : Nat) (s : FS) : Nat × FS :=
  match writeFat m ca FAT_CLUSTER_RESERVED s with
  | (false, s) => (FAT_CLUSTER_BAD, s)
  | (true, s) => (ca, moveOffset offt (ca + 1) s)

/-- The scan of `alloc_cluster`. Every pass moves `ca` up, so `total_clusters` passes are
enough. -/
def allocScan (offt : Nat) : (passes ca skip : Nat) → FS → Nat × FS
  | 0, _, _, s => (FAT_CLUSTER_BAD, moveOffset offt m.fi.extRootCluster s)
  | passes + 1, ca, skip, s =>
    if m.fi.totalClusters ≤ ca then
      (FAT_CLUSTER_BAD, moveOffset offt m.fi.extRootCluster s)
    else
      match readFat m ca s with
      | (status, s) =>
        if status = FAT_CLUSTER_FREE then claimCluster m offt ca s
        else if status = FAT_CLUSTER_BAD ∨ status = FAT_CLUSTER_RESERVED then
          allocScan offt passes (ca + skip + 1) (skip + 1) s
        else allocScan offt passes (ca + 1) skip s

/-- The body of `alloc_cluster` under its lock: the bitmap proposes a cluster, and the scan
runs when there is no proposal or the FAT does not confirm it. -/
def allocSearch (offt : Nat) (s : FS) : Nat × FS :=
  let curr := if offt = NO_CLUSTER_OFFSET then s.lastAllocatedCluster else offt
  let proposal := fatmapFindFree m curr 1 s
  if proposal = 0 then allocScan m offt m.fi.totalClusters curr 0 s
  else
    match readFat m proposal s with
    | (status, s) =>
      if status = FAT_CLUSTER_FREE then claimCluster m offt proposal s
      else allocScan m offt m.fi.totalClusters curr 0 s

/-- `alloc_cluster` -/
def allocCluster (offt : Nat) (s : FS) : Nat × FS :=
  let (ca, s) := allocSearch m offt s
  (ca, { s with allocs := s.allocs ++ [ca] })

/-- `alloc_cluster(fi, get_cluster_offset(fi))`, the call that every caller makes. -/
def allocNext (s : FS) : Nat × FS :=
  let (offt, s) := getClusterOffset m s
  allocCluster m offt s

/-- `dealloc_cluster` -/
def deallocCluster (ca : Nat) (s : FS) : Bool × FS :=
  match readFat m ca s with
  | (status, s) =>
    if status = FAT_CLUSTER_FREE then (true, s)
    else
      match setClusterFree m ca s with
      | (true, s) => (true, s)
      | (false, s) => (false, registerError m .writeFatError s)

/-- `dealloc_chain` -/
def deallocChain : (fuel ca : Nat) → FS → Option (Bool × FS)
  | 0, _, _ => none
  | fuel + 1, ca, s =>
    match readFat m ca s with
    | (next, s) =>
      match deallocCluster m ca s with
      | (false, s) => some (false, registerError m .clusterDeallocationError s)
      | (true, s) =>
        if next = FAT_CLUSTER_END ∨ next = FAT_CLUSTER_BAD ∨ next = FAT_CLUSTER_FREE then
          some (true, s)
        else deallocChain fuel next s

/-- `(ca - ext_root_cluster) * (unsigned short)sectors_per_cluster + first_data_sector` -/
def clusterSector (ca : Nat) : Nat :=
  u32 (sub32 ca m.fi.extRootCluster * (m.fi.sectorsPerCluster % 2 ^ 16) + m.fi.firstDataSector)

/-- `readoff_cluster` -/
def readoffCluster (ca offset size : Nat) (s : FS) : Option (List UInt8) :=
  dskReadoffSectors m s.medium (clusterSector m ca) offset size m.fi.sectorsPerCluster

/-- `read_cluster` -/
def readCluster (ca size : Nat) (s : FS) : Option (List UInt8) := readoffCluster m ca 0 size s

/-- `writeoff_cluster` -/
def writeoffCluster (ca offset : Nat) (data : List UInt8) (s : FS) : Bool × FS :=
  let (ok, d) := dskWriteoffSectors m s.medium (clusterSector m ca) offset data
    m.fi.sectorsPerCluster
  (ok, { s with medium := d })

/-- `write_cluster` -/
def writeCluster (ca : Nat) (data : List UInt8) (s : FS) : Bool × FS :=
  writeoffCluster m ca 0 data s

/-- `copy_cluster` with a buffer of `size` bytes. -/
def copyCluster (src dst size : Nat) (s : FS) : Nat × FS :=
  let (n, d) := dskCopySectors m s.medium (clusterSector m src) (clusterSector m dst)
    m.fi.sectorsPerCluster size
  (n, { s with medium := d })

end NiFat32
