import NiFat32.Core.Addresses

/-!
# `Core.FatInfo`: the mounted geometry and the platform callbacks

`FatData` is `fat_data_t`. A `Mount` is the part of a mounted volume that no operation
changes: the geometry, the sector size given to `DSK_setup`, and the platform callbacks.
The sector callbacks serve a flat byte store, and `readOk` and `writeOk` say which requests
they serve: the first argument counts the write requests made so far, the others are the
sector, the offset and the length of the request. `malloc` gives the address that the
`n`-th call of `nft32_malloc_s` returns, `0` for `NULL`. `junk` is what an uninitialised
local variable holds before its first assignment: the variable, then the pass of the loop
that declares it.
-/

set_option autoImplicit false

namespace NiFat32

/-- `FAT_CLUSTER_FREE` -/
abbrev FAT_CLUSTER_FREE : Nat := 0x00000000

/-- `FAT_CLUSTER_BAD` -/
abbrev FAT_CLUSTER_BAD : Nat := 0x0FFFFFF7

/-- `FAT_CLUSTER_RESERVED` -/
abbrev FAT_CLUSTER_RESERVED : Nat := 0x0FFFFFF8

/-- `FAT_CLUSTER_END` -/
abbrev FAT_CLUSTER_END : Nat := 0x0FFFFFFF

/-- `fat_data_t` -/
structure FatData where
  bsCount : Nat
  fatSize : Nat
  fatCount : Nat
  firstDataSector : Nat
  totalSectors : Nat
  totalClusters : Nat
  bytesPerSector : Nat
  clusterSize : Nat
  sectorsPerCluster : Nat
  extRootCluster : Nat
  sectorsPadd : Nat
  journalsCount : Nat
  errorsCount : Nat
  entryOffset : Int
  deriving DecidableEq, Inhabited

/-- What stays fixed while a volume is mounted. -/
structure Mount where
  fi : FatData
  sectorSize : Nat
  readOk : (writes sa offset len : Nat) → Bool
  writeOk : (writes sa offset len : Nat) → Bool
  malloc : Nat → Nat
  junk : (var pass : Nat) → List UInt8

/-- Every sector request is served. -/
structure Mount.Works (m : Mount) : Prop where
  read : ∀ w sa o n, m.readOk w sa o n = true
  write : ∀ w sa o n, m.writeOk w sa o n = true

end NiFat32
