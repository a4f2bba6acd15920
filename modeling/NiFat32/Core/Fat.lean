import NiFat32.Core.Errors
import NiFat32.Core.Fatmap
import NiFat32.Lib.Vote

/-!
# `Core.Fat`: the replicated file allocation table (`src/fat.c`)

Each entry is one encoded 4-byte value in every FAT copy. `readFat` takes the cached value
when there is one and votes over the copies otherwise; a vote in which more than one copy
disagreed is written back to all copies.
-/

set_option autoImplicit false

namespace NiFat32

variable (m : Mount)

/-- The sector of the entry of `ca` in copy `fat`, and the offset inside it. -/
def fatEntryPos (ca fat : Nat) : Nat × Nat :=
  let fatOffset := u32 (ca * 8)
  (u32 (m.fi.sectorsPadd + getFatSector fat m.fi.totalSectors + fatOffset / m.fi.bytesPerSector),
    fatOffset % m.fi.bytesPerSector)

/-- The value of the first four bytes of a buffer. -/
def leValue (bs : List UInt8) : Nat :=
  (u32OfBytes (bs.getD 0 0) (bs.getD 1 0) (bs.getD 2 0) (bs.getD 3 0)).toNat

/-- A zero-initialised buffer of `n` bytes after a read of `bs` into it. -/
def fillBuffer (bs : List UInt8) (n : Nat) : List UInt8 := bs ++ List.replicate (n - bs.length) 0

/-- `__read_fat__` -/
def readFatCopy (ca fat : Nat) (s : FS) : Nat × FS :=
  let (sector, offset) := fatEntryPos m ca fat
  match dskReadoffSectors m s.medium sector offset 8 1 with
  | none => (FAT_CLUSTER_BAD, registerError m .readFatError s)
  | some bs => (leValue (unpackMemory (fillBuffer bs 8) 4) % 2 ^ 28, s)

/-- `__write_fat__` -/
def writeFatCopy (ca value fat : Nat) (s : FS) : Bool × FS :=
  let (sector, offset) := fatEntryPos m ca fat
  match dskWriteoffSectors m s.medium sector offset
      (packMemory (bytesOfU32 (UInt32.ofNat value))) 1 with
  | (false, d) => (false, registerError m .writeFatError { s with medium := d })
  | (true, d) => (true, { s with medium := d })

/-- The cache and the bitmap note the value of a cluster. -/
def noteFat (ca value : Nat) (s : FS) : FS :=
  let s := { s with fat := s.fat.map fun f k => if k = ca then value else f k }
  if value = FAT_CLUSTER_FREE then fatmapSet ca s else fatmapUnset ca s

/-- `_write_fat_locked` -/
def writeFatLocked (ca value : Nat) (s : FS) : Bool × FS :=
  (List.range m.fi.fatCount).foldl (fun acc i =>
    let (ok, s) := writeFatCopy m ca value i acc.2
    (ok && acc.1, s)) (true, noteFat ca value s)

/-- `write_fat` -/
def writeFat (ca value : Nat) (s : FS) : Bool × FS :=
  if ca < m.fi.extRootCluster ∨ m.fi.totalClusters ≤ ca then
    (false, registerError m .writeFatError s)
  else writeFatLocked m ca value s

/-- The vote loop of `read_fat`. -/
def voteFat (ca : Nat) (s : FS) : Vote.Ballot Nat × FS :=
  (List.range m.fi.fatCount).foldl (fun acc i =>
    let (v, s) := readFatCopy m ca i acc.2
    (Vote.step acc.1 v, s)) (Vote.start FAT_CLUSTER_BAD, s)

/-- `_fat[ca]` when the cache holds a value for `ca`. -/
def cachedFat (ca : Nat) (s : FS) : Option Nat :=
  s.fat.bind fun f => if f ca = FAT_CLUSTER_BAD then none else some (f ca)

/-- `read_fat` -/
def readFat (ca : Nat) (s : FS) : Nat × FS :=
  if ca < m.fi.extRootCluster ∨ m.fi.totalClusters ≤ ca then
    (FAT_CLUSTER_BAD, registerError m .readFatError s)
  else
    match cachedFat ca s with
    | some v => (v, s)
    | none =>
      let (b, s) := voteFat m ca s
      let s := noteFat ca b.val s
      if 0 < b.wrong then (b.val, (writeFatLocked m ca b.val s).2) else (b.val, s)

/-- `fat_repair`: every cluster is read once. -/
def fatRepair (s : FS) : Bool × FS :=
  (true, (List.range m.fi.totalClusters).foldl (fun s ca => (readFat m ca s).2) s)

/-- `fat_cache_init` -/
def fatCacheInit (s : FS) : Bool × FS :=
  if s.fat.isSome then (true, s)
  else
    let called := { s with mallocs := s.mallocs + 1 }
    if m.malloc s.mallocs = 0 then (false, registerError m .mallocError called)
    else (true, { called with fat := some fun _ => FAT_CLUSTER_BAD })

/-- `fat_cache_hload`: every cluster is read into the cache. -/
def fatCacheHload (s : FS) : Bool × FS :=
  if s.fat.isNone then (false, s)
  else
    (true, (List.range m.fi.totalClusters).foldl (fun s ca =>
      match readFat m ca s with
      | (value, s) => if value = FAT_CLUSTER_FREE then fatmapSet ca s else fatmapUnset ca s) s)

/-- `set_cluster_free` -/
def setClusterFree (ca : Nat) (s : FS) : Bool × FS := writeFat m ca FAT_CLUSTER_FREE s

/-- `set_cluster_end` -/
def setClusterEnd (ca : Nat) (s : FS) : Bool × FS := writeFat m ca FAT_CLUSTER_END s

end NiFat32
