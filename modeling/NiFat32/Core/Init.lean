import NiFat32.Core.BootSector
import NiFat32.Core.NiFat32

/-!
# `Core.Init`: mounting a volume and repairing its boot sectors (`nifat32.c`)

`NIFAT32_init` looks for the first copy of the boot sector whose checksums verify, from the copy
`bs_num` on, and takes the geometry from it. Every call is about the static `_fs_data`, which is
the field `fi` of the mount here; the platform callbacks and the sector size are the ones that the
parameters hand over.
-/

set_option autoImplicit false

namespace NiFat32

/-- `NO_CACHE` -/
abbrev NO_CACHE : UInt8 := 0b000

/-- `CACHE` -/
abbrev CACHE : UInt8 := 0b001

/-- `HARD_CACHE` -/
abbrev HARD_CACHE : UInt8 := 0b010

/-- `MAP_CACHE` -/
abbrev MAP_CACHE : UInt8 := 0b100

/-- `nifat32_params_t`, without the callbacks. The counts have the widths of their fields. -/
structure Params where
  fatCache : UInt8
  bsNum : UInt8
  bsCount : UInt8
  ts : UInt32
  jc : UInt8
  ec : UInt8

/-- The mount with other contents of `_fs_data`. -/
def Mount.withInfo (m : Mount) (fi : FatData) : Mount := { m with fi := fi }

/-- The geometry that a mount computes from a boot sector; the divisor is not zero. -/
def geometryOf (fi : FatData) (p : Params) (b : BootSector) : FatData :=
  let bps := b.bytesPerSector.toNat
  let spc := b.sectorsPerCluster.toNat
  let tables := b.tableCount.toNat * b.extendedSection.tableSize32.toNat
  let rootDirSectors := (b.rootEntryCount.toNat * 32 + (bps - 1)) / bps
  let dataSectors : Int :=
    ((b.totalSectors32.toNat : Int) - (b.reservedSectorCount.toNat + tables + rootDirSectors)).bmod
      (2 ^ 32)
  let divisor := if spc = 0 then 1 else spc
  { fi with
    journalsCount := p.jc.toNat
    fatCount := b.tableCount.toNat
    totalSectors := b.totalSectors32.toNat
    fatSize := b.extendedSection.tableSize32.toNat
    totalClusters :=
      if dataSectors = 0 then b.totalSectors32.toNat / divisor
      else (dataSectors.tdiv divisor % 2 ^ 32).toNat
    firstDataSector := u32 (b.reservedSectorCount.toNat + tables)
    sectorsPerCluster := spc
    bytesPerSector := bps
    sectorsPadd := b.reservedSectorCount.toNat
    extRootCluster := b.extendedSection.rootCluster.toNat
    clusterSize := u32 (bps * spc) }

variable (m : Mount)

/-- The boot sector in the bytes of a sector. -/
def decodeBoot (sector : List UInt8) : BootSector := .ofBytes (unpackMemory sector BOOT_SIZE)

/-- The loop of `NIFAT32_init` that writes the sector it mounted over the copies `i` from the
list, but its own. -/
def rewriteBoots (ts : Nat) (bsNum : Nat) (sector : List UInt8) (is : List Nat) (s : FS) : FS :=
  is.foldl (fun s i =>
    if i = bsNum then s
    else { s with medium := (dskWriteSector m s.medium (getBootSector i ts) sector).2 }) s

/-- The caches that the parameters ask for. -/
def initCaches (flags : UInt8) (s : FS) : FS :=
  if flags &&& CACHE ≠ 0 then
    let s := (fatCacheInit m s).2
    let s := if flags &&& MAP_CACHE ≠ 0 then (fatmapInit m s).2 else s
    if flags &&& HARD_CACHE ≠ 0 then (fatCacheHload m s).2 else s
  else s

/-- `_fs_data` when the boot sector is read. -/
def startInfo (fi : FatData) (p : Params) : FatData :=
  { fi with errorsCount := p.ec.toNat, bsCount := p.bsCount.toNat }

/-- `NIFAT32_init` behind the checksums of the copy `bsNum`. -/
def mountFrom (fuel : Nat) (p : Params) (bsNum : Nat) (sector : List UInt8) (s : FS) :
    Option (Bool × Mount × FS) :=
  let b := decodeBoot sector
  if b.bytesPerSector = 0 then none
  else
    let m := m.withInfo (geometryOf m.fi p b)
    let s :=
      if 0 < bsNum then rewriteBoots m p.ts.toNat bsNum sector (List.range p.bsCount.toNat) s
      else s
    let s := ctableInit (initCaches m p.fatCache s)
    if p.jc = 0 then some (true, m, s)
    else (restoreFromJournal m fuel s).map fun (_, s) => (true, m, s)

/-- `NIFAT32_init` from the copy `bs_count - left` on: its result, `_fs_data` and the state. It is
`none` for a division by zero and for a journal that is replayed without end. -/
def initFrom (fuel : Nat) (p : Params) : (left : Nat) → Mount → FS → Option (Bool × Mount × FS)
  | 0, m, s => some (false, m, s)
  | left + 1, m, s =>
    let bsNum := p.bsCount.toNat - (left + 1)
    if m.sectorSize = 0 then some (false, m, s)
    else
      match
        if p.ec = 0 then (true, s)
        else errorsSetup (m.withInfo { m.fi with errorsCount := p.ec.toNat }) s
      with
      | (false, s) => some (false, m.withInfo { m.fi with errorsCount := p.ec.toNat }, s)
      | (true, s) =>
        let m := m.withInfo (startInfo m.fi p)
        match dskReadSector m s.medium (getBootSector bsNum p.ts.toNat) m.sectorSize with
        | none => some (false, m, registerError m .sectorReadError s)
        | some sector =>
          if (decodeBoot sector).Valid then mountFrom m fuel p bsNum sector s
          else initFrom fuel p left m (registerError m .checksumCheckError s)

/-- `NIFAT32_init` -/
def nifat32Init (fuel : Nat) (p : Params) (s : FS) : Option (Bool × Mount × FS) :=
  initFrom fuel p (p.bsCount.toNat - p.bsNum.toNat) m s

/-- The boot sector that `NIFAT32_repair_bootsectors` builds from `_fs_data`, before its
checksums. -/
def rebuiltBoot (fi : FatData) : BootSector where
  bootjmp := #v[0xEB, 0x5B, 0x9]
  oemName := #v[114, 101, 99, 111, 118, 101, 114, 32]
  bytesPerSector := UInt16.ofNat fi.bytesPerSector
  sectorsPerCluster := UInt8.ofNat fi.sectorsPerCluster
  reservedSectorCount := UInt16.ofNat fi.sectorsPadd
  tableCount := UInt8.ofNat fi.fatCount
  rootEntryCount := 0
  totalSectors16 := 0
  mediaType := 0xF8
  tableSize16 := 0
  sectorsPerTrack := 63
  headSideCount := 255
  hiddenSectorCount := 0
  totalSectors32 := UInt32.ofNat fi.totalSectors
  extendedSection := {
    tableSize32 := UInt32.ofNat fi.fatSize
    extendedFlags := 0
    fatVersion := 0
    rootCluster := UInt32.ofNat fi.extRootCluster
    driveNumber := 0x8
    bootSignature := 0x5A
    volumeId := 0x1234
    volumeLabel := VOLUME_LABEL
    fatTypeLabel := FAT_TYPE_LABEL
    checksum := 0 }
  checksum := 0

/-- `sizeof(encoded_bs)`: the buffer is declared with one pointer for each byte of the
structure. -/
def encodedBootLen (pointerSize : Nat) : Nat := BOOT_SIZE * pointerSize

/-- The buffer that `NIFAT32_repair_bootsectors` writes: the encoded structure, and what the stack
held behind it. -/
def rebuiltSector (pointerSize : Nat) : List UInt8 :=
  let enc := packMemory (rebuiltBoot m.fi).withChecksums.bytes
  (enc ++ m.junk 3 0 ++ List.replicate (encodedBootLen pointerSize) 0).take
    (encodedBootLen pointerSize)

/-- `NIFAT32_repair_bootsectors` -/
def repairBootsectors (pointerSize : Nat) (s : FS) : Bool × FS :=
  (true, (List.range m.fi.bsCount).foldl (fun s i =>
    { s with medium := (dskWriteSector m s.medium (getBootSector i m.fi.totalSectors)
        (rebuiltSector m pointerSize)).2 }) s)

end NiFat32
