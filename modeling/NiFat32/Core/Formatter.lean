import NiFat32.Core.BootSector
import NiFat32.Core.FatInfo
import NiFat32.Lib.ByteStore
import NiFat32.Std.FatName
import NiFat32.Std.Hamming

/-!
# `Core.Formatter`: the program that makes a volume (`formatter/nifat32formatter.c`)

The formatter has its own copies of the placement macros, of the constants and of the encoder; the
macros that agree with the library's are the library's definitions here. The image file is a flat
byte store. `unsigned int` values are naturals below `2 ^ 32`, and `asU32` is the conversion of an
`int` to one.

`formatEmpty` is `main` without a source directory. It is `none` for a run that has no result: the
loop of `_calculate_fat_size` does not have to end, and a division by zero or an array of a
negative length has no meaning.
-/

set_option autoImplicit false

namespace NiFat32.Formatter

open ByteStore

/-- An `int` as an `unsigned int`. -/
def asU32 (x : Int) : Nat := (x % 2 ^ 32).toNat

/-- `BYTES_PER_SECTOR` -/
abbrev BYTES_PER_SECTOR : Nat := 512

/-- `RESERVED_SECTORS` -/
abbrev RESERVED_SECTORS : Nat := 32

/-- `CLUSTER_SIZE`: eight sectors, whatever `--spc` says. -/
abbrev CLUSTER_SIZE : Nat := 4096

/-- `ROOT_DIR_CLUSTER` -/
abbrev ROOT_DIR_CLUSTER : Nat := 2

/-- `FAT_ENTRY_RESERVED | (0xF8 << 24)` -/
abbrev ENTRY_RESERVED : Nat := 0xFFFFFFF8

/-- `FAT_ENTRY_END | (0xF8 << 24)` -/
abbrev ENTRY_END : Nat := 0xFFFFFFFF

/-- `GET_FATSECTOR` of the formatter: the modulus is not the library's. -/
def getFatSector (n ts : Nat) : Nat := (u32 ((n + 7) * 340573321) >>> 13) % sub32 ts 32

/-- `opt_t`, without the paths. -/
structure Opt where
  vSize : Int
  spc : Int
  fc : Int
  bsbc : Int
  bBsbc : Int
  jc : Int
  ec : Int

/-- The options of a run that gives none. -/
def Opt.default : Opt := ⟨64, 8, 4, 5, 0, 2, 1⟩

/-- What `main` computes from the options. -/
structure Sizes where
  totalSectors : Nat
  fatSize : Nat
  totalClusters : Nat
  dataStart : Nat
  deriving DecidableEq

variable (o : Opt)

/-- The sectors of the volume. -/
def totalSectors : Nat := u32 (asU32 o.vSize * 1024 * 1024) / BYTES_PER_SECTOR

/-- The clusters that are left when each FAT copy takes `fatSize` sectors. -/
def clustersFor (ts fatSize : Nat) : Nat :=
  sub32 (sub32 ts RESERVED_SECTORS) (u32 (asU32 o.fc * fatSize)) / asU32 o.spc

/-- One pass of the loop of `_calculate_fat_size`. The product is a `size_t`. -/
def fatSizePass (ts fatSize : Nat) : Nat :=
  u32 ((clustersFor o ts fatSize * 4 + BYTES_PER_SECTOR - 1) / BYTES_PER_SECTOR)

/-- `_calculate_fat_size` with a bound on the passes. -/
def calculateFatSize (ts : Nat) : (passes prev : Nat) → Option Nat
  | 0, _ => none
  | passes + 1, prev =>
    if fatSizePass o ts prev = prev then some prev
    else calculateFatSize ts passes (fatSizePass o ts prev)

/-- The sizes when the FAT size is found within the passes. -/
def sizes (passes : Nat) : Option Sizes :=
  if o.spc ≤ 0 then none
  else
    (calculateFatSize o (totalSectors o) passes 0).map fun fatSize =>
      { totalSectors := totalSectors o
        fatSize := fatSize
        totalClusters := clustersFor o (totalSectors o) fatSize
        dataStart := u32 (u32 (RESERVED_SECTORS + u32 (asU32 o.fc * fatSize)) * BYTES_PER_SECTOR) }

/-- `pwrite` -/
def pwrite (d : Nat → UInt8) (data : List UInt8) (off : Nat) : Nat → UInt8 := write d off data

/-- The file offset of a sector, an `unsigned int` product. -/
def sectorOff (sa : Nat) : Nat := u32 (sa * BYTES_PER_SECTOR)

/-- The boot sector that `_write_bs` builds. -/
def bootSector (ts fatSize : Nat) : BootSector :=
  BootSector.withChecksums {
    bootjmp := #v[0xEB, 0x58, 0x90]
    oemName := #v[78, 73, 70, 65, 84, 32, 51, 50]
    bytesPerSector := 512
    sectorsPerCluster := UInt8.ofNat (asU32 o.spc)
    reservedSectorCount := 32
    tableCount := UInt8.ofNat (asU32 o.fc)
    rootEntryCount := 0
    totalSectors16 := 0
    mediaType := 0xF8
    tableSize16 := 0
    sectorsPerTrack := 63
    headSideCount := 255
    hiddenSectorCount := 0
    totalSectors32 := UInt32.ofNat ts
    extendedSection := {
      tableSize32 := UInt32.ofNat fatSize
      extendedFlags := 0
      fatVersion := 0
      rootCluster := 2
      driveNumber := 0x80
      bootSignature := 0x29
      volumeId := 0x12345678
      volumeLabel := VOLUME_LABEL
      fatTypeLabel := FAT_TYPE_LABEL
      checksum := 0 }
    checksum := 0 }

/-- The copies of the boot sector that are written, from `b_bsbc` on. -/
def bootCopies : List Nat := (List.range (o.bsbc - o.bBsbc).toNat).map fun k => asU32 (o.bBsbc + k)

/-- `_write_bs` -/
def writeBs (ts fatSize : Nat) (d : Nat → UInt8) : Nat → UInt8 :=
  (bootCopies o).foldl (fun d i =>
    let off := sectorOff (getBootSector i ts)
    pwrite (pwrite d (List.replicate BYTES_PER_SECTOR 0) off)
      (packMemory (bootSector o ts fatSize).bytes) off) d

/-- The zeros that `_write_journals` and `_write_errors` write at each of their sectors. -/
def wipe (sectors : List Nat) (d : Nat → UInt8) : Nat → UInt8 :=
  sectors.foldl (fun d sector =>
    pwrite d (List.replicate (BYTES_PER_SECTOR * o.spc.toNat) 0) (sectorOff sector)) d

/-- The sectors of the journals. -/
def journalSectors (ts : Nat) : List Nat :=
  (List.range o.jc.toNat).map fun i => getJournalSector i ts

/-- The sectors of the error areas. -/
def errorSectors (ts : Nat) : List Nat :=
  (List.range o.ec.toNat).map fun i => getErrorsSector i ts

/-- `_write_journals` -/
def writeJournals (ts : Nat) (d : Nat → UInt8) : Nat → UInt8 := wipe o (journalSectors o ts) d

/-- `_write_errors` -/
def writeErrors (ts : Nat) (d : Nat → UInt8) : Nat → UInt8 := wipe o (errorSectors o ts) d

/-- The table with another value of one cluster. -/
def setEntry (table : Nat → Nat) (ca value : Nat) : Nat → Nat :=
  fun k => if k = ca then value else table k

/-- The cluster that `_initialize_fat` reserves for a sector. -/
def reserveSector (tc : Nat) (table : Nat → Nat) (sector : Nat) : Nat → Nat :=
  if sector / asU32 o.spc < tc then setEntry table (sector / asU32 o.spc) ENTRY_RESERVED else table

/-- The loop that reserves the clusters of a FAT copy, with a bound on its passes. -/
def reserveRun (tc : Nat) : (passes cluster left : Nat) → (Nat → Nat) → Nat → Nat
  | 0, _, _, table => table
  | passes + 1, cluster, left, table =>
    if cluster < tc ∧ 0 < left then
      reserveRun tc passes (cluster + 1) (left - o.spc.toNat * BYTES_PER_SECTOR)
        (setEntry table cluster ENTRY_RESERVED)
    else table

/-- The sector of a FAT copy. -/
def fatSector (i ts : Nat) : Nat := u32 (RESERVED_SECTORS + getFatSector i ts)

/-- `_initialize_fat` -/
def initializeFat (table : Nat → Nat) (ts tc : Nat) : Nat → Nat :=
  let table := setEntry (setEntry (setEntry table 0 ENTRY_RESERVED) 1 ENTRY_END) 2 ENTRY_END
  let table := (List.range o.bsbc.toNat).foldl
    (fun table i => reserveSector o tc table (getBootSector i ts)) table
  let table := (List.range o.fc.toNat).foldl
    (fun table i => reserveRun o tc tc (fatSector i ts / asU32 o.spc) (tc * 8) table) table
  let table := (journalSectors o ts).foldl (reserveSector o tc) table
  (errorSectors o ts).foldl (reserveSector o tc) table

/-- The first `n` bytes of the table, as the `unsigned int`s stand in memory. -/
def tableBytes (table : Nat → Nat) (entries : Nat) : List UInt8 :=
  (List.range entries).flatMap fun ca => bytesOfU32 (UInt32.ofNat (table ca))

/-- The buffer that `_write_fats` writes. The table is read in whole sectors, so that the bytes
behind its last cluster are what the heap holds there. The length is handed over as an `int`: a
negative one leaves the buffer as `memset` did. -/
def encodedFat (table : Nat → Nat) (fatSize : Nat) : List UInt8 :=
  let len := u32 (fatSize * BYTES_PER_SECTOR)
  if len < 2 ^ 31 then packMemory (tableBytes table (len / 4))
  else List.replicate (u32 (len * 2)) 0

/-- `_write_fats` -/
def writeFats (table : Nat → Nat) (fatSize ts : Nat) (d : Nat → UInt8) : Nat → UInt8 :=
  (List.range o.fc.toNat).foldl
    (fun d i => pwrite d (encodedFat table fatSize) (sectorOff (fatSector i ts))) d

/-- `_write_root_directory` -/
def writeRootDirectory (dataStart : Nat) (d : Nat → UInt8) : Nat → UInt8 :=
  pwrite d (List.replicate CLUSTER_SIZE 0) dataStart

/-- The table after `memset` and `_initialize_fat`; `heap` is what `malloc` handed out. -/
def freshTable (sz : Sizes) (heap : Nat → Nat) : Nat → Nat :=
  initializeFat o (fun ca => if ca < sz.totalClusters then FAT_CLUSTER_FREE else heap ca)
    sz.totalSectors sz.totalClusters

/-- The image in front of `_write_fats`. -/
def formatAreas (sz : Sizes) (d : Nat → UInt8) : Nat → UInt8 :=
  let d := writeBs o sz.totalSectors sz.fatSize d
  let d := writeJournals o sz.totalSectors d
  let d := writeErrors o sz.totalSectors d
  writeRootDirectory sz.dataStart d

/-- `main` without a source directory: the image, which starts as zeros. -/
def formatEmpty (passes : Nat) (heap : Nat → Nat) : Option (Nat → UInt8) :=
  (sizes o passes).map fun sz =>
    writeFats o (freshTable o sz heap) sz.fatSize sz.totalSectors (formatAreas o sz fun _ => 0)

/-! ### Names of copied files -/

/-- `strrchr`: the place of the last `c`. -/
def strrchr (c : UInt8) : List UInt8 → Option Nat
  | [] => none
  | d :: name =>
    match strrchr c name with
    | some i => some (i + 1)
    | none => if d = c then some 0 else none

/-- The base and the extension that `_to_83_name` cuts out: a dot at the start is a byte of the
base. -/
def split83 (name : List UInt8) : List UInt8 × List UInt8 :=
  match strrchr DOT name with
  | some dot =>
    if dot ≠ 0 then ((name.take dot).take 8, (name.drop (dot + 1)).take 3) else (name.take 8, [])
  | none => (name.take 8, [])

/-- `_to_83_name` -/
def to83Name (name : List UInt8) : List UInt8 :=
  (padTo 8 SPACE (split83 name).1).map toUpper ++ (padTo 3 SPACE (split83 name).2).map toUpper

end NiFat32.Formatter
