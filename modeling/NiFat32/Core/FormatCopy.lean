import NiFat32.Core.Formatter
import NiFat32.Std.Checksum

/-!
# `Core.FormatCopy`: the files that the formatter copies (`formatter/nifat32formatter.c`)

`formatWith` is `main` with a source directory: the files go into the table and the image before
`_write_fats`, and the root directory gets an entry for each of them. The source is the list of what
`readdir` delivers. A directory in it becomes an empty directory, what is neither a regular file nor
a directory is left out, and so is a file that does not open.

The directory entry of the formatter has no `rca`: it is four bytes shorter than the library's.
-/

set_option autoImplicit false

namespace NiFat32.Formatter

open ByteStore

/-- `FAT_ENTRY_END` -/
abbrev FAT_ENTRY_END : Nat := 0x0FFFFFFF

/-- The attributes of a directory, a literal of the source. -/
abbrev DIR_ATTRIBUTE : UInt8 := 0x10

/-- The attributes of a file. -/
abbrev FILE_ATTRIBUTE : UInt8 := 0x20

/-- The size of a `directory_entry_t` of the formatter. -/
abbrev FORMATTER_ENTRY_SIZE : Nat := 28

/-- `directory_entry_t` of the formatter. -/
structure FormatterEntry where
  fileName : List UInt8
  nameHash : UInt32
  attributes : UInt8
  cluster : UInt32
  fileSize : UInt32
  checksum : UInt32

/-- The entry as it stands in memory. -/
def FormatterEntry.bytes (e : FormatterEntry) : List UInt8 :=
  e.fileName ++ (bytesOfU32 e.nameHash ++ (e.attributes :: (bytesOfU32 e.cluster ++
    (bytesOfU32 e.fileSize ++ bytesOfU32 e.checksum))))

/-- The checksum is computed over the whole entry, with what stands in its own field. -/
def FormatterEntry.summed (e : FormatterEntry) : FormatterEntry :=
  { e with checksum := murmur3 e.bytes 0 }

/-- What the formatter has made so far: the image, the table, and where the search for a free
cluster goes on. -/
structure CopyState where
  image : Nat → UInt8
  table : Nat → Nat
  lastAlloc : Nat

/-- The search for a free cluster, over `left` clusters from `i` on. -/
def findFree (table : Nat → Nat) : (left i : Nat) → Option Nat
  | 0, _ => none
  | left + 1, i => if table i = FAT_CLUSTER_FREE then some i else findFree table left (i + 1)

/-- The file offset of a cluster: the product is an `int`, the sum an `unsigned int`. -/
def clusterOff (dataStart ca : Nat) : Nat := u32 (dataStart + asU32 (((ca : Int) - 2) * 4096))

/-- What `fread` delivers, one buffer after the other. -/
def freadChunks (data : List UInt8) : List (List UInt8) :=
  (List.range ((data.length + CLUSTER_SIZE - 1) / CLUSTER_SIZE)).map fun i =>
    (data.drop (i * CLUSTER_SIZE)).take CLUSTER_SIZE

/-- The loop of `_copy_file`: whether all was copied, the first cluster and the size. -/
def copyFileLoop (sz : Sizes) : List (List UInt8) → (prev : Option Nat) → (start size : Nat) →
    CopyState → Bool × Nat × Nat × CopyState
  | [], _, start, size, st => (true, start, size, st)
  | chunk :: chunks, prev, start, size, st =>
    match findFree st.table (sz.totalClusters - st.lastAlloc) st.lastAlloc with
    | none => (false, start, size, st)
    | some c =>
      let table := setEntry st.table c FAT_ENTRY_END
      let linked := match prev with
        | some p => (setEntry table p c, start)
        | none => (table, c)
      copyFileLoop sz chunks (some c) linked.2 (size + chunk.length)
        { image := pwrite st.image chunk (clusterOff sz.dataStart c)
          table := linked.1
          lastAlloc := c + 1 }

/-- `_copy_file` -/
def copyFile (sz : Sizes) (data : List UInt8) (st : CopyState) : Bool × Nat × Nat × CopyState :=
  copyFileLoop sz (freadChunks data) none 0 0 st

/-- The bytes of `"."`. -/
def dotName : List UInt8 := [DOT]

/-- The bytes of `".."`. -/
def dotDotName : List UInt8 := [DOT, DOT]

/-- The three entries of a new directory. -/
def newDirEntries (ca : Nat) : List FormatterEntry :=
  let dot := to83Name dotName
  let dotDot := to83Name dotDotName
  let last := List.replicate 11 0
  [(FormatterEntry.mk dot (murmur3 dot 0) DIR_ATTRIBUTE (UInt32.ofNat ca) 0 0).summed,
    (FormatterEntry.mk dotDot (murmur3 dotDot 0) DIR_ATTRIBUTE 0 0 0).summed,
    (FormatterEntry.mk last (murmur3 last 0) DIR_ATTRIBUTE 0 0 0).summed]

/-- `_create_directory`: the cluster of the new directory, or none when no cluster is free. -/
def createDirectory (sz : Sizes) (st : CopyState) : Option Nat × CopyState :=
  match findFree st.table (sz.totalClusters - st.lastAlloc) st.lastAlloc with
  | none => (none, st)
  | some c =>
    (some c, {
      image := pwrite st.image (packMemory ((newDirEntries c).flatMap FormatterEntry.bytes))
        (clusterOff sz.dataStart c)
      table := setEntry st.table c FAT_ENTRY_END
      lastAlloc := c + 1 })

/-- What `readdir` and `stat` say of a name. -/
inductive SourceNode where
  | directory
  | file (data : List UInt8)
  | other

/-- The bytes of `root_dir` from the field at `off` of entry `i` on. -/
def rootField (root : List UInt8) (i off : Nat) : List UInt8 :=
  root.drop (i * FORMATTER_ENTRY_SIZE + off)

/-- The checksum that stands in entry `i`. -/
def staleChecksum (root : List UInt8) (i : Nat) : UInt32 :=
  let bs := rootField root i 24
  u32OfBytes (bs.getD 0 0) (bs.getD 1 0) (bs.getD 2 0) (bs.getD 3 0)

/-- Entry `i` is stored into the buffer, which has room for it. -/
def putRoot (root : List UInt8) (i : Nat) (e : FormatterEntry) : Option (List UInt8) :=
  if (i + 1) * FORMATTER_ENTRY_SIZE ≤ CLUSTER_SIZE then
    some (splice root (i * FORMATTER_ENTRY_SIZE) e.bytes)
  else none

/-- The entry of a directory. Its checksum runs over what stood in the field before. -/
def directoryEntry (root : List UInt8) (i : Nat) (name : List UInt8) (ca : Nat) : FormatterEntry :=
  (FormatterEntry.mk (to83Name name) (murmur3 (to83Name name) 0) DIR_ATTRIBUTE (UInt32.ofNat ca) 0
    (staleChecksum root i)).summed

/-- The entry of a file. Its hash runs up to the first zero behind the name. -/
def fileEntry (root : List UInt8) (i : Nat) (name : List UInt8) (ca size : Nat) : FormatterEntry :=
  (FormatterEntry.mk (to83Name name)
    (murmur3 ((to83Name name ++ rootField root i 11).takeWhile (· ≠ 0)) 0) FILE_ATTRIBUTE
    (UInt32.ofNat ca) (UInt32.ofNat size) 0).summed

/-- The entry that ends the root directory. The rest of its name is what stood there before. -/
def lastEntry (root : List UInt8) (i : Nat) : FormatterEntry :=
  let name := 0 :: (rootField root i 1).take 10
  (FormatterEntry.mk name (murmur3 name 0) 0 0 0 0).summed

/-- The loop of `_copy_files_to_fs` over the names: the number of entries, the buffer of the root
directory and the state. It is `none` when an entry falls behind the buffer. -/
def copyFilesLoop (sz : Sizes) : List (List UInt8 × SourceNode) → (count : Nat) →
    (root : List UInt8) → CopyState → Option (Nat × List UInt8 × CopyState)
  | [], count, root, st => some (count, root, st)
  | (name, node) :: source, count, root, st =>
    if name = dotName ∨ name = dotDotName then copyFilesLoop sz source count root st
    else
      match node with
      | .other => copyFilesLoop sz source count root st
      | .directory =>
        match createDirectory sz st with
        | (none, st) => copyFilesLoop sz source count root st
        | (some ca, st) =>
          match putRoot root count (directoryEntry root count name ca) with
          | none => none
          | some root => copyFilesLoop sz source (count + 1) root st
      | .file data =>
        match copyFile sz data st with
        | (false, _, _, st) => copyFilesLoop sz source count root st
        | (true, ca, size, st) =>
          match putRoot root count (fileEntry root count name ca size) with
          | none => none
          | some root => copyFilesLoop sz source (count + 1) root st

/-- `_copy_files_to_fs`. The root directory is encoded, and the first half of that is written. -/
def copyFilesToFs (sz : Sizes) (source : List (List UInt8 × SourceNode)) (st : CopyState) :
    Option CopyState :=
  match copyFilesLoop sz source 0 (read st.image sz.dataStart CLUSTER_SIZE) st with
  | none => none
  | some (count, root, st) =>
    (putRoot root count (lastEntry root count)).map fun root =>
      { st with image := pwrite st.image ((packMemory root).take CLUSTER_SIZE) sz.dataStart }

/-- `main` with a source directory. -/
def formatWith (o : Opt) (passes : Nat) (heap : Nat → Nat)
    (source : List (List UInt8 × SourceNode)) : Option (Nat → UInt8) :=
  (sizes o passes).bind fun sz =>
    (copyFilesToFs sz source ⟨formatAreas o sz fun _ => 0, freshTable o sz heap, 3⟩).map fun st =>
      writeFats o st.table sz.fatSize sz.totalSectors st.image

end NiFat32.Formatter
