import NiFat32.Core.DirEntry
import NiFat32.Core.Disk

/-!
# `Core.State`: everything an operation can change

`FS` gathers the device and the static variables of the library: the FAT cache and the
free-cluster bitmap, the allocation pointer, the journal index, the error ring, the content
table and the heap that holds the index trees.

Three fields are ghosts that no operation reads: `allocs` lists the results of the
`alloc_cluster` calls, newest last, and `journalAdded` and `journalSolving` hold the length
of the write log when the last `journal_add_operation` returned and when the last
`journal_solve_operation` began.
-/

set_option autoImplicit false

namespace NiFat32

/-- `error_code_t` -/
inductive ErrorCode
  | noError | noReserveSectorsError | dskSetupError | mallocError | dskReadSectorError
  | checksumCheckError | fatcacheInitError | fatcacheHinitError | ctableInitError
  | journalRestoreError | addEntryError | setClusterEndError | ctableFullError
  | entryPathNfoundError | contentIndexError | noReadAccessError | noWriteAccessError
  | readoffClusterError | writeoffClusterError | readClusterError | writeClusterError
  | writeFatError | readFatError | sectorReadError | sectorWriteError
  | allocatedClusterBadError | clusterAllocationError | entryEditError | entrySearchError
  | entryAddError | entryRemoveError | copyClusterError | unknownDeepTypeError
  | repairContentError | errorCorrectionError | badClusterInChainError | recursiveEraseError
  | clusterDeallocationError | clusterChainDeletionError | clusterChainAppendError
  | journalWriteError | journalReadError | readlockSectorError | readlockClusterError
  | writelockSectorError | writelockClusterError | diskIoWriteError | diskIoReadError
  | badClusterError
  deriving DecidableEq, Repr

/-- The value of an error code. -/
def ErrorCode.toU32 (c : ErrorCode) : UInt32 := UInt32.ofNat c.ctorIdx

/-- `errors_t`: the positions of the error ring. -/
structure ErrorRing where
  firstError : Nat
  current : Nat
  lastError : Nat
  deriving DecidableEq, Inhabited

/-- `ecache_t`: a node of an index tree. Pointers are addresses, `0` for `NULL`; `flags`
are the three flag bits. -/
structure EcacheNode where
  p : Nat
  l : Nat
  r : Nat
  flags : BitVec 3
  hash : UInt32
  ca : Nat
  deriving DecidableEq, Inhabited

/-- `content_type_t` -/
inductive ContentType
  | unknown | file | directory | empty
  deriving DecidableEq, Repr, Inhabited

/-- `content_t`: one slot of the content table. `directoryName`, `fileName` and
`fileExtension` are the members of its name union. -/
structure Content where
  directoryName : List UInt8
  fileName : List UInt8
  fileExtension : List UInt8
  indexRoot : Nat
  parentCluster : Nat
  dataCluster : Nat
  entry : DirEntry
  contentType : ContentType
  mode : UInt8

/-- `CONTENT_TABLE_SIZE` -/
abbrev CONTENT_TABLE_SIZE : Nat := 50

/-- The device and the static variables of the library. -/
structure FS where
  medium : Medium
  fat : Option (Nat → Nat)
  bitmap : Option (Nat → Bool)
  lastAllocatedCluster : Nat
  journalIndex : Nat
  errors : ErrorRing
  contents : Nat → Content
  heap : Nat → EcacheNode
  mallocs : Nat
  allocs : List Nat
  journalAdded : Nat
  journalSolving : Nat

end NiFat32
