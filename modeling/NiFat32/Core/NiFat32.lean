import NiFat32.Core.Ctable

/-!
# `Core.NiFat32`: the operations of the library (`nifat32.c`)

Each operation takes the state and returns its result with the new state, or `none` when it
does not complete: it passes a `NULL` name on, or a loop over cluster links uses up `fuel`.
Every operation runs under the API lock, which one thread always gets.
-/

set_option autoImplicit false

namespace NiFat32

/-- `R_MODE` -/
abbrev R_MODE : UInt8 := 0b0001

/-- `W_MODE` -/
abbrev W_MODE : UInt8 := 0b0010

/-- `CR_MODE` -/
abbrev CR_MODE : UInt8 := 0b0100

/-- `FILE_TARGET` -/
abbrev FILE_TARGET : UInt8 := 0b0001

/-- `GET_MODE` -/
def getMode (mode : UInt8) : UInt8 := mode &&& 0b1111

/-- `GET_MODE_TARGET` -/
def getModeTarget (mode : UInt8) : UInt8 := (mode >>> 4) &&& 0b1111

/-- `IS_READ_MODE` -/
def isReadMode (mode : UInt8) : Bool := getMode mode &&& R_MODE ≠ 0

/-- `IS_WRITE_MODE` -/
def isWriteMode (mode : UInt8) : Bool := getMode mode &&& W_MODE ≠ 0

/-- `IS_CREATE_MODE` -/
def isCreateMode (mode : UInt8) : Bool := getMode mode &&& CR_MODE ≠ 0

/-- `NO_RCI` -/
abbrev NO_RCI : Int := -1

/-- `NO_RESERVE` -/
abbrev NO_RESERVE : Int := 1

variable (m : Mount)

/-- `NIFAT32_repair_fat` -/
def repairFat (s : FS) : Bool × FS := fatRepair m s

/-! ### Opening by path -/

/-- The components of a path, cut at every `PATH_SPLITTER`. -/
def splitPath (path : List UInt8) : List (List UInt8) :=
  path.foldr (fun c acc =>
    if c = PATH_SPLITTER then [] :: acc
    else
      match acc with
      | [] => [[c]]
      | comp :: comps => (c :: comp) :: comps) [[]]

/-- The creation branch of `_get_cluster_by_path`. A failed `entry_add` gives the new cluster
back but does not end the walk. -/
def createOnPath (fuel : Nat) (fatname : Name) (isDir : Bool) (active cache : Nat) (s : FS) :
    Option (Option DirEntry × FS) :=
  match allocNext m s with
  | (nca, s) =>
    match setClusterEnd m nca s with
    | (false, s) => some (none, registerError m .setClusterEndError s)
    | (true, s) =>
      match entryAdd m fuel active cache (createEntry fatname isDir nca m.fi.clusterSize) s with
      | none => none
      | some (result, e, s) =>
        if result < 0 then
          match deallocCluster m e.dca.toNat s with
          | (_, s) => some (some e, registerError m .addEntryError s)
        else some (some e, s)

/-- One component of a path: the entry it names, or `none` for an invalid path. -/
def pathStep (fuel : Nat) (mode : UInt8) (component : List UInt8) (more : Bool) (currCi : Int)
    (active : Nat) (s : FS) : Option (Option DirEntry × FS) :=
  if 32 ≤ component.length then some (none, s)
  else
    let fatname := nameToFatname component
    let cache := getContentEcache currCi s
    match entrySearch m fuel fatname active cache s with
    | none => none
    | some (some e, s) => some (some e, s)
    | some (none, s) =>
      if isCreateMode mode then
        createOnPath m fuel fatname (more ∨ getModeTarget mode ≠ FILE_TARGET) active cache s
      else some (none, s)

/-- The loop of `_get_cluster_by_path` over the components. -/
def pathLoop (fuel : Nat) (mode : UInt8) :
    List (List UInt8) → (currCi : Int) → (active : Nat) → FS → Option (Option DirEntry × FS)
  | [], _, _, s => some (none, s)
  | comp :: comps, currCi, active, s =>
    match pathStep m fuel mode comp (comps ≠ []) currCi active s with
    | none => none
    | some (none, s) => some (none, s)
    | some (some e, s) =>
      if comps = [] then some (some e, s) else pathLoop fuel mode comps NO_RCI e.dca.toNat s

/-- `_get_cluster_by_path`: the entry it stores, whose `dca` is the cluster it returns, or
`none` for an invalid path. -/
def getClusterByPath (fuel : Nat) (path : List UInt8) (mode : UInt8) (rci : Int) (s : FS) :
    Option (Option DirEntry × FS) :=
  let active := if rci = NO_RCI then m.fi.extRootCluster else getContentDataCa rci s
  pathLoop m fuel mode (splitPath (path.takeWhile (· ≠ 0))) rci active s

/-- `NIFAT32_content_exists` -/
def contentExists (fuel : Nat) (path : List UInt8) (s : FS) : Option (Bool × FS) :=
  (getClusterByPath m fuel path (R_MODE ||| W_MODE) NO_RCI s).map fun (e, s) =>
    (e.any fun e => e.dca.toNat ≠ FAT_CLUSTER_BAD, s)

/-- The bytes of `"NIFAT32_DIR"`. -/
def rootName : List UInt8 := [78, 73, 70, 65, 84, 51, 50, 95, 68, 73, 82]

/-- The entry under which the root directory is opened. -/
def rootEntry : DirEntry where
  fileName := Vector.replicate 11 0
  nameHash := 0
  attributes := 0
  rca := UInt32.ofNat FAT_CLUSTER_BAD
  dca := UInt32.ofNat m.fi.extRootCluster
  fileSize := 0
  checksum := 0

/-- `NIFAT32_open_content`; the path is `none` for `NULL`. -/
def openContent (fuel : Nat) (rci : Int) (path : Option (List UInt8)) (mode : UInt8) (s : FS) :
    Option (Int × FS) :=
  match allocCi s with
  | (ci, s) =>
    if ci < 0 then some (-1, registerError m .ctableFullError s)
    else
      match path with
      | none => some (ci, setupContent ci true rootName (rootEntry m) mode s)
      | some path =>
        match getClusterByPath m fuel path mode rci s with
        | none => none
        | some (found, s) =>
          match found.filter fun e => e.dca.toNat ≠ FAT_CLUSTER_BAD with
          | some e => some (ci, setupContent ci e.isDir e.fileName.toList e mode s)
          | none =>
            (destroyContent fuel ci (registerError m .entryPathNfoundError s)).map
              fun (_, s) => (-2, s)

/-- `NIFAT32_index_content` -/
def nifat32IndexContent (fuel : Nat) (ci : Int) (s : FS) : Option (Bool × FS) :=
  if getContentType ci s ≠ .directory then
    some (false, registerError m .contentIndexError s)
  else indexContent m fuel ci s

/-- `NIFAT32_close_content` -/
def closeContent (fuel : Nat) (ci : Int) (s : FS) : Option (Bool × FS) := destroyContent fuel ci s

/-! ### Reading and writing -/

/-- The loop of `NIFAT32_read_content2buffer`: the number of bytes read, and the bytes. -/
def readLoop : (fuel ca offset size total : Nat) → (buffer : List UInt8) → FS →
    Option (Nat × List UInt8 × FS)
  | 0, _, _, _, _, _, _ => none
  | fuel + 1, ca, offset, size, total, buffer, s =>
    let readeble := min size (m.fi.clusterSize - offset)
    match
      if m.fi.clusterSize < offset then
        some (offset - m.fi.clusterSize, size, total, buffer)
      else
        (readoffCluster m ca offset readeble s).map fun bs =>
          (0, size - readeble, total + readeble, buffer ++ bs)
    with
    | none => some (0, buffer, registerError m .readoffClusterError s)
    | some (offset, size, total, buffer) =>
      match readFat m ca s with
      | (next, s) =>
        if next ≠ FAT_CLUSTER_END ∧ next ≠ FAT_CLUSTER_BAD ∧ 0 < size then
          readLoop fuel next offset size total buffer s
        else some (total, buffer, s)

/-- `NIFAT32_read_content2buffer` with a size that is not negative. -/
def readContent2buffer (fuel : Nat) (ci : Int) (offset size : Nat) (s : FS) :
    Option (Nat × List UInt8 × FS) :=
  if isReadMode (getContentMode ci s) then
    readLoop m fuel (getContentDataCa ci s) offset size 0 [] s
  else some (0, [], registerError m .noReadAccessError s)

/-- `_add_cluster_to_chain` -/
def addClusterToChain (hca : Nat) (s : FS) : Nat × FS :=
  match allocNext m s with
  | (nca, s) =>
    if nca = FAT_CLUSTER_BAD then (FAT_CLUSTER_BAD, registerError m .allocatedClusterBadError s)
    else
      match setClusterEnd m nca s with
      | (false, s) =>
        (FAT_CLUSTER_BAD, (deallocCluster m nca (registerError m .setClusterEndError s)).2)
      | (true, s) =>
        match writeFat m hca nca s with
        | (false, s) =>
          (FAT_CLUSTER_BAD, (deallocCluster m nca (registerError m .writeFatError s)).2)
        | (true, s) => (nca, s)

/-- The search of `_add_cluster_to_content` for the last cluster: the iterations left, `none`
when they ran out inside the chain, and the last cluster. -/
def lastClusterLoop : (iterations cluster lca : Nat) → FS → Option (Nat × Nat) × FS
  | iterations, cluster, lca, s =>
    if cluster = FAT_CLUSTER_END ∨ cluster = FAT_CLUSTER_BAD then (some (iterations, lca), s)
    else
      match iterations with
      | 0 => (none, s)
      | iterations + 1 =>
        match readFat m cluster s with
        | (next, s) => lastClusterLoop iterations next cluster s

/-- `_add_cluster_to_content` -/
def addClusterToContent (ci : Int) (lca : Nat) (s : FS) : Nat × FS :=
  if lca = FAT_CLUSTER_BAD then
    match lastClusterLoop m m.fi.totalClusters (getContentDataCa ci s) lca s with
    | (some (_ + 1, lca), s) => addClusterToChain m lca s
    | (_, s) => (FAT_CLUSTER_BAD, registerError m .clusterAllocationError s)
  else addClusterToChain m lca s

/-- The first loop of `NIFAT32_write_buffer2content`, over the clusters the content has: the
bytes written, the last cluster, the offset and the data left; `none` inside when a cluster
was not writable. -/
def writeLoop : (fuel ca offset : Nat) → (data : List UInt8) → (total : Nat) → FS →
    Option (Option (Nat × Nat × Nat × List UInt8) × FS)
  | 0, _, _, _, _, _ => none
  | fuel + 1, ca, offset, data, total, s =>
    let writable := min data.length (m.fi.clusterSize - offset)
    match
      if m.fi.clusterSize < offset then
        (true, s, offset - m.fi.clusterSize, data, total)
      else
        let (ok, s) := writeoffCluster m ca offset (data.take writable) s
        (ok, s, 0, data.drop writable, total + writable)
    with
    | (false, s, _) => some (none, registerError m .readoffClusterError s)
    | (true, s, offset, data, total) =>
      match readFat m ca s with
      | (next, s) =>
        if next ≠ FAT_CLUSTER_END ∧ next ≠ FAT_CLUSTER_BAD ∧ 0 < data.length then
          writeLoop fuel next offset data total s
        else some (some (total, ca, offset, data), s)

/-- The second loop, over the clusters it appends. -/
def appendLoop (ci : Int) : (fuel ca offset : Nat) → (data : List UInt8) → (total : Nat) → FS →
    Option (Nat × FS)
  | 0, _, _, _, _, _ => none
  | fuel + 1, ca, offset, data, total, s =>
    if data.length = 0 then some (total, s)
    else
      match addClusterToContent m ci ca s with
      | (nca, s) =>
        if nca = FAT_CLUSTER_BAD then some (total, s)
        else if m.fi.clusterSize < offset then
          appendLoop ci fuel nca (offset - m.fi.clusterSize) data total s
        else
          let writable := min data.length (m.fi.clusterSize - offset)
          let (_, s) := writeoffCluster m nca offset (data.take writable) s
          appendLoop ci fuel nca 0 (data.drop writable) (total + writable) s

/-- `NIFAT32_write_buffer2content` with a size that is not negative. -/
def writeBuffer2content (fuel : Nat) (ci : Int) (offset : Nat) (data : List UInt8) (s : FS) :
    Option (Nat × FS) :=
  if isWriteMode (getContentMode ci s) then
    match writeLoop m fuel (getContentDataCa ci s) offset data 0 s with
    | none => none
    | some (none, s) => some (0, s)
    | some (some (total, lca, offset, data), s) => appendLoop m ci fuel lca offset data total s
  else some (0, registerError m .noWriteAccessError s)

/-! ### Changing entries -/

/-- `NIFAT32_change_meta`: the hash of the name is taken before the walk, so `NULL` is a crash. -/
def changeMeta (fuel : Nat) (ci : Int) (info : CInfo) (s : FS) : Option (Bool × FS) :=
  let e := createEntry info.fullName (info.type = STAT_DIR) (getContentDataCa ci s) info.size.toNat
  match getContentName ci s with
  | none => none
  | some name =>
    (entryEdit m fuel (getContentRootCa ci s) (getContentEcache ci s) name e s).map fun
      | (true, s) => (true, s)
      | (false, s) => (false, registerError m .entryEditError s)

/-- `size -= cluster_size` for an `int` and an `unsigned int`. -/
def subSize (size : Int) (clusterSize : Nat) : Int := (size - clusterSize).bmod (2 ^ 32)

/-- The loop of `NIFAT32_truncate_content`: the first cluster kept. -/
def truncateLoop : (fuel ca offset : Nat) → (size : Int) → (startCa endCa : Nat) → FS →
    Option (Nat × FS)
  | 0, _, _, _, _, _, _ => none
  | fuel + 1, ca, offset, size, startCa, endCa, s =>
    match
      if endCa ≠ FAT_CLUSTER_BAD then (offset, size, startCa, endCa, (deallocCluster m ca s).2)
      else if m.fi.clusterSize < offset then
        (offset - m.fi.clusterSize, size, startCa, endCa, (deallocCluster m ca s).2)
      else
        let startCa := if startCa = FAT_CLUSTER_BAD then ca else startCa
        let size := subSize size m.fi.clusterSize
        if size < 0 then
          match setClusterEnd m ca s with
          | (true, s) => (offset, size, startCa, ca, s)
          | (false, s) => (offset, size, startCa, endCa, s)
        else (offset, size, startCa, endCa, s)
    with
    | (offset, size, startCa, endCa, s) =>
      match readFat m ca s with
      | (next, s) =>
        if next ≠ FAT_CLUSTER_END ∧ next ≠ FAT_CLUSTER_BAD then
          truncateLoop fuel next offset size startCa endCa s
        else some (startCa, s)

/-- `NIFAT32_truncate_content` -/
def truncateContent (fuel : Nat) (ci : Int) (offset : Nat) (size : Int) (s : FS) :
    Option (Bool × FS) :=
  if isWriteMode (getContentMode ci s) then
    match truncateLoop m fuel (getContentDataCa ci s) offset size FAT_CLUSTER_BAD
      FAT_CLUSTER_BAD s with
    | none => none
    | some (startCa, s) =>
      match getContentName ci s with
      | none => none
      | some name =>
        let e := createEntry name false startCa (size % 2 ^ 32).toNat
        (entryEdit m fuel (getContentRootCa ci s) NO_ECACHE name e s).map fun (_, s) => (true, s)
  else some (false, registerError m .noWriteAccessError s)

/-- The loop of `NIFAT32_put_content` that appends `n` clusters. -/
def reserveLoop : (n lca : Nat) → FS → FS
  | 0, _, s => s
  | n + 1, lca, s =>
    match addClusterToChain m lca s with
    | (nca, s) => reserveLoop n nca s

/-- `NIFAT32_put_content` -/
def putContent (fuel : Nat) (ci : Int) (info : CInfo) (reserve : Int) (s : FS) :
    Option (Bool × FS) :=
  let target := getContentDataCa ci s
  let cache := getContentEcache ci s
  match entrySearch m fuel info.fullName target cache s with
  | none => none
  | some (some _, s) => some (false, registerError m .entrySearchError s)
  | some (none, s) =>
    match allocNext m s with
    | (nca, s) =>
      match setClusterEnd m nca s with
      | (false, s) => some (false, registerError m .setClusterEndError s)
      | (true, s) =>
        let e := createEntry info.fullName (info.type = STAT_DIR) nca
          (reserve * m.fi.clusterSize % 2 ^ 32).toNat
        match entryAdd m fuel target cache e s with
        | none => none
        | some (result, e, s) =>
          if result < 0 then
            some (false, (deallocCluster m e.dca.toNat (registerError m .entryAddError s)).2)
          else some (true, reserveLoop m (reserve - NO_RESERVE).toNat e.dca.toNat s)

/-! ### Copying and deleting -/

/-- The loop that copies the chain of `src` over `dst` cluster by cluster; the chain of `dst`
grows by a new cluster at each step. Whether every copy succeeded. -/
def copyChain : (fuel src dst : Nat) → FS → Option (Bool × FS)
  | 0, _, _, _ => none
  | fuel + 1, src, dst, s =>
    match copyCluster m src dst m.fi.bytesPerSector s with
    | (copied, s) =>
      if copied = 0 then some (false, registerError m .copyClusterError s)
      else
        match readFat m src s with
        | (next, s) =>
          match if next ≠ FAT_CLUSTER_END then addClusterToChain m dst s else (dst, s) with
          | (dst, s) =>
            if next ≠ FAT_CLUSTER_END ∧ next ≠ FAT_CLUSTER_BAD ∧ dst ≠ FAT_CLUSTER_BAD then
              copyChain fuel next dst s
            else some (true, s)

/-- The abort of a copy: the chain of the destination is given back. -/
def abortCopy (fuel hca : Nat) (s : FS) : Option FS :=
  (deallocChain m fuel hca s).map fun
    | (true, s) => s
    | (false, s) => registerError m .clusterChainDeletionError s

/-- `_deepcopy_handler`. It copies the data of the entry to a new chain; an entry that is free
or does not validate is not told apart. -/
def deepcopyHandler : (fuel : Nat) → Handler Unit
  | 0 => fun _ _ _ _ => none
  | fuel + 1 => fun _ e _ s =>
    match allocNext m s with
    | (hca, s) =>
      match setClusterEnd m hca s with
      | (ok, s) =>
        match if ok then copyChain m fuel e.dca.toNat hca s else some (true, s) with
        | none => none
        | some (false, s) => (abortCopy m fuel hca s).map fun s => (false, e, (), s)
        | some (true, s) =>
          let e := { e with dca := UInt32.ofNat hca, checksum := 0 }
          let e := { e with checksum := murmur3 e.bytes 0 }
          if e.isDir then
            (entryIterate m (deepcopyHandler fuel) fuel hca () s).map fun (_, _, s) =>
              (false, e, (), s)
          else some (false, e, (), s)

/-- `NIFAT32_copy_content` with `DEEP_COPY`. -/
def deepCopyContent (fuel : Nat) (src dst : Int) (s : FS) : Option (Bool × FS) :=
  let hca := getContentDataCa dst s
  match copyChain m fuel (getContentDataCa src s) hca s with
  | none => none
  | some (false, s) => (abortCopy m fuel hca s).map fun s => (false, s)
  | some (true, s) =>
    if getContentType src s = .directory then
      (entryIterate m (deepcopyHandler m fuel) fuel hca () s).map fun (_, _, s) => (true, s)
    else some (true, s)

/-- `entry_search` for the name of a content, `none` for `NULL`. -/
def searchContent (fuel : Nat) (ci : Int) (s : FS) : Option (Option DirEntry × FS) :=
  match getContentName ci s with
  | none => some (none, s)
  | some name => entrySearch m fuel name (getContentRootCa ci s) NO_ECACHE s

/-- `NIFAT32_copy_content` with `SHALLOW_COPY`. -/
def shallowCopyContent (fuel : Nat) (src dst : Int) (s : FS) : Option (Bool × FS) :=
  match searchContent m fuel src s with
  | none => none
  | some (none, s) => some (false, registerError m .entrySearchError s)
  | some (some source, s) =>
    match searchContent m fuel dst s with
    | none => none
    | some (none, s) => some (false, registerError m .entrySearchError s)
    | some (some destination, s) =>
      match deallocChain m fuel destination.dca.toNat s with
      | none => none
      | some (false, s) => some (false, registerError m .clusterChainDeletionError s)
      | some (true, s) =>
        let rca := getContentRootCa dst s
        let source := { source with rca := UInt32.ofNat rca, checksum := 0 }
        let source := { source with checksum := murmur3 source.bytes 0 }
        match getContentName dst s with
        | none => none
        | some dstName =>
          (entryEdit m fuel rca NO_ECACHE dstName source s).map fun
            | (false, s) => (false, registerError m .entryEditError s)
            | (true, s) => (true, setContentDataCa dst (getContentDataCa src s) s)

/-- `DEEP_COPY` -/
abbrev DEEP_COPY : Int := 0x01

/-- `SHALLOW_COPY` -/
abbrev SHALLOW_COPY : Int := 0x02

/-- `NIFAT32_copy_content` -/
def copyContent (fuel : Nat) (src dst deep : Int) (s : FS) : Option (Bool × FS) :=
  if deep = DEEP_COPY then deepCopyContent m fuel src dst s
  else if deep = SHALLOW_COPY then shallowCopyContent m fuel src dst s
  else some (false, registerError m .unknownDeepTypeError s)

/-- `entry_remove` for a content. A content without a name has no directory either, and the walk
ends before it looks at the name. -/
def removeContent (fuel : Nat) (ci : Int) (s : FS) : Option (Bool × FS) :=
  match getContentName ci s with
  | none => some (false, (readEncodedCluster m (getContentRootCa ci s) s).2)
  | some name => entryRemove m fuel (getContentRootCa ci s) name (getContentEcache ci s) s

/-- `NIFAT32_delete_content` -/
def deleteContent (fuel : Nat) (ci : Int) (s : FS) : Option (Bool × FS) :=
  match removeContent m fuel ci s with
  | none => none
  | some (false, s) => some (false, registerError m .entryRemoveError s)
  | some (true, s) => (destroyContent fuel ci s).map fun (_, s) => (true, s)

/-- `NIFAT32_stat_content`: what it returns and stores, or `none` when it reads a slot that the
content table does not have. -/
def nifat32StatContent (ci : Int) (info : CInfo) (s : FS) : Option (Option CInfo) :=
  if inTable ci then some (statContent ci.toNat info s) else none

/-! ### Repairing directories -/

/-- `_repair_handler`. It follows every entry with the directory attribute, whether or not the
entry validates or is free. -/
def repairHandler : (fuel : Nat) → Handler Unit
  | 0 => fun _ _ _ _ => none
  | fuel + 1 => fun _ e _ s =>
    if e.isDir then
      (entryIterate m (repairHandler fuel) fuel e.dca.toNat () s).map fun (_, _, s) =>
        (false, e, (), s)
    else some (false, e, (), s)

/-- The handler `NULL`: calling it is a crash. -/
def nullHandler : Handler Unit := fun _ _ _ _ => none

/-- `NIFAT32_repair_content` -/
def repairContent (fuel : Nat) (ci rec : Int) (s : FS) : Option (Bool × FS) :=
  if getContentType ci s ≠ .directory then some (false, registerError m .repairContentError s)
  else
    (entryIterate m (if rec = 0 then nullHandler else repairHandler m fuel) fuel
      (getContentDataCa ci s) () s).map fun (_, _, s) => (true, s)

end NiFat32
