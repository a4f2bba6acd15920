import NiFat32.Core.Ecache
import NiFat32.Core.Journal

/-!
# `Core.Entry`: directory clusters and the operations on them (`src/entry.c`)

A directory is a chain of clusters, each of which holds encoded 32-byte entries up to an
entry whose first byte is `ENTRY_END`. `entryIterate` is the loop of the library over such a
chain: it decodes a cluster, runs a handler over its entries, and writes the cluster back.

The loops follow links that the code does not check, so they take a bound on the number of
passes, and the result is `none` when the bound is used up.
-/

set_option autoImplicit false

namespace NiFat32

/-- `entry_info_t` -/
structure EntryInfo where
  ca : Nat
  offset : Nat
  deriving DecidableEq

/-- `_validate_entry`: the checksum field of an entry that fails is left at zero. -/
def validateEntry (e : DirEntry) : Bool × DirEntry :=
  if e.Valid then (true, e) else (false, { e with checksum := 0 })

/-- The entries of a decoded cluster. -/
def slotsOf (n : Nat) (dec : List UInt8) : List DirEntry :=
  (List.range n).map fun i => .ofBytes ((dec.drop (ENTRY_SIZE * i)).take ENTRY_SIZE)

/-- The bytes of a list of entries. -/
def bytesOfSlots (slots : List DirEntry) : List UInt8 := slots.flatMap DirEntry.bytes

variable (m : Mount)

/-- `cluster_size / sizeof(encoded_t)` -/
def decodedLen : Nat := m.fi.clusterSize / 2

/-- `entries_per_cluster` -/
def entriesPerCluster : Nat := decodedLen m / ENTRY_SIZE

/-- `_read_encoded_cluster`: the cluster and its decoded bytes. -/
def readEncodedCluster (ca : Nat) (s : FS) : Option (List UInt8 × List UInt8) × FS :=
  if ca = FAT_CLUSTER_BAD then (none, registerError m .badClusterError s)
  else
    match readCluster m ca m.fi.clusterSize s with
    | none => (none, registerError m .readClusterError s)
    | some enc => (some (enc, unpackMemory enc (decodedLen m)), s)

/-- The cluster `enc`, decoded to `dec`, after its entries became `slots`. -/
def repackCluster (enc dec : List UInt8) (slots : List DirEntry) : List UInt8 :=
  packMemory (bytesOfSlots slots ++ dec.drop (ENTRY_SIZE * entriesPerCluster m)) ++
    enc.drop (2 * decodedLen m)

/-- A handler: whether the walk ends, the entry as the handler left it, its context. -/
abbrev Handler (σ : Type) := EntryInfo → DirEntry → σ → FS → Option (Bool × DirEntry × σ × FS)

section Iterate

variable {σ : Type}

/-- The loop over the entries of one cluster, from entry `i`. -/
def slotLoop (handler : Handler σ) (ca : Nat) :
    (i : Nat) → List DirEntry → σ → FS → Option (Bool × List DirEntry × σ × FS)
  | _, [], ctx, s => some (false, [], ctx, s)
  | i, e :: es, ctx, s =>
    if e.first = ENTRY_END then some (false, e :: es, ctx, s)
    else
      match handler ⟨ca, i⟩ e ctx s with
      | none => none
      | some (true, e, ctx, s) => some (true, e :: es, ctx, s)
      | some (false, e, ctx, s) =>
        (slotLoop handler ca (i + 1) es ctx s).map fun (exit, es, ctx, s) => (exit, e :: es, ctx, s)

/-- `entry_iterate` -/
def entryIterate (handler : Handler σ) : (fuel ca : Nat) → σ → FS → Option (Bool × σ × FS)
  | 0, _, _, _ => none
  | fuel + 1, ca, ctx, s =>
    match readEncodedCluster m ca s with
    | (none, s) => some (false, ctx, s)
    | (some (enc, dec), s) =>
      match slotLoop handler ca 0 (slotsOf (entriesPerCluster m) dec) ctx s with
      | none => none
      | some (exit, slots, ctx, s) =>
        match writeCluster m ca (repackCluster m enc dec slots) s with
        | (false, s) => some (exit, ctx, registerError m .errorCorrectionError s)
        | (true, s) =>
          match readFat m ca s with
          | (next, s) =>
            if next ≠ FAT_CLUSTER_END ∧ exit = false then entryIterate handler fuel next ctx s
            else some (exit, ctx, s)

end Iterate

/-- `entry->attributes & FILE_DIRECTORY` is set. -/
def DirEntry.isDir (e : DirEntry) : Bool := e.attributes &&& FILE_DIRECTORY = FILE_DIRECTORY

/-- `create_entry` -/
def createEntry (fullname : Name) (isDir : Bool) (firstCluster fileSize : Nat) : DirEntry where
  fileName := fullname
  nameHash := hashName fullname
  attributes := if isDir then FILE_DIRECTORY else FILE_ARCHIVE
  rca := UInt32.ofNat FAT_CLUSTER_BAD
  dca := UInt32.ofNat firstCluster
  fileSize := if isDir then 1 else UInt32.ofNat fileSize
  checksum := 0

/-- `_index_handler`. The flag it hands to the index tells files from directories the other
way around than the parameter of `ecache_insert` does. -/
def indexHandler (fuel : Nat) : Handler Nat := fun _ e root s =>
  match validateEntry e with
  | (valid, e) =>
    if valid = false ∨ e.first = ENTRY_FREE then some (false, e, root, s)
    else
      (ecacheInsert m fuel root (hashName e.fileName) (!e.isDir) e.dca.toNat s).map
        fun (root, s) => (false, e, root, s)

/-- `entry_index`: the new root of the index. -/
def entryIndex (fuel ca root : Nat) (s : FS) : Option (Nat × FS) :=
  (entryIterate m (indexHandler m fuel) fuel ca root s).map fun (_, root, s) => (root, s)

/-- `_search_handler`; the context is the entry found. -/
def searchHandler (name : Name) : Handler (Option DirEntry) := fun info e found s =>
  match validateEntry e with
  | (valid, e) =>
    if valid = false ∨ e.first = ENTRY_FREE then some (false, e, found, s)
    else if hashName name ≠ e.nameHash then some (false, e, found, s)
    else if nameEq name e.fileName = false then some (false, e, found, s)
    else some (true, e, some { e with rca := UInt32.ofNat info.ca }, s)

/-- `entry_search`: the entry that the library stores at `meta`, when it returns `1`. -/
def entrySearch (fuel : Nat) (name : Name) (ca cache : Nat) (s : FS) :
    Option (Option DirEntry × FS) :=
  match if cache = 0 then some 0 else ecacheFind (hashName name) s.heap fuel cache with
  | none => none
  | some node =>
    if node ≠ 0 then
      some (some (createEntry name (Heap.isDir s.heap node) (s.heap node).ca 0), s)
    else
      (entryIterate m (searchHandler name) fuel ca none s).map fun (exit, found, s) =>
        (if exit then found else none, s)

/-- `_edit_handler`; the context is the journal index. -/
def editHandler (fuel : Nat) (name : Name) (dst : DirEntry) (cache : Nat) : Handler Int :=
  fun info e ji s =>
    match validateEntry e with
    | (valid, e) =>
      if valid = false ∨ e.first = ENTRY_FREE then some (false, e, ji, s)
      else if hashName name ≠ e.nameHash then some (false, e, ji, s)
      else if nameEq e.fileName name = false then some (false, e, ji, s)
      else
        match journalAddOperation m EDIT_OP info.ca info.offset dst s with
        | (ji, s) =>
          if cache = 0 then some (true, dst, ji, s)
          else
            -- both calls return a new root that is dropped
            match ecacheDelete fuel cache (hashName name) s.heap with
            | none => none
            | some (_, heap) =>
              (ecacheInsert m fuel cache (hashName e.fileName) (!e.isDir) e.dca.toNat
                { s with heap := heap }).map fun (_, s) => (true, dst, ji, s)

/-- `entry_edit` -/
def entryEdit (fuel ca cache : Nat) (name : Name) (dst : DirEntry) (s : FS) :
    Option (Bool × FS) :=
  (entryIterate m (editHandler m fuel name dst cache) fuel ca (-1) s).map fun (result, ji, s) =>
    (result, if 0 ≤ ji then journalSolveOperation m ji s else s)

/-- The slot that `entry_add` takes: the first one that does not validate, is free, or ends
the directory. -/
def addable (e : DirEntry) : Bool := ¬ e.Valid ∨ e.first = ENTRY_FREE ∨ e.first = ENTRY_END

/-- The entries of a cluster after `e` went into slot `i`: the next slot ends the directory. -/
def putSlot (slots : List DirEntry) (i : Nat) (e : DirEntry) : List DirEntry :=
  (slots.set i e).modify (i + 1) fun d => d.setFirst ENTRY_END

/-- `meta` as `entry_add` completes it for the cluster `ca`: the checksum is taken over the
structure with the checksum field that the caller left there. -/
def storedIn (meta' : DirEntry) (ca : Nat) : DirEntry :=
  let e := { meta' with rca := UInt32.ofNat ca }
  { e with checksum := murmur3 e.bytes 0 }

/-- The part of `entry_add` that fills slot `i` of the cluster `ca`: its result, `meta` as
the call leaves it, and the state. -/
def addToSlot (fuel ca cache i : Nat) (meta' : DirEntry) (enc dec : List UInt8)
    (slots : List DirEntry) (s : FS) : Option (Int × DirEntry × FS) :=
  match journalAddOperation m ADD_OP ca i meta' s with
  | (ji, s) =>
    let e := storedIn meta' ca
    match
      if cache = 0 then some s
      else (ecacheInsert m fuel cache (hashName e.fileName) (!e.isDir) e.dca.toNat s).map (·.2)
    with
    | none => none
    | some s =>
      match writeCluster m ca (repackCluster m enc dec (putSlot slots i e)) s with
      | (false, s) => some (-6, e, registerError m .entryAddError s)
      | (true, s) => some (1, e, journalSolveOperation m ji s)

/-- The step of `entry_add` from the cluster `ca`, where no slot was taken, to the next
cluster of the chain; the chain grows when `ca` is its last one. -/
def addNextCluster (ca : Nat) (s : FS) : Option Nat × FS :=
  match readFat m ca s with
  | (next, s) =>
    if next = FAT_CLUSTER_BAD then (none, registerError m .badClusterInChainError s)
    else if next = FAT_CLUSTER_END then
      match allocNext m s with
      | (nca, s) =>
        if nca = FAT_CLUSTER_BAD then (none, registerError m .clusterAllocationError s)
        else
          match setClusterEnd m nca s with
          | (false, s) => (none, registerError m .allocatedClusterBadError s)
          | (true, s) =>
            match writeFat m ca nca s with
            | (false, s) => (none, registerError m .clusterChainAppendError s)
            | (true, s) => (some nca, s)
    else (some next, s)

/-- `entry_add`: its result, `meta` as the call leaves it, and the state. -/
def entryAdd : (fuel ca cache : Nat) → (meta' : DirEntry) → FS → Option (Int × DirEntry × FS)
  | 0, _, _, _, _ => none
  | fuel + 1, ca, cache, meta', s =>
    match readEncodedCluster m ca s with
    | (none, s) => some (-1, meta', s)
    | (some (enc, dec), s) =>
      let slots := slotsOf (entriesPerCluster m) dec
      match slots.findIdx? addable with
      | some i => addToSlot m fuel ca cache i meta' enc dec slots s
      | none =>
        match addNextCluster m ca s with
        | (none, s) => some (-1, meta', s)
        | (some next, s) =>
          if next = FAT_CLUSTER_END then some (-1, meta', s)
          else entryAdd fuel next cache meta' s

section Erase

variable (eraseRec : (ca : Nat) → (file : Bool) → FS → Option (Int × FS))

/-- The loop of `_entry_erase_rec` over the entries of one cluster. -/
def eraseSlots : List DirEntry → FS → Option FS
  | [], s => some s
  | e :: es, s =>
    if e.first = ENTRY_END then some s
    else if e.Valid ∧ e.first ≠ ENTRY_FREE then
      match eraseRec e.dca.toNat (!e.isDir) s with
      | none => none
      | some (result, s) =>
        eraseSlots es (if result < 0 then registerError m .recursiveEraseError s else s)
    else eraseSlots es s

/-- The loop of `_entry_erase_rec` over the clusters of a directory. -/
def eraseClusters : (fuel ca : Nat) → FS → Option FS
  | 0, _, _ => none
  | fuel + 1, ca, s =>
    match readEncodedCluster m ca s with
    | (none, s) => some s
    | (some (_, dec), s) =>
      match readFat m ca s with
      | (nca, s) =>
        match eraseSlots m eraseRec (slotsOf (entriesPerCluster m) dec) s with
        | none => none
        | some s =>
          match deallocCluster m ca s with
          | (ok, s) =>
            let s := if ok then s else registerError m .clusterDeallocationError s
            if nca ≠ FAT_CLUSTER_END then eraseClusters fuel nca s else some s

end Erase

/-- `_entry_erase_rec` -/
def entryEraseRec : (fuel ca : Nat) → (file : Bool) → FS → Option (Int × FS)
  | 0, _, _, _ => none
  | fuel + 1, ca, true, s =>
    (deallocChain m fuel ca s).map fun (ok, s) => (if ok then 1 else 0, s)
  | fuel + 1, ca, false, s =>
    (eraseClusters m (entryEraseRec fuel) fuel ca s).map fun s => (1, s)

/-- `_remove_handler`; the context is the journal index. It does not compare name hashes. -/
def removeHandler (fuel : Nat) (name : Name) (cache : Nat) : Handler Int := fun info e ji s =>
  match validateEntry e with
  | (valid, e) =>
    if valid = false ∨ e.first = ENTRY_FREE then some (false, e, ji, s)
    else if nameEq e.fileName name = false then some (false, e, ji, s)
    else
      match
        if cache = 0 then some s
        else (ecacheDelete fuel cache (hashName name) s.heap).map fun (_, heap) =>
          { s with heap := heap }
      with
      | none => none
      | some s =>
        match journalAddOperation m DEL_OP info.ca info.offset e s with
        | (ji, s) =>
          match entryEraseRec m fuel e.dca.toNat (!e.isDir) s with
          | none => none
          | some (result, s) =>
            if result < 0 then
              some (true, e, ji, registerError m .clusterChainDeletionError s)
            else some (true, e.setFirst ENTRY_FREE, ji, s)

/-- `entry_remove` -/
def entryRemove (fuel ca : Nat) (name : Name) (cache : Nat) (s : FS) : Option (Bool × FS) :=
  (entryIterate m (removeHandler m fuel name cache) fuel ca (-1) s).map fun (result, ji, s) =>
    (result, if 0 ≤ ji then journalSolveOperation m ji s else s)

end NiFat32
