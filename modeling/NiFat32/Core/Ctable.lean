import NiFat32.Core.Entry
import NiFat32.Std.FatName

/-!
# `Core.Ctable`: the content table (`src/ctable.c`)

A content index is an `int`; the getters return a fallback value outside the table.
-/

set_option autoImplicit false

namespace NiFat32

/-- `NO_ECACHE` -/
abbrev NO_ECACHE : Nat := 0

/-- `0 ≤ ci < CONTENT_TABLE_SIZE` -/
def inTable (ci : Int) : Prop := 0 ≤ ci ∧ ci < CONTENT_TABLE_SIZE

instance (ci : Int) : Decidable (inTable ci) :=
  inferInstanceAs (Decidable (0 ≤ ci ∧ ci < CONTENT_TABLE_SIZE))

/-- The table with slot `i` replaced. -/
def FS.setContent (s : FS) (i : Nat) (c : Content) : FS :=
  { s with contents := fun k => if k = i then c else s.contents k }

/-- `ctable_init` -/
def ctableInit (s : FS) : FS :=
  { s with contents := fun i => if i < CONTENT_TABLE_SIZE then
      { s.contents i with contentType := .empty, indexRoot := NO_ECACHE } else s.contents i }

/-- The first empty slot from `i` on. -/
def emptySlot (s : FS) : (left i : Nat) → Option Nat
  | 0, _ => none
  | left + 1, i =>
    if (s.contents i).contentType = .empty then some i else emptySlot s left (i + 1)

/-- `alloc_ci` -/
def allocCi (s : FS) : Int × FS :=
  match emptySlot s CONTENT_TABLE_SIZE 0 with
  | none => (-1, s)
  | some i =>
    (i, s.setContent i { s.contents i with
      contentType := .unknown, parentCluster := FAT_CLUSTER_BAD, indexRoot := NO_ECACHE })

/-- `setup_content` -/
def setupContent (ci : Int) (isDir : Bool) (name83 : List UInt8) (e : DirEntry) (mode : UInt8)
    (s : FS) : FS :=
  if inTable ci then
    let c := s.contents ci.toNat
    let c : Content :=
      if isDir then { c with contentType := .directory, directoryName := strncpy name83 11 }
      else { c with
        contentType := .file
        fileName := strncpy (unpack83Name name83).1 8
        fileExtension := strncpy (unpack83Name name83).2 3 }
    s.setContent ci.toNat { c with
      entry := e, parentCluster := e.rca.toNat, dataCluster := e.dca.toNat, mode := mode }
  else s

/-- `get_content_data_ca` -/
def getContentDataCa (ci : Int) (s : FS) : Nat :=
  if inTable ci then (s.contents ci.toNat).dataCluster else FAT_CLUSTER_BAD

/-- `set_content_data_ca` -/
def setContentDataCa (ci : Int) (ca : Nat) (s : FS) : FS :=
  if inTable ci then s.setContent ci.toNat { s.contents ci.toNat with dataCluster := ca } else s

/-- `get_content_name`, `none` for `NULL`. -/
def getContentName (ci : Int) (s : FS) : Option Name :=
  if inTable ci then some (s.contents ci.toNat).entry.fileName else none

/-- `get_content_root_ca` -/
def getContentRootCa (ci : Int) (s : FS) : Nat :=
  if inTable ci then (s.contents ci.toNat).parentCluster else FAT_CLUSTER_BAD

/-- `get_content_mode` -/
def getContentMode (ci : Int) (s : FS) : UInt8 :=
  if inTable ci then (s.contents ci.toNat).mode else 0

/-- `get_content_type` -/
def getContentType (ci : Int) (s : FS) : ContentType :=
  if inTable ci then (s.contents ci.toNat).contentType else .unknown

/-- `get_content_ecache` -/
def getContentEcache (ci : Int) (s : FS) : Nat :=
  if inTable ci then (s.contents ci.toNat).indexRoot else NO_ECACHE

/-- `STAT_FILE` -/
abbrev STAT_FILE : Nat := 0x01

/-- `STAT_DIR` -/
abbrev STAT_DIR : Nat := 0x02

/-- `cinfo_t` -/
structure CInfo where
  fullName : Name
  name : List UInt8
  extention : List UInt8
  size : UInt32
  type : Nat

/-- `stat_content` over `info`; it does not check the range of its index. -/
def statContent (i : Nat) (info : CInfo) (s : FS) : Option CInfo :=
  let c := s.contents i
  match c.contentType with
  | .directory => some { info with
      size := 0, fullName := Vector.ofFn fun k => c.directoryName.getD k.val 0, type := STAT_DIR }
  | .file => some { info with
      fullName := c.entry.fileName, name := strncpy c.fileName 8
      extention := strncpy c.fileExtension 3, type := STAT_FILE }
  | _ => none

/-- `ecache_free`: it visits every node once; what a freed node holds stays in memory until
the allocator hands the node out again. -/
def ecacheFree (h : Heap) : (fuel root : Nat) → Option Unit
  | 0, _ => none
  | fuel + 1, root =>
    if root = 0 then some ()
    else (ecacheFree h fuel (h root).l).bind fun _ => ecacheFree h fuel (h root).r

variable (m : Mount)

/-- `index_content`: the freed tree stays the root under which the new nodes go. -/
def indexContent (fuel : Nat) (ci : Int) (s : FS) : Option (Bool × FS) :=
  if inTable ci then
    let c := s.contents ci.toNat
    match if c.indexRoot = 0 then some () else ecacheFree s.heap fuel c.indexRoot with
    | none => none
    | some _ =>
      (entryIndex m fuel c.dataCluster c.indexRoot s).map fun (root, s) =>
        (true, s.setContent ci.toNat { s.contents ci.toNat with indexRoot := root })
  else some (false, s)

/-- `destroy_content` -/
def destroyContent (fuel : Nat) (ci : Int) (s : FS) : Option (Bool × FS) :=
  if inTable ci ∧ (s.contents ci.toNat).contentType ≠ .empty then
    let c := s.contents ci.toNat
    match if c.indexRoot = 0 then some () else ecacheFree s.heap fuel c.indexRoot with
    | none => none
    | some _ =>
      some (true, s.setContent ci.toNat { c with contentType := .empty, indexRoot := NO_ECACHE })
  else some (false, s)

end NiFat32
