import NiFat32.Core.Api
import NiFat32.Core.Init

/-!
# `Core.Process`: the library in a process (`nifat32.c`)

The library keeps one volume mounted. `NIFAT32_unload` ends that, and the process may mount another
volume then. A `Process` is the state of the library with the sizes of the two blocks of memory
that its caches lie in, so that an index into a cache can be held against its block.
-/

set_option autoImplicit false

namespace NiFat32

/-- `BITS_PER_WORD` -/
abbrev BITS_PER_WORD : Nat := 32

/-- `CLUSTER_OFFSET` -/
abbrev CLUSTER_OFFSET : Nat := 128

/-- The words that `fatmap_init` allocates. -/
def mapWords (fi : FatData) : Nat := (fi.totalClusters + (BITS_PER_WORD - 1)) / BITS_PER_WORD

/-! ### Unloading -/

/-- `fat_cache_unload` -/
def fatCacheUnload (s : FS) : Bool × FS :=
  if s.fat.isNone then (false, s) else (true, { s with fat := none })

/-- `ctable_destroy` -/
def ctableDestroy (fuel : Nat) (s : FS) : Option FS :=
  (List.range CONTENT_TABLE_SIZE).foldlM
    (fun s (i : Nat) => (destroyContent fuel i s).map Prod.snd) s

/-- `NIFAT32_unload` -/
def nifat32Unload (fuel : Nat) (s : FS) : Option (Bool × FS) :=
  (ctableDestroy fuel (fatCacheUnload s).2).map fun s => (true, s)

/-! ### Requests -/

/-- A call of the library on a mounted volume. -/
inductive Request
  | call (c : ApiCall)
  | getLastError
  | repairBootsectors (pointerSize : Nat)

/-- What a caller gets: the value that is returned, the buffer of a read and the record of a
`stat`. -/
structure Reply where
  value : Int
  buffer : List UInt8
  info : Option CInfo

/-- The request: what the caller gets, and the state. -/
def serve (m : Mount) : Request → (fuel : Nat) → FS → Option (Reply × FS)
  | .call (.readContent2buffer ci offset size), fuel, s =>
    (readContent2buffer m fuel ci offset size s).map fun (n, bs, s) => (⟨n, bs, none⟩, s)
  | .call (.statContent ci info), _, s =>
    (nifat32StatContent ci info s).map fun r => (⟨if r.isSome then 1 else 0, [], r⟩, s)
  | .call c, fuel, s => (runCall m c fuel s).map fun (value, s) => (⟨value, [], none⟩, s)
  | .getLastError, _, s =>
    let (code, s) := errorsLastError m s
    some (⟨code.toNat, [], none⟩, s)
  | .repairBootsectors pointerSize, _, s =>
    let (ok, s) := repairBootsectors m pointerSize s
    some (⟨if ok then 1 else 0, [], none⟩, s)

/-! ### Processes -/

/-- The library in a process. The mount holds `_fs_data` and the callbacks; `fatRoom` and `mapRoom`
count the elements of the blocks that `_fat` and `_bitmap` point to. -/
structure Process where
  mount : Mount
  fs : FS
  fatRoom : Nat
  mapRoom : Nat

/-- A slot of the static table that no call has written. Its type is no type at all, which no
comparison tells from `CONTENT_TYPE_UNKNOWN`. -/
def zeroContent : Content where
  directoryName := []
  fileName := []
  fileExtension := []
  indexRoot := NO_ECACHE
  parentCluster := 0
  dataCluster := 0
  entry := .ofBytes []
  contentType := .unknown
  mode := 0

/-- The static variables of a process that starts on the device `d`. What does not belong to the
library, the heap and the memory behind its table, is as in `u`. -/
def FS.restarted (u : FS) (d : Medium) : FS :=
  { u with
    medium := d
    fat := none
    bitmap := none
    lastAllocatedCluster := CLUSTER_OFFSET
    journalIndex := 0
    errors := { firstError := 1, current := 1, lastError := 1 }
    contents := fun i => if i < CONTENT_TABLE_SIZE then zeroContent else u.contents i }

namespace Process

/-- A process that starts: its callbacks serve the device `d`. -/
def start (m : Mount) (d : Medium) (u : FS) : Process where
  mount := m.withInfo default
  fs := u.restarted d
  fatRoom := 0
  mapRoom := 0

/-- The callbacks serve another device from now on. -/
def attach (m : Mount) (d : Medium) (x : Process) : Process :=
  { x with mount := m.withInfo x.mount.fi, fs := { x.fs with medium := d } }

/-- `NIFAT32_init`. A block is allocated where the pointer to it was `NULL`. -/
def init (fuel : Nat) (p : Params) (x : Process) : Option (Bool × Process) :=
  (nifat32Init x.mount fuel p x.fs).map fun (ok, m, s) =>
    (ok, {
      mount := m
      fs := s
      fatRoom := if x.fs.fat.isNone then m.fi.totalClusters else x.fatRoom
      mapRoom := if x.fs.bitmap.isNone then mapWords m.fi else x.mapRoom })

/-- A request to the library. -/
def serve (q : Request) (fuel : Nat) (x : Process) : Option (Reply × Process) :=
  (NiFat32.serve x.mount q fuel x.fs).map fun (r, s) => (r, { x with fs := s })

/-- `NIFAT32_unload` -/
def unload (fuel : Nat) (x : Process) : Option (Bool × Process) :=
  (nifat32Unload fuel x.fs).map fun (ok, s) => (ok, { x with fs := s })

/-- The state after a sequence of requests, each with the bound on its loops. -/
def serveAll (qs : List (Request × Nat)) (x : Process) : Option Process :=
  qs.foldlM (fun x q => (x.serve q.1 q.2).map Prod.snd) x

end Process

end NiFat32
