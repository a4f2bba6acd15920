import NiFat32.Proofs.FatView
import NiFat32.Proofs.Isolation

/-!
# `Proofs.TwoMounts`: the second volume that a process mounts

`mounts_isolated` is about two mounts of one volume: in a process that had another volume before,
and in a process that starts. Without a bitmap of the first volume and without error copies, every
index into the caches lies inside its block, and every later request through an open handle gets the
same answer in both processes.

`NIFAT32_unload` does not free the bitmap, and `fatmap_init` keeps one that is there.
`repairFat_leaves_map` shows that one of a smaller volume is left behind by the next repair.
-/

set_option autoImplicit false

namespace NiFat32

open Relational Run ByteStore

variable {m : Mount} {s t : FS}

/-! ### The two mounts -/

/-- Every index of the process into its caches lies inside their blocks. -/
structure Process.Confined (x : Process) : Prop where
  load : ∀ s, WithinCaches x.fatRoom x.mapRoom (fun s => some (fatCacheHload x.mount s)) s
  serve : ∀ q fuel, WithinCaches x.fatRoom x.mapRoom (NiFat32.serve x.mount q fuel) x.fs

/-- A request and the process that it leaves. -/
def Process.next (q : Request) (x : Process) (fuel : Nat) : Option Process :=
  (x.serve q fuel).map Prod.snd

/-- The mounts of a volume in the two processes. They end alike, and where they succeed the first
process is confined in every later run, and the requests through its open handles are answered as in
the second one. -/
def MountIsolated (fuel : Nat) (p : Params) (x y : Process) : Prop :=
  (x.init fuel p = none ∧ y.init fuel p = none) ∨
  ∃ ok x' y', x.init fuel p = some (ok, x') ∧ y.init fuel p = some (ok, y') ∧
    (ok = true → ∀ qs,
      Throughout (fun _ _ => True) Process.next Process.Confined qs x' ∧
      Agree (fun x q => q.ThroughOpen x.fs) Process.serve qs x' y')

/-- Blocks of the size that a mount allocates confine every later run. -/
theorem confined_throughout {x : Process} (hfat : x.mount.fi.totalClusters ≤ x.fatRoom)
    (hmap : mapWords x.mount.fi ≤ x.mapRoom) (qs : List Request) :
    Throughout (fun _ _ => True) Process.next Process.Confined qs x := by
  have hroomy : ∀ {x : Process}, x.mount.fi.totalClusters ≤ x.fatRoom ∧
      mapWords x.mount.fi ≤ x.mapRoom → ∀ s, Roomy x.mount x.fatRoom x.mapRoom s := by
    rintro x ⟨hfat, hmap⟩ s
    refine ⟨fun _ => hfat, fun _ => ?_⟩
    rw [mapWords] at hmap
    simp only [BITS_PER_WORD] at hmap ⊢
    omega
  apply Throughout.of_invariant (fun x : Process => x.mount.fi.totalClusters ≤ x.fatRoom ∧
    mapWords x.mount.fi ≤ x.mapRoom) _ _ qs ⟨hfat, hmap⟩
  · intro x h
    exact ⟨fun s => fatCacheHload_inside (hroomy h s),
      fun q fuel => serve_inside (hroomy h _) q fuel⟩
  · intro x q fuel x' h _ hrun
    obtain ⟨⟨r, x''⟩, hserve, rfl⟩ := Option.map_eq_some_iff.mp hrun
    obtain ⟨⟨r', s'⟩, -, hx⟩ := Option.map_eq_some_iff.mp hserve
    cases hx
    exact h

/-- The processes differ in alike states alone. -/
structure Process.Alike (x y : Process) : Prop where
  mount : x.mount = y.mount
  fatRoom : x.fatRoom = y.fatRoom
  mapRoom : x.mapRoom = y.mapRoom
  fs : NiFat32.Alike x.mount x.fs y.fs

theorem Process.Alike.agree {x y : Process} (h : x.Alike y) (qs : List Request) :
    Agree (fun x q => q.ThroughOpen x.fs) Process.serve qs x y := by
  apply Agree.of_bisim (R := Process.Alike) _ qs h
  intro x y q fuel h hq
  rw [Process.serve, Process.serve, ← h.mount, ← h.fatRoom, ← h.mapRoom]
  refine (h.fs.serve hq fuel).map ?_
  intro r s' t' h'
  exact ⟨r, { x with fs := s' }, { x with fs := t' }, rfl, rfl, ⟨rfl, rfl, rfl, h'⟩⟩

/-- The second volume is mounted after the first one has been unloaded. When the first one had no
bitmap and the second one has no error copies, its mount is isolated. -/
theorem mounts_isolated {m m' : Mount} {d d' : Medium} {u : FS} {fuel fuel' : Nat}
    {p p' : Params} {ok ok' : Bool} {x y z : Process} {qs : List (Request × Nat)}
    (hmount : (Process.start m d u).init fuel p = some (ok, x)) (hmap : x.fs.bitmap = none)
    (hrun : x.serveAll qs = some y) (hunload : y.unload fuel' = some (ok', z)) (hec : p'.ec = 0)
    (bound : Nat) :
    MountIsolated bound p' (z.attach m' d') (Process.start m' d' z.fs) := by
  -- the run on the first volume leaves the statics that no mount sets
  obtain ⟨⟨ok₁, m₁, s₁⟩, hinit, hx⟩ := Option.map_eq_some_iff.mp hmount
  cases hx
  have hstart : StartsAt (Process.start m d u).fs := rfl
  obtain ⟨hoffset, hlast⟩ := initFrom_startsAt rfl hstart hinit
  obtain ⟨hsame, hy⟩ := serveAll_unmapped qs hoffset ⟨hlast, hmap⟩ hrun
  obtain ⟨hz, hcore⟩ := unload_core (n := m') (d := d') hy hunload
  have hoffset' : z.mount.fi.entryOffset = (default : FatData).entryOffset := by
    rw [hz, hsame]
    exact hoffset
  have hfat : z.fs.fat = none := hcore.fat
  have hbitmap : z.fs.bitmap = none := hcore.bitmap
  -- the two mounts of the second volume
  have halike : MountsAlike
      (nifat32Init (m'.withInfo z.mount.fi) bound p' (z.attach m' d').fs)
      (nifat32Init (m'.withInfo default) bound p' (Process.start m' d' z.fs).fs) :=
    initFrom_alike hec bound _ hoffset' hcore
  generalize hxinit : nifat32Init (m'.withInfo z.mount.fi) bound p' (z.attach m' d').fs = first
    at halike
  generalize hyinit : nifat32Init (m'.withInfo default) bound p' (Process.start m' d' z.fs).fs
    = second at halike
  have hinitX : (z.attach m' d').init bound p' = first.map fun r =>
      (r.1, Process.mk r.2.1 r.2.2 r.2.1.fi.totalClusters (mapWords r.2.1.fi)) := by
    show Option.map _ (nifat32Init (m'.withInfo z.mount.fi) bound p' (z.attach m' d').fs) = _
    rw [hxinit]
    show Option.map (fun r : Bool × Mount × FS => (r.1, Process.mk r.2.1 r.2.2
      (if z.fs.fat.isNone then _ else _) (if z.fs.bitmap.isNone then _ else _))) first = _
    rw [hfat, hbitmap]
    rfl
  have hinitY : (Process.start m' d' z.fs).init bound p' = second.map fun r =>
      (r.1, Process.mk r.2.1 r.2.2 r.2.1.fi.totalClusters (mapWords r.2.1.fi)) := by
    show Option.map _ (nifat32Init (m'.withInfo default) bound p' (Process.start m' d' z.fs).fs) = _
    rw [hyinit]
    rfl
  rw [MountIsolated, hinitX, hinitY]
  cases halike with
  | stuck => exact Or.inl ⟨rfl, rfl⟩
  | failed => exact Or.inr ⟨false, _, _, rfl, rfl, fun hfail => absurd hfail Bool.false_ne_true⟩
  | @mounted m₁ s' t' h =>
    have hprocess : Process.Alike ⟨m₁, s', m₁.fi.totalClusters, mapWords m₁.fi⟩
        ⟨m₁, t', m₁.fi.totalClusters, mapWords m₁.fi⟩ := ⟨rfl, rfl, rfl, h⟩
    refine Or.inr ⟨true, _, _, rfl, rfl, ?_⟩
    intro _ later
    exact ⟨confined_throughout (Nat.le_refl _) (Nat.le_refl _) later, hprocess.agree later⟩

/-! ### Devices with one boot sector -/

/-- A device whose only boot sector is `b`. -/
def bootMedium (ts : Nat) (b : BootSector) : Medium where
  bytes := write (fun _ => 0) (getBootSector 0 ts * 512) (bootSectorBytes b 512)
  writes := 0
  log := []

/-- A mount with the caches `flags` of a device with one boot sector. -/
def oneCopy (flags : UInt8) (ts : UInt32) : Params :=
  { fatCache := flags, bsNum := 0, bsCount := 1, ts := ts, jc := 0, ec := 0 }

/-- The mount takes the geometry of the boot sector and sets up the caches. -/
theorem init_boot (fi : FatData) (flags : UInt8) (ts : UInt32) {b : BootSector} {m' : Mount}
    (hm : m' = unmounted.withInfo (geometryOf (startInfo fi (oneCopy flags ts)) (oneCopy flags ts)
      b.withChecksums)) (hsize : b.withChecksums.bytesPerSector ≠ 0)
    (hs : s.medium = bootMedium ts.toNat b.withChecksums) (fuel : Nat) :
    nifat32Init (unmounted.withInfo fi) fuel (oneCopy flags ts) s
      = some (true, m', ctableInit (initCaches m' flags s)) := by
  have hworks : unmounted.Works := ⟨fun _ _ _ _ => rfl, fun _ _ _ _ => rfl⟩
  have hlen : (bootSectorBytes b.withChecksums 512).length = 512 :=
    length_bootSectorBytes _ (Nat.le_of_ble_eq_true rfl)
  have hread : dskReadSector unmounted s.medium (getBootSector 0 ts.toNat) unmounted.sectorSize
      = some (bootSectorBytes b.withChecksums 512) := by
    have hsector : unmounted.sectorSize = 512 := rfl
    have hbytes : s.medium.bytes = write (fun _ => 0) (getBootSector 0 ts.toNat * 512)
        (bootSectorBytes b.withChecksums 512) := by
      rw [hs, bootMedium]
    rw [dskReadSector_eq hworks, hsector, hbytes, read_write_block _ _ _ hlen, if_pos rfl]
  have hdecode : decodeBoot (bootSectorBytes b.withChecksums 512) = b.withChecksums :=
    decodeBoot_pack _ _
  have hleft : (oneCopy flags ts).bsCount.toNat - (oneCopy flags ts).bsNum.toNat = 0 + 1 := rfl
  have hpos : getBootSector ((oneCopy flags ts).bsCount.toNat - (0 + 1)) (oneCopy flags ts).ts.toNat
      = getBootSector 0 ts.toNat := rfl
  have hsome : unmounted.sectorSize ≠ 0 := by decide
  rw [nifat32Init, hleft, initFrom_eq rfl, if_neg hsome, hpos, hread]
  simp only
  have hvalid : (decodeBoot (bootSectorBytes b.withChecksums 512)).Valid := by
    rw [hdecode]
    exact withChecksums_valid b
  have hmount := mountFrom_eq (m := unmounted.withInfo (startInfo fi (oneCopy flags ts)))
    (p := oneCopy flags ts) (hdecode ▸ hsize) (hdecode ▸ hm) fuel
    ((oneCopy flags ts).bsCount.toNat - (0 + 1)) s
  have hjc : (oneCopy flags ts).jc = 0 := rfl
  have hfirst : ¬ 0 < (oneCopy flags ts).bsCount.toNat - (0 + 1) := Nat.lt_irrefl 0
  rw [if_pos hvalid, hmount, if_pos hjc, mountState, if_neg hfirst]
  rfl

/-- The set-up of the FAT cache and the bitmap; a bitmap that is there stays. -/
theorem initCaches_maps (hmalloc : ∀ n, m.malloc n ≠ 0) (hfat : s.fat = none) :
    ∃ n, initCaches m (CACHE ||| MAP_CACHE) s = { s with
      fat := some fun _ => FAT_CLUSTER_BAD
      bitmap := some (s.bitmap.getD fun _ => false)
      mallocs := n } := by
  have hflags : (CACHE ||| MAP_CACHE) &&& CACHE ≠ 0 ∧ (CACHE ||| MAP_CACHE) &&& MAP_CACHE ≠ 0 ∧
      ¬ ((CACHE ||| MAP_CACHE) &&& HARD_CACHE ≠ 0) := by decide
  have hcache : (fatCacheInit m s).2 = { s with
      fat := some fun _ => FAT_CLUSTER_BAD
      mallocs := s.mallocs + 1 } := by
    rw [fatCacheInit, hfat]
    simp only [Option.isSome_none, Bool.false_eq_true, if_false, if_neg (hmalloc _)]
  rw [initCaches, if_pos hflags.1]
  simp only [if_pos hflags.2.1, if_neg hflags.2.2, hcache, fatmapInit]
  cases hmap : s.bitmap with
  | none =>
    simp only [Option.isSome_none, Bool.false_eq_true, if_false, if_neg (hmalloc _)]
    exact ⟨s.mallocs + 1 + 1, rfl⟩
  | some b =>
    simp only [Option.isSome_some, if_true]
    exact ⟨s.mallocs + 1, rfl⟩

/-- A table without an open slot is left as it is. -/
theorem ctableDestroy_empty (hempty : ∀ i < CONTENT_TABLE_SIZE,
    (s.contents i).contentType = .empty) (fuel : Nat) : ctableDestroy fuel s = some s := by
  have hslots : ∀ is : List Nat, (∀ i ∈ is, i < CONTENT_TABLE_SIZE) →
      is.foldlM (fun s (i : Nat) => (destroyContent fuel i s).map Prod.snd) s = some s := by
    intro is
    induction is with
    | nil =>
      intro _
      rfl
    | cons i is ih =>
      intro his
      have hclosed : (s.contents (i : Int).toNat).contentType = .empty :=
        hempty i (his i List.mem_cons_self)
      have hone : destroyContent fuel i s = some (false, s) := by
        rw [destroyContent, if_neg (fun h => h.2 hclosed)]
      rw [List.foldlM_cons, hone]
      exact ih fun k hk => his k (List.mem_cons_of_mem i hk)
  exact hslots _ fun i hi => List.mem_range.mp hi

theorem ctableInit_empty (s : FS) {i : Nat} (hi : i < CONTENT_TABLE_SIZE) :
    ((ctableInit s).contents i).contentType = .empty := by
  show (if i < CONTENT_TABLE_SIZE then _ else _ : Content).contentType = _
  rw [if_pos hi]

/-- A process without a bitmap that mounts the device. -/
theorem process_init_boot (flags : UInt8) (ts : UInt32) {b : BootSector} {m' : Mount} {x : Process}
    (hx : x.mount = unmounted.withInfo x.mount.fi)
    (hm : m' = unmounted.withInfo (geometryOf (startInfo x.mount.fi (oneCopy flags ts))
      (oneCopy flags ts) b.withChecksums)) (hsize : b.withChecksums.bytesPerSector ≠ 0)
    (hs : x.fs.medium = bootMedium ts.toNat b.withChecksums) (fuel : Nat) :
    x.init fuel (oneCopy flags ts) = some (true, {
      mount := m'
      fs := ctableInit (initCaches m' flags x.fs)
      fatRoom := if x.fs.fat.isNone then m'.fi.totalClusters else x.fatRoom
      mapRoom := if x.fs.bitmap.isNone then mapWords m'.fi else x.mapRoom }) := by
  rw [Process.init, hx, init_boot x.mount.fi flags ts hm hsize hs fuel]
  rfl

/-- A request and the unload of a process whose table is empty. -/
theorem unload_closed {x : Process} (hempty : ∀ i < CONTENT_TABLE_SIZE,
    (x.fs.contents i).contentType = .empty) (fuel : Nat) :
    x.unload fuel = some (true, { x with fs := { x.fs with fat := none } }) := by
  have hfat : (fatCacheUnload x.fs).2 = { x.fs with fat := none } := by
    rw [fatCacheUnload]
    cases hf : x.fs.fat with
    | none =>
      simp only [Option.isNone_none, if_true]
      rw [← hf]
    | some f => rfl
  rw [Process.unload, nifat32Unload, hfat,
    ctableDestroy_empty (s := { x.fs with fat := none }) hempty]
  rfl

/-- The device of the small volume. -/
def smallMedium : Medium := bootMedium 48 sampleBoot.withChecksums

/-- The small volume is mounted without a cache, asked for its last error and unloaded; then it is
mounted with a bitmap. -/
theorem mounts_isolated_small : ∃ x z,
    (Process.start unmounted smallMedium (zeroFS (oneFile 2 R_MODE))).init 0 (oneCopy NO_CACHE 48)
      = some (true, x) ∧
    x.unload 0 = some (true, z) ∧
    MountIsolated 0 (oneCopy (CACHE ||| MAP_CACHE) 48) (z.attach unmounted smallMedium)
      (Process.start unmounted smallMedium z.fs) := by
  have hsize : sampleBoot.withChecksums.bytesPerSector ≠ 0 := by decide
  generalize hstart : Process.start unmounted smallMedium (zeroFS (oneFile 2 R_MODE)) = start
  have hinit := process_init_boot (x := start) NO_CACHE 48 (by rw [← hstart]; rfl) rfl hsize
    (by rw [← hstart]; rfl) 0
  generalize hx : Process.mk _ _ _ _ = x at hinit
  have hempty : ∀ i < CONTENT_TABLE_SIZE, (x.fs.contents i).contentType = .empty := by
    intro i hi
    rw [← hx]
    exact ctableInit_empty _ hi
  have hunload := unload_closed hempty 0
  have hmap : x.fs.bitmap = none := by
    rw [← hx, ← hstart]
    rfl
  have hcount : x.mount.fi.errorsCount = 0 := by
    rw [← hx]
    rfl
  have hrun : x.serveAll [(.getLastError, 0)] = some x := by
    have hserve : x.serve .getLastError 0 = some (⟨(0xFFFFFFFF : UInt32).toNat, [], none⟩, x) := by
      rw [Process.serve, serve, errorsLastError_none hcount]
      rfl
    rw [Process.serveAll, List.foldlM_cons, hserve]
    rfl
  refine ⟨x, _, hinit, hunload, ?_⟩
  rw [← hstart] at hinit
  exact mounts_isolated hinit hmap hrun hunload rfl 0

/-! ### A bitmap that is too small -/

/-- The states differ in the bitmap alone. -/
def OtherMap (s t : FS) : Prop := ∃ b, t = { s with bitmap := b }

theorem otherMap_logs : LogBisim m OtherMap where
  medium := by
    rintro s _ ⟨b, rfl⟩
    rfl
  setMedium := by
    rintro s _ ⟨b, rfl⟩ d
    exact ⟨b, rfl⟩
  errors := by
    rintro s _ ⟨b, rfl⟩
    exact Or.inl rfl
  setErrors := by
    rintro s _ ⟨b, rfl⟩ r
    exact ⟨b, rfl⟩
  journalIndex := by
    rintro s _ ⟨b, rfl⟩
    exact Or.inr rfl
  setJournalIndex := by
    rintro s _ ⟨b, rfl⟩ i
    exact ⟨b, rfl⟩
  setAdded := by
    rintro s _ ⟨b, rfl⟩ n
    exact ⟨b, rfl⟩
  setSolving := by
    rintro s _ ⟨b, rfl⟩ n
    exact ⟨b, rfl⟩

/-- Reading the FAT does not look at the bitmap. -/
theorem otherMap_fat : FatBisim m OtherMap where
  medium := (otherMap_logs (m := m)).medium
  setMedium := (otherMap_logs (m := m)).setMedium
  error h c := otherMap_logs.error h c
  cached := by
    rintro s _ ⟨b, rfl⟩ ca -
    rfl
  cache := by
    rintro s _ ⟨b, rfl⟩ ca - x
    exact ⟨b, rfl⟩
  mapSet := by
    rintro s _ ⟨b, rfl⟩ ca -
    exact ⟨_, rfl⟩
  mapUnset := by
    rintro s _ ⟨b, rfl⟩ ca -
    exact ⟨_, rfl⟩

/-- The bitmap stays where it is. -/
theorem mapped_step : StepInvariant m fun s => s.bitmap.isSome where
  logs h hlogs := by
    rw [hlogs.bitmap]
    exact h
  cache h _ _ _ := h
  mapSet h _ _ := Option.isSome_map.trans h
  mapUnset h _ _ := Option.isSome_map.trans h
  offset h := by
    rw [getClusterOffset]
    split
    · exact h
    · exact h
  moved h _ x := by
    rw [moveOffset]
    split
    · exact h
    · exact h
  allocated h _ := h
  setHeap h _ := h
  malloced h := h

/-- The state before the last cluster is read. -/
def repairedBelow (m : Mount) (k : Nat) (s : FS) : FS :=
  (List.range k).foldl (fun s ca => (readFat m ca s).2) s

theorem cachedFat_repairedBelow {n k : Nat} (hk : n ≤ k) (s : FS) :
    cachedFat k (repairedBelow m n s) = cachedFat k s := by
  induction n with
  | zero => rfl
  | succ n ih =>
    rw [repairedBelow, List.range_succ, List.foldl_append]
    show cachedFat k (readFat m n (repairedBelow m n s)).2 = cachedFat k s
    rw [cachedFat_readFat_ne (by omega), ih (by omega)]

/-- A repair marks the last cluster in the bitmap, wherever its bit lies. -/
theorem repairFat_leaves_map {k fatRoom mapRoom : Nat} (hlast : m.fi.totalClusters = k + 1)
    (hroot : m.fi.extRootCluster ≤ k) (hmap : s.bitmap.isSome)
    (hout : mapRoom ≤ k / BITS_PER_WORD) (hroom : s.fat.isSome → k < fatRoom)
    (hcache : cachedFat k s = none) (fuel : Nat) :
    ¬ WithinCaches fatRoom mapRoom (serve m (.call .repairFat) fuel) s := by
  intro hin
  have hk : InVol m k := ⟨hroot, by omega⟩
  -- the bit of the last cluster for both contents of the memory behind the bitmap
  have hbit : ∀ x : Bool, x = decide
      ((readFat m k (repairedBelow m k (s.behind fatRoom mapRoom (fun _ => 0) fun _ => x))).1
        ≠ FAT_CLUSTER_FREE) := by
    intro x
    generalize hu : s.behind fatRoom mapRoom (fun _ => 0) (fun _ => x) = u
    have hrun := hin (fun _ => 0) fun _ => x
    rw [hu] at hrun
    have hstate : ∀ u : FS, serve m (.call .repairFat) fuel u
        = some (⟨1, [], none⟩, (readFat m k (repairedBelow m k u)).2) := by
      intro u
      simp only [serve, runCall, repairFat, fatRepair, hlast, List.range_succ, List.foldl_append]
      rfl
    rw [hstate, hstate] at hrun
    have hafter := congrArg FS.bitmap (Prod.mk.inj (Option.some.inj hrun)).2
    have hempty : cachedFat k (repairedBelow m k u) = none := by
      rw [cachedFat_repairedBelow (Nat.le_refl k), ← hu, cachedFat_behind hroom, hcache]
    have hsome : ((readFat m k (repairedBelow m k s)).2).bitmap.isSome := by
      have hrepair := (mapped_step (m := m)).bisim.fatRepair ⟨rfl, hmap⟩
      have hstate' : (fatRepair m s).2 = (readFat m k (repairedBelow m k s)).2 := by
        simp only [fatRepair, hlast, List.range_succ, List.foldl_append]
        rfl
      rw [← hstate']
      exact hrepair.snd.2
    rw [(readFat_noted hk hempty).bitmap, FS.behind] at hafter
    obtain ⟨after, hR⟩ := Option.isSome_iff_exists.mp hsome
    have hpoint := congrArg (Option.map fun b => b k) hafter
    rw [hR] at hpoint
    simp only [Option.map_map, Option.map_some, if_neg (Nat.not_lt.mpr hout)] at hpoint
    obtain ⟨b, -, hb⟩ := Option.map_eq_some_iff.mp hpoint
    simp only [Function.comp, if_true] at hb
    exact hb.symm
  -- the value that is read is the same for both
  have hsame : ∀ x : Bool, OtherMap (s.behind fatRoom mapRoom (fun _ => 0) fun _ => false)
      (s.behind fatRoom mapRoom (fun _ => 0) fun _ => x) := fun x => ⟨_, rfl⟩
  have hread : ∀ x : Bool, (readFat m k (repairedBelow m k
      (s.behind fatRoom mapRoom (fun _ => 0) fun _ => x))).1 = (readFat m k (repairedBelow m k
      (s.behind fatRoom mapRoom (fun _ => 0) fun _ => false))).1 := by
    intro x
    have hbelow :
        OtherMap (repairedBelow m k (s.behind fatRoom mapRoom (fun _ => 0) fun _ => false))
        (repairedBelow m k (s.behind fatRoom mapRoom (fun _ => 0) fun _ => x)) := by
      apply foldl_related (R := OtherMap) _ _ (hsame x)
      intro s t ca h
      exact (otherMap_fat.readFat h ca).snd
    exact (otherMap_fat.readFat hbelow k).fst.symm
  have htrue := hbit true
  have hfalse := hbit false
  rw [hread true, ← hfalse] at htrue
  cases htrue

/-- A volume of 200 sectors of 512 bytes, with more clusters than a word has bits. -/
def ampleBoot : BootSector := rebuiltBoot {
  bsCount := 1, fatSize := 2, fatCount := 2, firstDataSector := 5, totalSectors := 200
  totalClusters := 97, bytesPerSector := 512, clusterSize := 1024, sectorsPerCluster := 2
  extRootCluster := 2, sectorsPadd := 1, journalsCount := 0, errorsCount := 0, entryOffset := 0 }

theorem sampleBoot_clusters (fi : FatData) (p : Params) :
    (geometryOf fi p sampleBoot.withChecksums).totalClusters = 22 := rfl

theorem ampleBoot_clusters (fi : FatData) (p : Params) :
    (geometryOf fi p ampleBoot.withChecksums).totalClusters = 97 := rfl

/-- The small volume is mounted with a bitmap and unloaded, and the large one is mounted with the
same caches. A repair then marks the last cluster of the large volume behind the bitmap, which has
the one word of the small volume. -/
theorem mount_not_isolated : ∃ x z u,
    (Process.start unmounted smallMedium (zeroFS (oneFile 2 R_MODE))).init 0
      (oneCopy (CACHE ||| MAP_CACHE) 48) = some (true, x) ∧
    x.unload 0 = some (true, z) ∧
    (z.attach unmounted (bootMedium 200 ampleBoot.withChecksums)).init 0
      (oneCopy (CACHE ||| MAP_CACHE) 200) = some (true, u) ∧
    u.mapRoom = 1 ∧ u.mount.fi.totalClusters = 97 ∧
    ¬ WithinCaches u.fatRoom u.mapRoom (serve u.mount (.call .repairFat) 0) u.fs := by
  have hsize : sampleBoot.withChecksums.bytesPerSector ≠ 0 := by decide
  have hsize' : ampleBoot.withChecksums.bytesPerSector ≠ 0 := by decide
  generalize hstart : Process.start unmounted smallMedium (zeroFS (oneFile 2 R_MODE)) = start
  have hinit := process_init_boot (x := start) (CACHE ||| MAP_CACHE) 48 (by rw [← hstart]; rfl) rfl
    hsize (by rw [← hstart]; rfl) 0
  have hmalloc : ∀ (fi : FatData) n, (unmounted.withInfo fi).malloc n ≠ 0 := fun _ n =>
    Nat.succ_ne_zero n
  have hnone : start.fs.fat = none ∧ start.fs.bitmap = none := by
    rw [← hstart]
    exact ⟨rfl, rfl⟩
  obtain ⟨n, hcaches⟩ := initCaches_maps (s := start.fs) (hmalloc
    (geometryOf (startInfo start.mount.fi (oneCopy (CACHE ||| MAP_CACHE) 48))
      (oneCopy (CACHE ||| MAP_CACHE) 48) sampleBoot.withChecksums)) hnone.1
  rw [hcaches, hnone.1, hnone.2] at hinit
  generalize hx : Process.mk _ _ _ _ = x at hinit
  have hempty : ∀ i < CONTENT_TABLE_SIZE, (x.fs.contents i).contentType = .empty := by
    intro i hi
    rw [← hx]
    exact ctableInit_empty _ hi
  have hunload := unload_closed hempty 0
  generalize hz : ({ x with fs := { x.fs with fat := none } } : Process) = z at hunload
  have hroom : z.mapRoom = 1 := by
    rw [← hz, ← hx]
    show mapWords (geometryOf _ _ sampleBoot.withChecksums) = 1
    rw [mapWords, sampleBoot_clusters]
    decide
  have hstale : z.fs.bitmap = some fun _ => false := by
    rw [← hz, ← hx]
    rfl
  have hfat : z.fs.fat = none := by
    rw [← hz]
  have hinit' := process_init_boot
    (x := z.attach unmounted (bootMedium 200 ampleBoot.withChecksums)) (CACHE ||| MAP_CACHE) 200 rfl
    rfl hsize' rfl 0
  obtain ⟨n', hcaches'⟩ := initCaches_maps
    (s := (z.attach unmounted (bootMedium 200 ampleBoot.withChecksums)).fs) (hmalloc
    (geometryOf (startInfo (z.attach unmounted (bootMedium 200 ampleBoot.withChecksums)).mount.fi
      (oneCopy (CACHE ||| MAP_CACHE) 200)) (oneCopy (CACHE ||| MAP_CACHE) 200)
      ampleBoot.withChecksums)) hfat
  have hfat' : (z.attach unmounted (bootMedium 200 ampleBoot.withChecksums)).fs.fat = none := hfat
  have hstale' : (z.attach unmounted (bootMedium 200 ampleBoot.withChecksums)).fs.bitmap
      = some fun _ => false := hstale
  rw [hcaches', hfat', hstale'] at hinit'
  generalize hu : Process.mk _ _ _ _ = u at hinit'
  have htotal : u.mount.fi.totalClusters = 97 := by
    rw [← hu]
    exact ampleBoot_clusters default (oneCopy (CACHE ||| MAP_CACHE) 200)
  have hroot : u.mount.fi.extRootCluster = 2 := by
    rw [← hu]
    rfl
  have hmap : u.mapRoom = 1 := by
    rw [← hu]
    exact hroom
  refine ⟨x, z, u, hinit, hunload, hinit', hmap, htotal, ?_⟩
  apply repairFat_leaves_map (k := 96) htotal
  · rw [hroot]
    decide
  · rw [← hu]
    rfl
  · rw [hmap]
    decide
  · intro _
    have hroom' : u.fatRoom = u.mount.fi.totalClusters := by
      rw [← hu]
      rfl
    rw [hroom', htotal]
    decide
  · rw [← hu]
    rfl

end NiFat32
