import NiFat32.Proofs.CacheRoom
import NiFat32.Proofs.Mount

/-!
# `Proofs.Isolation`: one volume after another in one process

`NIFAT32_unload` frees the FAT cache and empties the content table. What it leaves is the bitmap,
`_fs_data`, the positions of the two logs and the slots of the table behind their types. A mount of
another volume without error copies sets all of it but the bitmap: from states that agree on the
rest (`SameCore`) it leads to states that no request through an open handle tells apart (`Alike`).
-/

set_option autoImplicit false

namespace NiFat32

open Relational Run

variable {m : Mount} {s t : FS}

/-! ### States that a later mount makes alike -/

/-- The states agree on what a mount does not set. -/
structure SameCore (s t : FS) : Prop where
  medium : s.medium = t.medium
  fat : s.fat = t.fat
  bitmap : s.bitmap = t.bitmap
  lastAllocated : s.lastAllocatedCluster = t.lastAllocatedCluster
  heap : s.heap = t.heap
  mallocs : s.mallocs = t.mallocs
  outside : ∀ i, CONTENT_TABLE_SIZE ≤ i → s.contents i = t.contents i

/-- Without error copies the table operations do not tell such states apart. -/
theorem sameCore_fat (hcount : m.fi.errorsCount = 0) : FatBisim m SameCore where
  medium h := h.medium
  setMedium h d := { h with medium := rfl }
  error {s t} h c := by
    obtain ⟨r, hs⟩ := registerError_none hcount c s
    obtain ⟨r', ht⟩ := registerError_none hcount c t
    rw [hs, ht]
    exact { h with }
  cached h ca _ := by rw [cachedFat, cachedFat, h.fat]
  cache {s t} h ca _ x :=
    { h with fat := congrArg (Option.map fun (f : Nat → Nat) k => if k = ca then x else f k) h.fat }
  mapSet {s t} h ca _ :=
    { h with bitmap :=
        congrArg (Option.map fun (f : Nat → Bool) k => if k = ca then false else f k) h.bitmap }
  mapUnset {s t} h ca _ :=
    { h with bitmap :=
        congrArg (Option.map fun (f : Nat → Bool) k => if k = ca then true else f k) h.bitmap }

/-- The slots are alike as far as their type says that they are written. -/
structure SlotAlike (c c' : Content) : Prop where
  contentType : c.contentType = c'.contentType
  indexRoot : c.indexRoot = c'.indexRoot
  held : c.contentType = .file ∨ c.contentType = .directory →
    c.entry = c'.entry ∧ c.parentCluster = c'.parentCluster ∧ c.dataCluster = c'.dataCluster ∧
      c.mode = c'.mode
  directory : c.contentType = .directory → c.directoryName = c'.directoryName
  file : c.contentType = .file → c.fileName = c'.fileName ∧ c.fileExtension = c'.fileExtension

/-- The states of two mounts of a volume without error copies. -/
structure Alike (m : Mount) (s t : FS) : Prop extends SameCore s t where
  noErrors : m.fi.errorsCount = 0
  journalIndex : m.fi.journalsCount = 0 ∨ s.journalIndex = t.journalIndex
  slots : ∀ i, SlotAlike (s.contents i) (t.contents i)

theorem alike_logs : LogBisim m (Alike m) where
  medium h := h.medium
  setMedium h _ := { h with medium := rfl }
  errors h := Or.inr ⟨h.noErrors, fun _ _ => { h with }⟩
  setErrors h _ := { h with }
  journalIndex h := h.journalIndex
  setJournalIndex h _ := { h with journalIndex := Or.inr rfl }
  setAdded h _ := { h with }
  setSolving h _ := { h with }

theorem alike_bisim : Bisim m (Alike m) where
  medium h := h.medium
  setMedium := alike_logs.setMedium
  error h c := alike_logs.error h c
  cached h _ hca := (sameCore_fat h.noErrors).cached h.toSameCore hca
  cache h _ hca x := { h with toSameCore := (sameCore_fat h.noErrors).cache h.toSameCore hca x }
  mapSet h _ hca := { h with toSameCore := (sameCore_fat h.noErrors).mapSet h.toSameCore hca }
  mapUnset h _ hca := { h with toSameCore := (sameCore_fat h.noErrors).mapUnset h.toSameCore hca }
  findFree h offset size := by rw [fatmapFindFree, fatmapFindFree, h.bitmap]
  lastAllocated h := h.lastAllocated
  offset {s t} h := by
    rw [getClusterOffset, getClusterOffset, h.lastAllocated]
    split
    · exact Pairs.mk _ h
    · exact Pairs.mk _ { h with lastAllocated := rfl }
  moved h _ x := by
    rw [moveOffset, moveOffset]
    split
    · exact { h with lastAllocated := rfl }
    · exact h
  allocated h _ := { h with }
  heap h := h.heap
  mallocs h := h.mallocs
  setHeap h _ := { h with heap := rfl }
  malloced h := { h with mallocs := congrArg (· + 1) h.mallocs }
  journalAdd := alike_logs.journalAdd
  journalSolve := alike_logs.journalSolve

/-- Behind the table the contents are the same. -/
def TableAlike (i : Nat) (c c' : Content) : Prop :=
  SlotAlike c c' ∧ (CONTENT_TABLE_SIZE ≤ i → c = c')

theorem alike_table : TableBisim m (Alike m) TableAlike where
  bisim := alike_bisim
  table h i := ⟨h.slots i, h.outside i⟩
  setContent {s t} h i c c' hc := by
    refine { h with outside := ?_, slots := ?_ }
    · intro k hk
      show (if k = i then c else s.contents k) = if k = i then c' else t.contents k
      split
      · next hki => exact hc.2 (hki ▸ hk)
      · exact h.outside k hk
    · intro k
      show SlotAlike (if k = i then c else s.contents k) (if k = i then c' else t.contents k)
      split
      · exact hc.1
      · exact h.slots k
  contentType h := h.1.contentType
  indexRoot h := h.1.indexRoot
  emptied h := by
    refine ⟨⟨rfl, rfl, ?_, ?_, ?_⟩, fun hi => congrArg _ (h.2 hi)⟩
    · rintro (hfile | hdir)
      · cases hfile
      · cases hdir
    · intro hdir
      cases hdir
    · intro hfile
      cases hfile
  taken h := by
    refine ⟨⟨rfl, rfl, ?_, ?_, ?_⟩, fun hi => congrArg _ (h.2 hi)⟩
    · rintro (hfile | hdir)
      · cases hfile
      · cases hdir
    · intro hdir
      cases hdir
    · intro hfile
      cases hfile
  filled {i c c'} h isDir name e mode := by
    refine ⟨?_, fun hi => congrArg (fun d => d.filled isDir name e mode) (h.2 hi)⟩
    cases isDir with
    | true =>
      refine ⟨rfl, h.1.indexRoot, fun _ => ⟨rfl, rfl, rfl, rfl⟩, fun _ => rfl, ?_⟩
      intro hfile
      cases hfile
    | false =>
      refine ⟨rfl, h.1.indexRoot, fun _ => ⟨rfl, rfl, rfl, rfl⟩, ?_, fun _ => ⟨rfl, rfl⟩⟩
      intro hdir
      cases hdir
  moved h ca := by
    refine ⟨⟨h.1.contentType, h.1.indexRoot, ?_, h.1.directory, h.1.file⟩,
      fun hi => congrArg (fun d => { d with dataCluster := ca }) (h.2 hi)⟩
    intro htype
    obtain ⟨he, hp, -, hm⟩ := h.1.held htype
    exact ⟨he, hp, rfl, hm⟩

/-! ### Requests through open handles -/

/-- The handle is outside the table, or its slot holds a file or a directory. -/
def HoldsContent (ci : Int) (s : FS) : Prop :=
  inTable ci → (s.contents ci.toNat).contentType = .file ∨
    (s.contents ci.toNat).contentType = .directory

/-- The slots that the call reads without a look at their type hold a file or a directory. -/
def ApiCall.ThroughOpen (s : FS) : ApiCall → Prop
  | .openContent rci _ _ => HoldsContent rci s
  | .statContent _ _ => True
  | c => ∀ ci ∈ c.handles, HoldsContent ci s

/-- The request goes through open handles. -/
def Request.ThroughOpen (s : FS) : Request → Prop
  | .call c => c.ThroughOpen s
  | _ => True

theorem Alike.handle (h : Alike m s t) {ci : Int} (hci : HoldsContent ci s) :
    SameHandle ci s t := by
  by_cases hin : inTable ci
  · obtain ⟨he, hp, hd, hm⟩ := (h.slots ci.toNat).held (hci hin)
    constructor
    · rw [getContentDataCa, getContentDataCa, hd]
    · rw [getContentRootCa, getContentRootCa, hp]
    · rw [getContentMode, getContentMode, hm]
    · rw [getContentName, getContentName, he]
  · constructor
    · rw [getContentDataCa, getContentDataCa, if_neg hin, if_neg hin]
    · rw [getContentRootCa, getContentRootCa, if_neg hin, if_neg hin]
    · rw [getContentMode, getContentMode, if_neg hin, if_neg hin]
    · rw [getContentName, getContentName, if_neg hin, if_neg hin]

theorem Alike.readsSame (h : Alike m s t) {c : ApiCall} (hc : c.ThroughOpen s) :
    c.ReadsSame s t := by
  have hdir : ∀ ci, getContentType ci t = .directory →
      getContentDataCa ci s = getContentDataCa ci t := by
    intro ci hdir
    refine (h.handle ?_).dataCa
    intro hin
    rw [getContentType, if_pos hin] at hdir
    exact Or.inr ((h.slots ci.toNat).contentType.trans hdir)
  cases c with
  | openContent rci => exact (h.handle hc).dataCa
  | indexContent ci | repairContent ci => exact hdir ci
  | statContent => trivial
  | _ => exact fun ci hci => h.handle (hc ci hci)

theorem Alike.stat (h : Alike m s t) (i : Nat) (info : CInfo) :
    statContent i info s = statContent i info t := by
  have hslot := h.slots i
  rw [statContent, statContent, ← hslot.contentType]
  cases htype : (s.contents i).contentType with
  | directory => simp only [hslot.directory htype]
  | file =>
    obtain ⟨he, -⟩ := hslot.held (Or.inl htype)
    obtain ⟨hname, hext⟩ := hslot.file htype
    simp only [he, hname, hext]
  | unknown => rfl
  | empty => rfl

/-- A request through open handles gets the same answer. -/
theorem Alike.serve (h : Alike m s t) {q : Request} (hq : q.ThroughOpen s) (fuel : Nat) :
    Ends (Alike m) Prod.mk (serve m q fuel s) (serve m q fuel t) := by
  apply alike_table.serve alike_logs _ Alike.stat h
  · rintro c rfl
    exact h.readsSame hq
  · rintro i c c' ⟨hc, hi⟩ root
    exact ⟨{ hc with indexRoot := rfl }, fun hout => by rw [hi hout]⟩

/-! ### The mount of the second volume -/

/-- How two mounts end: neither completes, both fail, or both leave the same `_fs_data` and alike
states. -/
inductive MountsAlike : Option (Bool × Mount × FS) → Option (Bool × Mount × FS) → Prop
  | stuck : MountsAlike none none
  | failed (m m' : Mount) (s t : FS) : MountsAlike (some (false, m, s)) (some (false, m', t))
  | mounted {m : Mount} {s t : FS} (h : Alike m s t) :
      MountsAlike (some (true, m, s)) (some (true, m, t))

section Caches

variable {R : FS → FS → Prop}

/-- The set-up of the caches respects a relation that the two allocations do. -/
theorem initCaches_related (hb : FatBisim m R)
    (hsome : ∀ {s t}, R s t → s.fat.isSome = t.fat.isSome ∧ s.bitmap.isSome = t.bitmap.isSome)
    (hmallocs : ∀ {s t}, R s t → s.mallocs = t.mallocs)
    (hcalled : ∀ {s t}, R s t → ∀ n, R { s with mallocs := n } { t with mallocs := n })
    (hfat : ∀ {s t}, R s t → ∀ f, R { s with fat := f } { t with fat := f })
    (hmap : ∀ {s t}, R s t → ∀ f, R { s with bitmap := f } { t with bitmap := f })
    (flags : UInt8) (h : R s t) : R (initCaches m flags s) (initCaches m flags t) := by
  have hfatInit : ∀ {s t}, R s t → R (fatCacheInit m s).2 (fatCacheInit m t).2 := by
    intro s t h
    have hnext := hcalled h (t.mallocs + 1)
    rw [fatCacheInit, fatCacheInit, (hsome h).1, hmallocs h]
    split
    · exact h
    split
    · exact hb.error hnext _
    · exact hfat hnext _
  have hmapInit : ∀ {s t}, R s t → R (fatmapInit m s).2 (fatmapInit m t).2 := by
    intro s t h
    have hnext := hcalled h (t.mallocs + 1)
    rw [fatmapInit, fatmapInit, (hsome h).2, hmallocs h]
    split
    · exact h
    split
    · exact hb.error hnext _
    · exact hmap hnext _
  have hload : ∀ {s t}, R s t → R (fatCacheHload m s).2 (fatCacheHload m t).2 := by
    intro s t h
    have hnone : s.fat.isNone = t.fat.isNone := by
      rw [← Option.not_isSome, ← Option.not_isSome, (hsome h).1]
    exact (hb.fatCacheHload h hnone).snd
  rw [initCaches, initCaches]
  by_cases hcache : flags &&& CACHE ≠ 0
  · rw [if_pos hcache, if_pos hcache]
    simp only
    split
    · split
      · exact hload (hmapInit (hfatInit h))
      · exact hload (hfatInit h)
    · split
      · exact hmapInit (hfatInit h)
      · exact hfatInit h
  · rw [if_neg hcache, if_neg hcache]
    exact h

end Caches

theorem initCaches_alike (hcount : m.fi.errorsCount = 0) (flags : UInt8) (h : SameCore s t) :
    SameCore (initCaches m flags s) (initCaches m flags t) := by
  apply initCaches_related (sameCore_fat hcount) _ SameCore.mallocs _ _ _ flags h
  · intro s t h
    exact ⟨congrArg Option.isSome h.fat, congrArg Option.isSome h.bitmap⟩
  · intro s t h n
    exact { h with mallocs := rfl }
  · intro s t h f
    exact { h with fat := rfl }
  · intro s t h f
    exact { h with bitmap := rfl }

/-- `ctable_init` makes the tables alike, and a replay sets the journal index. -/
theorem SameCore.alike (h : SameCore s t) (hcount : m.fi.errorsCount = 0)
    (hindex : m.fi.journalsCount = 0 ∨ s.journalIndex = t.journalIndex) :
    Alike m (ctableInit s) (ctableInit t) where
  toSameCore := by
    refine { h with outside := ?_ }
    intro i hi
    show (if i < CONTENT_TABLE_SIZE then _ else _) = if i < CONTENT_TABLE_SIZE then _ else _
    rw [if_neg (Nat.not_lt.mpr hi), if_neg (Nat.not_lt.mpr hi)]
    exact h.outside i hi
  noErrors := hcount
  journalIndex := hindex
  slots i := by
    show SlotAlike (if i < CONTENT_TABLE_SIZE then _ else _)
      (if i < CONTENT_TABLE_SIZE then _ else _)
    split
    · refine ⟨rfl, rfl, ?_, ?_, ?_⟩
      · rintro (hfile | hdir)
        · cases hfile
        · cases hdir
      · intro hdir
        cases hdir
      · intro hfile
        cases hfile
    · next hi =>
      rw [h.outside i (Nat.not_lt.mp hi)]
      exact ⟨rfl, rfl, fun _ => ⟨rfl, rfl, rfl, rfl⟩, fun _ => rfl, fun _ => ⟨rfl, rfl⟩⟩

/-- The state before the replay of the journal. -/
def mountState (m : Mount) (p : Params) (bsNum : Nat) (sector : List UInt8) (s : FS) : FS :=
  ctableInit (initCaches m p.fatCache (if 0 < bsNum then
    rewriteBoots m p.ts.toNat bsNum sector (List.range p.bsCount.toNat) s else s))

theorem mountFrom_eq {m' : Mount} {p : Params} {sector : List UInt8}
    (hbps : (decodeBoot sector).bytesPerSector ≠ 0)
    (hm : m' = m.withInfo (geometryOf m.fi p (decodeBoot sector))) (fuel bsNum : Nat) (s : FS) :
    mountFrom m fuel p bsNum sector s =
      if p.jc = 0 then some (true, m', mountState m' p bsNum sector s)
      else (restoreFromJournal m' fuel (mountState m' p bsNum sector s)).map
        fun r => (true, m', r.2) := by
  rw [mountFrom, hm]
  simp only [if_neg hbps]
  rfl

theorem restoreFromJournal_index (fuel i : Nat) (s : FS) :
    restoreFromJournal m fuel { s with journalIndex := i } = restoreFromJournal m fuel s ∨
      m.fi.journalsCount = 0 := by
  by_cases hcount : m.fi.journalsCount = 0
  · exact Or.inr hcount
  · left
    rw [restoreFromJournal, restoreFromJournal, if_neg hcount, if_neg hcount]

theorem mountFrom_alike {fi fi' : FatData} (hoffset : fi.entryOffset = fi'.entryOffset)
    (fuel : Nat) {p : Params} (hec : p.ec = 0) (bsNum : Nat) (sector : List UInt8)
    (h : SameCore s t) :
    MountsAlike (mountFrom (m.withInfo (startInfo fi p)) fuel p bsNum sector s)
      (mountFrom (m.withInfo (startInfo fi' p)) fuel p bsNum sector t) := by
  by_cases hbps : (decodeBoot sector).bytesPerSector = 0
  · rw [mountFrom, mountFrom]
    simp only [if_pos hbps]
    exact MountsAlike.stuck
  have hgeo : geometryOf (startInfo fi' p) p (decodeBoot sector)
      = geometryOf (startInfo fi p) p (decodeBoot sector) := by
    simp only [geometryOf, startInfo, hoffset]
  generalize hm : m.withInfo (geometryOf (startInfo fi p) p (decodeBoot sector)) = m'
  rw [mountFrom_eq (m := m.withInfo (startInfo fi p)) hbps hm.symm,
    mountFrom_eq (m := m.withInfo (startInfo fi' p)) hbps
      (hm.symm.trans (congrArg m.withInfo hgeo.symm))]
  have hcount : m'.fi.errorsCount = 0 := by
    rw [← hm]
    show p.ec.toNat = 0
    rw [hec]
    rfl
  have hjournals : m'.fi.journalsCount = p.jc.toNat := by
    rw [← hm]
    rfl
  -- the boot copies are written, then the caches are set up
  have hcore : SameCore
      (if 0 < bsNum then
        rewriteBoots m' p.ts.toNat bsNum sector (List.range p.bsCount.toNat) s else s)
      (if 0 < bsNum then
        rewriteBoots m' p.ts.toNat bsNum sector (List.range p.bsCount.toNat) t else t) := by
    split
    · apply foldl_related (R := SameCore) _ _ h
      intro s t i h'
      split
      · exact h'
      · rw [h'.medium]
        exact { h' with medium := rfl }
    · exact h
  have hcaches := initCaches_alike hcount p.fatCache hcore
  by_cases hjc : p.jc = 0
  · rw [if_pos hjc, if_pos hjc]
    refine MountsAlike.mounted (hcaches.alike hcount (Or.inl ?_))
    rw [hjournals, hjc]
    rfl
  · rw [if_neg hjc, if_neg hjc]
    have hsome : m'.fi.journalsCount ≠ 0 := by
      rw [hjournals]
      intro hzero
      exact hjc (UInt8.toNat_inj.mp hzero)
    have hreset : Alike m'
        { mountState m' p bsNum sector s with journalIndex := 0 }
        { mountState m' p bsNum sector t with journalIndex := 0 } := by
      have halike :=
          SameCore.alike (m := m') (s := { initCaches m' p.fatCache _ with journalIndex := 0 })
        (t := { initCaches m' p.fatCache _ with journalIndex := 0 }) { hcaches with } hcount
        (Or.inr rfl)
      exact halike
    rw [← (restoreFromJournal_index fuel 0 (mountState m' p bsNum sector s)).resolve_right hsome,
      ← (restoreFromJournal_index fuel 0 (mountState m' p bsNum sector t)).resolve_right hsome]
    rcases alike_logs.restoreFromJournal hreset fuel with ⟨hs, ht⟩ | ⟨ok, s', t', hs, ht, h'⟩
    · rw [hs, ht]
      exact MountsAlike.stuck
    · rw [hs, ht]
      exact MountsAlike.mounted h'

theorem initFrom_eq {p : Params} (hec : p.ec = 0) (fuel left : Nat) (fi : FatData) (s : FS) :
    initFrom fuel p (left + 1) (m.withInfo fi) s =
      if m.sectorSize = 0 then some (false, m.withInfo fi, s)
      else
        match dskReadSector m s.medium (getBootSector (p.bsCount.toNat - (left + 1)) p.ts.toNat)
          m.sectorSize with
        | none => some (false, m.withInfo (startInfo fi p),
            registerError (m.withInfo (startInfo fi p)) .sectorReadError s)
        | some sector =>
          if (decodeBoot sector).Valid then
            mountFrom (m.withInfo (startInfo fi p)) fuel p (p.bsCount.toNat - (left + 1)) sector s
          else
            initFrom fuel p left (m.withInfo (startInfo fi p))
              (registerError (m.withInfo (startInfo fi p)) .checksumCheckError s) := by
  rw [initFrom]
  simp only [if_pos hec]
  rfl

/-- The search for a boot sector reads the device alone. -/
theorem initFrom_alike {p : Params} (hec : p.ec = 0) (fuel left : Nat) : ∀ {fi fi' : FatData}
    {s t : FS}, fi.entryOffset = fi'.entryOffset → SameCore s t →
    MountsAlike (initFrom fuel p left (m.withInfo fi) s)
      (initFrom fuel p left (m.withInfo fi') t) := by
  induction left with
  | zero =>
    intro fi fi' s t _ _
    exact MountsAlike.failed _ _ s t
  | succ left ih =>
    intro fi fi' s t hoffset h
    rw [initFrom_eq hec, initFrom_eq hec, h.medium]
    split
    · exact MountsAlike.failed _ _ s t
    cases dskReadSector m t.medium (getBootSector (p.bsCount.toNat - (left + 1)) p.ts.toNat)
      m.sectorSize with
    | none => exact MountsAlike.failed _ _ _ _
    | some sector =>
      simp only
      split
      · exact mountFrom_alike hoffset fuel hec _ sector h
      · -- a failed check leaves a record in a ring without copies
        have hcount : p.ec.toNat = 0 := by
          rw [hec]
          rfl
        obtain ⟨r, hs⟩ := registerError_none (m := m.withInfo (startInfo fi p)) hcount
          .checksumCheckError s
        obtain ⟨r', ht⟩ := registerError_none (m := m.withInfo (startInfo fi' p)) hcount
          .checksumCheckError t
        rw [hs, ht]
        exact ih hoffset { h with }

/-! ### The run on the first volume -/

/-- Nothing moves the allocation pointer: no offset of a call is `NO_CLUSTER_OFFSET`. -/
theorem getClusterOffset_start (hoffset : m.fi.entryOffset = 0)
    (h : s.lastAllocatedCluster = CLUSTER_OFFSET) :
    (getClusterOffset m s).2 = s ∧ (getClusterOffset m s).1 ≠ NO_CLUSTER_OFFSET := by
  have hlast : (((s.lastAllocatedCluster : Int) + 0) % 2 ^ 32).toNat = CLUSTER_OFFSET := by
    rw [h]
    decide
  rw [getClusterOffset, if_neg (by rw [hoffset]; decide), hoffset]
  simp only [hlast]
  refine ⟨?_, ?_⟩
  · rw [← h]
  · rw [getClusterOff]
    have hle := Nat.mod_le (u32 ((CLUSTER_OFFSET + 11) * 3024953) >>> 1)
      (sub32 m.fi.totalClusters m.fi.extRootCluster)
    have hsmall : u32 ((CLUSTER_OFFSET + 11) * 3024953) >>> 1 < NO_CLUSTER_OFFSET := by decide
    omega

/-- The allocation pointer is where it was at the start. -/
def StartsAt (s : FS) : Prop := s.lastAllocatedCluster = CLUSTER_OFFSET

/-- Neither a bitmap nor a moved allocation pointer. -/
def Unmapped (s : FS) : Prop := StartsAt s ∧ s.bitmap = none

theorem startsAt_step (hoffset : m.fi.entryOffset = 0) : StepInvariant m StartsAt where
  logs h hlogs := hlogs.lastAllocated.trans h
  cache h _ _ _ := h
  mapSet h _ _ := h
  mapUnset h _ _ := h
  offset h := by
    rw [(getClusterOffset_start hoffset h).1]
    exact h
  moved h hu x := by
    rw [moveOffset, if_neg (getClusterOffset_start hoffset hu).2]
    exact h
  allocated h _ := h
  setHeap h _ := h
  malloced h := h

theorem unmapped_step (hoffset : m.fi.entryOffset = 0) : StepInvariant m Unmapped where
  logs h hlogs := ⟨(startsAt_step hoffset).logs h.1 hlogs, hlogs.bitmap.trans h.2⟩
  cache h _ _ _ := h
  mapSet h _ _ := ⟨h.1, congrArg (Option.map _) h.2⟩
  mapUnset h _ _ := ⟨h.1, congrArg (Option.map _) h.2⟩
  offset h := by
    rw [(getClusterOffset_start hoffset h.1).1]
    exact h
  moved h hu x := by
    rw [moveOffset, if_neg (getClusterOffset_start hoffset hu.1).2]
    exact h
  allocated h _ := h
  setHeap h _ := h
  malloced h := h

theorem initCaches_startsAt (hoffset : m.fi.entryOffset = 0) (flags : UInt8) (h : StartsAt s) :
    StartsAt (initCaches m flags s) := by
  refine (initCaches_related (R := fun s t => s = t ∧ StartsAt s)
    (startsAt_step hoffset).bisim.toFatBisim ?_ ?_ ?_ ?_ ?_ flags ⟨rfl, h⟩).2
  · rintro s _ ⟨rfl, -⟩
    exact ⟨rfl, rfl⟩
  · rintro s _ ⟨rfl, -⟩
    rfl
  · rintro s _ ⟨rfl, h⟩ n
    exact ⟨rfl, h⟩
  · rintro s _ ⟨rfl, h⟩ f
    exact ⟨rfl, h⟩
  · rintro s _ ⟨rfl, h⟩ f
    exact ⟨rfl, h⟩

theorem mountFrom_startsAt (hoffset : m.fi.entryOffset = 0) (h : StartsAt s) {fuel bsNum : Nat}
    {p : Params} {sector : List UInt8} {ok : Bool} {m' : Mount} {s' : FS}
    (hrun : mountFrom m fuel p bsNum sector s = some (ok, m', s')) :
    m'.fi.entryOffset = 0 ∧ StartsAt s' := by
  by_cases hbps : (decodeBoot sector).bytesPerSector = 0
  · rw [mountFrom] at hrun
    simp only [if_pos hbps] at hrun
    cases hrun
  generalize hm : m.withInfo (geometryOf m.fi p (decodeBoot sector)) = m₁ at *
  have hoffset' : m₁.fi.entryOffset = 0 := by
    rw [← hm]
    exact hoffset
  have hmount : StartsAt (mountState m₁ p bsNum sector s) := by
    refine initCaches_startsAt (s := ite _ _ _) hoffset' p.fatCache ?_
    split
    · refine (foldl_related (R := fun s t => s = t ∧ StartsAt s) _ ?_ ⟨rfl, h⟩).2
      rintro s _ i ⟨rfl, h⟩
      refine ⟨rfl, ?_⟩
      split
      · exact h
      · exact h
    · exact h
  rw [mountFrom_eq hbps hm.symm] at hrun
  split at hrun
  · cases hrun
    exact ⟨hoffset', hmount⟩
  · obtain ⟨r, hreplay, hr⟩ := Option.map_eq_some_iff.mp hrun
    cases hr
    refine ⟨hoffset', ?_⟩
    rcases (startsAt_step hoffset').logBisim.restoreFromJournal ⟨rfl, hmount⟩ fuel with
      ⟨hnone, -⟩ | ⟨ok, u, _, hu, -, -, hu'⟩
    · rw [hnone] at hreplay
      cases hreplay
    · rw [hu] at hreplay
      cases hreplay
      exact hu'

theorem errorsSetup_statics (m : Mount) (s : FS) : SameStatics s (errorsSetup m s).2 := by
  have hread : SameStatics s (readError m 0 s).2 := by
    rw [readError]
    rcases voteError m 0 s with ⟨b, _ | i⟩
    · exact SameStatics.refl s
    · simp only
      split
      · exact writeError_statics m 0 b.val s
      · exact SameStatics.refl s
  rw [errorsSetup]
  generalize NiFat32.readError m 0 s = r at hread
  rcases r with ⟨_ | body, s'⟩
  · exact hread
  · exact hread.trans ⟨rfl, rfl, rfl, rfl, rfl, rfl, rfl⟩

/-- A mount leaves the allocation pointer, and no offset is set. -/
theorem initFrom_startsAt {fuel left : Nat} {p : Params} : ∀ {m : Mount} {s : FS} {ok : Bool}
    {m' : Mount} {s' : FS}, m.fi.entryOffset = 0 → StartsAt s →
    initFrom fuel p left m s = some (ok, m', s') → m'.fi.entryOffset = 0 ∧ StartsAt s' := by
  induction left with
  | zero =>
    intro m s ok m' s' hoffset h hrun
    cases hrun
    exact ⟨hoffset, h⟩
  | succ left ih =>
    intro m s ok m' s' hoffset h hrun
    have hsetup : StartsAt (errorsSetup (m.withInfo { m.fi with errorsCount := p.ec.toNat }) s).2 :=
      (startsAt_step hoffset).logs h (errorsSetup_statics _ s)
    have hoffset₁ : (m.withInfo (startInfo m.fi p)).fi.entryOffset = 0 := hoffset
    have hoffset₂ : (m.withInfo { m.fi with errorsCount := p.ec.toNat }).fi.entryOffset = 0 :=
        hoffset
    rw [initFrom] at hrun
    simp only at hrun
    generalize errorsSetup (m.withInfo { m.fi with errorsCount := p.ec.toNat }) s = setup
      at hsetup hrun
    generalize m.withInfo (startInfo m.fi p) = m₁ at hoffset₁ hrun
    generalize m.withInfo { m.fi with errorsCount := p.ec.toNat } = m₂ at hoffset₂ hrun
    -- the ring is read, and may be repaired
    have hring : StartsAt (if p.ec = 0 then (true, s) else setup).2 := by
      split
      · exact h
      · exact hsetup
    generalize (if p.ec = 0 then (true, s) else setup) = start at hring hrun
    split at hrun
    · cases hrun
      exact ⟨hoffset, h⟩
    have hP := startsAt_step hoffset₁
    rcases start with ⟨_ | _, s₁⟩
    · cases hrun
      exact ⟨hoffset₂, hring⟩
    · have herror : ∀ c, StartsAt (registerError m₁ c s₁) :=
        fun c => hP.logs hring (registerError_statics m₁ c s₁)
      simp only at hrun
      split at hrun
      · cases hrun
        exact ⟨hoffset₁, herror _⟩
      split at hrun
      · exact mountFrom_startsAt hoffset₁ hring hrun
      · exact ih hoffset₁ (herror _) hrun

theorem serveAll_unmapped (qs : List (Request × Nat)) : ∀ {x y : Process},
    x.mount.fi.entryOffset = 0 → Unmapped x.fs → x.serveAll qs = some y →
    y.mount = x.mount ∧ Unmapped y.fs := by
  induction qs with
  | nil =>
    intro x y _ h hrun
    cases hrun
    exact ⟨rfl, h⟩
  | cons q qs ih =>
    intro x y hoffset h hrun
    rw [Process.serveAll, List.foldlM_cons] at hrun
    obtain ⟨x', hserve, hrest⟩ := Option.bind_eq_some_iff.mp hrun
    obtain ⟨⟨r, x''⟩, hserve', rfl⟩ := Option.map_eq_some_iff.mp hserve
    obtain ⟨⟨r', s'⟩, hcall, hx⟩ := Option.map_eq_some_iff.mp hserve'
    cases hx
    have hstep : Unmapped s' :=
      (unmapped_step hoffset).serve (fun h _ _ => h) h hcall
    exact ih (x := { x with fs := s' }) hoffset hstep hrest

theorem destroyContent_contents {fuel : Nat} {ci : Int} {ok : Bool} {s' : FS}
    (hrun : destroyContent fuel ci s = some (ok, s')) : ∃ c, s' = { s with contents := c } := by
  rw [destroyContent] at hrun
  split at hrun
  · simp only at hrun
    split at hrun
    · cases hrun
    · cases hrun
      exact ⟨_, rfl⟩
  · cases hrun
    exact ⟨s.contents, rfl⟩

/-- `NIFAT32_unload` empties the FAT cache and changes the content table. -/
theorem nifat32Unload_statics {fuel : Nat} {ok : Bool} {s' : FS}
    (hrun : nifat32Unload fuel s = some (ok, s')) :
    ∃ c, s' = { s with fat := none, contents := c } := by
  have hdestroy : ∀ (is : List Nat) {s s' : FS},
      is.foldlM (fun s (i : Nat) => (destroyContent fuel i s).map Prod.snd) s = some s' →
      ∃ c, s' = { s with contents := c } := by
    intro is
    induction is with
    | nil =>
      intro s s' hrun
      cases hrun
      exact ⟨s.contents, rfl⟩
    | cons i is ih =>
      intro s s' hrun
      rw [List.foldlM_cons] at hrun
      obtain ⟨s₁, hone, hrest⟩ := Option.bind_eq_some_iff.mp hrun
      obtain ⟨⟨ok, s₂⟩, hone', rfl⟩ := Option.map_eq_some_iff.mp hone
      obtain ⟨c, rfl⟩ := destroyContent_contents hone'
      obtain ⟨c', rfl⟩ := ih hrest
      exact ⟨c', rfl⟩
  obtain ⟨s₁, hrun', h⟩ := Option.map_eq_some_iff.mp hrun
  cases h
  rw [ctableDestroy] at hrun'
  obtain ⟨c, rfl⟩ := hdestroy _ hrun'
  refine ⟨c, ?_⟩
  rw [fatCacheUnload]
  cases hfat : s.fat with
  | none => simp [hfat]
  | some f => rfl

/-- After the unload the statics are those of a process that starts, as far as a mount does not set
them. -/
theorem unload_core {n : Mount} {d : Medium} {fuel : Nat} {ok : Bool} {x z : Process}
    (h : Unmapped x.fs) (hrun : x.unload fuel = some (ok, z)) :
    z.mount = x.mount ∧ SameCore (z.attach n d).fs (Process.start n d z.fs).fs := by
  obtain ⟨⟨ok', s'⟩, hunload, hz⟩ := Option.map_eq_some_iff.mp hrun
  cases hz
  obtain ⟨c, rfl⟩ := nifat32Unload_statics hunload
  refine ⟨rfl, ?_⟩
  constructor
  · rfl
  · rfl
  · exact h.2
  · exact h.1
  · rfl
  · rfl
  · intro i hi
    exact (if_neg (Nat.not_lt.mpr hi)).symm

end NiFat32
