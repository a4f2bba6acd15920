import NiFat32.Proofs.BitFlips
import NiFat32.Proofs.FreeChain
import NiFat32.Proofs.Handles

/-!
# `Proofs.AnyVolume`: what the library reads in an arbitrary state

`Shows` asks that the copies of the FAT and its cache agree. Here nothing is asked: `held` is the
volume as the library reads it in a state, the FAT through the cache and the vote over the copies.
`Reads` says that the library reads the links and the slots of a volume. It leaves the bytes that
encode the slots open, so a cluster that a walk only encodes again keeps its volume.

Every operation that a walk makes has one lemma: `Reads.readFat`, `Reads.dealloc`,
`Reads.readCluster`, `Reads.writeSlots`, and `Reads.logOnly` for the errors and the journal.
-/

set_option autoImplicit false

namespace NiFat32

open ByteStore

variable {m : Mount} {s s' : FS} {v : Vol} {ca : Nat}

/-- The volume as the library reads it. -/
def held (m : Mount) (s : FS) : Vol where
  fat := fatValue m s
  raw := (view m s).raw

/-- The bytes of a cluster. -/
def heldBytes (m : Mount) (s : FS) (c : Nat) : List UInt8 :=
  read s.medium.bytes (clusterAddr m c) m.fi.clusterSize

@[simp] theorem length_heldBytes (s : FS) (c : Nat) :
    (heldBytes m s c).length = m.fi.clusterSize := length_read _ _ _

/-- The library reads the links and the slots of the volume. -/
structure Reads (m : Mount) (s : FS) (v : Vol) : Prop where
  fat : Views m s v.fat
  slots : ∀ c, InVol m c → slotsIn m (heldBytes m s c) = v.slots m c
  sized : Sized m v

/-- The copies of an entry are its cells. -/
theorem fatAt_eq (L : Layout m) (s : FS) (c i : Nat) :
    fatAt m s.medium c i = fatCell m s.medium.bytes c i := by
  have hread := (readFatCopy_works L.works c i s).symm.trans (readFatCopy_eq L c i s)
  exact congrArg (fun r : Nat × FS => r.1) hread

/-- States with the same cells and the same cache have the same view of the FAT. -/
theorem viewFat_congr (L : Layout m) {c : Nat} (hfat : s'.fat = s.fat)
    (hcells : ∀ i, i < m.fi.fatCount →
      fatCell m s'.medium.bytes c i = fatCell m s.medium.bytes c i) :
    viewFat m s' c = viewFat m s c := by
  have hmap : (List.range m.fi.fatCount).map (fatAt m s'.medium c)
      = (List.range m.fi.fatCount).map (fatAt m s.medium c) := by
    refine List.map_congr_left fun i hi => ?_
    rw [fatAt_eq L, fatAt_eq L]
    exact hcells i (List.mem_range.mp hi)
  unfold viewFat cachedFat votedFat fatBallot
  rw [hfat, hmap]

section Held

variable (L : Layout m) (harea : FatArea m)

include L

/-- No entry of the FAT crosses the end of its sector. -/
theorem Layout.entriesInside : EntriesInside m where
  inside := fun c _ => by
    have hle := L.fatEntryPos_le c 0
    rw [Nat.one_mul] at hle
    exact hle
  count := Nat.le_trans L.clusters_le (by decide)

include harea

/-- Every state holds a volume. -/
theorem reads_held (s : FS) : Reads m s (held m s) where
  fat := views_fatValue harea L.entriesInside s
  slots := fun c hc => by
    have hraw : (held m s).raw c = heldBytes m s c := if_pos hc
    unfold Vol.slots
    rw [hraw]
  sized := fun c hc => by
    have hraw : (held m s).raw c = heldBytes m s c := if_pos hc
    rw [hraw, length_heldBytes]

omit harea in
/-- The volume of a state whose copies agree. -/
theorem Shows.held_eq (h : Shows m s v) : held m s = v := by
  have hfat : fatValue m s = v.fat := by
    funext c
    obtain ⟨s', hread, -⟩ := readFat_shows L h c
    unfold fatValue
    rw [hread]
  unfold held
  rw [hfat, h.view_eq]

end Held

/-! ### The operations of a walk -/

section Operations

variable (L : Layout m)

include L

/-- The log sectors are not part of the volume. -/
theorem Reads.logOnly (h : Reads m s v) (hl : LogOnly m s s') : Reads m s' v where
  fat := fun c hc => by
    rw [viewFat_congr L hl.fat fun i hi => hl.cell L hc hi]
    exact h.fat c hc
  slots := fun c hc => by
    unfold heldBytes
    rw [hl.cluster L hc]
    exact h.slots c hc
  sized := h.sized

omit L in
/-- The heap is not part of the volume. -/
theorem Reads.heap (h : Reads m s v) (heap : Heap) (mallocs : Nat) :
    Reads m { s with heap := heap, mallocs := mallocs } v where
  fat := h.fat.congr rfl rfl
  slots := h.slots
  sized := h.sized

theorem Reads.error (h : Reads m s v) (code : ErrorCode) : Reads m (registerError m code s) v :=
  h.logOnly L (registerError_logOnly L.works code s)

/-- A cluster is read as its slots. -/
theorem Reads.readCluster (h : Reads m s v) (hca : InVol m ca) :
    readEncodedCluster m ca s = (some (heldBytes m s ca,
      unpackMemory (heldBytes m s ca) (decodedLen m)), s) ∧
    slotsOf (entriesPerCluster m) (unpackMemory (heldBytes m s ca) (decodedLen m))
      = v.slots m ca :=
  ⟨readEncodedCluster_works L (L.ne_bad hca) s, h.slots ca hca⟩

/-- The slots of a cluster are written back. -/
theorem Reads.writeSlots (h : Reads m s v) (hca : InVol m ca) {enc : List UInt8}
    {slots : List DirEntry} (hlen : slots.length = entriesPerCluster m)
    (henc : enc.length = m.fi.clusterSize) :
    ∃ s', writeCluster m ca (repackCluster m enc (unpackMemory enc (decodedLen m)) slots) s
        = (true, s') ∧ Reads m s' (v.setSlots m ca (v.raw ca) slots) ∧ Keeps [] s s' := by
  generalize hdata : repackCluster m enc (unpackMemory enc (decodedLen m)) slots = data
  have hdlen : data.length = m.fi.clusterSize := by
    rw [← hdata]
    exact length_repackCluster hlen henc
  have hle : 0 + data.length ≤ m.fi.sectorsPerCluster * m.sectorSize := by
    rw [hdlen, L.clusterSize_sectors, Nat.zero_add]
  obtain ⟨hok, hbytes⟩ := writeoffLoop_eq L.works m.fi.sectorsPerCluster (clusterSector m ca) 0 data
    s.medium hle
  generalize hd : (writeoffLoop m m.fi.sectorsPerCluster (clusterSector m ca) 0 data
    s.medium).2 = d at hbytes
  have hbytes' : d.bytes = write s.medium.bytes (clusterAddr m ca) data := hbytes
  refine ⟨{ s with medium := d }, ?_, ⟨?_, ?_, ?_⟩, rfl, rfl, rfl, (List.append_nil _).symm⟩
  · unfold writeCluster writeoffCluster dskWriteoffSectors
    rw [← hok, ← hd]
  · -- the FAT lies apart from the cluster
    intro c hc
    have hcells : ∀ i, i < m.fi.fatCount →
        fatCell m d.bytes c i = fatCell m s.medium.bytes c i := by
      intro i hi
      unfold fatCell
      rw [hbytes', read_write_of_disjoint]
      have hapart := L.cell_cluster c ca i hc hca hi
      unfold Apart at hapart
      rw [hdlen]
      omega
    have hview : viewFat m { s with medium := d } c = viewFat m s c := viewFat_congr L rfl hcells
    exact hview.trans (h.fat c hc)
  · intro c hc
    show slotsIn m (read d.bytes (clusterAddr m c) m.fi.clusterSize) = _
    rw [hbytes']
    by_cases hne : c = ca
    · subst hne
      have hself := read_write_self s.medium.bytes (clusterAddr m c) data
      rw [hdlen] at hself
      rw [hself, ← hdata, slotsIn_repackCluster hlen henc,
        Vol.slots_setSlots_self hlen (h.sized c hc)]
    · rw [read_write_of_disjoint, Vol.slots_setSlots_ne _ _ hne]
      · exact h.slots c hc
      · have hapart := L.clusters_apart hc hca hne
        unfold Apart at hapart
        rw [hdlen]
        omega
  · intro c hc
    by_cases hne : c = ca
    · subst hne
      unfold Vol.setSlots
      rw [Vol.setRaw_raw_self]
      exact length_repackCluster hlen (h.sized c hc)
    · rw [Vol.setSlots_raw_ne _ _ hne]
      exact h.sized c hc

/-- A write of an entry leaves the clusters. -/
theorem writeFatLocked_cluster (hca : InVol m ca) (x : Nat) (s : FS) {c : Nat} (hc : InVol m c) :
    heldBytes m (writeFatLocked m ca x s).2 c = heldBytes m s c := by
  obtain ⟨d, hd, -, hout⟩ := writeFatCopies_eq L hca x (List.range m.fi.fatCount)
    (fun i hi => List.mem_range.mp hi) (noteFat ca x s)
  have hwrite : writeFatLocked m ca x s = (true, { noteFat ca x s with medium := d }) := hd
  rw [hwrite]
  refine read_congr _ _ _ _ fun a h1 h2 => ?_
  show d.bytes a = _
  rw [hout a, noteFat_medium]
  intro i hi
  have hapart := L.cell_cluster ca c i hca hc (List.mem_range.mp hi)
  unfold Apart at hapart
  omega

/-- A read of an entry leaves the clusters, also when it repairs a copy. -/
theorem readFat_cluster (ca : Nat) (s : FS) {c : Nat} (hc : InVol m c) :
    heldBytes m (readFat m ca s).2 c = heldBytes m s c := by
  by_cases hca : InVol m ca
  · cases hcache : cachedFat ca s with
    | some x => rw [readFat_cached hca hcache]
    | none =>
      rw [readFat, if_neg (not_inVol_iff.not.mpr (not_not.mpr hca)), hcache]
      simp only [voteFat_works L.works]
      have hnote : ∀ x, heldBytes m (noteFat ca x s) c = heldBytes m s c := by
        intro x
        unfold heldBytes
        rw [noteFat_medium]
      split
      · rw [writeFatLocked_cluster L hca _ _ hc, hnote]
      · exact hnote _
  · rw [readFat_refused hca]
    exact (registerError_logOnly L.works .readFatError s).cluster L hc

theorem writeFat_cluster (x : Nat) (s : FS) {c : Nat} (hc : InVol m c) :
    heldBytes m (writeFat m ca x s).2 c = heldBytes m s c := by
  by_cases hca : InVol m ca
  · rw [writeFat, if_neg (not_inVol_iff.not.mpr (not_not.mpr hca))]
    exact writeFatLocked_cluster L hca x s hc
  · rw [writeFat_refused hca]
    exact (registerError_logOnly L.works .writeFatError s).cluster L hc

variable (harea : FatArea m)

include harea

/-- `read_fat` returns the link. -/
theorem Reads.readFat (h : Reads m s v) (hca : InVol m ca) :
    ∃ s', NiFat32.readFat m ca s = (v.fat ca, s') ∧ Reads m s' v ∧ Keeps [] s s' := by
  obtain ⟨hval, hviews⟩ := h.fat.read harea L.entriesInside ca
  rw [if_pos hca] at hval
  refine ⟨(NiFat32.readFat m ca s).2, Prod.ext hval rfl, ⟨hviews, ?_, h.sized⟩, ?_⟩
  · intro c hc
    rw [readFat_cluster L ca s hc]
    exact h.slots c hc
  · cases hcache : cachedFat ca s with
    | some x =>
      rw [readFat_cached hca hcache]
      exact Keeps.refl s
    | none =>
      have hn := readFat_noted hca hcache
      exact ⟨hn.contents, hn.heap, hn.mallocs, by rw [hn.allocs, List.append_nil]⟩

/-- Over fixed clusters the FAT is an array. -/
theorem reads_arrayModel (raw : Nat → List UInt8) :
    ArrayModel m fun s f => Reads m s ⟨f, raw⟩ where
  read := fun h ca => by
    obtain ⟨hval, hviews⟩ := h.fat.read harea L.entriesInside ca
    refine ⟨hval, hviews, fun c hc => ?_, h.sized⟩
    rw [readFat_cluster L ca _ hc]
    exact h.slots c hc
  write := fun h hca hx => by
    obtain ⟨hok, hviews⟩ := (views_arrayModel harea L.entriesInside).write h.fat hca hx
    refine ⟨hok, hviews, fun c hc => ?_, h.sized⟩
    rw [writeFat_cluster L _ _ hc]
    exact h.slots c hc
  error := fun h code => h.error L code
  offset := fun h _ => ⟨h.fat.congr rfl rfl, h.slots, h.sized⟩
  allocs := fun h _ => ⟨h.fat.congr rfl rfl, h.slots, h.sized⟩

end Operations

end NiFat32
