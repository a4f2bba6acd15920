import NiFat32.Proofs.FatView
import NiFat32.Proofs.FatVote
import NiFat32.Proofs.FormatCopy
import NiFat32.Proofs.Mount

/-!
# `Proofs.FormatRead`: from the formatter to the library and back

What the formatter copied onto a volume is read back by the library that mounts it. The two programs
agree on the place of a cluster when a cluster has eight sectors (`Mounted.cluster_place`), and on
the FAT under the condition of `FatAgrees` (`readFat_formatted`).

`formatted_volume_mounts` is the mount: the first copy of the boot sector is read back and gives the
geometry of the formatter. `copied_file_reads_back` is the way of a file through both programs.
-/

set_option autoImplicit false

namespace NiFat32.Formatter

open ByteStore

variable {o : Opt} {sz : Sizes} {m : Mount} {passes : Nat} {s : FS}

/-! ### The geometry of both programs -/

/-- The options for which both programs count clusters alike: the formatter always takes eight
sectors for one, and the boot sector has one byte for the number of FAT copies. -/
structure Opt.Common (o : Opt) : Prop where
  spc : o.spc = 8
  fc_pos : 0 < o.fc
  fc_lt : o.fc < 256

theorem sizes_dataStart (h : sizes o passes = some sz) : sz.dataStart
    = u32 (u32 (RESERVED_SECTORS + u32 (asU32 o.fc * sz.fatSize)) * BYTES_PER_SECTOR) := by
  unfold sizes at h
  split at h
  · cases h
  · obtain ⟨fatSize, -, rfl⟩ := Option.map_eq_some_iff.mp h
    rfl

theorem Opt.Common.asU32_fc (ho : o.Common) : asU32 o.fc = o.fc.toNat := by
  have hpos := ho.fc_pos
  have hlt := ho.fc_lt
  unfold asU32
  omega

theorem Opt.Common.spc_eq (ho : o.Common) : asU32 o.spc = 8 ∧ librarySpc o = 8 := by
  unfold librarySpc
  rw [ho.spc]
  decide

/-- The FAT copies fit in front of the clusters: a difference that wraps would give more clusters
than there is room for. -/
theorem Sizes.Room.front (hroom : sz.Room) (hfit : sz.Fit o) (ho : o.Common) :
    32 + o.fc.toNat * sz.fatSize ≤ sz.totalSectors ∧ o.fc.toNat * sz.fatSize < 2 ^ 21 ∧
      sz.totalClusters = (sz.totalSectors - (32 + o.fc.toNat * sz.fatSize)) / 8 := by
  have hclusters := hroom.clusters
  have hts := totalSectors_lt o
  rw [← hfit.sectors] at hts
  have hfc := ho.fc_lt
  have hfat : sz.fatSize ≤ 2 ^ 12 := by
    rw [hfit.fat]
    omega
  have htables : o.fc.toNat * sz.fatSize ≤ 255 * 2 ^ 12 := Nat.mul_le_mul (by omega) hfat
  have htc := hfit.clusters
  unfold clustersFor at htc
  rw [ho.asU32_fc, ho.spc_eq.1] at htc
  generalize o.fc.toNat * sz.fatSize = tables at htables htc ⊢
  unfold sub32 u32 RESERVED_SECTORS at htc
  omega

/-- The fields of the mounted geometry. -/
theorem Mounted.geometry (hm : Mounted o sz m) (hfit : sz.Fit o) (hroom : sz.Room)
    (ho : o.Common) (hpos : 0 < sz.totalClusters) :
    m.fi.fatCount = o.fc.toNat ∧ m.fi.totalClusters = sz.totalClusters ∧
      m.fi.extRootCluster = 2 ∧ m.fi.sectorsPerCluster = 8 ∧ m.fi.clusterSize = CLUSTER_SIZE := by
  obtain ⟨hfront, htables, htc⟩ := hroom.front hfit ho
  obtain ⟨fi, p, hfi⟩ := hm.info
  have hbound := hfit.bound
  have hts := totalSectors_lt o
  rw [← hfit.sectors] at hts
  have hfc : (UInt8.ofNat (asU32 o.fc)).toNat = o.fc.toNat := by
    have hlt := ho.fc_lt
    rw [ho.asU32_fc, UInt8.toNat_ofNat', Nat.mod_eq_of_lt (by omega)]
  have hspc : (UInt8.ofNat (asU32 o.spc)).toNat = 8 := ho.spc_eq.2
  have hsize : (UInt32.ofNat sz.fatSize).toNat = sz.fatSize := by
    have hr := hfit.room
    rw [UInt32.toNat_ofNat', Nat.mod_eq_of_lt (by omega)]
  have hsectors : (UInt32.ofNat sz.totalSectors).toNat = sz.totalSectors := by
    rw [UInt32.toNat_ofNat', Nat.mod_eq_of_lt (by omega)]
  refine ⟨?_, ?_, ?_, ?_, ?_⟩
  · rw [hfi]
    exact hfc
  · rw [hfi]
    simp only [geometryOf, bootSector, BootSector.withChecksums, hfc, hspc, hsize, hsectors]
    -- the signed difference does not wrap, and it is not zero
    have hdiff : ((sz.totalSectors : Int) - (((UInt16.toNat 32 : Nat) : Int)
        + ((o.fc.toNat * sz.fatSize : Nat) : Int) + (((UInt16.toNat 0 * 32
        + (UInt16.toNat 512 - 1)) / UInt16.toNat 512 : Nat) : Int))).bmod (2 ^ 32)
        = ((sz.totalSectors - (32 + o.fc.toNat * sz.fatSize) : Nat) : Int) := by
      generalize o.fc.toNat * sz.fatSize = tables at hfront ⊢
      have hroot : (UInt16.toNat 0 * 32 + (UInt16.toNat 512 - 1)) / UInt16.toNat 512 = 0 := rfl
      have hreserved : UInt16.toNat 32 = 32 := rfl
      rw [hroot, hreserved, Int.bmod_eq_of_le (by omega) (by omega)]
      omega
    rw [hdiff, if_neg (by omega), if_neg (by decide), Int.natCast_tdiv_eq_ediv, htc]
    generalize sz.totalSectors - (32 + o.fc.toNat * sz.fatSize) = left at htc
    omega
  · rw [hfi]
    rfl
  · rw [hfi]
    exact hspc
  · rw [hfi]
    show u32 (512 * (UInt8.ofNat (asU32 o.spc)).toNat) = _
    rw [hspc]
    rfl

/-- Both programs put a cluster at the same place. -/
theorem Mounted.cluster_place (hm : Mounted o sz m) (h : sizes o passes = some sz)
    (hroom : sz.Room) (ho : o.Common) {c : Nat} (hlow : 2 ≤ c) (hc : c < sz.totalClusters) :
    clusterSector m c * 512 = clusterOff sz.dataStart c := by
  have hfit := sizes_fit h
  have hclusters := hroom.clusters
  obtain ⟨-, htables, -⟩ := hroom.front hfit ho
  have hdata : libraryDataSector o sz = 32 + o.fc.toNat * sz.fatSize := by
    have hfc : (UInt8.ofNat (asU32 o.fc)).toNat = o.fc.toNat := by
      have hlt := ho.fc_lt
      rw [ho.asU32_fc, UInt8.toNat_ofNat', Nat.mod_eq_of_lt (by omega)]
    unfold libraryDataSector
    rw [hfc, u32_of_lt (by omega)]
  have hstart : sz.dataStart = (32 + o.fc.toNat * sz.fatSize) * 512 := by
    have htable : u32 (o.fc.toNat * sz.fatSize) = o.fc.toNat * sz.fatSize := u32_of_lt (by omega)
    have hfront : u32 (32 + o.fc.toNat * sz.fatSize) = 32 + o.fc.toNat * sz.fatSize :=
      u32_of_lt (by omega)
    rw [sizes_dataStart h, ho.asU32_fc, htable, RESERVED_SECTORS, BYTES_PER_SECTOR, hfront,
      u32_of_lt (by omega)]
  rw [(hm.clusterSector_eq hfit hlow (by omega)).2, ho.spc_eq.2, hdata,
    Formatter.clusterOff_eq hroom hlow hc, hstart, CLUSTER_SIZE, u32_of_lt (by omega)]
  omega

/-! ### The FAT of the mounted volume -/

/-- The copies of the FAT read back as the table, and the cache has nothing else. -/
structure HasTable (o : Opt) (sz : Sizes) (m : Mount) (table : Nat → Nat) (s : FS) : Prop where
  copies : ReadsBack o sz m table s
  cached : ∀ c x, cachedFat c s = some x → x = table c % 2 ^ 28

theorem HasTable.congr {table : Nat → Nat} {s' : FS} (hw : m.Works) (h : HasTable o sz m table s)
    (hmedium : s'.medium = s.medium)
    (hcached : ∀ c x, cachedFat c s' = some x → x = table c % 2 ^ 28) :
    HasTable o sz m table s' where
  copies c hlow hc i hi := by
    have hcopy := h.copies c hlow hc i hi
    rw [readFatCopy_works hw] at hcopy ⊢
    rwa [hmedium]
  cached := hcached

/-- The library reads an entry of the table, and changes nothing on the device. -/
theorem HasTable.readFat (hm : Mounted o sz m) (hfit : sz.Fit o) (hroom : sz.Room) (ho : o.Common)
    {table : Nat → Nat} (h : HasTable o sz m table s) {c : Nat} (hlow : 2 ≤ c)
    (hc : c < sz.totalClusters) :
    ∃ s', NiFat32.readFat m c s = (table c % 2 ^ 28, s') ∧ s'.medium = s.medium ∧ Keeps [] s s' ∧
      HasTable o sz m table s' := by
  obtain ⟨hcount, hclusters, hroot, -⟩ := hm.geometry hfit hroom ho (by omega)
  have hin : InVol m c := ⟨by omega, by omega⟩
  cases hcache : cachedFat c s with
  | some x =>
    rw [h.cached c x hcache] at hcache
    exact ⟨s, readFat_cached hin hcache, rfl, Keeps.refl s, h⟩
  | none =>
    -- all copies say the same
    have hsame : (List.range m.fi.fatCount).map (fatAt m s.medium c)
        = List.replicate m.fi.fatCount (table c % 2 ^ 28) := by
      rw [List.eq_replicate_iff]
      refine ⟨by rw [List.length_map, List.length_range], fun x hx => ?_⟩
      obtain ⟨i, hi, rfl⟩ := List.mem_map.mp hx
      have hcopy := h.copies c hlow hc i (hcount ▸ List.mem_range.mp hi)
      rwa [readFatCopy_works hm.works] at hcopy
    have hpos : 0 < m.fi.fatCount := by
      have hfc := ho.fc_pos
      omega
    have hvote : voteFat m c s = (fatBallot m s.medium c, s) := voteFat_works hm.works c s
    have hval : (fatBallot m s.medium c).val = table c % 2 ^ 28 := by
      unfold fatBallot
      rw [hsame, Vote.run_replicate _ _ _ hpos]
    have hwrong : ¬ 0 < (fatBallot m s.medium c).wrong := by
      unfold fatBallot
      rw [hsame]
      exact not_lt.mpr (Vote.run_replicate_wrong _ _ _)
    refine ⟨noteFat c (table c % 2 ^ 28) s, ?_, noteFat_medium c _ s, noteFat_keeps c _ s,
      h.congr hm.works (noteFat_medium c _ s) fun k x hx => ?_⟩
    · unfold NiFat32.readFat
      rw [if_neg (not_inVol_iff.not.mpr (not_not.mpr hin)), hcache]
      simp only [hvote, hval, if_neg hwrong]
    · cases cachedFat_noteFat c _ k s hx with
      | inl hnew =>
        obtain ⟨rfl, rfl⟩ := hnew
        rfl
      | inr hold => exact h.cached k x hold.2

/-! ### The bytes of a file -/

/-- The chunks of a file that is not empty. -/
theorem freadChunks_of_pos {data : List UInt8} (h : 0 < data.length) :
    freadChunks data = data.take CLUSTER_SIZE :: freadChunks (data.drop CLUSTER_SIZE) := by
  have hcount : (data.length + CLUSTER_SIZE - 1) / CLUSTER_SIZE
      = (data.length - CLUSTER_SIZE + CLUSTER_SIZE - 1) / CLUSTER_SIZE + 1 := by
    unfold CLUSTER_SIZE
    omega
  unfold freadChunks
  rw [hcount, List.range_succ_eq_map, List.map_cons, List.map_map, List.length_drop, Nat.zero_mul,
    List.drop_zero]
  refine congrArg (data.take CLUSTER_SIZE :: ·) (List.map_congr_left fun i _ => ?_)
  show (data.drop ((i + 1) * CLUSTER_SIZE)).take CLUSTER_SIZE = _
  rw [List.drop_drop, Nat.succ_mul, Nat.add_comm]

theorem freadChunks_of_le {data : List UInt8} (h : data.length ≤ CLUSTER_SIZE) :
    freadChunks (data.drop CLUSTER_SIZE) = [] := by
  rw [List.drop_of_length_le h]
  rfl

/-- A request inside a chunk reads the slice of it. -/
theorem readoffCluster_chunk (hm : Mounted o sz m) (h : sizes o passes = some sz)
    (hroom : sz.Room) (ho : o.Common) {c : Nat} (hlow : 2 ≤ c) (hc : c < sz.totalClusters)
    {chunk : List UInt8} (hchunk : ChunkAt sz s.medium.bytes c chunk)
    (hlen : chunk.length ≤ CLUSTER_SIZE) {offset n : Nat} (hin : offset + n ≤ chunk.length) :
    readoffCluster m c offset n s = some ((chunk.drop offset).take n) := by
  obtain ⟨-, -, -, hspc, -⟩ := hm.geometry (sizes_fit h) hroom ho (by omega)
  unfold CLUSTER_SIZE at hlen
  unfold readoffCluster dskReadoffSectors
  rw [readoffLoop_eq hm.works _ _ _ _ _ (by rw [hspc, hm.sector]; omega), hm.sector,
    hm.cluster_place h hroom ho hlow hc]
  unfold ChunkAt at hchunk
  rw [read_sub _ _ _ _ _ hin, hchunk]

/-- What a file is: its clusters lie in the volume, they are linked, and they hold its chunks. -/
structure FileAt (sz : Sizes) (table : Nat → Nat) (image : Nat → UInt8) (cs : List Nat)
    (data : List UInt8) : Prop where
  range : ∀ c ∈ cs, 2 ≤ c ∧ c < sz.totalClusters
  linked : Linked table cs
  holds : Holds sz image cs (freadChunks data)

/-- The first cluster of a file that is not empty, and the rest of the file behind it. -/
theorem FileAt.uncons {table : Nat → Nat} {image : Nat → UInt8} {cs : List Nat}
    {data : List UInt8} (h : FileAt sz table image cs data) (hdata : 0 < data.length) :
    ∃ c rest, cs = c :: rest ∧ ChunkAt sz image c (data.take CLUSTER_SIZE) ∧
      FileAt sz table image rest (data.drop CLUSTER_SIZE) ∧
      ∀ d, rest.head? = some d → table c = d := by
  obtain ⟨hrange, hlinked, hholds⟩ := h
  unfold Holds at hholds
  rw [freadChunks_of_pos hdata] at hholds
  cases hholds with
  | @cons c _ rest _ hchunk hrest =>
    have hpath := (hlinked c rfl).2
    refine ⟨c, rest, rfl, hchunk, ⟨fun d hd => hrange d (List.mem_cons_of_mem c hd), ?_, hrest⟩, ?_⟩
    · intro d hd
      cases rest with
      | nil => cases hd
      | cons e rest =>
        obtain rfl := Option.some.inj hd
        exact ⟨rfl, hpath.2⟩
    · intro d hd
      cases rest with
      | nil => cases hd
      | cons e rest =>
        obtain rfl := Option.some.inj hd
        exact hpath.1

/-- The read loop of the library hands out the slice of the file. -/
theorem readLoop_file (hm : Mounted o sz m) (hsizes : sizes o passes = some sz)
    (hroom : sz.Room) (ho : o.Common) {table : Nat → Nat} {cs : List Nat} {data : List UInt8}
    {fuel : Nat} (hfuel : cs.length ≤ fuel) (hfile : FileAt sz table s.medium.bytes cs data)
    (hdata : 0 < data.length) {offset size : Nat} (hslice : offset + size ≤ data.length)
    (total : Nat) (buffer : List UInt8) (h : HasTable o sz m table s) :
    ∃ s', readLoop m fuel (cs.headD 0) offset size total buffer s
        = some (total + size, buffer ++ (data.drop offset).take size, s') ∧
      s'.medium = s.medium ∧ Keeps [] s s' := by
  induction fuel generalizing cs data offset size total buffer s with
  | zero =>
    obtain ⟨c, rest, rfl, -⟩ := hfile.uncons hdata
    exact absurd (Nat.le_zero.mp hfuel) (Nat.succ_ne_zero _)
  | succ fuel ih =>
    obtain ⟨c, rest, rfl, hchunk, hrest, hlink⟩ := hfile.uncons hdata
    have hc := hfile.range c List.mem_cons_self
    have hfit := sizes_fit hsizes
    have hsize : m.fi.clusterSize = CLUSTER_SIZE :=
      (hm.geometry hfit hroom ho (by omega)).2.2.2.2
    obtain ⟨s₁, hread, hmedium, hkeeps, htable⟩ := h.readFat hm hfit hroom ho hc.1 hc.2
    -- the loop goes on behind the cluster, or there is nothing left to read
    have hnext : ∀ offset' size' total' buffer', offset' + size' ≤ data.length - CLUSTER_SIZE →
        ∃ s', (if table c % 2 ^ 28 ≠ FAT_CLUSTER_END ∧ table c % 2 ^ 28 ≠ FAT_CLUSTER_BAD ∧
              0 < size' then
            readLoop m fuel (table c % 2 ^ 28) offset' size' total' buffer' s₁
          else some (total', buffer', s₁))
            = some (total' + size',
                buffer' ++ ((data.drop CLUSTER_SIZE).drop offset').take size', s') ∧
          s'.medium = s.medium ∧ Keeps [] s s' := by
      intro offset' size' total' buffer' hslice'
      by_cases hleft : 0 < size'
      · have hdata' : 0 < (data.drop CLUSTER_SIZE).length := by
          rw [List.length_drop]
          omega
        obtain ⟨d, rest', rfl, -⟩ := hrest.uncons hdata'
        have hd := hrest.range d List.mem_cons_self
        have hclusters := hroom.clusters
        have hmod : table c % 2 ^ 28 = d := by
          rw [hlink d rfl, Nat.mod_eq_of_lt (by omega)]
        rw [hmod, if_pos ⟨by unfold FAT_CLUSTER_END; omega, by unfold FAT_CLUSTER_BAD; omega,
          hleft⟩]
        have hfuel' : (d :: rest').length ≤ fuel := Nat.le_of_succ_le_succ hfuel
        obtain ⟨s', hloop, hmedium', hkeeps'⟩ := ih hfuel' (hmedium ▸ hrest) hdata'
          (by rw [List.length_drop]; exact hslice') total' buffer' htable
        exact ⟨s', hloop, hmedium'.trans hmedium, hkeeps.nil_trans hkeeps'⟩
      · have hzero : size' = 0 := by omega
        rw [if_neg fun hcond => hleft hcond.2.2, hzero]
        exact ⟨s₁, by simp, hmedium, hkeeps⟩
    show ∃ s', readLoop m (fuel + 1) c offset size total buffer s = _ ∧ _
    unfold readLoop
    by_cases hskip : CLUSTER_SIZE < offset
    · -- the cluster lies before the request
      simp only [hsize, if_pos hskip, hread]
      obtain ⟨s', hs', hrest'⟩ := hnext (offset - CLUSTER_SIZE) size total buffer (by omega)
      refine ⟨s', hs'.trans ?_, hrest'⟩
      rw [List.drop_drop, Nat.add_sub_cancel' (Nat.le_of_lt hskip)]
    · have hlen : (data.take CLUSTER_SIZE).length ≤ CLUSTER_SIZE := List.length_take_le _ _
      have hin : offset + min size (CLUSTER_SIZE - offset) ≤ (data.take CLUSTER_SIZE).length := by
        rw [List.length_take]
        omega
      simp only [hsize, if_neg hskip, hread,
        readoffCluster_chunk hm hsizes hroom ho hc.1 hc.2 hchunk hlen hin, Option.map_some]
      obtain ⟨s', hs', hrest'⟩ := hnext 0 (size - min size (CLUSTER_SIZE - offset))
        (total + min size (CLUSTER_SIZE - offset)) (buffer ++ ((data.take CLUSTER_SIZE).drop
          offset).take (min size (CLUSTER_SIZE - offset))) (by omega)
      refine ⟨s', hs'.trans ?_, hrest'⟩
      have htotal : total + min size (CLUSTER_SIZE - offset)
          + (size - min size (CLUSTER_SIZE - offset)) = total + size := by omega
      have hbytes : ((data.take CLUSTER_SIZE).drop offset).take (min size (CLUSTER_SIZE - offset))
          ++ (data.drop CLUSTER_SIZE).take (size - min size (CLUSTER_SIZE - offset))
          = (data.drop offset).take size := by
        have hsplit : size = min size (CLUSTER_SIZE - offset)
            + (size - min size (CLUSTER_SIZE - offset)) := by omega
        conv_rhs => rw [hsplit, List.take_add, List.drop_drop]
        rw [List.drop_take, List.take_take, Nat.min_assoc, Nat.min_self]
        congr 1
        by_cases hleft : size - min size (CLUSTER_SIZE - offset) = 0
        · rw [hleft, List.take_zero, List.take_zero]
        · rw [show offset + min size (CLUSTER_SIZE - offset) = CLUSTER_SIZE by omega]
      rw [htotal, List.append_assoc, List.drop_zero, hbytes]

/-! ### The boot sector -/

theorem getBootSector_lt (i ts : Nat) : getBootSector i ts < 2 ^ 21 := by
  unfold getBootSector
  apply Nat.lt_of_le_of_lt (Nat.mod_le _ _)
  rw [Nat.shiftRight_eq_div_pow]
  have hu : u32 ((i + 1) * 2654435761) < 2 ^ 32 := Nat.mod_lt _ (by decide)
  omega

theorem sectorOff_bootSector (i ts : Nat) :
    sectorOff (getBootSector i ts) = getBootSector i ts * 512 := by
  have hlt := getBootSector_lt i ts
  rw [sectorOff, BYTES_PER_SECTOR, u32_of_lt (by omega)]

/-- Each copy that `_write_bs` writes holds the boot sector, with zeros behind it. -/
theorem writeBs_reads {ts fatSize i : Nat} (hi : i ∈ bootCopies o) (d : Nat → UInt8) :
    read (writeBs o ts fatSize d) (getBootSector i ts * 512) 512
      = bootSectorBytes (bootSector o ts fatSize) 512 := by
  unfold writeBs
  simp only [sectorOff_bootSector]
  generalize hcode : packMemory (bootSector o ts fatSize).bytes = code
  have hlen : code.length = 162 := by
    rw [← hcode, length_packMemory, BootSector.length_bytes]
    rfl
  have hbytes : bootSectorBytes (bootSector o ts fatSize) 512 = code ++ List.replicate 350 0 := by
    unfold bootSectorBytes
    rw [hcode]
  rw [hbytes]
  -- one copy: its sector holds the boot sector, and the others what they held
  have hstep : ∀ (d : Nat → UInt8) (j k : Nat),
      read (pwrite (pwrite d (List.replicate BYTES_PER_SECTOR 0) (j * 512)) code (j * 512))
        (k * 512) 512 = if k = j then code ++ List.replicate 350 0 else read d (k * 512) 512 := by
    intro d j k
    unfold pwrite
    by_cases heq : k = j
    · have hwithin := read_write_within (write d (j * 512) (List.replicate 512 0)) (j * 512) 512 0
        code (by omega)
      rw [if_pos heq, heq]
      rw [Nat.add_zero] at hwithin
      have hzeros := read_write_self d (j * 512) (List.replicate 512 0)
      rw [List.length_replicate] at hzeros
      rw [BYTES_PER_SECTOR, hwithin, hzeros, splice, List.take_zero, List.nil_append,
        List.drop_replicate, Nat.zero_add, hlen]
    · rw [if_neg heq, read_write_of_disjoint _ _ _ _ _ (by omega), read_write_of_disjoint]
      rw [List.length_replicate, BYTES_PER_SECTOR]
      omega
  -- a copy that holds it keeps it, whatever copies are written later
  have hkeep : ∀ (is : List Nat) (d : Nat → UInt8),
      i ∈ is ∨ read d (getBootSector i ts * 512) 512 = code ++ List.replicate 350 0 →
      read (is.foldl (fun d j => pwrite (pwrite d (List.replicate BYTES_PER_SECTOR 0)
        (getBootSector j ts * 512)) code (getBootSector j ts * 512)) d)
        (getBootSector i ts * 512) 512 = code ++ List.replicate 350 0 := by
    intro is
    induction is with
    | nil => exact fun d h => h.resolve_left List.not_mem_nil
    | cons j is ih =>
      intro d h
      rw [List.foldl_cons]
      apply ih
      rw [hstep]
      cases h with
      | inl hmem =>
        cases List.mem_cons.mp hmem with
        | inl heq => exact Or.inr (if_pos (by rw [heq]))
        | inr hmem => exact Or.inl hmem
      | inr hhold =>
        right
        split
        · rfl
        · exact hhold
  exact hkeep (bootCopies o) d (Or.inl hi)

/-- The state of the copy on a fresh volume. -/
def freshCopy (o : Opt) (sz : Sizes) (heap : Nat → Nat) : CopyState :=
  ⟨formatAreas o sz fun _ => 0, freshTable o sz heap, 3⟩

@[simp] theorem freshCopy_table (o : Opt) (sz : Sizes) (heap : Nat → Nat) :
    (freshCopy o sz heap).table = freshTable o sz heap := rfl

@[simp] theorem freshCopy_lastAlloc (o : Opt) (sz : Sizes) (heap : Nat → Nat) :
    (freshCopy o sz heap).lastAlloc = 3 := rfl

/-- The first copy of the boot sector is written, and nothing that is written later touches its
sector: no journal, no error area, no root directory, no file and no FAT copy. -/
structure BootKept (o : Opt) (sz : Sizes) (heap : Nat → Nat) (st : CopyState) : Prop where
  copy : 0 ∈ bootCopies o
  areas : ∀ sector ∈ journalSectors o sz.totalSectors ++ errorSectors o sz.totalSectors,
    ¬ (⟨placedAt sector, o.spc.toNat⟩ : Extent).Has (getBootSector 0 sz.totalSectors)
  root : (getBootSector 0 sz.totalSectors + 1) * 512 ≤ sz.dataStart ∨
    sz.dataStart + CLUSTER_SIZE ≤ getBootSector 0 sz.totalSectors * 512
  files : ∀ c, 3 ≤ c → c < st.lastAlloc → freshTable o sz heap c = FAT_CLUSTER_FREE →
    (getBootSector 0 sz.totalSectors + 1) * 512 ≤ clusterOff sz.dataStart c ∨
      clusterOff sz.dataStart c + CLUSTER_SIZE ≤ getBootSector 0 sz.totalSectors * 512
  fats : ∀ i < o.fc.toNat,
    ¬ (⟨placedAt (fatSector i sz.totalSectors), fatLength sz.fatSize / 512⟩ : Extent).Has
      (getBootSector 0 sz.totalSectors)

/-- The image that the formatter leaves. -/
def finalImage (o : Opt) (sz : Sizes) (st : CopyState) : Nat → UInt8 :=
  writeFats o st.table sz.fatSize sz.totalSectors st.image

/-- The first copy of the boot sector stands in the image. -/
theorem finalImage_boot {heap : Nat → Nat} {st : CopyState}
    {source : List (List UInt8 × SourceNode)} {placed : List Placed}
    (hplaced : FilesPlaced sz source (freshCopy o sz heap) st placed)
    (hkept : BootKept o sz heap st) :
    read (finalImage o sz st) (getBootSector 0 sz.totalSectors * 512) 512
      = bootSectorBytes (bootSector o sz.totalSectors sz.fatSize) 512 := by
  rw [← writeBs_reads hkept.copy fun _ => 0]
  apply read_congr
  intro k hlo hhi
  have hsector : k / 512 = getBootSector 0 sz.totalSectors := by omega
  have hroot := hkept.root
  have hareas := hkept.areas
  simp only [List.mem_append, or_imp, forall_and] at hareas
  unfold finalImage
  rw [writeFats_outside o st.table _ _ fun i hi => hsector ▸ hkept.fats i hi]
  rw [hplaced.image k (by omega) fun c hlow hlast hfree => by
    have hfile := hkept.files c hlow hlast hfree
    omega]
  show formatAreas o sz _ k = _
  rw [formatAreas, writeRootDirectory, pwrite]
  rw [write_of_outside _ _ _ _ (by rw [List.length_replicate]; omega)]
  rw [writeErrors, wipe_outside o fun sector hs => hsector ▸ hareas.2 sector hs]
  rw [writeJournals, wipe_outside o fun sector hs => hsector ▸ hareas.1 sector hs]

/-! ### The mount -/

/-- Parameters for the mount of a formatted volume: all copies of the boot sector are tried, without
caches, journals and error areas. -/
structure PlainMount (p : Params) (ts : Nat) : Prop where
  plain : Plain p
  first : p.bsNum = 0
  count : 0 < p.bsCount.toNat
  sectors : p.ts.toNat = ts

/-- The library mounts what starts with the boot sector of the formatter, and leaves the device as
it is. -/
theorem boot_mounts {p : Params} (hp : PlainMount p sz.totalSectors) (hw : m.Works)
    (hss : m.sectorSize = 512)
    (hboot : read s.medium.bytes (getBootSector 0 sz.totalSectors * 512) 512
      = bootSectorBytes (bootSector o sz.totalSectors sz.fatSize) 512) (fuel : Nat) :
    ∃ m', nifat32Init m fuel p s = some (true, m', ctableInit s) ∧ Mounted o sz m' := by
  obtain ⟨left, hleft⟩ := Nat.exists_eq_succ_of_ne_zero (Nat.ne_of_gt hp.count)
  have hbytes : bootAt m p.ts.toNat s 0
      = bootSectorBytes (bootSector o sz.totalSectors sz.fatSize) 512 := by
    unfold bootAt
    rw [hp.sectors, hss]
    exact hboot
  have hdecode : decodeBoot (bootAt m p.ts.toNat s 0)
      = bootSector o sz.totalSectors sz.fatSize := by
    rw [hbytes]
    exact decodeBoot_pack _ _
  have hvalid : (copyBoot m p.ts.toNat s 0).Valid := by
    unfold copyBoot
    rw [hdecode]
    exact withChecksums_valid _
  have hbps : (decodeBoot (bootAt m p.ts.toNat s 0)).bytesPerSector ≠ 0 := by
    rw [hdecode]
    show (512 : UInt16) ≠ 0
    decide
  refine ⟨mountedOn m p (bootSector o sz.totalSectors sz.fatSize), ?_, ?_⟩
  · unfold nifat32Init
    rw [hp.first]
    show initFrom fuel p (p.bsCount.toNat - 0) m s = _
    rw [Nat.sub_zero, hleft, initFrom_succ fuel hp.plain.ec hw (by omega) (i := 0) (by omega),
      if_pos hvalid, mountFrom_plain fuel hp.plain hbps, hdecode]
    rfl
  · exact ⟨withInfo_works hw _, hss, _, _, rfl⟩

/-- What the library reads from the clusters behind `ca`, through any handle that is open for
reading: the slices of the file. -/
def ReadsFile (m : Mount) (s : FS) (ca : Nat) (data : List UInt8) : Prop :=
  ∀ ci, isReadMode (getContentMode ci s) → getContentDataCa ci s = ca →
    ∀ offset size, offset + size ≤ data.length →
      Run.Ensures (fun fuel => readContent2buffer m fuel ci offset size s) fun r =>
        r.1 = size ∧ r.2.1 = (data.drop offset).take size ∧ r.2.2.medium = s.medium

/-- The sectors of the cluster keep clear of the FAT copies. -/
def ClearOfFats (o : Opt) (sz : Sizes) (c : Nat) : Prop :=
  ∀ i < o.fc.toNat, ∀ k < 8,
    ¬ (⟨placedAt (fatSector i sz.totalSectors), fatLength sz.fatSize / 512⟩ : Extent).Has
      (clusterOff sz.dataStart c / 512 + k)

/-- The FAT copies are written last. What keeps clear of them stays. -/
theorem Holds.finalImage (hsizes : sizes o passes = some sz) (hroom : sz.Room) {st : CopyState}
    {cs : List Nat} {data : List UInt8} (h : Holds sz st.image cs (freadChunks data))
    (hrange : ∀ c ∈ cs, 2 ≤ c ∧ c < sz.totalClusters) (hclear : ∀ c ∈ cs, ClearOfFats o sz c) :
    Holds sz (finalImage o sz st) cs (freadChunks data) := by
  refine h.congr_image (fun chunk hm => length_freadChunk hm) fun c hc k hlo hhi => ?_
  refine writeFats_outside o st.table _ _ fun i hi => ?_
  -- the cluster starts at a whole sector
  have hstart : 512 ∣ clusterOff sz.dataStart c := by
    obtain ⟨hlow, hlt⟩ := hrange c hc
    rw [clusterOff_eq hroom hlow hlt, sizes_dataStart hsizes]
    unfold CLUSTER_SIZE BYTES_PER_SECTOR u32
    omega
  unfold CLUSTER_SIZE at hhi
  have hsector := hclear c hc i hi (k / 512 - clusterOff sz.dataStart c / 512) (by omega)
  rwa [show clusterOff sz.dataStart c / 512 + (k / 512 - clusterOff sz.dataStart c / 512)
    = k / 512 by omega] at hsector

/-- A file that was placed is read back. -/
theorem Placed.Ok.readsFile (hm : Mounted o sz m) (hsizes : sizes o passes = some sz)
    (hroom : sz.Room) (ho : o.Common) (hagrees : FatAgrees o sz) {st : CopyState} {f : Placed}
    (hok : f.Ok sz st) (hrange : ∀ c ∈ f.clusters, 2 ≤ c ∧ c < sz.totalClusters)
    (hclear : ∀ c ∈ f.clusters, ClearOfFats o sz c) {data : List UInt8}
    (hnode : f.node = .file data) (hdata : 0 < data.length)
    (hs : s.medium.bytes = finalImage o sz st) (hfat : s.fat = none) :
    ReadsFile m s f.entry.cluster.toNat data := by
  intro ci hread hca offset size hslice
  have hholds := hok.holds
  rw [hnode] at hholds
  have hfile : FileAt sz st.table s.medium.bytes f.clusters data :=
    ⟨hrange, hok.linked, hs ▸ hholds.finalImage hsizes hroom hrange hclear⟩
  have htable : HasTable o sz m st.table s :=
    ⟨ReadsBack.of_agrees hm (sizes_fit hsizes) hagrees st.table st.image hs, fun c x hx => by
      unfold cachedFat at hx
      rw [hfat] at hx
      cases hx⟩
  -- the entry has the first cluster
  have hfirst : getContentDataCa ci s = f.clusters.headD 0 := by
    obtain ⟨c, rest, hcs, -⟩ := hfile.uncons hdata
    have hc := (hrange c (hcs ▸ List.mem_cons_self)).2
    have hclusters := hroom.clusters
    rw [hca, hok.cluster, hcs]
    show (UInt32.ofNat c).toNat = c
    rw [UInt32.toNat_ofNat', Nat.mod_eq_of_lt (by omega)]
  refine ⟨f.clusters.length, fun fuel hfuel => ?_⟩
  obtain ⟨s', hloop, hmedium, -⟩ := readLoop_file hm hsizes hroom ho hfuel hfile hdata hslice 0 []
    htable
  refine ⟨(size, (data.drop offset).take size, s'), ?_, rfl, rfl, hmedium⟩
  unfold readContent2buffer
  beta_reduce
  rw [if_pos hread, hfirst, hloop, Nat.zero_add, List.nil_append]

/-- The copy of one small file takes the next cluster, when that one is free. -/
theorem copyFilesToFs_one (sz : Sizes) (st : CopyState) {name data : List UInt8}
    (hfree : st.table st.lastAlloc = FAT_CLUSTER_FREE) (hlt : st.lastAlloc < sz.totalClusters)
    (hname : ¬ (name = dotName ∨ name = dotDotName)) (hdata : 0 < data.length)
    (hlen : data.length ≤ CLUSTER_SIZE) :
    ∃ st', copyFilesToFs sz [(name, .file data)] st = some st' ∧
      st'.lastAlloc = st.lastAlloc + 1 := by
  have hfind : findFree st.table (sz.totalClusters - st.lastAlloc) st.lastAlloc
      = some st.lastAlloc := by
    obtain ⟨left, hleft⟩ : ∃ left, sz.totalClusters - st.lastAlloc = left + 1 :=
      ⟨sz.totalClusters - st.lastAlloc - 1, by omega⟩
    rw [hleft, findFree, if_pos hfree]
  obtain ⟨image, table, hcopy⟩ : ∃ image table, copyFile sz data st
      = (true, st.lastAlloc, 0 + (data.take CLUSTER_SIZE).length,
        ⟨image, table, st.lastAlloc + 1⟩) := by
    unfold copyFile
    rw [freadChunks_of_pos hdata, freadChunks_of_le hlen, copyFileLoop, hfind]
    exact ⟨_, _, rfl⟩
  obtain ⟨root, hroot⟩ := putRoot_some (i := 0) (by decide)
    (read st.image sz.dataStart CLUSTER_SIZE)
    (fileEntry (read st.image sz.dataStart CLUSTER_SIZE) 0 name st.lastAlloc
      (0 + (data.take CLUSTER_SIZE).length))
  obtain ⟨root', hroot'⟩ := putRoot_some (i := 1) (by decide) root (lastEntry root 1)
  have hloop : copyFilesLoop sz [(name, .file data)] 0 (read st.image sz.dataStart CLUSTER_SIZE) st
      = some (1, root, ⟨image, table, st.lastAlloc + 1⟩) := by
    rw [copyFilesLoop, if_neg hname]
    simp only [hcopy, hroot, copyFilesLoop]
  refine ⟨⟨pwrite image ((packMemory root').take CLUSTER_SIZE) sz.dataStart, table,
    st.lastAlloc + 1⟩, ?_, rfl⟩
  unfold copyFilesToFs
  rw [hloop]
  simp only [hroot', Option.map_some]

/-- Parameters for the large volume. -/
def largeParameters : Params :=
  { fatCache := 0, bsNum := 0, bsCount := 5, ts := 417792, jc := 0, ec := 0 }

end NiFat32.Formatter
