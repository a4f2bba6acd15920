import NiFat32.Proofs.Allocation

/-!
# `Proofs.ChainGrowth`: a chain that is extended while writes fail

`_add_cluster_to_chain` takes a cluster, marks it as the end and links the tail to it. When a step
fails it gives the cluster back. `write_fat` notes the value in the cache first, then writes one
copy after the other, and fails when any copy could not be written; what it did is not taken back.
So after a link that failed, the tail may read as the cluster that was given back.

The writes of a mount fail by a pattern here, and its reads work. `EntrySame` is the frame of one
entry: what an operation on other clusters leaves of it, whichever of its writes fail. The tail is
touched by the link, and by the search of the allocator when that reads it and repairs its copies.
-/

set_option autoImplicit false

namespace NiFat32

open ByteStore

variable {m : Mount} {s s' : FS} {ca k x i j : Nat}

/-! ### Writes that may fail -/

/-- The mount whose writes fail by the pattern `w`. -/
def Mount.failing (m : Mount) (w : Nat → Nat → Nat → Nat → Bool) : Mount := { m with writeOk := w }

variable {w : Nat → Nat → Nat → Nat → Bool}

/-- A request that is refused stores nothing. -/
theorem writeSector_bytes (m : Mount) (d : Medium) (sa offset : Nat) (data : List UInt8) :
    (writeSector m d sa offset data).2.bytes =
      if (writeSector m d sa offset data).1 then
        write d.bytes (sa * m.sectorSize + offset) data
      else d.bytes := by
  rw [writeSector]
  by_cases hok : m.writeOk d.writes sa offset data.length = true
  · rw [if_pos hok]
    rfl
  · rw [if_neg hok]
    rfl

/-- A write through one sector stores what the sector has room for, or nothing. -/
theorem dskWriteoffSectors_any (m : Mount) (d : Medium) (sa offset : Nat) (data : List UInt8) :
    (dskWriteoffSectors m d sa offset data 1).2.bytes =
      if (dskWriteoffSectors m d sa offset data 1).1 then
        putCell m.sectorSize d.bytes sa offset data
      else d.bytes := by
  rw [dskWriteoffSectors, writeoffLoop, putCell]
  by_cases h0 : data.length = 0
  · rw [if_pos h0, List.length_eq_zero_iff.mp h0, List.take_nil, write_nil]
    rfl
  rw [if_neg h0]
  by_cases ho : m.sectorSize < offset
  · rw [if_pos ho, Nat.sub_eq_zero_of_le (Nat.le_of_lt ho), List.take_zero, write_nil]
    rfl
  · have htake : data.take (min data.length (m.sectorSize - offset))
        = data.take (m.sectorSize - offset) := by
      rw [Nat.min_comm, ← List.take_take, List.take_length]
    have hbytes := writeSector_bytes m d sa offset (data.take (m.sectorSize - offset))
    rw [if_neg ho]
    simp only [htake]
    generalize writeSector m d sa offset (data.take (m.sectorSize - offset)) = r at hbytes
    obtain ⟨ok, d'⟩ := r
    cases ok with
    | false => exact hbytes
    | true => exact hbytes

/-- A code that is written leaves the sectors outside of the error areas. -/
theorem writeError_window_any (m : Mount) {a : Nat} (ha : a ∉ errorSectors m) (index : Nat)
    (c : UInt32) (s : FS) :
    SameWindow m.sectorSize (writeError m index c s).2.medium.bytes s.medium.bytes a := by
  have hcopy : ∀ i, i < m.fi.errorsCount → ∀ s : FS, SameWindow m.sectorSize
      (writeErrorCopy m index c i s).2.medium.bytes s.medium.bytes a := by
    intro i hi s
    have hne : getErrorsSector i m.fi.totalSectors ≠ a := by
      rintro rfl
      exact ha (List.mem_map.mpr ⟨i, List.mem_range.mpr hi, rfl⟩)
    have hbytes := dskWriteoffSectors_any m s.medium (getErrorsSector i m.fi.totalSectors)
      (u32 (index * 8)) (packMemory (bytesOfU32 c))
    have hmedium : (writeErrorCopy m index c i s).2.medium
        = (dskWriteoffSectors m s.medium (getErrorsSector i m.fi.totalSectors) (u32 (index * 8))
          (packMemory (bytesOfU32 c)) 1).2 := rfl
    rw [hmedium, hbytes]
    split
    · exact SameWindow.putCell_other hne
    · exact SameWindow.refl _ _ _
  have hloop : ∀ (is : List Nat) (b : Bool × FS), (∀ i ∈ is, i < m.fi.errorsCount) →
      SameWindow m.sectorSize (is.foldl (fun acc i =>
        ((writeErrorCopy m index c i acc.2).1 && acc.1, (writeErrorCopy m index c i acc.2).2))
        b).2.medium.bytes b.2.medium.bytes a := by
    intro is
    induction is with
    | nil => exact fun _ _ => SameWindow.refl _ _ _
    | cons i is ih =>
      intro b his
      exact (ih _ fun j hj => his j (List.mem_cons_of_mem i hj)).trans
        (hcopy i (his i List.mem_cons_self) b.2)
  exact hloop _ (true, s) fun i hi => List.mem_range.mp hi

/-- A registration leaves the sectors outside of the error areas. -/
theorem registerError_window_any (m : Mount) {a : Nat} (ha : a ∉ errorSectors m)
    (code : ErrorCode) (s : FS) : SameWindow m.sectorSize
      (registerError m code s).medium.bytes s.medium.bytes a := by
  have hwrite := writeError_window_any m ha s.errors.current code.toU32 s
  rw [registerError, errorsRegisterError]
  generalize writeError m s.errors.current code.toU32 s = r at hwrite
  obtain ⟨ok, s₁⟩ := r
  cases ok with
  | false => exact hwrite
  | true => exact (writeError_window_any m ha _ _ _).trans hwrite

/-- One copy of an entry, when its sector lies outside of the error areas: the sectors other than
those are as behind a write to the sector of the copy, or as before. -/
theorem writeFatCopy_window_any (m : Mount) {a : Nat} (ha : a ∉ errorSectors m) (ca x i : Nat)
    (s : FS) : SameWindow m.sectorSize (writeFatCopy m ca x i s).2.medium.bytes
      (if (writeFatCopy m ca x i s).1 then
        putCell m.sectorSize s.medium.bytes (fatEntryPos m ca i).1 (fatEntryPos m ca i).2
          (cellBytes x)
      else s.medium.bytes) a := by
  have hbytes := dskWriteoffSectors_any m s.medium (fatEntryPos m ca i).1 (fatEntryPos m ca i).2
    (cellBytes x)
  rw [writeFatCopy]
  simp only [show packMemory (bytesOfU32 (UInt32.ofNat x)) = cellBytes x from rfl]
  generalize dskWriteoffSectors m s.medium (fatEntryPos m ca i).1 (fatEntryPos m ca i).2
    (cellBytes x) 1 = r at hbytes
  obtain ⟨ok, d⟩ := r
  cases ok with
  | false =>
    have hreg := registerError_window_any m ha .writeFatError { s with medium := d }
    rw [if_neg (by simp)] at hbytes
    rw [← hbytes]
    exact hreg
  | true =>
    rw [if_pos rfl] at hbytes
    rw [← hbytes]
    exact SameWindow.refl _ _ _

/-! ### One entry -/

/-- What a copy says depends on its sector. -/
theorem fatAt_window {d d' : Medium}
    (h : SameWindow m.sectorSize d'.bytes d.bytes (fatEntryPos m k j).1) :
    fatAt m d' k j = fatAt m d k j := by
  rw [fatAt, fatAt, h.cell]

/-- A copy that takes a write says what was written, and the other copies say what they did. -/
theorem fatAt_writeFatCopy (harea : FatArea m) (hin : EntriesInside m) (hk : InVol m k)
    (hca : InVol m ca) (hi : i < m.fi.fatCount) (hj : j < m.fi.fatCount) (x : Nat) (s : FS) :
    fatAt m (writeFatCopy (m.failing w) ca x i s).2.medium k j =
      if (k = ca ∧ j = i) ∧ (writeFatCopy (m.failing w) ca x i s).1 then x % 2 ^ 28
      else fatAt m s.medium k j := by
  have hwin := writeFatCopy_window_any (m.failing w) (harea.log k hk j hj) ca x i s
  generalize writeFatCopy (m.failing w) ca x i s = r at hwin
  obtain ⟨ok, t⟩ := r
  cases ok with
  | false =>
    rw [if_neg (fun h => by cases h.2)]
    exact fatAt_window hwin
  | true =>
    have hcell : fatAt m t.medium k j = leValue (unpackMemory (cell 0 m.sectorSize
        (putCell m.sectorSize s.medium.bytes (fatEntryPos m ca i).1 (fatOffset m ca) (cellBytes x))
        (fatEntryPos m k j).1 (fatOffset m k) 8) 4) % 2 ^ 28 :=
      congrArg (fun bs => leValue (unpackMemory bs 4) % 2 ^ 28) (SameWindow.cell hwin)
    rw [hcell]
    by_cases hself : k = ca ∧ j = i
    · obtain ⟨rfl, rfl⟩ := hself
      have hback : cell 0 m.sectorSize (putCell m.sectorSize s.medium.bytes (fatEntryPos m k j).1
          (fatOffset m k) (cellBytes x)) (fatEntryPos m k j).1 (fatOffset m k) (cellBytes x).length
          = clip 0 m.sectorSize (fatOffset m k) (cellBytes x) := cell_putCell_self
      rw [length_cellBytes, clip_of_le (by rw [length_cellBytes]; exact hin.inside k hk)] at hback
      rw [hback, if_pos ⟨⟨rfl, rfl⟩, rfl⟩]
      exact leValue_cellBytes_mod x
    · rw [if_neg (fun h => hself h.1), fatAt, cell_putCell_other]
      rw [length_cellBytes]
      by_cases hne : k = ca
      · -- another copy of the entry lies in another sector
        have hij : j ≠ i := fun heq => hself ⟨hne, heq⟩
        exact Or.inl (harea.copies j i hj hi hij k ca hk hca)
      · exact harea.apart hin hca hk hne hj hi

/-- The copies of the entry of `k` and its place in the cache are as before. -/
structure EntrySame (m : Mount) (k : Nat) (s s' : FS) : Prop where
  present : s'.fat.isSome = s.fat.isSome
  cached : cachedFat k s' = cachedFat k s
  copies : ∀ j, j < m.fi.fatCount → fatAt m s'.medium k j = fatAt m s.medium k j

namespace EntrySame

theorem refl (m : Mount) (k : Nat) (s : FS) : EntrySame m k s s := ⟨rfl, rfl, fun _ _ => rfl⟩

theorem trans {s'' : FS} (h : EntrySame m k s s') (h' : EntrySame m k s' s'') :
    EntrySame m k s s'' where
  present := h'.present.trans h.present
  cached := h'.cached.trans h.cached
  copies := fun j hj => (h'.copies j hj).trans (h.copies j hj)

/-- The statics stay, and so do the sectors of the entry. -/
theorem of_statics (h : SameStatics s s')
    (hcopies : ∀ j, j < m.fi.fatCount → fatAt m s'.medium k j = fatAt m s.medium k j) :
    EntrySame m k s s' where
  present := by
    rw [h.fat]
  cached := cachedFat_statics h
  copies := hcopies

theorem view (h : EntrySame m k s s') : viewFat m s' k = viewFat m s k := by
  have hmap : (List.range m.fi.fatCount).map (fatAt m s'.medium k)
      = (List.range m.fi.fatCount).map (fatAt m s.medium k) :=
    List.map_congr_left fun j hj => h.copies j (List.mem_range.mp hj)
  rw [viewFat, viewFat, h.cached, votedFat, votedFat, fatBallot, fatBallot, hmap]

end EntrySame

/-- The state in which a write to the entry of `ca` gets to the copy `i`. -/
def beforeWrite (m : Mount) (ca x : Nat) (s : FS) (i : Nat) : FS :=
  (List.range i).foldl (fun t j => (writeFatCopy m ca x j t).2) (noteFat ca x s)

/-- The copy `i` takes the write of `x` to the entry of `ca`. -/
def copyTaken (m : Mount) (ca x : Nat) (s : FS) (i : Nat) : Bool :=
  (writeFatCopy m ca x i (beforeWrite m ca x s i)).1

theorem beforeWrite_succ (m : Mount) (ca x : Nat) (s : FS) (n : Nat) :
    beforeWrite m ca x s (n + 1) = (writeFatCopy m ca x n (beforeWrite m ca x s n)).2 := by
  rw [beforeWrite, List.range_succ, List.foldl_append]
  rfl

/-- A write succeeds exactly when every copy takes it. -/
theorem writeFatLocked_any (m : Mount) (ca x : Nat) (s : FS) :
    ((writeFatLocked m ca x s).1 = true ↔ ∀ i, i < m.fi.fatCount → copyTaken m ca x s i = true) ∧
      (writeFatLocked m ca x s).2 = beforeWrite m ca x s m.fi.fatCount := by
  rw [writeFatLocked]
  induction m.fi.fatCount with
  | zero => exact ⟨⟨fun _ i hi => absurd hi (Nat.not_lt_zero i), fun _ => rfl⟩, rfl⟩
  | succ n ih =>
    obtain ⟨hok, hstate⟩ := ih
    rw [List.range_succ, List.foldl_append, List.foldl_cons, List.foldl_nil, hstate]
    refine ⟨?_, (beforeWrite_succ m ca x s n).symm⟩
    show (copyTaken m ca x s n && _) = true ↔ _
    rw [Bool.and_eq_true, hok]
    constructor
    · rintro ⟨hlast, hbefore⟩ i hi
      by_cases heq : i = n
      · rw [heq]
        exact hlast
      · exact hbefore i (by omega)
    · intro h
      exact ⟨h n (Nat.lt_succ_self n), fun i hi => h i (Nat.lt_succ_of_lt hi)⟩

section Failing

variable (w) (harea : FatArea m) (hk : InVol m k)
include harea hk

theorem registerError_entry (code : ErrorCode) (s : FS) :
    EntrySame m k s (registerError (m.failing w) code s) := by
  apply EntrySame.of_statics (registerError_statics (m.failing w) code s)
  intro j hj
  exact fatAt_window (registerError_window_any (m.failing w) (harea.log k hk j hj) code s)

variable (hin : EntriesInside m)
include hin

/-- The copies in front of `n` that took the write say what was written. -/
theorem fatAt_beforeWrite (hca : InVol m ca) (hj : j < m.fi.fatCount) (x : Nat) (s : FS) {n : Nat}
    (hn : n ≤ m.fi.fatCount) :
    fatAt m (beforeWrite (m.failing w) ca x s n).medium k j =
      if (k = ca ∧ j < n) ∧ copyTaken (m.failing w) ca x s j then x % 2 ^ 28
      else fatAt m s.medium k j := by
  induction n with
  | zero =>
    rw [if_neg (fun h => absurd h.1.2 (Nat.not_lt_zero j)), beforeWrite, List.range_zero,
      List.foldl_nil, noteFat_medium]
  | succ n ih =>
    rw [beforeWrite_succ, fatAt_writeFatCopy harea hin hk hca (by omega) hj, ih (by omega)]
    show (if (k = ca ∧ j = n) ∧ copyTaken (m.failing w) ca x s n = true then _ else _) = _
    by_cases hself : k = ca
    · by_cases heq : j = n
      · subst heq
        have hlt : ¬ j < j := Nat.lt_irrefl j
        have hlt' : j < j + 1 := Nat.lt_succ_self j
        simp only [hself, hlt, hlt', and_false, true_and, false_and, if_false]
      · have hiff : j < n + 1 ↔ j < n := by omega
        simp only [heq, hiff, and_false, false_and, if_false]
    · simp only [hself, false_and, if_false]

/-- A write leaves the other entries, whichever copies take it. -/
theorem writeFatLocked_entry (hca : InVol m ca) (hne : k ≠ ca) (x : Nat) (s : FS) :
    EntrySame m k s (writeFatLocked (m.failing w) ca x s).2 := by
  have hnoted := writeFatLocked_noted (m.failing w) ca x s
  refine ⟨?_, ?_, ?_⟩
  · rw [hnoted.fat, Option.isSome_map]
  · rw [cachedFat_noted hnoted, if_neg hne]
  · intro j hj
    rw [(writeFatLocked_any (m.failing w) ca x s).2]
    have hcopies := fatAt_beforeWrite w harea hk hin hca hj x s (Nat.le_refl m.fi.fatCount)
    rw [if_neg (fun h => hne h.1.1)] at hcopies
    exact hcopies

/-- A write of another entry, or one that is refused. -/
theorem writeFat_entry (hne : k ≠ ca) (x : Nat) (s : FS) :
    EntrySame m k s (writeFat (m.failing w) ca x s).2 := by
  by_cases hca : InVol (m.failing w) ca
  · rw [writeFat, if_neg (not_inVol_iff.not.mpr (not_not.mpr hca))]
    exact writeFatLocked_entry w harea hk hin hca hne x s
  · rw [writeFat_refused hca]
    exact registerError_entry w harea hk .writeFatError s

/-! ### Reads -/

omit hk hin in
/-- The copies can be read. -/
theorem voteFat_failing (ca : Nat) (s : FS) :
    voteFat (m.failing w) ca s = (fatBallot m s.medium ca, s) := by
  have hcopy : ∀ i (t : FS), readFatCopy (m.failing w) ca i t = (fatAt m t.medium ca i, t) := by
    intro i t
    have hread : dskReadoffSectors (m.failing w) t.medium (fatEntryPos m ca i).1
        (fatEntryPos m ca i).2 8 1 = some _ := dskReadoffSectors_one harea.works t.medium _ _ 8
    rw [readFatCopy]
    simp only [show fatEntryPos (m.failing w) ca i = fatEntryPos m ca i from rfl, hread,
      fillBuffer_one]
    rfl
  rw [voteFat, fatBallot, Vote.run, List.foldl_map]
  simp only [hcopy]
  generalize Vote.start FAT_CLUSTER_BAD = b
  show (List.range m.fi.fatCount).foldl _ (b, s) = _
  induction List.range m.fi.fatCount generalizing b with
  | nil => rfl
  | cons i is ih => exact ih _

omit hk hin in
/-- A read returns the view, whether or not a repair succeeds. -/
theorem readFat_failing (hca : InVol m ca) (s : FS) :
    (readFat (m.failing w) ca s).1 = viewFat m s ca := by
  have hca' : InVol (m.failing w) ca := hca
  rw [viewFat]
  cases hcache : cachedFat ca s with
  | some x =>
    rw [readFat_cached hca' hcache]
    rfl
  | none =>
    rw [readFat, if_neg (not_inVol_iff.not.mpr (not_not.mpr hca')), hcache]
    simp only [voteFat_failing w harea]
    split <;> rfl

/-- A read of another entry. -/
theorem readFat_entry (hne : k ≠ ca) (s : FS) :
    EntrySame m k s (readFat (m.failing w) ca s).2 := by
  by_cases hca : InVol (m.failing w) ca
  · cases hcache : cachedFat ca s with
    | some x =>
      rw [readFat_cached hca hcache]
      exact EntrySame.refl m k s
    | none =>
      have hnote : EntrySame m k s (noteFat ca (fatBallot m s.medium ca).val s) := by
        have hnoted := noteFat_noted ca (fatBallot m s.medium ca).val s
        refine ⟨?_, ?_, ?_⟩
        · rw [hnoted.fat, Option.isSome_map]
        · rw [cachedFat_noted hnoted, if_neg hne]
        · intro j _
          rw [noteFat_medium]
      rw [readFat, if_neg (not_inVol_iff.not.mpr (not_not.mpr hca)), hcache]
      simp only [voteFat_failing w harea]
      split
      · exact hnote.trans (writeFatLocked_entry w harea hk hin hca hne _ _)
      · exact hnote
  · rw [readFat_refused hca]
    exact registerError_entry w harea hk .readFatError s

end Failing

/-- A read does not take the cache away. -/
theorem readFat_present (m : Mount) (ca : Nat) (s : FS) :
    (readFat m ca s).2.fat.isSome = s.fat.isSome := by
  by_cases hca : InVol m ca
  · cases hcache : cachedFat ca s with
    | some x => rw [readFat_cached hca hcache]
    | none => rw [(readFat_noted hca hcache).fat, Option.isSome_map]
  · rw [readFat_refused hca, (registerError_statics m .readFatError s).fat]

/-- With a cache, the entry that is read keeps its value: the cache notes it before the copies are
repaired. -/
theorem readFat_view_self (harea : FatArea m) (hca : InVol m ca) (hsome : s.fat.isSome)
    (hval : viewFat m s ca ≠ FAT_CLUSTER_BAD) :
    viewFat m (readFat (m.failing w) ca s).2 ca = viewFat m s ca := by
  have hca' : InVol (m.failing w) ca := hca
  cases hcache : cachedFat ca s with
  | some x => rw [readFat_cached hca' hcache]
  | none =>
    have hread := readFat_failing w harea hca s
    have hnoted := cachedFat_noted (k := ca) (readFat_noted hca' hcache)
    obtain ⟨g, hg⟩ := Option.isSome_iff_exists.mp hsome
    rw [if_pos rfl, hg, Option.bind_some, hread, if_neg hval] at hnoted
    rw [viewFat, hnoted]
    rfl

/-! ### The search for a new cluster -/

section Search

variable {hca offt passes skip : Nat} (w) (harea : FatArea m) (hin : EntriesInside m)
  (hhca : InVol m hca)

/-- What the search from `ca` on knows of the tail `hca`: it reads as the end of its chain, unless
the search has passed it and there is no cache. -/
def TailKept (m : Mount) (hca : Nat) (s : FS) (ca : Nat) : Prop :=
  ca ≤ hca ∨ s.fat.isSome → viewFat m s hca = FAT_CLUSTER_END

/-- The search took a cluster other than the tail, or none; with a cache the tail is as before. -/
def Spares (m : Mount) (hca : Nat) (s : FS) (o : Nat × FS) : Prop :=
  (o.1 = FAT_CLUSTER_BAD ∨ (InVol m o.1 ∧ o.1 ≠ hca)) ∧ o.2.fat.isSome = s.fat.isSome ∧
    (s.fat.isSome → viewFat m o.2 hca = FAT_CLUSTER_END)

theorem moveOffset_view (m : Mount) (hca offt x : Nat) (s : FS) :
    (moveOffset offt x s).fat = s.fat ∧ viewFat m (moveOffset offt x s) hca = viewFat m s hca := by
  rw [moveOffset]
  split
  · exact ⟨rfl, rfl⟩
  · exact ⟨rfl, rfl⟩

/-- A search that finds nothing. -/
theorem spares_none (x : Nat) (h : s.fat.isSome → viewFat m s hca = FAT_CLUSTER_END) :
    Spares m hca s (FAT_CLUSTER_BAD, moveOffset offt x s) := by
  obtain ⟨hfat, hsame⟩ := moveOffset_view m hca offt x s
  refine ⟨Or.inl rfl, ?_, ?_⟩
  · show (moveOffset offt x s).fat.isSome = _
    rw [hfat]
  · intro hsome
    show viewFat m (moveOffset offt x s) hca = _
    rw [hsame]
    exact h hsome

theorem Spares.of_present {o : Nat × FS} (h : Spares m hca s' o)
    (hpresent : s'.fat.isSome = s.fat.isSome) : Spares m hca s o := by
  refine ⟨h.1, h.2.1.trans hpresent, ?_⟩
  intro hsome
  exact h.2.2 (hpresent.trans hsome)

theorem TailKept.mono {c : Nat} (h : TailKept m hca s ca) (hle : ca ≤ c) : TailKept m hca s c := by
  rintro (hc | hsome)
  · exact h (Or.inl (Nat.le_trans hle hc))
  · exact h (Or.inr hsome)

include harea hin hhca

/-- A cluster that is free is not the tail, and to reserve it leaves the tail. -/
theorem claimCluster_spares (hvol : InVol m ca) (hne : hca ≠ ca)
    (hkept : s.fat.isSome → viewFat m s hca = FAT_CLUSTER_END) :
    Spares m hca s (claimCluster (m.failing w) offt ca s) := by
  have hentry := writeFat_entry w harea hhca hin hne FAT_CLUSTER_RESERVED s
  rw [claimCluster]
  generalize writeFat (m.failing w) ca FAT_CLUSTER_RESERVED s = r at hentry
  obtain ⟨ok, t⟩ := r
  have hview : s.fat.isSome → viewFat m t hca = FAT_CLUSTER_END := by
    intro hsome
    rw [hentry.view]
    exact hkept hsome
  cases ok with
  | false => exact ⟨Or.inl rfl, hentry.present, hview⟩
  | true =>
    obtain ⟨hfat, hsame⟩ := moveOffset_view m hca offt (ca + 1) t
    refine ⟨Or.inr ⟨hvol, hne.symm⟩, ?_, ?_⟩
    · show (moveOffset offt (ca + 1) t).fat.isSome = _
      rw [hfat]
      exact hentry.present
    · intro hsome
      show viewFat m (moveOffset offt (ca + 1) t) hca = _
      rw [hsame]
      exact hview hsome

/-- One read of the search: what it returns of the tail, and what is known behind it. -/
theorem TailKept.read (h : TailKept m hca s ca) :
    TailKept m hca (readFat (m.failing w) ca s).2 (ca + 1) ∧
      (ca = hca → (readFat (m.failing w) ca s).1 = FAT_CLUSTER_END) := by
  by_cases heq : ca = hca
  · subst heq
    have hview := h (Or.inl (Nat.le_refl ca))
    refine ⟨?_, fun _ => (readFat_failing w harea hhca s).trans hview⟩
    rintro (hle | hsome)
    · exact absurd hle (Nat.not_succ_le_self ca)
    · rw [readFat_present] at hsome
      rw [readFat_view_self harea hhca hsome (by rw [hview]; decide), hview]
  · refine ⟨?_, fun h => absurd h heq⟩
    have hentry := readFat_entry w harea hhca hin (fun h => heq h.symm) s
    intro hor
    rw [hentry.view]
    apply h
    rcases hor with hle | hsome
    · exact Or.inl (Nat.le_of_succ_le hle)
    · exact Or.inr (hentry.present ▸ hsome)

/-- The scan passes the tail by. -/
theorem allocScan_spares (h : TailKept m hca s ca) :
    Spares m hca s (allocScan (m.failing w) offt passes ca skip s) := by
  induction passes generalizing ca skip s with
  | zero => exact spares_none _ fun hsome => h (Or.inr hsome)
  | succ passes ih =>
    rw [allocScan]
    by_cases hend : (m.failing w).fi.totalClusters ≤ ca
    · rw [if_pos hend]
      exact spares_none _ fun hsome => h (Or.inr hsome)
    · rw [if_neg hend]
      obtain ⟨hkept, htail⟩ := h.read w harea hin hhca
      have hpresent := readFat_present (m.failing w) ca s
      have hvalue : (readFat (m.failing w) ca s).1 = FAT_CLUSTER_FREE → InVol m ca := by
        intro hfree
        by_contra hno
        rw [readFat_refused (show ¬ InVol (m.failing w) ca from hno)] at hfree
        cases hfree
      generalize readFat (m.failing w) ca s = r at hkept htail hpresent hvalue
      obtain ⟨status, t⟩ := r
      refine Spares.of_present ?_ hpresent
      simp only
      by_cases hfree : status = FAT_CLUSTER_FREE
      · -- the tail does not read as free
        have hne : hca ≠ ca := by
          intro heq
          have hstatus : status = FAT_CLUSTER_END := htail heq.symm
          rw [hstatus] at hfree
          cases hfree
        rw [if_pos hfree]
        exact claimCluster_spares w harea hin hhca (hvalue hfree) hne
          fun hsome => hkept (Or.inr hsome)
      · rw [if_neg hfree]
        split
        · exact ih (hkept.mono (by omega))
        · exact ih hkept

/-- So does the search, when there is no bitmap without a cache. -/
theorem allocSearch_spares (hview : viewFat m s hca = FAT_CLUSTER_END)
    (hmap : s.fat = none → s.bitmap = none) :
    Spares m hca s (allocSearch (m.failing w) offt s) := by
  have hkept : ∀ c, TailKept m hca s c := fun c _ => hview
  rw [allocSearch]
  simp only
  generalize (if offt = NO_CLUSTER_OFFSET then s.lastAllocatedCluster else offt) = curr
  by_cases hnone : fatmapFindFree (m.failing w) curr 1 s = 0
  · rw [if_pos hnone]
    exact allocScan_spares w harea hin hhca (hkept curr)
  · -- a proposal comes from a bitmap, so there is a cache
    have hsome : s.fat.isSome := by
      cases hfat : s.fat with
      | some g => rfl
      | none =>
        rw [fatmapFindFree, hmap hfat] at hnone
        exact absurd rfl hnone
    rw [if_neg hnone]
    generalize fatmapFindFree (m.failing w) curr 1 s = proposal
    obtain ⟨hread, htail⟩ := (hkept proposal).read w harea hin hhca
    have hpresent := readFat_present (m.failing w) proposal s
    have hvalue : (readFat (m.failing w) proposal s).1 = FAT_CLUSTER_FREE → InVol m proposal := by
      intro hfree
      by_contra hno
      rw [readFat_refused (show ¬ InVol (m.failing w) proposal from hno)] at hfree
      cases hfree
    generalize readFat (m.failing w) proposal s = r at hread htail hpresent hvalue
    obtain ⟨status, t⟩ := r
    have ht : viewFat m t hca = FAT_CLUSTER_END := hread (Or.inr (hpresent.trans hsome))
    refine Spares.of_present ?_ hpresent
    simp only
    by_cases hfree : status = FAT_CLUSTER_FREE
    · have hne : hca ≠ proposal := by
        intro heq
        have hstatus : status = FAT_CLUSTER_END := htail heq.symm
        rw [hstatus] at hfree
        cases hfree
      rw [if_pos hfree]
      exact claimCluster_spares w harea hin hhca (hvalue hfree) hne fun _ => ht
    · rw [if_neg hfree]
      exact allocScan_spares w harea hin hhca fun _ => ht

theorem allocNext_spares (hview : viewFat m s hca = FAT_CLUSTER_END)
    (hmap : s.fat = none → s.bitmap = none) :
    Spares m hca s (allocNext (m.failing w) s) := by
  have hcall : ∀ offt (t : FS), t.fat = s.fat → t.bitmap = s.bitmap → t.medium = s.medium →
      Spares m hca s (allocCluster (m.failing w) offt t) := by
    intro offt t hfat hbitmap hmedium
    have hview' : viewFat m t hca = FAT_CLUSTER_END := by
      rw [viewFat, cachedFat, hfat, hmedium]
      exact hview
    have hmap' : t.fat = none → t.bitmap = none := by
      rw [hfat, hbitmap]
      exact hmap
    have hspares : Spares m hca t (allocSearch (m.failing w) offt t) :=
      allocSearch_spares w harea hin hhca hview' hmap'
    have hsearch := hspares.of_present (congrArg Option.isSome hfat)
    rw [allocCluster]
    generalize allocSearch (m.failing w) offt t = r at hsearch
    obtain ⟨c, u⟩ := r
    exact hsearch
  obtain ⟨hfat, hbitmap, hmedium⟩ := getClusterOffset_fat (m.failing w) s
  exact hcall (getClusterOffset (m.failing w) s).1 (getClusterOffset (m.failing w) s).2 hfat hbitmap
    hmedium

/-- A cluster other than the tail is given back. -/
theorem deallocCluster_entry (hne : hca ≠ ca) (s : FS) :
    EntrySame m hca s (deallocCluster (m.failing w) ca s).2 := by
  have hread := readFat_entry w harea hhca hin hne s
  rw [deallocCluster]
  generalize readFat (m.failing w) ca s = r at hread
  obtain ⟨status, t⟩ := r
  simp only
  by_cases hfree : status = FAT_CLUSTER_FREE
  · rw [if_pos hfree]
    exact hread
  · rw [if_neg hfree]
    have hwrite := writeFat_entry w harea hhca hin hne FAT_CLUSTER_FREE t
    rw [setClusterFree]
    generalize writeFat (m.failing w) ca FAT_CLUSTER_FREE t = r at hwrite
    obtain ⟨ok, u⟩ := r
    cases ok with
    | true => exact hread.trans hwrite
    | false => exact (hread.trans hwrite).trans (registerError_entry w harea hhca _ u)

end Search

/-! ### The extension -/

/-- The copies `c` of an entry elect the value `v`. -/
def Elects (m : Mount) (c : Nat → Nat) (v : Nat) : Prop :=
  (Vote.run FAT_CLUSTER_BAD ((List.range m.fi.fatCount).map c)).val = v

instance (m : Mount) (c : Nat → Nat) (v : Nat) : Decidable (Elects m c v) :=
  inferInstanceAs (Decidable (_ = _))

/-- The new cluster and the state in which the tail is linked to it, when the call gets there. -/
def beforeLink (m : Mount) (s : FS) : Option (Nat × FS) :=
  match allocNext m s with
  | (nca, s) =>
    if nca = FAT_CLUSTER_BAD then none
    else
      match setClusterEnd m nca s with
      | (false, _) => none
      | (true, s) => some (nca, s)

/-- The link is written to every copy; or there is no cache, and the copies of the tail, with the
new cluster in those that took the link, elect the end. When no link is written, the copies of the
tail elect the end as the search has left them, or there is a cache. -/
def LinkSafe (m : Mount) (hca : Nat) (s : FS) : Prop :=
  match beforeLink m s with
  | none => s.fat = none → Elects m (fatAt m (allocNext m s).2.medium hca) FAT_CLUSTER_END
  | some (nca, t) =>
    (∀ i, i < m.fi.fatCount → copyTaken m hca nca t i = true) ∨
    (t.fat = none ∧ Elects m (fun i =>
      if copyTaken m hca nca t i = true then nca else fatAt m t.medium hca i) FAT_CLUSTER_END)

/-- When the extension fails, the tail reads as before. -/
def KeepsTail (m : Mount) (hca : Nat) (s : FS) : Prop :=
  (addClusterToChain m hca s).1 = FAT_CLUSTER_BAD →
    (readFat m hca (addClusterToChain m hca s).2).1 = (readFat m hca s).1

/-- The view without a cache is the vote. -/
theorem viewFat_elects {hca v : Nat} (hfat : s.fat = none) :
    viewFat m s hca = v ↔ Elects m (fatAt m s.medium hca) v := by
  rw [viewFat, cachedFat, hfat]
  exact Iff.rfl

/-- The tail behind a link that some copy did not take. -/
theorem viewFat_link (harea : FatArea m) (hin : EntriesInside m) {hca nca : Nat}
    (hhca : InVol m hca) (hnca : InVol m nca) (hnumbers : m.fi.totalClusters ≤ FAT_CLUSTER_BAD)
    (t : FS) : viewFat m (writeFatLocked (m.failing w) hca nca t).2 hca = FAT_CLUSTER_END ↔
      t.fat = none ∧ Elects m (fun i =>
        if copyTaken (m.failing w) hca nca t i = true then nca else fatAt m t.medium hca i)
        FAT_CLUSTER_END := by
  have hlt := hnca.2
  have hbad : nca ≠ FAT_CLUSTER_BAD := by omega
  have hend : nca ≠ FAT_CLUSTER_END := by
    rw [show FAT_CLUSTER_BAD = 0x0FFFFFF7 from rfl] at hnumbers
    rw [show FAT_CLUSTER_END = 0x0FFFFFFF from rfl]
    omega
  have hcached := cachedFat_noted (k := hca) (writeFatLocked_noted (m.failing w) hca nca t)
  rw [if_pos rfl] at hcached
  cases hfat : t.fat with
  | some g =>
    -- the cache holds the link
    rw [hfat, Option.bind_some, if_neg hbad] at hcached
    rw [viewFat, hcached]
    exact ⟨fun h => absurd h hend, fun h => absurd h.1 (Option.some_ne_none g)⟩
  | none =>
    rw [hfat, Option.bind_none] at hcached
    have hcopies : (List.range m.fi.fatCount).map
        (fatAt m (writeFatLocked (m.failing w) hca nca t).2.medium hca)
        = (List.range m.fi.fatCount).map fun i =>
          if copyTaken (m.failing w) hca nca t i = true then nca else fatAt m t.medium hca i := by
      apply List.map_congr_left
      intro i hi
      have hi := List.mem_range.mp hi
      have hmod : nca % 2 ^ 28 = nca := Nat.mod_eq_of_lt (by
        rw [show FAT_CLUSTER_BAD = 0x0FFFFFF7 from rfl] at hnumbers
        omega)
      rw [(writeFatLocked_any (m.failing w) hca nca t).2]
      have hcopy := fatAt_beforeWrite w harea hhca hin hhca hi nca t (Nat.le_refl m.fi.fatCount)
      rw [hmod] at hcopy
      rw [show (m.failing w).fi.fatCount = m.fi.fatCount from rfl, hcopy]
      simp only [hi, and_self, true_and]
    rw [viewFat, hcached, Option.getD_none, votedFat, fatBallot, hcopies]
    exact ⟨fun h => ⟨rfl, h⟩, fun h => h.2⟩

/-- Whatever the FAT holds and whichever writes fail, a failed extension leaves the tail exactly
when the link is safe. -/
theorem addClusterToChain_keeps_iff (harea : FatArea m) (hin : EntriesInside m)
    (hnumbers : m.fi.totalClusters ≤ FAT_CLUSTER_BAD) (w : Nat → Nat → Nat → Nat → Bool)
    {hca : Nat} {s : FS} (htail : fatValue m s hca = FAT_CLUSTER_END)
    (hmap : s.fat = none → s.bitmap = none) :
    KeepsTail (m.failing w) hca s ↔ LinkSafe (m.failing w) hca s := by
  have hhca : InVol m hca := by
    by_contra hno
    rw [fatValue_outside hno] at htail
    cases htail
  have hview : viewFat m s hca = FAT_CLUSTER_END := (readFat_view harea hin hhca s).symm.trans htail
  have hbefore : (readFat (m.failing w) hca s).1 = FAT_CLUSTER_END :=
    (readFat_failing w harea hhca s).trans hview
  have hafter : ∀ t : FS, (readFat (m.failing w) hca t).1 = viewFat m t hca :=
    fun t => readFat_failing w harea hhca t
  obtain ⟨hret, hpresent, hcache⟩ := allocNext_spares w harea hin hhca hview hmap
  have hfat : ∀ t : FS, t.fat.isSome = s.fat.isSome → (t.fat = none ↔ s.fat = none) := by
    intro t ht
    rw [← Option.isNone_iff_eq_none, ← Option.isNone_iff_eq_none, ← Option.not_isSome,
      ← Option.not_isSome, ht]
  rw [KeepsTail, LinkSafe, beforeLink, addClusterToChain, hbefore]
  simp only [hafter]
  generalize allocNext (m.failing w) s = r at hret hpresent hcache
  obtain ⟨nca, t⟩ := r
  simp only at hret hpresent hcache ⊢
  -- without a link the tail is as the search has left it
  have hnolink : ∀ u : FS, EntrySame m hca t u →
      ((FAT_CLUSTER_BAD = FAT_CLUSTER_BAD → viewFat m u hca = FAT_CLUSTER_END) ↔
        (s.fat = none → Elects (m.failing w) (fatAt (m.failing w) t.medium hca)
          FAT_CLUSTER_END)) := by
    intro u hu
    rw [hu.view]
    constructor
    · intro h hnone
      exact (viewFat_elects ((hfat t hpresent).mpr hnone)).mp (h rfl)
    · intro h _
      cases hs : s.fat with
      | none => exact (viewFat_elects ((hfat t hpresent).mpr hs)).mpr (h hs)
      | some g => exact hcache (by rw [hs]; rfl)
  by_cases hbad : nca = FAT_CLUSTER_BAD
  · rw [if_pos hbad, if_pos hbad]
    exact hnolink _ (registerError_entry w harea hhca _ t)
  · obtain ⟨hnca, hne⟩ := hret.resolve_left hbad
    have hne' : hca ≠ nca := hne.symm
    rw [if_neg hbad, if_neg hbad]
    have hset := writeFat_entry w harea hhca hin hne' FAT_CLUSTER_END t
    rw [setClusterEnd]
    generalize writeFat (m.failing w) nca FAT_CLUSTER_END t = r at hset
    obtain ⟨ok, u⟩ := r
    cases ok with
    | false =>
      exact hnolink _ ((hset.trans (registerError_entry w harea hhca _ u)).trans
        (deallocCluster_entry w harea hin hhca hne' _))
    | true =>
      -- the link is written
      have hlocked : writeFat (m.failing w) hca nca u = writeFatLocked (m.failing w) hca nca u := by
        rw [writeFat, if_neg (not_inVol_iff.not.mpr (not_not.mpr
          (show InVol (m.failing w) hca from hhca)))]
      have hlink := viewFat_link (w := w) harea hin hhca hnca hnumbers u
      have hall := (writeFatLocked_any (m.failing w) hca nca u).1
      simp only [hlocked]
      generalize writeFatLocked (m.failing w) hca nca u = r at hlink hall
      obtain ⟨ok, v⟩ := r
      cases ok with
      | true => exact ⟨fun _ => Or.inl (hall.mp rfl), fun _ h => absurd h hbad⟩
      | false =>
        have hrest := (registerError_entry w harea hhca .writeFatError v).trans
          (deallocCluster_entry w harea hin hhca hne' _)
        have hsome : ¬ ∀ i, i < (m.failing w).fi.fatCount →
            copyTaken (m.failing w) hca nca u i = true :=
          fun h => Bool.false_ne_true (hall.mpr h)
        show (_ → viewFat m (deallocCluster (m.failing w) nca _).2 hca = _) ↔ _
        rw [hrest.view, hlink]
        constructor
        · exact fun h => Or.inr (h rfl)
        · exact fun h _ => h.resolve_left hsome

/-- The small volume with the chain `[2]` in its cache; an allocation starts at the cluster `5`. -/
def shortChain : FS := { zeroFS (oneFile 2 R_MODE) with
  fat := some fun k => if k = 2 then FAT_CLUSTER_END else FAT_CLUSTER_FREE
  lastAllocatedCluster := 128 }

/-- A write to the second copy of the entry of the cluster `2` fails. -/
def secondCopyFails (_ sa offset _ : Nat) : Bool :=
  !(sa == (fatEntryPos (smallMount 0) 2 1).1 && offset == (fatEntryPos (smallMount 0) 2 1).2)

/-- The cluster `5` is given back, and the tail is linked to it. -/
theorem extension_leaves_link :
    let m := (smallMount 0).failing secondCopyFails
    let s := (addClusterToChain m 2 shortChain).2
    (readFat m 2 shortChain).1 = FAT_CLUSTER_END ∧
      (addClusterToChain m 2 shortChain).1 = FAT_CLUSTER_BAD ∧
      (readFat m 2 s).1 = 5 ∧ (readFat m 5 s).1 = FAT_CLUSTER_FREE ∧
      ¬ KeepsTail m 2 shortChain := by
  intro m s
  have hbad : (addClusterToChain m 2 shortChain).1 = FAT_CLUSTER_BAD := by decide
  have hlink : (readFat m 2 s).1 = 5 := by decide
  have hend : (readFat m 2 shortChain).1 = FAT_CLUSTER_END := by decide
  refine ⟨hend, hbad, hlink, by decide, ?_⟩
  intro h
  have hkept := h hbad
  rw [hlink, hend] at hkept
  cases hkept

/-- When every write fails, the extension of the chain fails and leaves it. -/
theorem addClusterToChain_keeps_small :
    KeepsTail ((smallMount 0).failing fun _ _ _ _ => false) 2 shortChain := by
  refine (addClusterToChain_keeps_iff smallMount_fatArea smallMount_entriesInside (by decide)
    (fun _ _ _ _ => false) (by decide) (by intro h; cases h)).mpr ?_
  -- the cluster that is found cannot be reserved
  have hnone : beforeLink ((smallMount 0).failing fun _ _ _ _ => false) shortChain = none := rfl
  rw [LinkSafe, hnone]
  intro h
  cases h

end NiFat32
