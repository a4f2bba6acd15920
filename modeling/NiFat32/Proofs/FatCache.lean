import NiFat32.Proofs.ErrorRing
import NiFat32.Proofs.Fat

/-!
# `Proofs.FatCache`: the FAT cache is transparent

An entry of the FAT is a cell in one sector of every copy, and `votedFat` is what the vote over
the copies makes of it. `Represents` says that the votes, and what a cache holds, are the values of
an array, and `Represents.exec` that a call of the FAT is the call on the array. A repair writes
what the vote elected, so it does not change the vote.

The cache keeps what a caller wrote, and a copy keeps what its sector has room for. So the two
runs agree on volumes whose entries lie in their sectors (`EntriesInside`) and do not share bytes.
-/

set_option autoImplicit false

namespace NiFat32

open ByteStore

variable {m : Mount} {s u : FS} {ca k x : Nat}

/-! ### An entry is a cell of a sector -/

/-- The offset of an entry in its sector, in every copy. -/
def fatOffset (m : Mount) (ca : Nat) : Nat := (fatEntryPos m ca 0).2

/-- The sectors of an entry. -/
def fatSectors (m : Mount) (ca : Nat) : List Nat :=
  (List.range m.fi.fatCount).map fun i => (fatEntryPos m ca i).1

/-- What the copy `i` says about `ca`. -/
def fatAt (m : Mount) (d : Medium) (ca i : Nat) : Nat :=
  leValue (unpackMemory (cell 0 m.sectorSize d.bytes (fatEntryPos m ca i).1 (fatOffset m ca) 8) 4)
    % 2 ^ 28

/-- The vote over the copies of an entry. -/
def fatBallot (m : Mount) (d : Medium) (ca : Nat) : Vote.Ballot Nat :=
  Vote.run FAT_CLUSTER_BAD ((List.range m.fi.fatCount).map (fatAt m d ca))

/-- What the vote makes of an entry. -/
def votedFat (m : Mount) (d : Medium) (ca : Nat) : Nat := (fatBallot m d ca).val

theorem readFatCopy_works (hw : m.Works) (ca i : Nat) (s : FS) :
    readFatCopy m ca i s = (fatAt m s.medium ca i, s) := by
  rw [readFatCopy]
  simp only [dskReadoffSectors_one hw, fillBuffer_one]
  rfl

theorem voteFat_works (hw : m.Works) (ca : Nat) (s : FS) :
    voteFat m ca s = (fatBallot m s.medium ca, s) := by
  rw [voteFat, fatBallot, Vote.run, List.foldl_map]
  simp only [readFatCopy_works hw]
  generalize Vote.start FAT_CLUSTER_BAD = b
  induction List.range m.fi.fatCount generalizing b with
  | nil => rfl
  | cons i is ih => exact ih _

/-- A write of a value to all copies. -/
theorem writeFatLocked_works (hw : m.Works) (ca x : Nat) (s : FS) :
    ∃ d, writeFatLocked m ca x s = (true, { noteFat ca x s with medium := d }) ∧
      d.bytes = putAll m.sectorSize s.medium.bytes (fatSectors m ca) (fatOffset m ca)
        (cellBytes x) := by
  rw [writeFatLocked, fatSectors, ← noteFat_medium ca x s]
  generalize noteFat ca x s = t
  induction List.range m.fi.fatCount generalizing t with
  | nil => exact ⟨t.medium, rfl, rfl⟩
  | cons i is ih =>
    obtain ⟨d₁, he₁, hd₁⟩ := dskWriteoffSectors_one hw t.medium (fatEntryPos m ca i).1
      (fatEntryPos m ca i).2 (cellBytes x)
    obtain ⟨d₂, he₂, hd₂⟩ := ih { t with medium := d₁ }
    have hcopy : writeFatCopy m ca x i t = (true, { t with medium := d₁ }) := by
      rw [writeFatCopy]
      simp only [show packMemory (bytesOfU32 (UInt32.ofNat x)) = cellBytes x from rfl, he₁]
    refine ⟨d₂, ?_, ?_⟩
    · rw [List.foldl_cons, hcopy]
      exact he₂
    · rw [hd₂, List.map_cons, putAll_cons]
      exact congrArg (putAll _ · _ _ _) hd₁

/-! ### Where the entries lie -/

/-- The FAT of a mounted volume: there is a copy, no two copies share a sector, and the error
areas lie in other sectors. -/
structure FatArea (m : Mount) : Prop where
  works : m.Works
  fatCount_pos : 0 < m.fi.fatCount
  bytes_pos : 0 < m.fi.bytesPerSector
  copies : ∀ i j, i < m.fi.fatCount → j < m.fi.fatCount → i ≠ j → ∀ ca k, InVol m ca → InVol m k →
    (fatEntryPos m ca i).1 ≠ (fatEntryPos m k j).1
  log : ∀ ca, InVol m ca → ∀ i, i < m.fi.fatCount → (fatEntryPos m ca i).1 ∉ errorSectors m

/-- Every entry lies in one sector, and the position of an entry does not wrap. -/
structure EntriesInside (m : Mount) : Prop where
  inside : ∀ ca, InVol m ca → fatOffset m ca + 8 ≤ m.sectorSize
  count : m.fi.totalClusters ≤ 2 ^ 29

/-- The entries of different clusters share no byte. -/
theorem FatArea.apart (h : FatArea m) (hin : EntriesInside m) (hca : InVol m ca)
    (hk : InVol m k) (hne : k ≠ ca) {i j : Nat} (hi : i < m.fi.fatCount)
    (hj : j < m.fi.fatCount) : (fatEntryPos m k i).1 ≠ (fatEntryPos m ca j).1 ∨
      fatOffset m k + 8 ≤ fatOffset m ca ∨ fatOffset m ca + 8 ≤ fatOffset m k := by
  by_cases hij : i = j
  · subst hij
    by_cases hsector : (fatEntryPos m k i).1 = (fatEntryPos m ca i).1
    · refine Or.inr ?_
      have hcount := hin.count
      have hu : ∀ n, InVol m n → u32 (n * 8) = n * 8 := by
        intro n hn
        have := hn.2
        exact u32_of_lt (by omega)
      have hpos : ∀ n, InVol m n → fatEntryPos m n i =
          (u32 (m.fi.sectorsPadd + getFatSector i m.fi.totalSectors
            + n * 8 / m.fi.bytesPerSector), n * 8 % m.fi.bytesPerSector) := by
        intro n hn
        rw [fatEntryPos, hu n hn]
      have hoff : ∀ n, InVol m n → fatOffset m n = n * 8 % m.fi.bytesPerSector := by
        intro n hn
        rw [fatOffset, fatEntryPos, hu n hn]
      have hquot : ∀ n, InVol m n → n * 8 / m.fi.bytesPerSector < 2 ^ 32 := by
        intro n hn
        have := hn.2
        exact Nat.lt_of_le_of_lt (Nat.div_le_self _ _) (by omega)
      -- the two entries are in the same sector of the copy
      rw [hpos k hk, hpos ca hca] at hsector
      have hwrap : ∀ base a b : Nat, a < 2 ^ 32 → b < 2 ^ 32 →
          u32 (base + a) = u32 (base + b) → a = b := by
        intro base a b ha hb heq
        rw [u32, u32] at heq
        omega
      have hq := hwrap _ _ _ (hquot k hk) (hquot ca hca) hsector
      have hdk := Nat.div_add_mod (k * 8) m.fi.bytesPerSector
      have hdca := Nat.div_add_mod (ca * 8) m.fi.bytesPerSector
      rw [hoff k hk, hoff ca hca]
      rw [hq] at hdk
      omega
    · exact Or.inl hsector
  · exact Or.inl (h.copies i j hi hj hij k ca hk hca)

/-- After a write, the vote is the value as far as an entry has room for it. -/
theorem FatArea.voted_write (h : FatArea m) (hin : EntriesInside m) (hca : InVol m ca) (x : Nat)
    (s : FS) :
    votedFat m (writeFatLocked m ca x s).2.medium ca = x % 2 ^ 28 ∧
      ∀ k, InVol m k → k ≠ ca →
        votedFat m (writeFatLocked m ca x s).2.medium k = votedFat m s.medium k := by
  obtain ⟨d, he, hd⟩ := writeFatLocked_works h.works ca x s
  rw [he]
  refine ⟨?_, ?_⟩
  · have hall : ∀ i, i < m.fi.fatCount → fatAt m d ca i = x % 2 ^ 28 := by
      intro i hi
      have hmem : (fatEntryPos m ca i).1 ∈ fatSectors m ca :=
        List.mem_map.mpr ⟨i, List.mem_range.mpr hi, rfl⟩
      have hcell : cell 0 m.sectorSize d.bytes (fatEntryPos m ca i).1 (fatOffset m ca)
          (cellBytes x).length = cellBytes x := by
        rw [hd, cell_putAll_self hmem]
        apply clip_of_le
        rw [length_cellBytes]
        exact hin.inside ca hca
      rw [length_cellBytes] at hcell
      rw [fatAt, hcell]
      exact leValue_cellBytes_mod x
    have hmap : (List.range m.fi.fatCount).map (fatAt m d ca)
        = List.replicate m.fi.fatCount (x % 2 ^ 28) := by
      apply List.eq_replicate_iff.mpr
      simpa using hall
    rw [votedFat, fatBallot, hmap]
    exact Vote.run_replicate _ _ _ h.fatCount_pos
  · intro k hk hne
    have hmap : (List.range m.fi.fatCount).map (fatAt m d k)
        = (List.range m.fi.fatCount).map (fatAt m s.medium k) := by
      apply List.map_congr_left
      intro i hi
      have hi := List.mem_range.mp hi
      have hcell : cell 0 m.sectorSize d.bytes (fatEntryPos m k i).1 (fatOffset m k) 8
          = cell 0 m.sectorSize s.medium.bytes (fatEntryPos m k i).1 (fatOffset m k) 8 := by
        rw [hd]
        apply cell_putAll_other
        rw [length_cellBytes]
        by_cases hmem : (fatEntryPos m k i).1 ∈ fatSectors m ca
        · obtain ⟨j, hj, hsector⟩ := List.mem_map.mp hmem
          have hapart := h.apart hin hca hk hne hi (List.mem_range.mp hj)
          exact Or.inr (hapart.resolve_left fun hno => hno hsector.symm)
        · exact Or.inl hmem
      rw [fatAt, fatAt, hcell]
    rw [votedFat, votedFat, fatBallot, fatBallot, hmap]

/-- An error that is registered leaves the FAT. -/
theorem FatArea.voted_registerError (h : FatArea m) (hk : InVol m k) (code : ErrorCode) (s : FS) :
    votedFat m (registerError m code s).medium k = votedFat m s.medium k := by
  have hmap : (List.range m.fi.fatCount).map (fatAt m (registerError m code s).medium k)
      = (List.range m.fi.fatCount).map (fatAt m s.medium k) := by
    apply List.map_congr_left
    intro i hi
    have hsame := errorsRegisterError_window h.works (h.log k hk i (List.mem_range.mp hi)) code s
    rw [fatAt, fatAt, registerError, hsame.cell]
  rw [votedFat, votedFat, fatBallot, fatBallot, hmap]

/-! ### The FAT as an array of values -/

/-- A call of the FAT. -/
inductive FatCall
  | read (ca : Nat)
  | write (ca value : Nat)

/-- The value that is written fits into an entry. -/
def FatCall.Fits : FatCall → Prop
  | .read _ => True
  | .write _ value => value < 2 ^ 28

instance : DecidablePred FatCall.Fits
  | .read _ => inferInstanceAs (Decidable True)
  | .write _ value => inferInstanceAs (Decidable (value < 2 ^ 28))

/-- What a call returns, and the state behind it. -/
def FatCall.exec (m : Mount) : FatCall → FS → Nat × FS
  | .read ca, s => readFat m ca s
  | .write ca value, s =>
    let (ok, s) := writeFat m ca value s
    (if ok then 1 else 0, s)

/-- The call on an array of values. -/
def FatCall.onArray (m : Mount) : FatCall → (Nat → Nat) → Nat × (Nat → Nat)
  | .read ca, f => (if InVol m ca then f ca else FAT_CLUSTER_BAD, f)
  | .write ca value, f => if InVol m ca then (1, Function.update f ca value) else (0, f)

/-- What the calls return, and the state behind them. -/
def fatCalls (m : Mount) : List FatCall → FS → List Nat × FS
  | [], s => ([], s)
  | c :: cs, s =>
    let (r, s) := c.exec m s
    let (rs, s) := fatCalls m cs s
    (r :: rs, s)

/-- What the calls return on an array, and the array behind them. -/
def arrayCalls (m : Mount) : List FatCall → (Nat → Nat) → List Nat × (Nat → Nat)
  | [], f => ([], f)
  | c :: cs, f =>
    let (r, f) := c.onArray m f
    let (rs, f) := arrayCalls m cs f
    (r :: rs, f)

/-- The votes are the values of the array, and so is what the cache holds. -/
structure Represents (m : Mount) (s : FS) (f : Nat → Nat) : Prop where
  voted : ∀ ca, InVol m ca → votedFat m s.medium ca = f ca
  cached : ∀ ca, InVol m ca → ∀ x, cachedFat ca s = some x → x = f ca

variable {f : Nat → Nat}

/-- Noting a value that is in the array. -/
theorem Represents.note (h : Represents m s f) (hx : x = f ca) :
    Represents m (noteFat ca x s) f where
  voted := by
    rw [noteFat_medium]
    exact h.voted
  cached := by
    intro k hk y hy
    cases cachedFat_noteFat _ _ _ _ hy with
    | inl hself => rw [hself.1, hself.2, hx]
    | inr hother => exact h.cached k hk y hother.2

/-- A write to the copies, behind the note of its value. -/
theorem Represents.write (h : Represents m s f) (harea : FatArea m) (hin : EntriesInside m)
    (hca : InVol m ca) (hx : x < 2 ^ 28) :
    Represents m (writeFatLocked m ca x s).2 (Function.update f ca x) where
  voted := by
    obtain ⟨hself, hother⟩ := harea.voted_write hin hca x s
    intro k hk
    by_cases hne : k = ca
    · rw [hne, Function.update_self, hself]
      exact Nat.mod_eq_of_lt hx
    · rw [Function.update_of_ne hne, hother k hk hne]
      exact h.voted k hk
  cached := by
    obtain ⟨d, he, -⟩ := writeFatLocked_works harea.works ca x s
    rw [he]
    intro k hk y hy
    cases cachedFat_noteFat _ _ _ _ hy with
    | inl hself => rw [hself.1, hself.2, Function.update_self]
    | inr hother =>
      rw [Function.update_of_ne hother.1]
      exact h.cached k hk y hother.2

theorem Represents.registerError (h : Represents m s f) (harea : FatArea m) (code : ErrorCode) :
    Represents m (registerError m code s) f where
  voted := fun k hk => (harea.voted_registerError hk code s).trans (h.voted k hk)
  cached := by
    have hfat := (registerError_logOnly harea.works code s).fat
    intro k hk y hy
    rw [cachedFat, hfat] at hy
    exact h.cached k hk y hy

/-- The vote elects a value that fits into an entry. -/
theorem votedFat_lt (m : Mount) (d : Medium) (ca : Nat) : votedFat m d ca < 2 ^ 28 := by
  rw [votedFat, fatBallot]
  cases Vote.foldl_val_mem (Vote.start FAT_CLUSTER_BAD)
    ((List.range m.fi.fatCount).map (fatAt m d ca)) with
  | inl hbad =>
    rw [Vote.run, hbad]
    decide
  | inr hmem =>
    obtain ⟨i, -, hi⟩ := List.mem_map.mp hmem
    rw [Vote.run, ← hi]
    exact Nat.mod_lt _ (by decide)

/-- The range check of `read_fat` and `write_fat`. -/
theorem not_inVol_iff : (ca < m.fi.extRootCluster ∨ m.fi.totalClusters ≤ ca) ↔ ¬ InVol m ca := by
  rw [InVol]
  omega

/-- A read returns the value of the array, from the cache or by the vote; a repair writes what the
vote elected. -/
theorem Represents.read (h : Represents m s f) (harea : FatArea m) (hin : EntriesInside m)
    (ca : Nat) : (readFat m ca s).1 = (if InVol m ca then f ca else FAT_CLUSTER_BAD) ∧
      Represents m (readFat m ca s).2 f := by
  rw [readFat]
  by_cases hca : InVol m ca
  · rw [if_neg (not_inVol_iff.not.mpr (not_not.mpr hca)), if_pos hca]
    cases hcache : cachedFat ca s with
    | some x => exact ⟨h.cached ca hca x hcache, h⟩
    | none =>
      have hval : (fatBallot m s.medium ca).val = f ca := h.voted ca hca
      have hlt : f ca < 2 ^ 28 := by
        rw [← hval]
        exact votedFat_lt m s.medium ca
      simp only [voteFat_works harea.works, hval]
      by_cases hwrong : 0 < (fatBallot m s.medium ca).wrong
      · have hnote : Represents m (noteFat ca (f ca) s) f := h.note rfl
        have hrepair := hnote.write harea hin hca hlt
        rw [Function.update_eq_self] at hrepair
        rw [if_pos hwrong]
        exact ⟨rfl, hrepair⟩
      · rw [if_neg hwrong]
        exact ⟨rfl, h.note rfl⟩
  · rw [if_pos (not_inVol_iff.mpr hca), if_neg hca]
    exact ⟨rfl, h.registerError harea .readFatError⟩

/-- One call is the call on the array. -/
theorem Represents.exec (h : Represents m s f) (harea : FatArea m) (hin : EntriesInside m)
    {c : FatCall} (hc : c.Fits) :
    (c.exec m s).1 = (c.onArray m f).1 ∧ Represents m (c.exec m s).2 (c.onArray m f).2 := by
  cases c with
  | read ca => exact h.read harea hin ca
  | write ca value =>
    rw [FatCall.exec, FatCall.onArray, writeFat]
    by_cases hca : InVol m ca
    · obtain ⟨d, he, -⟩ := writeFatLocked_works harea.works ca value s
      have hwrite := h.write harea hin hca hc
      rw [if_neg (not_inVol_iff.not.mpr (not_not.mpr hca)), if_pos hca]
      rw [he] at hwrite ⊢
      exact ⟨rfl, hwrite⟩
    · rw [if_pos (not_inVol_iff.mpr hca), if_neg hca]
      exact ⟨rfl, h.registerError harea .writeFatError⟩

/-- The calls are the calls on the array. -/
theorem Represents.calls (h : Represents m s f) (harea : FatArea m) (hin : EntriesInside m)
    (calls : List FatCall) (hcalls : ∀ c ∈ calls, c.Fits) :
    (fatCalls m calls s).1 = (arrayCalls m calls f).1 ∧
      Represents m (fatCalls m calls s).2 (arrayCalls m calls f).2 := by
  induction calls generalizing s f with
  | nil => exact ⟨rfl, h⟩
  | cons c cs ih =>
    obtain ⟨hret, hrep⟩ := h.exec harea hin (hcalls c List.mem_cons_self)
    obtain ⟨hrets, hreps⟩ := ih hrep fun c' hc' => hcalls c' (List.mem_cons_of_mem c hc')
    simp only [fatCalls, arrayCalls, hret, hrets]
    exact ⟨trivial, hreps⟩

/-- A hard load reads every cluster. -/
theorem Represents.hload (h : Represents m s f) (harea : FatArea m) (hin : EntriesInside m) :
    Represents m (fatCacheHload m s).2 f := by
  have hbitmap : ∀ {t : FS} b, Represents m t f → Represents m { t with bitmap := b } f :=
    fun _ ht => ⟨ht.voted, ht.cached⟩
  rw [fatCacheHload]
  split
  next => exact h
  next hsome =>
    clear hsome
    induction List.range m.fi.totalClusters generalizing s with
    | nil => exact h
    | cons ca cas ih =>
      rw [List.foldl_cons]
      apply ih
      have hread := (h.read harea hin ca).2
      simp only
      split
      · exact hbitmap _ hread
      · exact hbitmap _ hread

/-! ### The cache is transparent -/

/-- The state with an empty cache, and with every cluster loaded into it when `hload` is set. -/
def withCache (m : Mount) (hload : Bool) (s : FS) : FS :=
  let s := { s with fat := some fun _ => FAT_CLUSTER_BAD }
  if hload then (fatCacheHload m s).2 else s

/-- The state without a cache. -/
def uncached (s : FS) : FS := { s with fat := none }

/-- With and without the cache the calls return the same, and leave the same values. -/
def CacheTransparent (m : Mount) (hload : Bool) (s : FS) (calls : List FatCall) : Prop :=
  (fatCalls m calls (withCache m hload s)).1 = (fatCalls m calls (uncached s)).1 ∧
    ∀ ca, (readFat m ca (uncached (fatCalls m calls (withCache m hload s)).2)).1 =
      (readFat m ca (uncached (fatCalls m calls (uncached s)).2)).1

theorem Represents.uncached (h : Represents m s f) : Represents m (uncached s) f :=
  ⟨h.voted, fun _ _ _ hx => nomatch hx⟩

/-- Every state without cached values represents its votes. -/
theorem represents_voted (hempty : ∀ ca, cachedFat ca s = none) :
    Represents m s (votedFat m s.medium) := by
  refine ⟨fun _ _ => rfl, ?_⟩
  intro ca _ x hx
  rw [hempty ca] at hx
  cases hx

/-- Whatever the copies hold at first, the cache is transparent. -/
theorem fatCache_transparent (harea : FatArea m) (hin : EntriesInside m) (hload : Bool) (s : FS)
    (calls : List FatCall) (hcalls : ∀ c ∈ calls, c.Fits) : CacheTransparent m hload s calls := by
  have hplain : Represents m (NiFat32.uncached s) (votedFat m s.medium) :=
    represents_voted (s := NiFat32.uncached s) fun _ => rfl
  have hcached : Represents m (withCache m hload s) (votedFat m s.medium) := by
    have hempty : Represents m { s with fat := some fun _ => FAT_CLUSTER_BAD }
        (votedFat m s.medium) :=
      represents_voted (s := { s with fat := some fun _ => FAT_CLUSTER_BAD }) fun _ => rfl
    rw [withCache]
    cases hload with
    | false => exact hempty
    | true => exact hempty.hload harea hin
  -- both runs are the run on the array of votes
  obtain ⟨hrets, hends⟩ := hcached.calls harea hin calls hcalls
  obtain ⟨hrets', hends'⟩ := hplain.calls harea hin calls hcalls
  refine ⟨hrets.trans hrets'.symm, ?_⟩
  intro ca
  rw [(hends.uncached.read harea hin ca).1, (hends'.uncached.read harea hin ca).1]

/-- The two copies of the small volume. -/
theorem smallMount_fatArea : FatArea (smallMount 0) where
  works := ⟨fun _ _ _ _ => rfl, fun _ _ _ _ => rfl⟩
  fatCount_pos := by decide
  bytes_pos := by decide
  copies := by
    have h : ∀ i, i < 2 → ∀ j, j < 2 → i ≠ j → ∀ ca, ca < 8 → ∀ k, k < 8 →
        (fatEntryPos (smallMount 0) ca i).1 ≠ (fatEntryPos (smallMount 0) k j).1 := by decide
    exact fun i j hi hj hne ca k hca hk => h i hi j hj hne ca hca.2 k hk.2
  log := by
    have h : ∀ ca, ca < 8 → ∀ i, i < 2 →
        (fatEntryPos (smallMount 0) ca i).1 ∉ errorSectors (smallMount 0) := by decide
    exact fun ca hca i hi => h ca hca.2 i hi

theorem smallMount_entriesInside : EntriesInside (smallMount 0) where
  inside := by
    have h : ∀ ca, ca < 8 → fatOffset (smallMount 0) ca + 8 ≤ (smallMount 0).sectorSize := by decide
    exact fun ca hca => h ca hca.2
  count := by decide

/-- On the small volume a written value reads back, from the cache and without it. -/
theorem fatCache_transparent_small :
    CacheTransparent (smallMount 0) true (zeroFS (oneFile 2 R_MODE))
      [.write 3 FAT_CLUSTER_END, .read 3] :=
  fatCache_transparent smallMount_fatArea smallMount_entriesInside true _ _ (by decide)

/-! ### Entries that do not lie in their own bytes of one sector -/

/-- The small volume with sectors of 100 bytes and sixteen clusters: the entry of the cluster `12`
lies across the end of a sector. -/
def oddMount : Mount :=
  { smallMount 0 with
    fi := { (smallMount 0).fi with bytesPerSector := 100, clusterSize := 200, totalClusters := 16 }
    sectorSize := 100 }

/-- A volume of more than `2 ^ 29` clusters, with one FAT: the positions of the entries wrap. -/
def hugeMount : Mount :=
  { smallMount 0 with
    fi := { (smallMount 0).fi with
      fatCount := 1, totalSectors := 2 ^ 30, totalClusters := 2 ^ 29 + 8, bytesPerSector := 512
      clusterSize := 512, sectorsPerCluster := 1, errorsCount := 0 }
    sectorSize := 512 }

theorem oddMount_fatArea : FatArea oddMount where
  works := ⟨fun _ _ _ _ => rfl, fun _ _ _ _ => rfl⟩
  fatCount_pos := by decide
  bytes_pos := by decide
  copies := by
    have h : ∀ i, i < 2 → ∀ j, j < 2 → i ≠ j → ∀ ca, ca < 16 → ∀ k, k < 16 →
        (fatEntryPos oddMount ca i).1 ≠ (fatEntryPos oddMount k j).1 := by decide
    exact fun i j hi hj hne ca k hca hk => h i hi j hj hne ca hca.2 k hk.2
  log := by
    have h : ∀ ca, ca < 16 → ∀ i, i < 2 →
        (fatEntryPos oddMount ca i).1 ∉ errorSectors oddMount := by decide
    exact fun ca hca i hi => h ca hca.2 i hi

theorem hugeMount_fatArea : FatArea hugeMount where
  works := ⟨fun _ _ _ _ => rfl, fun _ _ _ _ => rfl⟩
  fatCount_pos := by decide
  bytes_pos := by decide
  copies := by
    intro i j hi hj hne
    have hi' : i < 1 := hi
    have hj' : j < 1 := hj
    omega
  log := fun _ _ _ _ hmem => nomatch hmem

/-- The copies keep a part of an entry that lies across the end of a sector, and the entries of
two clusters may be the same; the cache tells them apart. -/
theorem cache_not_transparent :
    (FatArea oddMount ∧ ¬ CacheTransparent oddMount false (zeroFS (oneFile 2 R_MODE))
      [.write 12 65536, .read 12]) ∧
    (FatArea hugeMount ∧ ¬ CacheTransparent hugeMount false (zeroFS (oneFile 2 R_MODE))
      [.read 2, .write (2 ^ 29 + 2) 5, .read 2]) := by
  refine ⟨⟨oddMount_fatArea, ?_⟩, ⟨hugeMount_fatArea, ?_⟩⟩
  · intro h
    have hcached : (fatCalls oddMount [.write 12 65536, .read 12]
        (withCache oddMount false (zeroFS (oneFile 2 R_MODE)))).1 = [1, 65536] := by decide
    have hplain : (fatCalls oddMount [.write 12 65536, .read 12]
        (uncached (zeroFS (oneFile 2 R_MODE)))).1 = [1, 0] := by decide
    rw [CacheTransparent, hcached, hplain] at h
    exact absurd h.1 (by decide)
  · intro h
    have hcached : (fatCalls hugeMount [.read 2, .write (2 ^ 29 + 2) 5, .read 2]
        (withCache hugeMount false (zeroFS (oneFile 2 R_MODE)))).1 = [0, 1, 0] := by decide
    have hplain : (fatCalls hugeMount [.read 2, .write (2 ^ 29 + 2) 5, .read 2]
        (uncached (zeroFS (oneFile 2 R_MODE)))).1 = [0, 1, 5] := by decide
    rw [CacheTransparent, hcached, hplain] at h
    exact absurd h.1 (by decide)

end NiFat32
