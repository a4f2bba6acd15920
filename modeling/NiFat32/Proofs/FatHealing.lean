import NiFat32.Core.Process
import NiFat32.Lib.Refine
import NiFat32.Lib.Replicas
import NiFat32.Proofs.Allocation
import NiFat32.Proofs.FatVote

/-!
# `Proofs.FatHealing`: the allocation table while its copies are being damaged

Every entry of the table is stored in all the FAT copies. `TableCall` has the operations on the
table, and accidents: the entry of one copy is overwritten with anything. As long as less than half
of the copies of an entry are struck between two repairs of it, the table is an array that does not
notice (`table_outlives_damage`): reads, writes, allocations and releases do on the device what they
do on the array, with and without the cache.

What repairs an entry is a write of it, or a read that is not answered by the cache. There is one
value of which a read repairs nothing: `FAT_CLUSTER_BAD`, which the vote starts from.
-/

set_option autoImplicit false

namespace NiFat32

open ByteStore Run

variable {m : Mount} {s s' : FS} {ca x : Nat}

/-- A cell is what its bytes say. -/
theorem fatCell_congr {d d' : Nat → UInt8} {i : Nat}
    (h : read d (fatAddr m ca i) 8 = read d' (fatAddr m ca i) 8) :
    fatCell m d ca i = fatCell m d' ca i := by
  unfold fatCell
  rw [h]

/-! ### The table and its damage -/

/-- The entries of the table, and whether the library caches them. -/
structure Table where
  entries : Replicas Nat Nat
  caching : Bool

/-- The state holds the table: in the copies that were not struck, and in the cache where it has a
value. -/
structure HoldsTable (m : Mount) (s : FS) (t : Table) : Prop where
  cells : t.entries.Kept m.fi.fatCount (InVol m) (fatCell m s.medium.bytes)
  cached : ∀ ca x, InVol m ca → cachedFat ca s = some x → x = t.entries.value ca
  caching : s.fat.isSome = t.caching

/-- A read of the entry: it is repaired on the way, unless the cache may have answered. -/
def Table.read (t : Table) (ca : Nat) : Table :=
  if t.caching then t else { t with entries := t.entries.mend FAT_CLUSTER_BAD ca }

@[simp] theorem Table.read_value (t : Table) (ca : Nat) :
    (t.read ca).entries.value = t.entries.value := by
  unfold Table.read
  split
  · rfl
  · exact Replicas.mend_value _ _ _

@[simp] theorem Table.read_caching (t : Table) (ca : Nat) : (t.read ca).caching = t.caching := by
  unfold Table.read
  split <;> rfl

theorem Table.read_struck_subset (t : Table) (ca k : Nat) :
    (t.read ca).entries.struck k ⊆ t.entries.struck k := by
  unfold Table.read
  split
  · exact Finset.Subset.refl _
  · exact Replicas.mend_struck_subset _ _ _ _

namespace HoldsTable

variable {t : Table}

/-- Less is known when more copies may have been struck. -/
theorem weaken {u : Table} (h : HoldsTable m s t) (hvalue : u.entries.value = t.entries.value)
    (hstruck : ∀ k, InVol m k → t.entries.struck k ⊆ u.entries.struck k)
    (hhalf : ∀ k, InVol m k → 2 * (u.entries.struck k).card < m.fi.fatCount)
    (hcaching : u.caching = t.caching) : HoldsTable m s u where
  cells := h.cells.weaken (fun k _ => congrFun hvalue k) hstruck hhalf
  cached ca x hca hx := by
    rw [hvalue]
    exact h.cached ca x hca hx
  caching := h.caching.trans hcaching.symm

/-- What is stored for the entries is the same. -/
theorem congr (h : HoldsTable m s t)
    (hcell : ∀ k, InVol m k → ∀ i, i < m.fi.fatCount →
      fatCell m s'.medium.bytes k i = fatCell m s.medium.bytes k i)
    (hfat : s'.fat = s.fat) : HoldsTable m s' t where
  cells := h.cells.congr hcell
  cached ca x hca hx := by
    refine h.cached ca x hca ?_
    unfold cachedFat at hx ⊢
    rwa [hfat] at hx
  caching := by
    rw [hfat]
    exact h.caching

theorem registerError (L : Layout m) (h : HoldsTable m s t) (code : ErrorCode) :
    HoldsTable m (registerError m code s) t :=
  have hlog := registerError_logOnly L.works code s
  h.congr (fun _ hk _ hi => hlog.cell L hk hi) hlog.fat

/-- What is noted of an entry is its value. -/
theorem cached_of_noted {t' : Table} (h : HoldsTable m s t) (hn : NotedFat ca x s s')
    (hvalue : t'.entries.value = Function.update t.entries.value ca x) :
    ∀ k y, InVol m k → cachedFat k s' = some y → y = t'.entries.value k := by
  intro k y hk hy
  rw [cachedFat_noted hn] at hy
  rw [hvalue]
  by_cases heq : k = ca
  · subst heq
    rw [if_pos rfl] at hy
    rw [Function.update_self]
    cases hfat : s.fat with
    | none =>
      rw [hfat] at hy
      cases hy
    | some f =>
      rw [hfat, Option.bind_some] at hy
      split at hy
      · cases hy
      · exact (Option.some.inj hy).symm
  · rw [if_neg heq] at hy
    rw [Function.update_of_ne heq]
    exact h.cached k y hk hy

theorem caching_of_noted (h : HoldsTable m s t) (hn : NotedFat ca x s s') :
    s'.fat.isSome = t.caching := by
  rw [hn.fat, Option.isSome_map]
  exact h.caching

/-- A write rewrites every copy of its entry. -/
theorem write (L : Layout m) (h : HoldsTable m s t) (hca : InVol m ca) (hx : x < 2 ^ 28) :
    ∃ s', writeFat m ca x s = (true, s') ∧
      HoldsTable m s' { t with entries := t.entries.write ca x } := by
  obtain ⟨d, hd, hcells, hother⟩ := writeFatLocked_cells L hca hx s
  have hnoted := writeFatLocked_noted m ca x s
  have hrun : writeFat m ca x s = (true, { noteFat ca x s with medium := d }) := by
    rw [writeFat, if_neg (not_inVol_iff.not.mpr (not_not.mpr hca)), hd]
  rw [hd] at hnoted
  exact ⟨_, hrun, h.cells.write hca hcells hother, h.cached_of_noted hnoted rfl,
    h.caching_of_noted hnoted⟩

/-- A read returns the value, and mends the entry when it has to look at the copies. -/
theorem read (L : Layout m) (h : HoldsTable m s t) (ca : Nat) :
    ∃ s', readFat m ca s = (arrayValue m t.entries.value ca, s') ∧
      HoldsTable m s' (if InVol m ca then t.read ca else t) := by
  by_cases hca : InVol m ca
  · rw [arrayValue_inVol hca, if_pos hca]
    cases hcache : cachedFat ca s with
    | some x =>
      -- the cache answers
      have hcaching : t.caching = true := by
        rw [← h.caching]
        unfold cachedFat at hcache
        cases hfat : s.fat with
        | none =>
          rw [hfat] at hcache
          cases hcache
        | some f => rfl
      rw [← h.cached ca x hca hcache, Table.read, if_pos hcaching]
      exact ⟨s, readFat_cached hca hcache, h⟩
    | none =>
      have hval : (readFat m ca s).1 = t.entries.value ca := by
        rw [readFat_ballot L hca hcache]
        exact h.cells.vote hca FAT_CLUSTER_BAD
      have hnoted := readFat_noted hca hcache
      rw [hval] at hnoted
      obtain ⟨hheals, hsame⟩ := readFat_heals L hca s
      have hmended : HoldsTable m (readFat m ca s).2
          { t with entries := t.entries.mend FAT_CLUSTER_BAD ca } := by
        refine ⟨h.cells.mend hca FAT_CLUSTER_BAD (fun i hi => ?_)
          fun k hk hne i hi => (hsame k hk hne).2 i hi, ?_, h.caching_of_noted hnoted⟩
        · rw [hheals i hi]
          simp only [hcache, true_and]
          rfl
        · refine h.cached_of_noted hnoted ?_
          rw [Replicas.mend_value, Function.update_eq_self]
      refine ⟨_, Prod.ext hval rfl, ?_⟩
      unfold Table.read
      by_cases hcaching : t.caching = true
      · rw [if_pos hcaching]
        exact hmended.weaken (Replicas.mend_value _ _ _).symm
          (fun k _ => Replicas.mend_struck_subset _ _ _ _) h.cells.minority rfl
      · rw [if_neg hcaching]
        exact hmended
  · rw [arrayValue, if_neg hca, if_neg hca]
    exact ⟨_, readFat_refused hca s, h.registerError L .readFatError⟩

/-- An accident to the entry of one copy. -/
theorem strike (L : Layout m) (h : HoldsTable m s t) (hca : InVol m ca) {i : Nat}
    (hi : i < m.fi.fatCount) {bs : List UInt8} (hbs : bs.length = 8)
    (hhalf : 2 * (insert i (t.entries.struck ca)).card < m.fi.fatCount)
    (hbytes : s'.medium.bytes = ByteStore.write s.medium.bytes (fatAddr m ca i) bs)
    (hfat : s'.fat = s.fat) :
    HoldsTable m s' { t with entries := t.entries.strike ca i } where
  cells := by
    refine h.cells.strike hhalf fun k hk j hj hne => fatCell_congr ?_
    rw [hbytes, read_write_of_disjoint]
    rw [hbs]
    exact L.cells_apart k ca j i hk hca hj hi hne
  cached k x hk hx := by
    refine h.cached k x hk ?_
    unfold cachedFat at hx ⊢
    rwa [hfat] at hx
  caching := by
    rw [hfat]
    exact h.caching

/-- Without the cache, and with an empty one, the table is held as well. -/
theorem recache (h : HoldsTable m s t) (fat : Option (Nat → Nat))
    (hempty : ∀ f, fat = some f → f = fun _ => FAT_CLUSTER_BAD) :
    HoldsTable m { s with fat := fat } { t with caching := fat.isSome } where
  cells := h.cells
  cached ca x _ hx := by
    unfold cachedFat at hx
    cases fat with
    | none => cases hx
    | some f =>
      rw [hempty f rfl] at hx
      cases hx
  caching := rfl

end HoldsTable

/-- Whatever was struck, as long as it is not more than `struck`, the table is an array. -/
theorem table_arrayModel (L : Layout m) (struck : Nat → Finset Nat) (caching : Bool) :
    ArrayModel m fun s f => HoldsTable m s ⟨⟨f, struck⟩, caching⟩ where
  read := by
    intro s f h ca
    obtain ⟨s', hread, hs'⟩ := h.read L ca
    rw [hread]
    refine ⟨rfl, hs'.weaken ?_ (fun k _ => ?_) h.cells.minority ?_⟩
    · split
      · exact (Table.read_value _ ca).symm
      · rfl
    · split
      · exact Table.read_struck_subset ⟨⟨f, struck⟩, caching⟩ ca k
      · exact Finset.Subset.refl _
    · split
      · exact (Table.read_caching _ ca).symm
      · rfl
  write := by
    intro s f ca x h hca hx
    obtain ⟨s', hwrite, hs'⟩ := h.write L hca hx
    rw [hwrite]
    refine ⟨rfl, hs'.weaken rfl (fun k _ => ?_) h.cells.minority rfl⟩
    unfold Replicas.write
    by_cases heq : k = ca
    · subst heq
      simp only [Function.update_self]
      exact Finset.empty_subset _
    · simp only [Function.update_of_ne heq]
      exact Finset.Subset.refl _
  error := fun h code => h.registerError L code
  offset := fun h _ => h.congr (fun _ _ _ _ => rfl) rfl
  allocs := fun h _ => h.congr (fun _ _ _ _ => rfl) rfl

/-! ### The calls -/

/-- The operations on the table, and an accident to the entry of one copy. -/
inductive TableCall
  | read (ca : Nat)
  | write (ca value : Nat)
  | alloc (offt : Nat)
  | release (head : Nat)
  | repair
  | cacheInit
  | cacheUnload
  | strike (ca copy : Nat) (bytes : List UInt8)

/-- Their answers: the value or the cluster, and whether the call succeeded. -/
inductive TableAnswer
  | value (x : Nat)
  | done (ok : Bool)

/-- The state with other bytes on the device. -/
def FS.setBytes (s : FS) (d : Nat → UInt8) : FS :=
  { s with medium := { s.medium with bytes := d } }

@[simp] theorem FS.setBytes_bytes (s : FS) (d : Nat → UInt8) : (s.setBytes d).medium.bytes = d :=
  rfl

@[simp] theorem FS.setBytes_fat (s : FS) (d : Nat → UInt8) : (s.setBytes d).fat = s.fat := rfl

/-- The entry of `ca` in the copy `i` is overwritten. -/
def strikeFat (m : Mount) (ca i : Nat) (bytes : List UInt8) (s : FS) : FS :=
  s.setBytes (ByteStore.write s.medium.bytes (fatAddr m ca i) bytes)

/-- A call on the table, with its answer. -/
def callTable (m : Mount) : TableCall → FS → (fuel : Nat) → Option (TableAnswer × FS)
  | .read ca, s, _ => some (.value (readFat m ca s).1, (readFat m ca s).2)
  | .write ca x, s, _ => some (.done (writeFat m ca x s).1, (writeFat m ca x s).2)
  | .alloc offt, s, _ => some (.value (allocCluster m offt s).1, (allocCluster m offt s).2)
  | .release head, s, fuel => (deallocChain m fuel head s).map fun r => (.done r.1, r.2)
  | .repair, s, _ => some (.done (fatRepair m s).1, (fatRepair m s).2)
  | .cacheInit, s, _ => some (.done (fatCacheInit m s).1, (fatCacheInit m s).2)
  | .cacheUnload, s, _ => some (.done (fatCacheUnload s).1, (fatCacheUnload s).2)
  | .strike ca i bytes, s, _ => some (.done true, strikeFat m ca i bytes s)

/-- The table with other values. -/
def Table.setValue (t : Table) (f : Nat → Nat) : Table :=
  { t with entries := { t.entries with value := f } }

/-- The repair reads the clusters below `n`. -/
def Table.repair (m : Mount) (t : Table) (n : Nat) : Table :=
  if t.caching then t
  else { t with entries := { t.entries with
    struck := fun k => if InVol m k ∧ k < n ∧ t.entries.value k ≠ FAT_CLUSTER_BAD then ∅
      else t.entries.struck k } }

/-- Values that fit are written to clusters of the volume, and an accident leaves more than half
of the copies of the entry. -/
def TableTakes (m : Mount) (t : Table) : TableCall → Prop
  | .write ca x => InVol m ca ∧ x < 2 ^ 28
  | .strike ca i bytes => InVol m ca ∧ i < m.fi.fatCount ∧ bytes.length = 8 ∧
      2 * (insert i (t.entries.struck ca)).card < m.fi.fatCount
  | _ => True

/-- What the calls do to an array that does not notice the accidents. -/
def TableGives (m : Mount) (t : Table) : TableCall → TableAnswer → Table → Prop
  | .read ca, ans, t' => ans = .value (arrayValue m t.entries.value ca) ∧
      t' = if InVol m ca then t.read ca else t
  | .write ca x, ans, t' => ans = .done true ∧ t' = { t with entries := t.entries.write ca x }
  | .alloc _, ans, t' => ∃ r : Option Nat,
      (∀ c, r = some c → InVol m c ∧ t.entries.value c = FAT_CLUSTER_FREE) ∧
      ans = .value (r.getD FAT_CLUSTER_BAD) ∧ t' = t.setValue (reserveFat t.entries.value r)
  | .release head, ans, t' => ∃ fuel ok f, releaseFat m fuel head t.entries.value = some (ok, f) ∧
      ans = .done ok ∧ t' = t.setValue f
  | .repair, ans, t' => ans = .done true ∧ t' = t.repair m m.fi.totalClusters
  | .cacheInit, ans, t' => ∃ ok, (t.caching = true → ok = true) ∧ ans = .done ok ∧
      t' = { t with caching := ok }
  | .cacheUnload, ans, t' => ans = .done t.caching ∧ t' = { t with caching := false }
  | .strike ca i _, ans, t' => ans = .done true ∧ t' = { t with entries := t.entries.strike ca i }

/-- The specification of the table. -/
def tableSpec (m : Mount) : Spec Table TableCall TableAnswer where
  pre := TableTakes m
  post := TableGives m

/-! ### One call -/

section Calls

variable {t : Table}

theorem alloc_simulates (L : Layout m) (h : HoldsTable m s t) (offt : Nat) :
    ∃ t', TableGives m t (.alloc offt) (.value (allocCluster m offt s).1) t' ∧
      HoldsTable m (allocCluster m offt s).2 t' := by
  obtain ⟨hret, hs'⟩ := (table_arrayModel L t.entries.struck t.caching).alloc
    (f := t.entries.value) h offt
  exact ⟨_, ⟨_, fun c hc => findFat_free hc, congrArg _ hret, rfl⟩, hs'⟩

theorem release_table_simulates (L : Layout m) (h : HoldsTable m s t) (head : Nat) :
    Ensures (callTable m (.release head) s) fun r =>
      ∃ t', TableGives m t (.release head) r.1 t' ∧ HoldsTable m r.2 t' := by
  -- every pass frees a cluster, so the walk on the values ends
  refine ⟨(Release.used (clusters m) FAT_CLUSTER_FREE t.entries.value).card + 1,
    fun fuel hfuel => ?_⟩
  have hends : ∃ r, Release.release (clusters m) FAT_CLUSTER_FREE EndsChain fuel head
      t.entries.value = some r :=
    Release.release_ends (by decide) (Nat.lt_of_succ_le hfuel)
  obtain ⟨⟨ok, next⟩, hrun⟩ := hends
  obtain ⟨s', hdone, hs'⟩ := (table_arrayModel L t.entries.struck t.caching).deallocChain
    (f := t.entries.value) h hrun
  unfold callTable
  simp only [hdone]
  exact ⟨_, rfl, _, ⟨fuel, ok, next, hrun, rfl, rfl⟩, hs'⟩

theorem Table.repair_zero (m : Mount) (t : Table) : t.repair m 0 = t := by
  unfold Table.repair
  split
  · rfl
  · simp

/-- One more cluster is repaired. -/
theorem Table.repair_succ (m : Mount) (t : Table) (n : Nat) :
    t.repair m (n + 1) = if InVol m n then (t.repair m n).read n else t.repair m n := by
  unfold Table.repair
  by_cases hcaching : t.caching = true
  · simp [hcaching, Table.read]
  · simp only [hcaching, Table.read, Replicas.mend, Bool.false_eq_true, if_false]
    by_cases hn : InVol m n
    · rw [if_pos hn]
      by_cases hbad : t.entries.value n = FAT_CLUSTER_BAD
      · -- the vote started from the value, so nothing was repaired
        rw [if_pos hbad]
        congr 2
        funext k
        by_cases hk : k = n
        · simp [hk, hbad]
        · simp only [show k < n + 1 ↔ k < n by omega]
      · rw [if_neg hbad]
        congr 2
        funext k
        by_cases hk : k = n
        · subst hk
          simp [hn, hbad]
        · simp only [Function.update_of_ne hk, show k < n + 1 ↔ k < n by omega]
    · rw [if_neg hn]
      congr 2
      funext k
      by_cases hk : k = n
      · simp [hk, hn]
      · simp only [show k < n + 1 ↔ k < n by omega]

/-- The repair of the clusters below `n`, by induction on `n`. -/
theorem repairLoop_simulates (L : Layout m) (h : HoldsTable m s t) (n : Nat) :
    HoldsTable m ((List.range n).foldl (fun s ca => (readFat m ca s).2) s) (t.repair m n) := by
  induction n with
  | zero =>
    rw [Table.repair_zero]
    exact h
  | succ n ih =>
    obtain ⟨s', hread, hs'⟩ := ih.read L n
    rw [List.range_succ, List.foldl_append, Table.repair_succ]
    show HoldsTable m (readFat m n _).2 _
    rw [hread]
    exact hs'

theorem cacheInit_simulates (L : Layout m) (h : HoldsTable m s t) :
    ∃ t', TableGives m t .cacheInit (.done (fatCacheInit m s).1) t' ∧
      HoldsTable m (fatCacheInit m s).2 t' := by
  unfold fatCacheInit
  by_cases hsome : s.fat.isSome = true
  · -- the cache is there already
    have hcaching : t.caching = true := h.caching.symm.trans hsome
    rw [if_pos hsome]
    refine ⟨t, ⟨true, fun _ => rfl, rfl, ?_⟩, h⟩
    rw [← hcaching]
  · have hcaching : t.caching = false := h.caching.symm.trans (Bool.not_eq_true _ ▸ hsome)
    rw [if_neg hsome]
    simp only
    split
    · refine ⟨t, ⟨false, fun hc => absurd (hc.symm.trans hcaching) Bool.noConfusion, rfl, ?_⟩, ?_⟩
      · rw [← hcaching]
      · have hcalled : HoldsTable m { s with mallocs := s.mallocs + 1 } t :=
          h.congr (fun _ _ _ _ => rfl) rfl
        exact hcalled.registerError L .mallocError
    · refine ⟨{ t with caching := true }, ⟨true, fun _ => rfl, rfl, rfl⟩, ?_⟩
      have hempty := h.recache (some fun _ => FAT_CLUSTER_BAD)
        fun f hf => (Option.some.inj hf).symm
      exact hempty.congr (fun _ _ _ _ => rfl) rfl

theorem cacheUnload_simulates (h : HoldsTable m s t) :
    ∃ t', TableGives m t .cacheUnload (.done (fatCacheUnload s).1) t' ∧
      HoldsTable m (fatCacheUnload s).2 t' := by
  refine ⟨{ t with caching := false }, ⟨?_, rfl⟩, ?_⟩
  · rw [← h.caching]
    unfold fatCacheUnload
    cases s.fat <;> rfl
  · have hoff := h.recache none fun f hf => nomatch hf
    unfold fatCacheUnload
    split
    · next hnone =>
      refine hoff.congr (fun _ _ _ _ => rfl) ?_
      exact Option.isNone_iff_eq_none.mp hnone
    · exact hoff

/-- Each call does on the device what it does on the array. -/
theorem tableCall_simulates (L : Layout m) :
    Simulates (tableSpec m) (callTable m) (HoldsTable m) := by
  intro s t c h hpre
  cases c with
  | read ca =>
    obtain ⟨s', hread, hs'⟩ := h.read L ca
    exact ⟨0, fun _ _ => ⟨_, rfl, _, ⟨by rw [hread], rfl⟩, by rw [hread]; exact hs'⟩⟩
  | write ca x =>
    obtain ⟨s', hwrite, hs'⟩ := h.write L hpre.1 hpre.2
    exact ⟨0, fun _ _ => ⟨_, rfl, _, ⟨by rw [hwrite], rfl⟩, by rw [hwrite]; exact hs'⟩⟩
  | alloc offt => exact ⟨0, fun _ _ => ⟨_, rfl, alloc_simulates L h offt⟩⟩
  | release head => exact release_table_simulates L h head
  | repair =>
    exact ⟨0, fun _ _ => ⟨_, rfl, _, ⟨rfl, rfl⟩, repairLoop_simulates L h m.fi.totalClusters⟩⟩
  | cacheInit => exact ⟨0, fun _ _ => ⟨_, rfl, cacheInit_simulates L h⟩⟩
  | cacheUnload => exact ⟨0, fun _ _ => ⟨_, rfl, cacheUnload_simulates h⟩⟩
  | strike ca i bytes =>
    obtain ⟨hca, hi, hlen, hhalf⟩ := hpre
    have hs' : HoldsTable m (strikeFat m ca i bytes s) _ :=
      h.strike L hca hi hlen hhalf (s.setBytes_bytes _) (s.setBytes_fat _)
    exact ⟨0, fun _ _ => ⟨_, rfl, _, ⟨rfl, rfl⟩, hs'⟩⟩

end Calls

/-! ### Runs -/

/-- A volume whose copies agree holds its table, with no copy struck. -/
theorem HoldsTable.of_shows (L : Layout m) {v : Vol} (h : Shows m s v) :
    HoldsTable m s ⟨⟨v.fat, fun _ => ∅⟩, s.fat.isSome⟩ where
  cells := ⟨fun k hk i hi _ => h.copy_eq hk hi, fun k _ => by
    rw [Finset.card_empty]
    exact L.fatCount_pos⟩
  cached ca x hca hx := by
    show x = v.fat ca
    rw [← h.fat_eq hca]
    exact h.coherent.cached ca x hca hx
  caching := rfl

/-- The small volume with a third copy of the table, behind its clusters. -/
def tripleMount : Mount :=
  { smallMount 0 with fi := { (smallMount 0).fi with fatCount := 3 } }

theorem tripleMount_layout : Layout tripleMount :=
  let L := smallMount_layout (Nat.zero_le 1)
  { L with
    works := ⟨fun _ _ _ _ => rfl, fun _ _ _ _ => rfl⟩
    fatCount_pos := by show 0 < 3; decide
    cells_apart := by
      have h : ∀ ca, ca < 8 → ∀ ca', ca' < 8 → ∀ i, i < 3 → ∀ i', i' < 3 → (ca = ca' ∧ i = i') ∨
          Apart (fatAddr tripleMount ca i) 8 (fatAddr tripleMount ca' i') 8 := by decide
      exact fun ca ca' i i' hca hca' hi hi' hne =>
        (h ca hca.2 ca' hca'.2 i hi i' hi').resolve_left hne
    cell_cluster := by
      have h : ∀ ca, ca < 8 → ∀ ca', ca' < 8 → 2 ≤ ca' → ∀ i, i < 3 →
          Apart (fatAddr tripleMount ca i) 8 (clusterAddr tripleMount ca') 256 := by decide
      exact fun ca ca' i hca hca' hi => h ca hca.2 ca' hca'.2 hca'.1 i hi
    cell_log := by
      have h : ∀ ca, ca < 8 → ∀ i, i < 3 → Apart (fatAddr tripleMount ca i) 8 (36 * 128) 128 ∧
          Apart (fatAddr tripleMount ca i) 8 (1 * 128) 128 := by decide
      intro ca i sa hca hi hsa
      cases logSector_small (Nat.zero_le 1) hsa with
      | inl he => rw [he]; exact (h ca hca.2 i hi).1
      | inr he => rw [he]; exact (h ca hca.2 i hi).2 }

end NiFat32
