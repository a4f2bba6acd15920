import NiFat32.Core.Process
import NiFat32.Lib.BitWords
import NiFat32.Proofs.Allocation
import NiFat32.Proofs.FreeRuns

/-!
# `Proofs.FreeMap`: the free-cluster bitmap is exact

`_bitmap` is an array of words, and the model has its bits. `Mapped` says that there are words whose
bits mark the clusters that are in use, next to a cache that is present. Every read that the cache
does not answer and every write note their value in both, so a read, a write, an allocation and a
freed chain keep `Mapped`. The hard load establishes it: it reads every cluster once, the ones below
the root directory too, which read as bad and are marked as used.

On an exact bitmap the proposal is the first free cluster at or behind the offset. The number `0`
stands for no proposal, and for a proposal of the cluster `0`; then the scan finds it.
-/

set_option autoImplicit false

namespace NiFat32

open BitWords Run

variable {m : Mount} {s s' : FS} {ca k x : Nat} {f : Nat → Nat}

/-! ### The words -/

/-- The bits of a bitmap after `fatmap_set` are those of the words with the bit cleared. -/
theorem fatmapSet_words {words : Nat → BitVec BITS_PER_WORD}
    (h : s.bitmap = some (bit words)) :
    (fatmapSet ca s).bitmap = some (bit (clear words ca)) := by
  rw [fatmapSet, h]
  simp only [Option.map_some]
  congr 1
  funext k
  exact (bit_clear (by decide)).symm

/-- The bits of a bitmap after `fatmap_unset` are those of the words with the bit set. -/
theorem fatmapUnset_words {words : Nat → BitVec BITS_PER_WORD}
    (h : s.bitmap = some (bit words)) :
    (fatmapUnset ca s).bitmap = some (bit (set words ca)) := by
  rw [fatmapUnset, h]
  simp only [Option.map_some]
  congr 1
  funext k
  exact (bit_set (by decide)).symm

/-- The words that hold the bitmap mark the clusters of `done` that are in use. -/
def Marks (m : Mount) (done : Nat → Prop) (s : FS) (f : Nat → Nat) : Prop :=
  ∃ words : Nat → BitVec BITS_PER_WORD, s.bitmap = some (bit words) ∧
    ∀ k, done k → bit words k = decide (arrayValue m f k ≠ FAT_CLUSTER_FREE)

theorem Marks.statics {done : Nat → Prop} (h : Marks m done s f) (hsame : s'.bitmap = s.bitmap) :
    Marks m done s' f := by
  obtain ⟨words, hwords, hbits⟩ := h
  exact ⟨words, hsame.trans hwords, hbits⟩

/-- A bitmap in which the bit of `ca` is noted for the value `x`. -/
def NotedBit (ca x : Nat) (s s' : FS) : Prop :=
  s'.bitmap = s.bitmap.map fun b k => if k = ca then decide (x ≠ FAT_CLUSTER_FREE) else b k

/-- The note of the value of a cluster, which may be a new one. -/
theorem Marks.note {done done' : Nat → Prop} {f' : Nat → Nat} (h : Marks m done s f)
    (hnote : NotedBit ca x s s')
    (hself : decide (x ≠ FAT_CLUSTER_FREE) = decide (arrayValue m f' ca ≠ FAT_CLUSTER_FREE))
    (hother : ∀ k, k ≠ ca → done' k → done k ∧ arrayValue m f' k = arrayValue m f k) :
    Marks m done' s' f' := by
  obtain ⟨words, hwords, hbits⟩ := h
  have hmark : ∀ words' : Nat → BitVec BITS_PER_WORD,
      (∀ k, bit words' k = if k = ca then decide (x ≠ FAT_CLUSTER_FREE) else bit words k) →
      Marks m done' s' f' := by
    intro words' hwords'
    refine ⟨words', ?_, ?_⟩
    · rw [hnote, hwords, Option.map_some]
      congr 1
      funext k
      exact (hwords' k).symm
    · intro k hk
      rw [hwords']
      by_cases heq : k = ca
      · rw [if_pos heq, heq, hself]
      · obtain ⟨hdone, hval⟩ := hother k heq hk
        rw [if_neg heq, hbits k hdone, hval]
  by_cases hx : x = FAT_CLUSTER_FREE
  · -- the bit of a free cluster is cleared
    apply hmark (clear words ca)
    intro k
    rw [bit_clear (by decide), hx]
    rfl
  · apply hmark (set words ca)
    intro k
    rw [bit_set (by decide), decide_eq_true hx]

/-! ### The invariant -/

/-- The FAT is the array, its cache is present, and the bitmap marks the clusters in use. -/
structure Mapped (m : Mount) (s : FS) (f : Nat → Nat) : Prop where
  views : Views m s f
  cache : s.fat.isSome
  marks : Marks m (· < m.fi.totalClusters) s f

theorem NotedFat.bit (h : NotedFat ca x s s') : NotedBit ca x s s' := h.bitmap

theorem NotedFat.isSome (h : NotedFat ca x s s') : s'.fat.isSome = s.fat.isSome := by
  rw [h.fat, Option.isSome_map]

theorem Mapped.statics (h : Mapped m s f) (hviews : Views m s' f) (hfat : s'.fat = s.fat)
    (hmap : s'.bitmap = s.bitmap) : Mapped m s' f where
  views := hviews
  cache := by
    rw [hfat]
    exact h.cache
  marks := h.marks.statics hmap

theorem Mapped.error (h : Mapped m s f) (harea : FatArea m) (code : ErrorCode) :
    Mapped m (registerError m code s) f := by
  have hstatics := registerError_statics m code s
  exact h.statics (h.views.registerError harea code) hstatics.fat hstatics.bitmap

/-- A read marks the cluster as it reads. -/
theorem Mapped.read (h : Mapped m s f) (harea : FatArea m) (hin : EntriesInside m) (ca : Nat) :
    Mapped m (readFat m ca s).2 f := by
  have hread := h.views.read harea hin ca
  by_cases hca : InVol m ca
  · cases hcache : cachedFat ca s with
    | some x =>
      rw [readFat_cached hca hcache]
      exact h
    | none =>
      have hnoted := readFat_noted hca hcache
      have hval : (readFat m ca s).1 = arrayValue m f ca := hread.1
      refine ⟨hread.2, ?_, h.marks.note hnoted.bit ?_ fun k _ hk => ⟨hk, rfl⟩⟩
      · rw [hnoted.isSome]
        exact h.cache
      · rw [hval]
  · rw [readFat_refused hca]
    exact h.error harea .readFatError

/-- The cache keeps what is written, so it is free exactly when the value is. -/
theorem keptFat_free (h : s.fat.isSome) :
    keptFat s x = FAT_CLUSTER_FREE ↔ x = FAT_CLUSTER_FREE := by
  rw [keptFat]
  by_cases hx : x = FAT_CLUSTER_BAD
  · rw [hx, if_neg (fun hc => hc.2 rfl)]
    decide
  · rw [if_pos ⟨h, hx⟩]

/-- A write marks the cluster. -/
theorem Mapped.write (h : Mapped m s f) (harea : FatArea m) (hin : EntriesInside m)
    (hca : InVol m ca) (x : Nat) :
    Mapped m (writeFat m ca x s).2 (Function.update f ca (keptFat s x)) := by
  have hnoted := writeFat_noted hca x s
  refine ⟨(h.views.writeFat harea hin hca x).2, ?_, h.marks.note hnoted.bit ?_ ?_⟩
  · rw [hnoted.isSome]
    exact h.cache
  · rw [arrayValue_inVol hca, Function.update_self]
    simp only [ne_eq, keptFat_free h.cache]
  · intro k hne hk
    refine ⟨hk, ?_⟩
    rw [arrayValue, arrayValue, Function.update_of_ne hne]

theorem mapped_arrayModel (harea : FatArea m) (hin : EntriesInside m) :
    ArrayModel m (Mapped m) where
  read := fun h ca => ⟨(h.views.read harea hin ca).1, h.read harea hin ca⟩
  write := by
    intro s f ca x h hca hx
    have hwrite := h.write harea hin hca x
    rw [keptFat_of_lt s hx] at hwrite
    exact ⟨(h.views.writeFat harea hin hca x).1, hwrite⟩
  error := fun h code => h.error harea code
  offset := fun h _ => h.statics (h.views.congr rfl rfl) rfl rfl
  allocs := fun h _ => h.statics (h.views.congr rfl rfl) rfl rfl

/-! ### The hard load -/

/-- One step of the load reads a cluster and marks it. -/
theorem Marks.load (harea : FatArea m) (hin : EntriesInside m) {n : Nat} (hviews : Views m s f)
    (hcache : s.fat.isSome) (h : Marks m (· < n) s f) :
    let s' := match readFat m n s with
      | (value, s) => if value = FAT_CLUSTER_FREE then fatmapSet n s else fatmapUnset n s
    Views m s' f ∧ s'.fat.isSome ∧ Marks m (· < n + 1) s' f := by
  have hread := hviews.read harea hin n
  have hval : (readFat m n s).1 = arrayValue m f n := hread.1
  -- the read notes the cluster that it reads, or no cluster
  have hkeep : (readFat m n s).2.fat.isSome ∧ ∃ words : Nat → BitVec BITS_PER_WORD,
      (readFat m n s).2.bitmap = some (bit words) ∧
      ∀ k, k < n → bit words k = decide (arrayValue m f k ≠ FAT_CLUSTER_FREE) := by
    by_cases hca : InVol m n
    · cases hcached : cachedFat n s with
      | some x =>
        rw [readFat_cached hca hcached]
        exact ⟨hcache, h⟩
      | none =>
        have hnoted := readFat_noted hca hcached
        refine ⟨by rw [hnoted.isSome]; exact hcache, ?_⟩
        exact h.note hnoted.bit (by rw [hval]) fun k _ hk => ⟨hk, rfl⟩
    · have hstatics := registerError_statics m .readFatError s
      rw [readFat_refused hca]
      exact ⟨by rw [hstatics.fat]; exact hcache, h.statics hstatics.bitmap⟩
  obtain ⟨hcache', words, hwords, hbits⟩ := hkeep
  generalize readFat m n s = r at hread hval hcache' hwords
  obtain ⟨value, s₁⟩ := r
  have hvalue : value = arrayValue m f n := hval
  have hlast : ∀ k, k < n + 1 → k ≠ n → k < n := by
    intro k hk hne
    omega
  simp only
  split
  next hfree =>
    refine ⟨hread.2.congr rfl rfl, hcache', clear words n, fatmapSet_words hwords, ?_⟩
    intro k hk
    rw [bit_clear (by decide)]
    by_cases heq : k = n
    · rw [if_pos heq, heq, ← hvalue, hfree]
      rfl
    · rw [if_neg heq]
      exact hbits k (hlast k hk heq)
  next hused =>
    refine ⟨hread.2.congr rfl rfl, hcache', set words n, fatmapUnset_words hwords, ?_⟩
    intro k hk
    rw [bit_set (by decide)]
    by_cases heq : k = n
    · rw [if_pos heq, heq, ← hvalue, decide_eq_true hused]
    · rw [if_neg heq]
      exact hbits k (hlast k hk heq)

/-- The hard load makes the bitmap exact. -/
theorem fatCacheHload_mapped (harea : FatArea m) (hin : EntriesInside m) (hviews : Views m s f)
    (hcache : s.fat.isSome) (hwords : ∃ words : Nat → BitVec BITS_PER_WORD,
      s.bitmap = some (bit words)) : Mapped m (fatCacheHload m s).2 f := by
  rw [fatCacheHload,
    if_neg (by rw [Option.isNone_iff_eq_none]; intro h; rw [h] at hcache; cases hcache)]
  simp only
  -- the clusters below `n` are marked after `n` passes
  have hpasses : ∀ n, let t := (List.range n).foldl (fun s ca =>
      match readFat m ca s with
      | (value, s) => if value = FAT_CLUSTER_FREE then fatmapSet ca s else fatmapUnset ca s) s
      Views m t f ∧ t.fat.isSome ∧ Marks m (· < n) t f := by
    intro n
    induction n with
    | zero =>
      obtain ⟨words, hwords⟩ := hwords
      exact ⟨hviews, hcache, words, hwords, fun k hk => absurd hk (Nat.not_lt_zero k)⟩
    | succ n ih =>
      rw [List.range_succ, List.foldl_append]
      exact Marks.load harea hin ih.1 ih.2.1 ih.2.2
  obtain ⟨hv, hc, hm⟩ := hpasses m.fi.totalClusters
  exact ⟨hv, hc, hm⟩

/-! ### The proposal of the bitmap -/

theorem clearRun_one {b : Nat → Bool} {i : Nat} : ClearRun b 1 i ↔ b i = false := by
  constructor
  · intro h
    exact h 0 (Nat.lt_add_one 0)
  · intro h j hj
    rw [Nat.lt_one_iff.mp hj]
    exact h

/-- The search for one bit: the first clear bit from `i` on, or `0`. -/
theorem fatmapScan_first {b : Nat → Bool} {limit passes i : Nat} (hpasses : limit < i + passes) :
    (∃ r, fatmapScan b 1 limit passes i = r ∧ i ≤ r ∧ r ≤ limit ∧ b r = false ∧
      ∀ k, i ≤ k → k < r → b k = true) ∨
    (fatmapScan b 1 limit passes i = 0 ∧ ∀ k, i ≤ k → k ≤ limit → b k = true) := by
  have hscan := @fatmapScan_leftmost b i limit passes 1 hpasses
  simp only [clearRun_one, Bool.not_eq_false] at hscan
  exact hscan

/-- The scan finds clusters from its start on. -/
theorem scanFat_le {passes ca skip c : Nat} (h : scanFat m f passes ca skip = some c) : ca ≤ c := by
  induction passes generalizing ca skip with
  | zero => cases h
  | succ passes ih =>
    rw [scanFat] at h
    split at h
    · cases h
    · split at h
      · cases h
        exact Nat.le_refl _
      · split at h
        · have := ih h
          omega
        · have := ih h
          omega

/-- The least free cluster at or behind an offset. -/
def LeastFree (m : Mount) (f : Nat → Nat) (offt : Nat) : Option Nat → Prop
  | none => ∀ k, offt ≤ k → InVol m k → f k ≠ FAT_CLUSTER_FREE
  | some c => offt ≤ c ∧ InVol m c ∧ f c = FAT_CLUSTER_FREE ∧
    ∀ k, offt ≤ k → k < c → InVol m k → f k ≠ FAT_CLUSTER_FREE

/-- On an exact bitmap the search finds the least free cluster. -/
theorem Mapped.find (h : Mapped m s f) (offt : Nat) :
    LeastFree m f offt (findFat m f offt (fatmapFindFree m offt 1 s)) := by
  obtain ⟨words, hwords, hbits⟩ := h.marks
  -- the scan that is left when there is no proposal
  have hscan : (∀ k, offt ≤ k → InVol m k → f k ≠ FAT_CLUSTER_FREE) →
      scanFat m f m.fi.totalClusters offt 0 = none := by
    intro hnone
    cases hfound : scanFat m f m.fi.totalClusters offt 0 with
    | none => rfl
    | some c =>
      exact absurd (scanFat_free hfound).2 (hnone c (scanFat_le hfound) (scanFat_free hfound).1)
  have hused : ∀ k, InVol m k → bit words k = true → f k ≠ FAT_CLUSTER_FREE := by
    intro k hk hbit hfree
    rw [hbits k hk.2, arrayValue_inVol hk, hfree] at hbit
    cases hbit
  rw [fatmapFindFree, hwords]
  simp only
  by_cases hrange : 1 = 0 ∨ m.fi.totalClusters ≤ offt ∨ m.fi.totalClusters - offt < 1
  · -- no cluster lies behind the offset
    have hnone : ∀ k, offt ≤ k → InVol m k → f k ≠ FAT_CLUSTER_FREE := by
      intro k hk hvol
      have := hvol.2
      omega
    rw [if_pos hrange, findFat, if_neg (fun hp => hp.1 rfl), hscan hnone]
    exact hnone
  · rw [if_neg hrange]
    rcases @fatmapScan_first (bit words) (m.fi.totalClusters - 1) (m.fi.totalClusters - 1 + 1) offt
      (by omega) with ⟨r, hr, hle, hlimit, hclear, hbefore⟩ | ⟨hr, hall⟩
    · have hfree : arrayValue m f r = FAT_CLUSTER_FREE := by
        have hbit := hbits r (by omega)
        rw [hclear] at hbit
        simpa using hbit
      have hleast : LeastFree m f offt (some r) :=
        ⟨hle, (arrayValue_free hfree).1, (arrayValue_free hfree).2,
          fun k hk hlt hvol => hused k hvol (hbefore k hk hlt)⟩
      rw [hr, findFat]
      by_cases hzero : r = 0
      · -- the cluster `0` is found by the scan
        have hofft : offt = 0 := by omega
        have htotal : m.fi.totalClusters ≠ 0 := by omega
        rw [if_neg (fun hp => hp.1 hzero), hofft]
        rw [hzero] at hfree hleast
        obtain ⟨n, hn⟩ := Nat.exists_eq_succ_of_ne_zero htotal
        have hfound : scanFat m f m.fi.totalClusters 0 0 = some 0 := by
          conv => lhs; rw [hn]
          rw [scanFat, if_neg (by omega), if_pos hfree]
        rw [hfound, ← hofft]
        rw [hofft] at hleast ⊢
        exact hleast
      · rw [if_pos ⟨hzero, hfree⟩]
        exact hleast
    · have hnone : ∀ k, offt ≤ k → InVol m k → f k ≠ FAT_CLUSTER_FREE := by
        intro k hk hvol
        have := hvol.2
        exact hused k hvol (hall k hk (by omega))
      rw [hr, findFat, if_neg (fun hp => hp.1 rfl), hscan hnone]
      exact hnone

/-! ### Runs -/

/-- A call that may change the FAT. -/
inductive MapCall
  | read (ca : Nat)
  | write (ca value : Nat)
  | alloc (offt : Nat)
  | deallocChain (ca : Nat)

/-- The state behind a call; `fuel` bounds the passes of a loop. -/
def MapCall.exec (m : Mount) : MapCall → FS → (fuel : Nat) → Option FS
  | .read ca, s, _ => some (readFat m ca s).2
  | .write ca value, s, _ => some (writeFat m ca value s).2
  | .alloc offt, s, _ => some (allocCluster m offt s).2
  | .deallocChain ca, s, fuel => (NiFat32.deallocChain m fuel ca s).map Prod.snd

/-- The bit of a cluster is clear exactly when it is free, the bits below the root directory are
set, and an allocation returns the least free cluster at or behind its offset. -/
structure MapExact (m : Mount) (s : FS) : Prop where
  words : ∃ words : Nat → BitVec BITS_PER_WORD, s.bitmap = some (bit words) ∧
    (∀ ca, InVol m ca → (bit words ca = false ↔ fatValue m s ca = FAT_CLUSTER_FREE)) ∧
    ∀ ca, ca < m.fi.extRootCluster → ca < m.fi.totalClusters → bit words ca = true
  alloc : ∀ offt, offt ≠ NO_CLUSTER_OFFSET → ∃ r, LeastFree m (fatValue m s) offt r ∧
    (allocCluster m offt s).1 = r.getD FAT_CLUSTER_BAD

theorem Mapped.exact (h : Mapped m s (fatValue m s)) (harea : FatArea m) (hin : EntriesInside m) :
    MapExact m s where
  words := by
    obtain ⟨words, hwords, hbits⟩ := h.marks
    refine ⟨words, hwords, ?_, ?_⟩
    · intro ca hca
      rw [hbits ca hca.2, arrayValue_inVol hca]
      simp
    · intro ca hca htotal
      have hout : ¬ InVol m ca := fun hc => absurd hc.1 (by omega)
      rw [hbits ca htotal, arrayValue, if_neg hout]
      decide
  alloc := by
    intro offt hofft
    obtain ⟨r, hr, hret, -⟩ := allocCluster_values harea hin offt s
    rw [searchStart, if_neg hofft] at hr
    exact ⟨r, hr ▸ h.find offt, hret⟩

/-- The bitmap holds what `read_fat` returns, whatever the values are. -/
theorem Mapped.self (h : Mapped m s f) (harea : FatArea m) (hin : EntriesInside m) :
    Mapped m s (fatValue m s) where
  views := views_fatValue harea hin s
  cache := h.cache
  marks := by
    obtain ⟨words, hwords, hbits⟩ := h.marks
    refine ⟨words, hwords, fun k hk => ?_⟩
    have hval : arrayValue m f k = fatValue m s k := (h.views.read harea hin k).1.symm
    rw [hbits k hk, arrayValue_fatValue, hval]

/-- A call ends, and it keeps the bitmap. -/
theorem Mapped.exec (h : Mapped m s f) (harea : FatArea m) (hin : EntriesInside m)
    (call : MapCall) : Ensures (call.exec m s) fun s' => ∃ f', Mapped m s' f' := by
  have hmodel := mapped_arrayModel harea hin
  cases call with
  | read ca => exact ⟨0, fun _ _ => ⟨_, rfl, f, h.read harea hin ca⟩⟩
  | write ca value =>
    refine ⟨0, fun _ _ => ⟨_, rfl, ?_⟩⟩
    by_cases hca : InVol m ca
    · exact ⟨_, h.write harea hin hca value⟩
    · rw [writeFat_refused hca]
      exact ⟨f, h.error harea .writeFatError⟩
  | alloc offt => exact ⟨0, fun _ _ => ⟨_, rfl, _, (hmodel.alloc h offt).2⟩⟩
  | deallocChain ca =>
    refine ⟨(Release.used (clusters m) FAT_CLUSTER_FREE f).card + 1, fun fuel hfuel => ?_⟩
    obtain ⟨⟨ok, f'⟩, hrun⟩ :=
      Release.release_ends (a := ca) (show EndsChain FAT_CLUSTER_FREE by decide)
        (Nat.lt_of_succ_le hfuel)
    obtain ⟨s', hdone, hs'⟩ := hmodel.deallocChain h hrun
    exact ⟨s', congrArg (Option.map Prod.snd) hdone, f', hs'⟩

/-- The caches of a mount with `CACHE`, `HARD_CACHE` and `MAP_CACHE`, when none was there before and
the memory suffices. -/
theorem initCaches_mapped (harea : FatArea m) (hin : EntriesInside m) (hfat : s.fat = none)
    (hbitmap : s.bitmap = none) (hmalloc : m.malloc s.mallocs ≠ 0 ∧ m.malloc (s.mallocs + 1) ≠ 0) :
    ∃ f, Mapped m (initCaches m (CACHE ||| HARD_CACHE ||| MAP_CACHE) s) f := by
  have hinit : initCaches m (CACHE ||| HARD_CACHE ||| MAP_CACHE) s = (fatCacheHload m
      { s with
        mallocs := s.mallocs + 1 + 1
        fat := some fun _ => FAT_CLUSTER_BAD
        bitmap := some fun _ => false }).2 := by
    rw [initCaches, if_pos (by decide), if_pos (by decide), if_pos (by decide)]
    simp [fatCacheInit, fatmapInit, hfat, hbitmap, hmalloc.1, hmalloc.2]
  rw [hinit]
  refine ⟨_,
    fatCacheHload_mapped harea hin (views_self m _) rfl ⟨fun _ => (0 : BitVec BITS_PER_WORD), ?_⟩⟩
  exact congrArg some (funext fun k => bit_zero.symm)

/-- In a fresh process the bitmap is exact after the hard load and after every call of any
sequence, and every call ends. -/
theorem freeMap_exact (harea : FatArea m) (hin : EntriesInside m) (hfat : s.fat = none)
    (hbitmap : s.bitmap = none) (hmalloc : m.malloc s.mallocs ≠ 0 ∧ m.malloc (s.mallocs + 1) ≠ 0)
    (calls : List MapCall) :
    Always (fun _ _ => True) (MapCall.exec m) (MapExact m) calls
      (initCaches m (CACHE ||| HARD_CACHE ||| MAP_CACHE) s) := by
  apply Always.of_invariant fun s => ∃ f, Mapped m s f
  · rintro s ⟨f, hf⟩
    exact (hf.self harea hin).exact harea hin
  · rintro s call ⟨f, hf⟩ -
    exact hf.exec harea hin call
  · exact initCaches_mapped harea hin hfat hbitmap hmalloc

/-- On the small volume an allocation, a link and a freed chain keep the bitmap exact. -/
theorem freeMap_exact_small :
    Always (fun _ _ => True) (MapCall.exec (smallMount 0)) (MapExact (smallMount 0))
      [.alloc 2, .write 2 FAT_CLUSTER_END, .read 2, .deallocChain 2]
      (initCaches (smallMount 0) (CACHE ||| HARD_CACHE ||| MAP_CACHE)
        (zeroFS (oneFile 2 R_MODE))) :=
  freeMap_exact smallMount_fatArea smallMount_entriesInside rfl rfl ⟨by decide, by decide⟩ _

end NiFat32
