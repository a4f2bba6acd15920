import NiFat32.Proofs.FreeChain

/-!
# `Proofs.Allocation`: what `alloc_cluster` hands out

`alloc_cluster` asks the bitmap for a cluster and believes the FAT: a proposal that does not read
as free is dropped, and the scan from the offset starts. So the bitmap decides which cluster is
handed out, and never whether it is free. On the values of the FAT the search is `findFat`, and
what it finds is marked as reserved before the call returns.

The scan looks at some of the clusters behind the offset only: it does not come back to the front,
and it takes longer and longer strides behind clusters that are bad or reserved. `Scans` lists
the clusters it looks at. An allocation fails on a volume with free clusters exactly when the
bitmap proposes none of them and the scan looks at none of them.
-/

set_option autoImplicit false

namespace NiFat32

variable {m : Mount} {s s' : FS} {ca offt passes skip c : Nat} {f : Nat → Nat}

/-! ### The search on the values -/

/-- The value of a cluster as `read_fat` returns it. -/
def arrayValue (m : Mount) (f : Nat → Nat) (ca : Nat) : Nat :=
  if InVol m ca then f ca else FAT_CLUSTER_BAD

/-- The scan of `alloc_cluster` on the values of the FAT. -/
def scanFat (m : Mount) (f : Nat → Nat) : (passes ca skip : Nat) → Option Nat
  | 0, _, _ => none
  | passes + 1, ca, skip =>
    if m.fi.totalClusters ≤ ca then none
    else if arrayValue m f ca = FAT_CLUSTER_FREE then some ca
    else if arrayValue m f ca = FAT_CLUSTER_BAD ∨ arrayValue m f ca = FAT_CLUSTER_RESERVED then
      scanFat m f passes (ca + skip + 1) (skip + 1)
    else scanFat m f passes (ca + 1) skip

/-- The search of `alloc_cluster` from the cluster `curr` on, when the bitmap proposes
`proposal`. -/
def findFat (m : Mount) (f : Nat → Nat) (curr proposal : Nat) : Option Nat :=
  if proposal ≠ 0 ∧ arrayValue m f proposal = FAT_CLUSTER_FREE then some proposal
  else scanFat m f m.fi.totalClusters curr 0

/-- The cluster that was found becomes reserved. -/
def reserveFat (f : Nat → Nat) : Option Nat → Nat → Nat
  | none => f
  | some c => Function.update f c FAT_CLUSTER_RESERVED

/-- Where an allocation starts to search. -/
def searchStart (offt : Nat) (s : FS) : Nat :=
  if offt = NO_CLUSTER_OFFSET then s.lastAllocatedCluster else offt

/-- A cluster that reads as free lies in the volume. -/
theorem arrayValue_free (h : arrayValue m f c = FAT_CLUSTER_FREE) :
    InVol m c ∧ f c = FAT_CLUSTER_FREE := by
  rw [arrayValue] at h
  by_cases hc : InVol m c
  · rw [if_pos hc] at h
    exact ⟨hc, h⟩
  · rw [if_neg hc] at h
    exact absurd h (by decide)

theorem arrayValue_inVol (hc : InVol m c) : arrayValue m f c = f c := if_pos hc

/-- The scan finds free clusters. -/
theorem scanFat_free (h : scanFat m f passes ca skip = some c) :
    InVol m c ∧ f c = FAT_CLUSTER_FREE := by
  induction passes generalizing ca skip with
  | zero => cases h
  | succ passes ih =>
    rw [scanFat] at h
    by_cases hend : m.fi.totalClusters ≤ ca
    · rw [if_pos hend] at h
      cases h
    · rw [if_neg hend] at h
      by_cases hfree : arrayValue m f ca = FAT_CLUSTER_FREE
      · rw [if_pos hfree] at h
        cases h
        exact arrayValue_free hfree
      · rw [if_neg hfree] at h
        split at h
        · exact ih h
        · exact ih h

/-- Whatever the bitmap proposes, the search finds free clusters. -/
theorem findFat_free {curr proposal : Nat} (h : findFat m f curr proposal = some c) :
    InVol m c ∧ f c = FAT_CLUSTER_FREE := by
  rw [findFat] at h
  by_cases hproposal : proposal ≠ 0 ∧ arrayValue m f proposal = FAT_CLUSTER_FREE
  · rw [if_pos hproposal] at h
    cases h
    exact arrayValue_free hproposal.2
  · rw [if_neg hproposal] at h
    exact scanFat_free h

/-! ### The call on the FAT is the search on its values -/

section Model

variable {R : FS → (Nat → Nat) → Prop}

/-- An allocation with the result `o` found `r`. -/
def Takes (R : FS → (Nat → Nat) → Prop) (f : Nat → Nat) (r : Option Nat) (o : Nat × FS) : Prop :=
  o.1 = r.getD FAT_CLUSTER_BAD ∧ R o.2 (reserveFat f r)

theorem ArrayModel.readValue (hR : ArrayModel m R) (h : R s f) (ca : Nat) :
    ∃ s', readFat m ca s = (arrayValue m f ca, s') ∧ R s' f :=
  ⟨(readFat m ca s).2, Prod.ext (hR.read h ca).1 rfl, (hR.read h ca).2⟩

theorem ArrayModel.moveOffset (hR : ArrayModel m R) (h : R s f) (offt x : Nat) :
    R (moveOffset offt x s) f := by
  rw [NiFat32.moveOffset]
  split
  · exact hR.offset h x
  · exact h

/-- A cluster of the volume can be reserved. -/
theorem ArrayModel.claim (hR : ArrayModel m R) (h : R s f) (hca : InVol m ca) (offt : Nat) :
    Takes R f (some ca) (claimCluster m offt ca s) := by
  obtain ⟨hok, hwrite⟩ := hR.write h hca (show FAT_CLUSTER_RESERVED < 2 ^ 28 by decide)
  rw [claimCluster]
  generalize writeFat m ca FAT_CLUSTER_RESERVED s = w at hok hwrite
  obtain ⟨ok, s₁⟩ := w
  cases hok
  exact ⟨rfl, hR.moveOffset hwrite offt _⟩

theorem ArrayModel.scan (hR : ArrayModel m R) (h : R s f) (offt passes ca skip : Nat) :
    Takes R f (scanFat m f passes ca skip) (allocScan m offt passes ca skip s) := by
  induction passes generalizing ca skip s with
  | zero => exact ⟨rfl, hR.moveOffset h offt _⟩
  | succ passes ih =>
    rw [scanFat, allocScan]
    by_cases hend : m.fi.totalClusters ≤ ca
    · rw [if_pos hend, if_pos hend]
      exact ⟨rfl, hR.moveOffset h offt _⟩
    · rw [if_neg hend, if_neg hend]
      obtain ⟨s₁, hread, hs₁⟩ := hR.readValue h ca
      simp only [hread]
      by_cases hfree : arrayValue m f ca = FAT_CLUSTER_FREE
      · rw [if_pos hfree, if_pos hfree]
        exact hR.claim hs₁ (arrayValue_free hfree).1 offt
      · rw [if_neg hfree, if_neg hfree]
        -- both loops take the same stride
        split
        · exact ih hs₁ _ _
        · exact ih hs₁ _ _

/-- `alloc_cluster` is the search on the values, from the proposal of the bitmap. -/
theorem ArrayModel.alloc (hR : ArrayModel m R) (h : R s f) (offt : Nat) :
    Takes R f (findFat m f (searchStart offt s) (fatmapFindFree m (searchStart offt s) 1 s))
      (allocCluster m offt s) := by
  -- the search, whatever is proposed
  have hbody : ∀ curr proposal, Takes R f (findFat m f curr proposal)
      (if proposal = 0 then allocScan m offt m.fi.totalClusters curr 0 s
      else if (readFat m proposal s).1 = FAT_CLUSTER_FREE then
        claimCluster m offt proposal (readFat m proposal s).2
      else allocScan m offt m.fi.totalClusters curr 0 (readFat m proposal s).2) := by
    intro curr proposal
    rw [findFat]
    by_cases hnone : proposal = 0
    · rw [if_pos hnone, if_neg (fun hp => hp.1 hnone)]
      exact hR.scan h offt _ _ 0
    · rw [if_neg hnone]
      obtain ⟨s₁, hread, hs₁⟩ := hR.readValue h proposal
      simp only [hread]
      by_cases hfree : arrayValue m f proposal = FAT_CLUSTER_FREE
      · rw [if_pos hfree, if_pos ⟨hnone, hfree⟩]
        exact hR.claim hs₁ (arrayValue_free hfree).1 offt
      · rw [if_neg hfree, if_neg (fun hp => hfree hp.2)]
        exact hR.scan hs₁ offt _ _ 0
  have hsearch : Takes R f
      (findFat m f (searchStart offt s) (fatmapFindFree m (searchStart offt s) 1 s))
      (allocSearch m offt s) := hbody _ _
  rw [allocCluster]
  generalize allocSearch m offt s = r at hsearch
  obtain ⟨c, s₁⟩ := r
  exact ⟨hsearch.1, hR.allocs hsearch.2 _⟩

end Model

/-- What an allocation returns, and the values it leaves. -/
theorem allocCluster_values (harea : FatArea m) (hin : EntriesInside m) (offt : Nat) (s : FS) :
    ∃ r, r = findFat m (fatValue m s) (searchStart offt s)
        (fatmapFindFree m (searchStart offt s) 1 s) ∧
      (allocCluster m offt s).1 = r.getD FAT_CLUSTER_BAD ∧
      fatValue m (allocCluster m offt s).2 = reserveFat (fatValue m s) r := by
  obtain ⟨hret, hviews⟩ :=
    (views_arrayModel harea hin).alloc (views_fatValue harea hin s) offt
  refine ⟨_, rfl, hret, ?_⟩
  cases hfound : findFat m (fatValue m s) (searchStart offt s)
      (fatmapFindFree m (searchStart offt s) 1 s) with
  | none =>
    rw [hfound] at hviews
    exact Views.fatValue_same harea hin hviews
  | some c =>
    rw [hfound] at hviews
    exact Views.fatValue_update harea hin (findFat_free hfound).1 hviews

/-! ### No cluster is handed out twice -/

/-- A call of the allocator, and a write of a link or an end. -/
inductive AllocCall
  | alloc (offt : Nat)
  | setEnd (ca : Nat)
  | link (last next : Nat)
  | dealloc (ca : Nat)

/-- A link is the number of a cluster, and no cluster has the number that marks a free one. -/
def AllocCall.Links : AllocCall → Prop
  | .link _ next => next % 2 ^ 28 ≠ FAT_CLUSTER_FREE
  | _ => True

/-- A state of the library, with the clusters that were handed out and not freed since. -/
structure AllocRun where
  fs : FS
  held : List Nat

/-- One call of the run. -/
def AllocRun.next (m : Mount) (x : AllocRun) : AllocCall → AllocRun
  | .alloc offt =>
    let (c, s) := allocCluster m offt x.fs
    ⟨s, if c = FAT_CLUSTER_BAD then x.held else c :: x.held⟩
  | .setEnd ca => ⟨(setClusterEnd m ca x.fs).2, x.held⟩
  | .link last next => ⟨(writeFat m last next x.fs).2, x.held⟩
  | .dealloc ca => ⟨(deallocCluster m ca x.fs).2, x.held.filter (· ≠ ca)⟩

/-- The clusters that are held are different, and none of them is free. -/
structure AllocRun.Sound (m : Mount) (x : AllocRun) : Prop where
  nodup : x.held.Nodup
  used : ∀ c ∈ x.held, InVol m c ∧ fatValue m x.fs c ≠ FAT_CLUSTER_FREE

/-- A write of a value that is not free, in or outside of the volume. -/
theorem AllocRun.Sound.write {x : AllocRun} (h : x.Sound m) (harea : FatArea m)
    (hin : EntriesInside m) (ca : Nat) {v : Nat} (hv : v % 2 ^ 28 ≠ FAT_CLUSTER_FREE) :
    AllocRun.Sound m ⟨(writeFat m ca v x.fs).2, x.held⟩ := by
  refine ⟨h.nodup, fun c hc => ⟨(h.used c hc).1, ?_⟩⟩
  by_cases hca : InVol m ca
  · have hviews := ((views_fatValue harea hin x.fs).writeFat harea hin hca v).2
    rw [hviews.fatValue_update harea hin hca]
    by_cases heq : c = ca
    · -- the cache keeps the value, and the entry its low bits
      rw [heq, Function.update_self, keptFat]
      split
      · intro hzero
        rw [hzero] at hv
        exact hv rfl
      · exact hv
    · rw [Function.update_of_ne heq]
      exact (h.used c hc).2
  · have hviews := (views_fatValue harea hin x.fs).registerError harea .writeFatError
    rw [writeFat_refused hca, Views.fatValue_same harea hin hviews]
    exact (h.used c hc).2

/-- One call keeps the clusters apart. -/
theorem AllocRun.Sound.next {x : AllocRun} (h : x.Sound m) (harea : FatArea m)
    (hin : EntriesInside m) {call : AllocCall} (hcall : call.Links) : (x.next m call).Sound m := by
  cases call with
  | alloc offt =>
    obtain ⟨r, hr, hret, hvals⟩ := allocCluster_values harea hin offt x.fs
    rw [AllocRun.next]
    generalize allocCluster m offt x.fs = o at hret hvals
    obtain ⟨c, s⟩ := o
    cases hret
    simp only at hvals ⊢
    cases r with
    | none =>
      refine ⟨h.nodup, fun c hc => ?_⟩
      rw [hvals]
      exact h.used c hc
    | some c =>
      obtain ⟨hc, hfree⟩ := findFat_free hr.symm
      -- a held cluster is not free, so it is not the one that was found
      have hnew : c ∉ x.held := fun hmem => (h.used c hmem).2 hfree
      have hused : ∀ k ∈ c :: x.held, InVol m k ∧ fatValue m s k ≠ FAT_CLUSTER_FREE := by
        intro k hk
        rw [hvals, reserveFat]
        by_cases heq : k = c
        · rw [heq, Function.update_self]
          exact ⟨hc, by decide⟩
        · rw [Function.update_of_ne heq]
          exact h.used k ((List.mem_cons.mp hk).resolve_left heq)
      show AllocRun.Sound m ⟨s, if c = FAT_CLUSTER_BAD then x.held else c :: x.held⟩
      by_cases hbad : c = FAT_CLUSTER_BAD
      · rw [if_pos hbad]
        exact ⟨h.nodup, fun k hk => hused k (List.mem_cons_of_mem c hk)⟩
      · rw [if_neg hbad]
        exact ⟨List.nodup_cons.mpr ⟨hnew, h.nodup⟩, hused⟩
  | setEnd ca => exact h.write harea hin ca (by decide)
  | link last next => exact h.write harea hin last hcall
  | dealloc ca =>
    refine ⟨h.nodup.filter _, fun c hc => ?_⟩
    obtain ⟨hheld, hne⟩ := List.mem_filter.mp hc
    have hne : c ≠ ca := by simpa using hne
    refine ⟨(h.used c hheld).1, ?_⟩
    have hmodel := views_arrayModel harea hin
    by_cases hca : InVol m ca
    · obtain ⟨s', hrun, hs'⟩ := hmodel.dealloc (views_fatValue harea hin x.fs) hca
      simp only [AllocRun.next, hrun]
      rw [hs'.fatValue_update harea hin hca, Function.update_of_ne hne]
      exact (h.used c hheld).2
    · obtain ⟨s', hrun, hs'⟩ := hmodel.dealloc_refused (views_fatValue harea hin x.fs) hca
      simp only [AllocRun.next, hrun]
      rw [hs'.fatValue_same harea hin]
      exact (h.used c hheld).2

/-- An allocation takes a free cluster of the volume, reserves it, and touches no other; so over
any calls the clusters that are handed out and not freed since are different. The caches and the
bitmap hold anything at the start. -/
theorem alloc_exclusive (harea : FatArea m) (hin : EntriesInside m) :
    (∀ offt s, (allocCluster m offt s).1 ≠ FAT_CLUSTER_BAD →
      InVol m (allocCluster m offt s).1 ∧
      fatValue m s (allocCluster m offt s).1 = FAT_CLUSTER_FREE ∧
      fatValue m (allocCluster m offt s).2 (allocCluster m offt s).1 = FAT_CLUSTER_RESERVED ∧
      ∀ k, k ≠ (allocCluster m offt s).1 →
        fatValue m (allocCluster m offt s).2 k = fatValue m s k) ∧
    ∀ s (calls : List AllocCall), (∀ call ∈ calls, call.Links) →
      (calls.foldl (AllocRun.next m) ⟨s, []⟩).held.Nodup := by
  constructor
  · intro offt s hne
    obtain ⟨r, hr, hret, hvals⟩ := allocCluster_values harea hin offt s
    rw [hret] at hne ⊢
    rw [hvals]
    cases r with
    | none => exact absurd rfl hne
    | some c =>
      obtain ⟨hc, hfree⟩ := findFat_free hr.symm
      exact ⟨hc, hfree, Function.update_self .., fun k hk => Function.update_of_ne hk ..⟩
  · intro s calls hcalls
    have hsound : AllocRun.Sound m ⟨s, []⟩ := ⟨List.nodup_nil, fun c hc => nomatch hc⟩
    generalize AllocRun.mk s [] = x at hsound
    induction calls generalizing x with
    | nil => exact hsound.nodup
    | cons call calls ih =>
      rw [List.foldl_cons]
      exact ih (fun c hc => hcalls c (List.mem_cons_of_mem call hc))
        (x.next m call) (hsound.next harea hin (hcalls call List.mem_cons_self))

/-- The small volume, where the cluster `2` is the only free one and an allocation starts at `5`. -/
def lowFree : FS := { zeroFS (oneFile 2 R_MODE) with
  fat := some fun k => if k = 2 then FAT_CLUSTER_FREE else FAT_CLUSTER_END
  lastAllocatedCluster := 128 }

/-- On the small volume the cluster `2` is taken, and it is not handed out again before it is
freed. -/
theorem alloc_exclusive_small :
    (InVol (smallMount 0) 2 ∧ fatValue (smallMount 0) lowFree 2 = FAT_CLUSTER_FREE ∧
      fatValue (smallMount 0) (allocCluster (smallMount 0) 2 lowFree).2 2
        = FAT_CLUSTER_RESERVED) ∧
    ([.alloc 2, .setEnd 2, .link 2 3, .alloc 2, .dealloc 2, .alloc 2].foldl
      (AllocRun.next (smallMount 0)) ⟨lowFree, []⟩).held.Nodup := by
  have hspec := alloc_exclusive smallMount_fatArea smallMount_entriesInside
  have htwo : (allocCluster (smallMount 0) 2 lowFree).1 = 2 := by decide
  obtain ⟨hin, hfree, hres, -⟩ := hspec.1 2 lowFree (by rw [htwo]; decide)
  rw [htwo] at hin hfree hres
  refine ⟨⟨hin, hfree, hres⟩, hspec.2 lowFree _ ?_⟩
  intro call hcall
  simp only [List.mem_cons, List.not_mem_nil, or_false] at hcall
  rcases hcall with rfl | rfl | rfl | rfl | rfl | rfl <;> simp [AllocCall.Links]

/-! ### When an allocation fails -/

/-- The scan that stands on `ca`, `skip` strides behind its start, looks at `c`. -/
inductive Scans (m : Mount) (f : Nat → Nat) : (ca skip c : Nat) → Prop
  | here (ca skip : Nat) : Scans m f ca skip ca
  | stride {ca skip c : Nat} :
    arrayValue m f ca = FAT_CLUSTER_BAD ∨ arrayValue m f ca = FAT_CLUSTER_RESERVED →
    Scans m f (ca + skip + 1) (skip + 1) c → Scans m f ca skip c
  | next {ca skip c : Nat} :
    ¬ (arrayValue m f ca = FAT_CLUSTER_BAD ∨ arrayValue m f ca = FAT_CLUSTER_RESERVED) →
    Scans m f (ca + 1) skip c → Scans m f ca skip c

theorem Scans.le (h : Scans m f ca skip c) : ca ≤ c := by
  induction h with
  | here ca skip => exact Nat.le_refl ca
  | stride _ _ ih => omega
  | next _ _ ih => omega

/-- The scan fails exactly when none of the clusters it looks at is free. -/
theorem scanFat_none_iff (hpasses : m.fi.totalClusters ≤ ca + passes) :
    scanFat m f passes ca skip = none ↔
      ∀ c, Scans m f ca skip c → arrayValue m f c ≠ FAT_CLUSTER_FREE := by
  -- behind the last cluster nothing is free
  have hbehind : ∀ {ca skip}, m.fi.totalClusters ≤ ca → ∀ c, Scans m f ca skip c →
      arrayValue m f c ≠ FAT_CLUSTER_FREE := by
    intro ca skip hend c hc hfree
    have hlt := (arrayValue_free hfree).1.2
    have hle := hc.le
    omega
  induction passes generalizing ca skip with
  | zero => exact ⟨fun _ => hbehind hpasses, fun _ => rfl⟩
  | succ passes ih =>
    rw [scanFat]
    by_cases hend : m.fi.totalClusters ≤ ca
    · rw [if_pos hend]
      exact ⟨fun _ => hbehind hend, fun _ => rfl⟩
    · rw [if_neg hend]
      by_cases hfree : arrayValue m f ca = FAT_CLUSTER_FREE
      · rw [if_pos hfree]
        constructor
        · intro h
          cases h
        · intro h
          exact absurd hfree (h ca (Scans.here ca skip))
      · rw [if_neg hfree]
        by_cases hused : arrayValue m f ca = FAT_CLUSTER_BAD ∨
            arrayValue m f ca = FAT_CLUSTER_RESERVED
        · rw [if_pos hused]
          refine (@ih (ca + skip + 1) (skip + 1) (by omega)).trans ?_
          constructor
          · intro h c hc
            cases hc with
            | here => exact hfree
            | stride _ hc => exact h c hc
            | next hno _ => exact absurd hused hno
          · exact fun h c hc => h c (Scans.stride hused hc)
        · rw [if_neg hused]
          refine (@ih (ca + 1) skip (by omega)).trans ?_
          constructor
          · intro h c hc
            cases hc with
            | here => exact hfree
            | stride hno _ => exact absurd hno hused
            | next _ hc => exact h c hc
          · exact fun h c hc => h c (Scans.next hused hc)

/-- The search from `curr` on meets a free cluster: the bitmap proposes one, or the scan looks at
one. -/
def MeetsFree (m : Mount) (s : FS) (curr : Nat) : Prop :=
  (fatmapFindFree m curr 1 s ≠ 0 ∧
    fatValue m s (fatmapFindFree m curr 1 s) = FAT_CLUSTER_FREE) ∨
  ∃ c, Scans m (fatValue m s) curr 0 c ∧ fatValue m s c = FAT_CLUSTER_FREE

theorem arrayValue_fatValue (m : Mount) (s : FS) (c : Nat) :
    arrayValue m (fatValue m s) c = fatValue m s c := by
  rw [arrayValue]
  split
  next => rfl
  next hc => exact (fatValue_outside hc s).symm

theorem findFat_none_iff {curr : Nat} :
    findFat m (fatValue m s) curr (fatmapFindFree m curr 1 s) = none ↔ ¬ MeetsFree m s curr := by
  rw [findFat, MeetsFree, arrayValue_fatValue, not_or]
  by_cases hproposal : fatmapFindFree m curr 1 s ≠ 0 ∧
      fatValue m s (fatmapFindFree m curr 1 s) = FAT_CLUSTER_FREE
  · rw [if_pos hproposal]
    constructor
    · intro h
      cases h
    · intro h
      exact absurd hproposal h.1
  · rw [if_neg hproposal, scanFat_none_iff (Nat.le_add_left _ _)]
    simp only [arrayValue_fatValue]
    constructor
    · rintro h
      exact ⟨hproposal, fun ⟨c, hc, hfree⟩ => h c hc hfree⟩
    · rintro ⟨-, h⟩ c hc hfree
      exact h ⟨c, hc, hfree⟩

/-- The cluster from which `alloc_cluster(fi, get_cluster_offset(fi))` searches. -/
def nextStart (m : Mount) (s : FS) : Nat :=
  searchStart (getClusterOffset m s).1 (getClusterOffset m s).2

/-- The allocation fails on a full volume only. -/
def FailsWhenFull (m : Mount) (s : FS) : Prop :=
  (allocNext m s).1 = FAT_CLUSTER_BAD → ∀ c, InVol m c → fatValue m s c ≠ FAT_CLUSTER_FREE

/-- Taking the offset does not touch the FAT or the bitmap. -/
theorem getClusterOffset_fat (m : Mount) (s : FS) :
    (getClusterOffset m s).2.fat = s.fat ∧ (getClusterOffset m s).2.bitmap = s.bitmap ∧
      (getClusterOffset m s).2.medium = s.medium := by
  rw [getClusterOffset]
  split
  · exact ⟨rfl, rfl, rfl⟩
  · exact ⟨rfl, rfl, rfl⟩

end NiFat32
