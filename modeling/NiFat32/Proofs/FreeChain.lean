import Mathlib.Order.Interval.Finset.Nat
import NiFat32.Lib.Release
import NiFat32.Lib.Run
import NiFat32.Proofs.FatView

/-!
# `Proofs.FreeChain`: `dealloc_chain` on an arbitrary FAT

`dealloc_chain` reads the next cluster, frees the one it stands on, and goes on. On the values that
`read_fat` returns this is the walk `release`: `dealloc_cluster` fails outside the volume, and a
cluster that is free reads as a value that stops the walk. So the loop ends whatever the FAT holds,
and it changes only values of clusters that the links reach.
-/

set_option autoImplicit false

namespace NiFat32

open Run

variable {m : Mount} {s s' : FS} {ca fuel : Nat} {f f' : Nat → Nat} {ok : Bool}

/-- The clusters of the volume. -/
def clusters (m : Mount) : Finset Nat := Finset.Ico m.fi.extRootCluster m.fi.totalClusters

theorem mem_clusters : ca ∈ clusters m ↔ InVol m ca := Finset.mem_Ico

/-- A value that ends a chain. -/
def EndsChain (x : Nat) : Prop :=
  x = FAT_CLUSTER_END ∨ x = FAT_CLUSTER_BAD ∨ x = FAT_CLUSTER_FREE

instance : DecidablePred EndsChain := fun _ => inferInstanceAs (Decidable (_ ∨ _ ∨ _))

/-- The walk of `dealloc_chain` on the values of the FAT. -/
def releaseFat (m : Mount) (fuel ca : Nat) (f : Nat → Nat) : Option (Bool × (Nat → Nat)) :=
  Release.release (clusters m) FAT_CLUSTER_FREE EndsChain fuel ca f

section Model

variable {R : FS → (Nat → Nat) → Prop}

/-- A cluster of the volume can be freed. -/
theorem ArrayModel.dealloc (hR : ArrayModel m R) (h : R s f) (hca : InVol m ca) :
    ∃ s', deallocCluster m ca s = (true, s') ∧ R s' (Function.update f ca FAT_CLUSTER_FREE) := by
  obtain ⟨hval, hread⟩ := hR.read h ca
  rw [if_pos hca] at hval
  rw [deallocCluster]
  generalize readFat m ca s = r at hval hread
  obtain ⟨status, s₁⟩ := r
  cases hval
  by_cases hfree : f ca = FAT_CLUSTER_FREE
  · -- the cluster is free already
    refine ⟨s₁, if_pos hfree, ?_⟩
    rw [← hfree, Function.update_eq_self]
    exact hread
  · obtain ⟨hok, hwrite⟩ := hR.write hread hca (show FAT_CLUSTER_FREE < 2 ^ 28 by decide)
    refine ⟨(writeFat m ca FAT_CLUSTER_FREE s₁).2, ?_, hwrite⟩
    simp only [if_neg hfree, setClusterFree]
    generalize writeFat m ca FAT_CLUSTER_FREE s₁ = w at hok
    obtain ⟨ok, s₂⟩ := w
    cases hok
    rfl

/-- Outside the volume nothing is freed. -/
theorem ArrayModel.dealloc_refused (hR : ArrayModel m R) (h : R s f) (hca : ¬ InVol m ca) :
    ∃ s', deallocCluster m ca s = (false, s') ∧ R s' f := by
  refine ⟨registerError m .writeFatError (registerError m .writeFatError
    (registerError m .readFatError s)), ?_, hR.error (hR.error (hR.error h _) _) _⟩
  rw [deallocCluster, readFat_refused hca]
  simp only [if_neg (show FAT_CLUSTER_BAD ≠ FAT_CLUSTER_FREE by decide), setClusterFree,
    writeFat_refused hca]

/-- `dealloc_chain` is the walk on the values. -/
theorem ArrayModel.deallocChain (hR : ArrayModel m R) (h : R s f)
    (hrun : releaseFat m fuel ca f = some (ok, f')) :
    ∃ s', deallocChain m fuel ca s = some (ok, s') ∧ R s' f' := by
  induction fuel generalizing ca s f with
  | zero => cases hrun
  | succ fuel ih =>
    rw [releaseFat, Release.release] at hrun
    obtain ⟨hval, hread⟩ := hR.read h ca
    rw [NiFat32.deallocChain]
    generalize readFat m ca s = r at hval hread
    obtain ⟨next, s₁⟩ := r
    by_cases hca : InVol m ca
    · rw [if_pos (mem_clusters.mpr hca)] at hrun
      rw [if_pos hca] at hval
      cases hval
      obtain ⟨s₂, hfreed, hs₂⟩ := hR.dealloc hread hca
      simp only [hfreed]
      by_cases hstop : EndsChain (f ca)
      · rw [if_pos hstop] at hrun
        cases hrun
        exact ⟨s₂, if_pos hstop, hs₂⟩
      · rw [if_neg hstop] at hrun
        obtain ⟨s₃, hrest, hs₃⟩ := ih hs₂ hrun
        exact ⟨s₃, (if_neg hstop).trans hrest, hs₃⟩
    · rw [if_neg (mem_clusters.not.mpr hca)] at hrun
      cases hrun
      obtain ⟨s₂, hfailed, hs₂⟩ := hR.dealloc_refused hread hca
      simp only [hfailed]
      exact ⟨_, rfl, hR.error hs₂ _⟩

end Model

/-- The walk leaves the values outside the volume. -/
theorem releaseFat_outside (hrun : releaseFat m fuel ca f = some (ok, f')) {k : Nat}
    (hk : ¬ InVol m k) : f' k = f k := by
  by_contra hne
  exact hk (mem_clusters.mp (Release.release_changes (by decide) hrun hne).1)

/-- The clusters of a chain: links inside the volume, up to a value that ends it. -/
def ChainFrom (m : Mount) (s : FS) (ca : Nat) (cs : List Nat) : Prop :=
  Release.Links (clusters m) EndsChain (fatValue m s) ca cs

/-- The value of one cluster is the number of the other. -/
def LinkedTo (m : Mount) (s : FS) : Nat → Nat → Prop := Release.Leads EndsChain (fatValue m s)

/-- Whatever the FAT holds, `dealloc_chain` ends. The values it changes are those of clusters that
the links reach, which become free; and from the start of a chain that visits no cluster twice it
succeeds and frees exactly that chain. -/
theorem deallocChain_exact (harea : FatArea m) (hin : EntriesInside m) (ca : Nat) (s : FS) :
    Ensures (fun fuel => deallocChain m fuel ca s) fun r =>
      (∀ c, fatValue m r.2 c ≠ fatValue m s c →
        fatValue m r.2 c = FAT_CLUSTER_FREE ∧ Relation.ReflTransGen (LinkedTo m s) ca c) ∧
      ∀ cs, ChainFrom m s ca cs → cs.Nodup →
        r.1 = true ∧
          ∀ c, fatValue m r.2 c = if c ∈ cs then FAT_CLUSTER_FREE else fatValue m s c := by
  have hstop : EndsChain FAT_CLUSTER_FREE := by decide
  refine ⟨(Release.used (clusters m) FAT_CLUSTER_FREE (fatValue m s)).card + 1,
    fun fuel hfuel => ?_⟩
  obtain ⟨⟨ok, f'⟩, hrun⟩ := Release.release_ends (a := ca) hstop (Nat.lt_of_succ_le hfuel)
  obtain ⟨s', hdone, hs'⟩ :=
    (views_arrayModel harea hin).deallocChain (views_fatValue harea hin s) hrun
  -- the values behind the walk are those that `read_fat` returns
  have hvals : fatValue m s' = f' := by
    apply hs'.fatValue_eq harea hin
    intro k hk
    rw [releaseFat_outside hrun hk]
    exact fatValue_outside hk s
  refine ⟨(ok, s'), hdone, ?_, ?_⟩
  · intro c hc
    rw [hvals] at hc ⊢
    exact (Release.release_changes hstop hrun hc).2
  · intro cs hcs hnodup
    rw [hvals]
    exact Release.release_chain hcs hnodup hrun

/-- The small volume with a chain of two clusters in its cache. -/
def twoLinks : FS := { zeroFS (oneFile 2 R_MODE) with
  fat := some fun k => if k = 2 then 3 else if k = 3 then FAT_CLUSTER_END else FAT_CLUSTER_BAD }

theorem twoLinks_chain : ChainFrom (smallMount 0) twoLinks 2 [2, 3] := by
  apply Release.Links.link
  · decide
  · show ¬ EndsChain 3
    decide
  · apply Release.Links.last
    · decide
    · exact Or.inl rfl

/-- On the small volume the two clusters of the chain become free, and no other value changes. -/
theorem deallocChain_exact_small :
    Ensures (fun fuel => deallocChain (smallMount 0) fuel 2 twoLinks) fun r => r.1 = true ∧
      ∀ c, fatValue (smallMount 0) r.2 c =
        if c ∈ [2, 3] then FAT_CLUSTER_FREE else fatValue (smallMount 0) twoLinks c :=
  (deallocChain_exact smallMount_fatArea smallMount_entriesInside 2 twoLinks).imp
    fun _ hr => hr.2 [2, 3] twoLinks_chain (by decide)

end NiFat32
