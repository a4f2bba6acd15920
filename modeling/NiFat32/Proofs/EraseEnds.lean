import NiFat32.Proofs.Touched

/-!
# `Proofs.EraseEnds`: when an erase ends

`_entry_erase_rec` frees the clusters of a directory while it walks over them: what it reads behind
a cluster that was freed is the value `FAT_CLUSTER_FREE`, which does not end a directory.
`EraseRuns` is the erase on the links and the slots alone. It has a derivation exactly when the
erase ends inside the volume (`EraseRuns.stays`, `eraseRuns_of_stays`).
-/

set_option autoImplicit false

namespace NiFat32

variable {m : Mount} {s s' : FS} {raw : Nat → List UInt8} {f f' : Nat → Nat} {ca fuel : Nat}
  {ok : Bool}

/-! ### The erase on the links and the slots -/

/-- What is left to erase: what an entry owns, a directory from one of its clusters on, or the
entries of a cluster from one on. -/
inductive EraseTask
  | content (ca : Nat) (file : Bool)
  | clusters (ca : Nat)
  | entries (es : List DirEntry)

/-- The erase takes the links `f` to `f'`, over clusters with the bytes `raw`. -/
inductive EraseRuns (m : Mount) (raw : Nat → List UInt8) :
    EraseTask → (Nat → Nat) → (Nat → Nat) → Prop
  | chain {ca fuel : Nat} {ok : Bool} {f f' : Nat → Nat}
      (h : releaseFat m fuel ca f = some (ok, f')) : EraseRuns m raw (.content ca true) f f'
  | directory {ca : Nat} {f f' : Nat → Nat} (h : EraseRuns m raw (.clusters ca) f f') :
      EraseRuns m raw (.content ca false) f f'
  | bad {f : Nat → Nat} : EraseRuns m raw (.clusters FAT_CLUSTER_BAD) f f
  | last {c : Nat} {f f' : Nat → Nat} (hc : InVol m c)
      (hentries : EraseRuns m raw (.entries (live (slotsIn m (raw c)))) f f')
      (hend : f c = FAT_CLUSTER_END) :
      EraseRuns m raw (.clusters c) f (Function.update f' c FAT_CLUSTER_FREE)
  | next {c : Nat} {f f' f'' : Nat → Nat} (hc : InVol m c)
      (hentries : EraseRuns m raw (.entries (live (slotsIn m (raw c)))) f f')
      (hend : f c ≠ FAT_CLUSTER_END)
      (hrest : EraseRuns m raw (.clusters (f c)) (Function.update f' c FAT_CLUSTER_FREE) f'') :
      EraseRuns m raw (.clusters c) f f''
  | none {f : Nat → Nat} : EraseRuns m raw (.entries []) f f
  | entry {e : DirEntry} {es : List DirEntry} {f f' f'' : Nat → Nat}
      (hcontent : EraseRuns m raw (.content e.dca.toNat (!e.isDir)) f f')
      (hrest : EraseRuns m raw (.entries es) f' f'') : EraseRuns m raw (.entries (e :: es)) f f''

/-! ### Freeing a chain -/

section Chain

variable {R : FS → (Nat → Nat) → Prop}

/-- `dealloc_chain` does not return where the walk on the values has not ended. -/
theorem ArrayModel.deallocChain_none (hR : ArrayModel m R) (h : R s f)
    (hrun : releaseFat m fuel ca f = none) : NiFat32.deallocChain m fuel ca s = none := by
  induction fuel generalizing ca s f with
  | zero => rfl
  | succ fuel ih =>
    rw [releaseFat, Release.release] at hrun
    obtain ⟨hval, hread⟩ := hR.read h ca
    rw [NiFat32.deallocChain]
    generalize readFat m ca s = r at hval hread
    obtain ⟨next, s₁⟩ := r
    by_cases hca : InVol m ca
    · rw [if_pos (mem_clusters.mpr hca)] at hrun
      rw [if_pos hca] at hval
      cases hval
      obtain ⟨s₂, hfreed, hs₂⟩ := hR.dealloc hread hca
      simp only [hfreed]
      -- a walk that has not ended went on behind the cluster
      by_cases hstop : EndsChain (f ca)
      · rw [if_pos hstop] at hrun
        cases hrun
      · rw [if_neg hstop] at hrun
        exact (if_neg hstop).trans (ih hs₂ hrun)
    · rw [if_neg (mem_clusters.not.mpr hca)] at hrun
      cases hrun

/-- What `dealloc_chain` returns is what the walk on the values returns. -/
theorem ArrayModel.deallocChain_some (hR : ArrayModel m R) (h : R s f)
    (hrun : NiFat32.deallocChain m fuel ca s = some (ok, s')) :
    ∃ f', releaseFat m fuel ca f = some (ok, f') ∧ R s' f' := by
  cases hrel : releaseFat m fuel ca f with
  | none =>
    rw [hR.deallocChain_none h hrel] at hrun
    cases hrun
  | some x =>
    obtain ⟨ok', f'⟩ := x
    obtain ⟨s'', hdone, hs''⟩ := hR.deallocChain h hrel
    rw [hdone] at hrun
    cases hrun
    exact ⟨f', rfl, hs''⟩

end Chain

/-! ### The library follows it -/

/-- The library at work on a task, with the bound `k` on the depth and `j` on the clusters. -/
def EraseTask.exec (m : Mount) (k j : Nat) : EraseTask → FS → Option FS
  | .content ca file, s => (entryEraseRec m k ca file s).map fun x => x.2
  | .clusters ca, s => eraseClusters m (entryEraseRec m k) j ca s
  | .entries es, s => eraseSlots m (entryEraseRec m k) es s

/-- The clusters that it touches. -/
def EraseTask.touched (m : Mount) (k j : Nat) : EraseTask → FS → List Nat
  | .content ca file, s => eraseTouched m k ca file s
  | .clusters ca, s => eraseClustersTouched m (entryEraseRec m k) (eraseTouched m k) j ca s
  | .entries es, s => eraseSlotsTouched m (entryEraseRec m k) (eraseTouched m k) es s

section Slots

variable (k j : Nat)

/-- The loop over the entries skips what is no entry. -/
theorem eraseSlots_live (slots : List DirEntry) (s : FS) :
    eraseSlots m (entryEraseRec m k) slots s = eraseSlots m (entryEraseRec m k) (live slots) s := by
  induction slots generalizing s with
  | nil => rfl
  | cons e es ih =>
    by_cases hend : e.first = ENTRY_END
    · rw [live_cons_end hend]
      exact if_pos hend
    · rw [eraseSlots, if_neg hend]
      by_cases hlive : e.Valid ∧ e.first ≠ ENTRY_FREE
      · rw [live_cons hend hlive.1 hlive.2, eraseSlots, if_neg hend, if_pos hlive, if_pos hlive]
        cases entryEraseRec m k e.dca.toNat (!e.isDir) s with
        | none => rfl
        | some x => exact ih _
      · rw [live_cons_hole hend hlive, if_neg hlive]
        exact ih s

theorem eraseSlotsTouched_live (slots : List DirEntry) (s : FS) :
    eraseSlotsTouched m (entryEraseRec m k) (eraseTouched m k) slots s
      = eraseSlotsTouched m (entryEraseRec m k) (eraseTouched m k) (live slots) s := by
  induction slots generalizing s with
  | nil => rfl
  | cons e es ih =>
    by_cases hend : e.first = ENTRY_END
    · rw [live_cons_end hend]
      exact if_pos hend
    · rw [eraseSlotsTouched, if_neg hend]
      by_cases hlive : e.Valid ∧ e.first ≠ ENTRY_FREE
      · rw [live_cons hend hlive.1 hlive.2, eraseSlotsTouched, if_neg hend, if_pos hlive,
          if_pos hlive]
        cases entryEraseRec m k e.dca.toNat (!e.isDir) s with
        | none => rfl
        | some x => exact congrArg _ (ih _)
      · rw [live_cons_hole hend hlive, if_neg hlive]
        exact ih s

end Slots

/-- The entries of a task are entries of a directory. -/
def EraseTask.Live : EraseTask → Prop
  | .entries es => ∀ e ∈ es, e.first ≠ ENTRY_END ∧ e.Valid ∧ e.first ≠ ENTRY_FREE
  | _ => True

theorem entries_live (slots : List DirEntry) : (EraseTask.entries (live slots)).Live := by
  intro e he
  obtain ⟨hvis, hv, hf⟩ := mem_live.mp he
  exact ⟨first_of_mem_visible hvis, hv, hf⟩

/-- The library finishes the task inside the volume, and the links are `f'` then. -/
def Finishes (m : Mount) (raw : Nat → List UInt8) (k j : Nat) (t : EraseTask) (s : FS)
    (f' : Nat → Nat) : Prop :=
  ∃ s', t.exec m k j s = some s' ∧ Reads m s' ⟨f', raw⟩ ∧ ∀ c ∈ t.touched m k j s, InVol m c

section Steps

variable (k j : Nat)

/-- One entry of a cluster. -/
theorem exec_entry (L : Layout m) {e : DirEntry} (es : List DirEntry)
    (hlive : (EraseTask.entries (e :: es)).Live) :
    let t := EraseTask.content e.dca.toNat (!e.isDir)
    (t.exec m k j s = none → (EraseTask.entries (e :: es)).exec m k j s = none) ∧
    t.touched m k j s ⊆ (EraseTask.entries (e :: es)).touched m k j s ∧
    ∀ s₁ v, t.exec m k j s = some s₁ → Reads m s₁ v → ∃ s₂, Reads m s₂ v ∧
      (EraseTask.entries (e :: es)).exec m k j s = (EraseTask.entries es).exec m k j s₂ ∧
      (EraseTask.entries (e :: es)).touched m k j s
        = t.touched m k j s ++ (EraseTask.entries es).touched m k j s₂ := by
  obtain ⟨hend, hv, hf⟩ := hlive e List.mem_cons_self
  simp only [EraseTask.exec, EraseTask.touched, eraseSlots, eraseSlotsTouched, if_neg hend,
    if_pos (And.intro hv hf)]
  cases entryEraseRec m k e.dca.toNat (!e.isDir) s with
  | none =>
    refine ⟨fun _ => rfl, List.subset_append_left _ _, fun s₁ v hrun => ?_⟩
    cases hrun
  | some x =>
    obtain ⟨result, s'⟩ := x
    refine ⟨fun hrun => ?_, List.subset_append_left _ _, fun s₁ v hrun h₁ => ?_⟩
    · cases hrun
    · obtain rfl : s' = s₁ := Option.some.inj hrun
      -- a failed erase is an error on the ring, the loop goes on
      refine ⟨if result < 0 then registerError m .recursiveEraseError s' else s', ?_, rfl, rfl⟩
      split
      · exact h₁.error L .recursiveEraseError
      · exact h₁

/-- One cluster of a directory. -/
theorem exec_cluster (L : Layout m) (harea : FatArea m) (h : Reads m s ⟨f, raw⟩) {c : Nat}
    (hc : InVol m c) :
    let t := EraseTask.entries (live (slotsIn m (raw c)))
    ∃ s₁, Reads m s₁ ⟨f, raw⟩ ∧
      (t.exec m k j s₁ = none → (EraseTask.clusters c).exec m k (j + 1) s = none) ∧
      t.touched m k j s₁ ⊆ (EraseTask.clusters c).touched m k (j + 1) s ∧
      ∀ s₂ f₁, t.exec m k j s₁ = some s₂ → Reads m s₂ ⟨f₁, raw⟩ →
        ∃ s₃, Reads m s₃ ⟨Function.update f₁ c FAT_CLUSTER_FREE, raw⟩ ∧
          (EraseTask.clusters c).exec m k (j + 1) s =
            (if f c ≠ FAT_CLUSTER_END then (EraseTask.clusters (f c)).exec m k j s₃
              else some s₃) ∧
          (EraseTask.clusters c).touched m k (j + 1) s = c :: (t.touched m k j s₁ ++
            if f c ≠ FAT_CLUSTER_END then (EraseTask.clusters (f c)).touched m k j s₃
            else []) := by
  obtain ⟨hread, hslots⟩ := h.readCluster L hc
  obtain ⟨s₁, hlink, hs₁, -⟩ := h.readFat L harea hc
  have hraw : (Vol.mk f raw).slots m c = slotsIn m (raw c) := rfl
  refine ⟨s₁, hs₁, ?_, ?_, ?_⟩
  · intro hrun
    simp only [EraseTask.exec] at hrun ⊢
    rw [← eraseSlots_live] at hrun
    rw [eraseClusters, hread]
    simp only [hslots, hlink, hraw, hrun]
  · simp only [EraseTask.touched]
    rw [← eraseSlotsTouched_live, eraseClustersTouched, if_neg (L.ne_bad hc), hread]
    simp only [hslots, hlink, hraw]
    exact List.subset_cons_of_subset _ (List.subset_append_left _ _)
  · intro s₂ f₁ hrun hs₂
    obtain ⟨s₃, hfreed, hs₃⟩ := (reads_arrayModel L harea raw).dealloc hs₂ hc
    simp only [EraseTask.exec, EraseTask.touched] at hrun ⊢
    rw [← eraseSlots_live] at hrun
    refine ⟨s₃, hs₃, ?_, ?_⟩
    · rw [eraseClusters, hread]
      simp only [hslots, hlink, hraw, hrun, hfreed, if_true]
    · rw [eraseClustersTouched, if_neg (L.ne_bad hc), hread]
      simp only [hslots, hlink, hraw, hrun, hfreed, if_true]
      rw [← eraseSlotsTouched_live]

end Steps

section Walk

variable (L : Layout m) (harea : FatArea m)

include L harea

/-- An erase that has a course finishes inside the volume. -/
theorem EraseRuns.finishes {t : EraseTask} (h : EraseRuns m raw t f f') : t.Live →
    ∃ n, ∀ k ≥ n, ∀ j ≥ n, ∀ s, Reads m s ⟨f, raw⟩ → Finishes m raw k j t s f' := by
  induction h with
  | @chain ca fuel ok f f' hrun =>
    -- the chain of a file is freed without a look at its clusters
    refine fun _ => ⟨fuel + 1, fun k hk j hj s hs => ?_⟩
    obtain ⟨k, rfl⟩ : ∃ i, k = i + 1 := ⟨k - 1, by omega⟩
    have hmore : releaseFat m k ca f = some (ok, f') := Release.release_mono (by omega) hrun
    obtain ⟨s', hdone, hs'⟩ := (reads_arrayModel L harea raw).deallocChain hs hmore
    refine ⟨s', ?_, hs', fun c hc => absurd hc List.not_mem_nil⟩
    rw [EraseTask.exec, entryEraseRec, hdone]
    rfl
  | directory _ ih =>
    intro _
    obtain ⟨n, hn⟩ := ih trivial
    refine ⟨n + 1, fun k hk j hj s hs => ?_⟩
    obtain ⟨k, rfl⟩ : ∃ i, k = i + 1 := ⟨k - 1, by omega⟩
    obtain ⟨s', hrun, hs', hin⟩ := hn k (by omega) k (by omega) s hs
    refine ⟨s', ?_, hs', hin⟩
    simp only [EraseTask.exec, entryEraseRec] at hrun ⊢
    rw [hrun]
    rfl
  | bad =>
    refine fun _ => ⟨1, fun k hk j hj s hs => ?_⟩
    obtain ⟨j, rfl⟩ : ∃ i, j = i + 1 := ⟨j - 1, by omega⟩
    refine ⟨registerError m .badClusterError s, ?_, hs.error L .badClusterError, ?_⟩
    · simp only [EraseTask.exec, eraseClusters, readEncodedCluster, if_true]
    · simp only [EraseTask.touched, eraseClustersTouched, if_true]
      exact fun c hc => absurd hc List.not_mem_nil
  | @last c f f' hc hentries hend ih =>
    intro _
    obtain ⟨n, hn⟩ := ih (entries_live _)
    refine ⟨n + 1, fun k hk j hj s hs => ?_⟩
    obtain ⟨j, rfl⟩ : ∃ i, j = i + 1 := ⟨j - 1, by omega⟩
    obtain ⟨s₁, hs₁, -, -, hstep⟩ := exec_cluster k j L harea hs hc
    obtain ⟨s₂, hrun₂, hs₂, hin₂⟩ := hn k (by omega) j (by omega) s₁ hs₁
    obtain ⟨s₃, hs₃, hrun, htouched⟩ := hstep s₂ f' hrun₂ hs₂
    rw [if_neg (not_not.mpr hend)] at hrun htouched
    refine ⟨s₃, hrun, hs₃, ?_⟩
    rw [htouched, List.append_nil]
    exact List.forall_mem_cons.mpr ⟨hc, hin₂⟩
  | @next c f f' f'' hc hentries hend hrest ih ihrest =>
    intro _
    obtain ⟨n₁, hn₁⟩ := ih (entries_live _)
    obtain ⟨n₂, hn₂⟩ := ihrest trivial
    refine ⟨max n₁ n₂ + 1, fun k hk j hj s hs => ?_⟩
    obtain ⟨j, rfl⟩ : ∃ i, j = i + 1 := ⟨j - 1, by omega⟩
    -- the link was read before the entries were erased
    obtain ⟨s₁, hs₁, -, -, hstep⟩ := exec_cluster k j L harea hs hc
    obtain ⟨s₂, hrun₂, hs₂, hin₂⟩ := hn₁ k (by omega) j (by omega) s₁ hs₁
    obtain ⟨s₃, hs₃, hrun, htouched⟩ := hstep s₂ f' hrun₂ hs₂
    rw [if_pos hend] at hrun htouched
    obtain ⟨s₄, hrun₄, hs₄, hin₄⟩ := hn₂ k (by omega) j (by omega) s₃ hs₃
    refine ⟨s₄, hrun.trans hrun₄, hs₄, ?_⟩
    rw [htouched]
    exact List.forall_mem_cons.mpr ⟨hc, List.forall_mem_append.mpr ⟨hin₂, hin₄⟩⟩
  | none =>
    refine fun _ => ⟨0, fun k _ j _ s hs => ⟨s, rfl, hs, ?_⟩⟩
    exact fun c hc => absurd hc List.not_mem_nil
  | @entry e es f f' f'' hcontent hrest ih ihrest =>
    intro hlive
    obtain ⟨n₁, hn₁⟩ := ih trivial
    obtain ⟨n₂, hn₂⟩ := ihrest fun d hd => hlive d (List.mem_cons_of_mem e hd)
    refine ⟨max n₁ n₂, fun k hk j hj s hs => ?_⟩
    obtain ⟨s₁, hrun₁, hs₁, hin₁⟩ := hn₁ k (by omega) j (by omega) s hs
    obtain ⟨s₂, hs₂, hrun, htouched⟩ := (exec_entry k j L es hlive).2.2 s₁ _ hrun₁ hs₁
    obtain ⟨s₃, hrun₃, hs₃, hin₃⟩ := hn₂ k (by omega) j (by omega) s₂ hs₂
    refine ⟨s₃, hrun.trans hrun₃, hs₃, ?_⟩
    rw [htouched]
    exact List.forall_mem_append.mpr ⟨hin₁, hin₃⟩

omit L harea in
/-- Where the library returns and has stayed inside the volume, the task has a course. -/
def Follows (m : Mount) (raw : Nat → List UInt8) (k j : Nat) (t : EraseTask) : Prop :=
  ∀ s f s', Reads m s ⟨f, raw⟩ → t.exec m k j s = some s' →
    (∀ c ∈ t.touched m k j s, InVol m c) → ∃ f', EraseRuns m raw t f f' ∧ Reads m s' ⟨f', raw⟩

omit harea in
theorem follows_entries {k j : Nat} (hcontent : ∀ ca file, Follows m raw k j (.content ca file))
    {es : List DirEntry} (hlive : (EraseTask.entries es).Live) :
    Follows m raw k j (.entries es) := by
  induction es with
  | nil =>
    intro s f s' hs hrun _
    cases hrun
    exact ⟨f, .none, hs⟩
  | cons e es ih =>
    intro s f s' hs hrun hin
    cases hrun₁ : (EraseTask.content e.dca.toNat (!e.isDir)).exec m k j s with
    | none =>
      rw [(exec_entry k j L es hlive).1 hrun₁] at hrun
      cases hrun
    | some s₁ =>
      have hsub := (exec_entry (s := s) k j L es hlive).2.1
      obtain ⟨f₁, hruns₁, hs₁⟩ := hcontent _ _ s f s₁ hs hrun₁ fun c hc => hin c (hsub hc)
      obtain ⟨s₂, hs₂, hexec, htouched⟩ := (exec_entry k j L es hlive).2.2 s₁ _ hrun₁ hs₁
      rw [hexec] at hrun
      rw [htouched] at hin
      obtain ⟨f₂, hruns₂, hs'⟩ := ih (fun d hd => hlive d (List.mem_cons_of_mem e hd)) s₂ f₁ s' hs₂
        hrun (List.forall_mem_append.mp hin).2
      exact ⟨f₂, .entry hruns₁ hruns₂, hs'⟩

theorem follows_clusters {k : Nat} (hentries : ∀ j es, (EraseTask.entries es).Live →
    Follows m raw k j (.entries es)) (j ca : Nat) : Follows m raw k j (.clusters ca) := by
  induction j generalizing ca with
  | zero =>
    intro s f s' _ hrun _
    cases hrun
  | succ j ih =>
    intro s f s' hs hrun hin
    by_cases hbad : ca = FAT_CLUSTER_BAD
    · subst hbad
      simp only [EraseTask.exec, eraseClusters, readEncodedCluster, if_true] at hrun
      cases hrun
      exact ⟨f, .bad, hs.error L .badClusterError⟩
    · have hca : InVol m ca := by
        refine hin ca ?_
        simp only [EraseTask.touched, eraseClustersTouched, if_neg hbad]
        exact List.mem_cons_self
      obtain ⟨s₁, hs₁, hnone, hsub, hstep⟩ := exec_cluster k j L harea hs hca
      cases hrun₁ : (EraseTask.entries (live (slotsIn m (raw ca)))).exec m k j s₁ with
      | none =>
        rw [hnone hrun₁] at hrun
        cases hrun
      | some s₂ =>
        obtain ⟨f₁, hruns₁, hs₂⟩ := hentries j _ (entries_live _) s₁ f s₂ hs₁ hrun₁
          fun c hc => hin c (hsub hc)
        obtain ⟨s₃, hs₃, hexec, htouched⟩ := hstep s₂ f₁ hrun₁ hs₂
        rw [hexec] at hrun
        by_cases hend : f ca = FAT_CLUSTER_END
        · rw [if_neg (not_not.mpr hend)] at hrun
          cases hrun
          exact ⟨_, .last hca hruns₁ hend, hs₃⟩
        · rw [if_pos hend] at hrun htouched
          rw [htouched] at hin
          have hrest := (List.forall_mem_append.mp (List.forall_mem_cons.mp hin).2).2
          obtain ⟨f₂, hruns₂, hs'⟩ := ih (f ca) s₃ _ s' hs₃ hrun hrest
          exact ⟨f₂, .next hca hruns₁ hend hruns₂, hs'⟩

/-- An erase that returns inside the volume has a course. -/
theorem follows_content (k j ca : Nat) (file : Bool) : Follows m raw k j (.content ca file) := by
  induction k generalizing j ca file with
  | zero =>
    intro s f s' _ hrun _
    cases hrun
  | succ k ih =>
    intro s f s' hs hrun hin
    cases file with
    | true =>
      simp only [EraseTask.exec, entryEraseRec, Option.map_map] at hrun
      obtain ⟨x, hchain, heq⟩ := Option.map_eq_some_iff.mp hrun
      obtain ⟨ok, s₁⟩ := x
      cases heq
      obtain ⟨f', hrel, hs'⟩ := (reads_arrayModel L harea raw).deallocChain_some hs hchain
      exact ⟨f', .chain hrel, hs'⟩
    | false =>
      have hentries : ∀ i es, (EraseTask.entries es).Live → Follows m raw k i (.entries es) :=
        fun i es hlive => follows_entries L (fun ca file => ih i ca file) hlive
      have hrun' : (EraseTask.clusters ca).exec m k k s = some s' := by
        simp only [EraseTask.exec, entryEraseRec, Option.map_map] at hrun ⊢
        rw [← hrun]
        exact Option.map_id'.symm
      obtain ⟨f', hruns, hs'⟩ := follows_clusters L harea hentries k ca s f s' hs hrun' hin
      exact ⟨f', .directory hruns, hs'⟩

/-- `_entry_erase_rec` returns inside the volume only where the erase has a course. -/
theorem eraseRuns_of_stays {v : Vol} (h : Reads m s v) {file : Bool}
    (hstays : Stays m (entryEraseRec m fuel ca file s) (eraseTouched m fuel ca file s)) :
    ∃ f', EraseRuns m v.raw (.content ca file) v.fat f' := by
  obtain ⟨x, hrun⟩ := Option.ne_none_iff_exists'.mp hstays.1
  have hexec : (EraseTask.content ca file).exec m fuel 0 s = some x.2 := by
    rw [EraseTask.exec, hrun]
    rfl
  obtain ⟨f', hruns, -⟩ := follows_content L harea fuel 0 ca file s v.fat x.2 h hexec hstays.2
  exact ⟨f', hruns⟩

/-- `_entry_erase_rec` returns inside the volume where the erase has a course. -/
theorem EraseRuns.stays {v : Vol} {file : Bool}
    (hruns : EraseRuns m v.raw (.content ca file) v.fat f') : ∃ n, ∀ fuel ≥ n, ∀ s, Reads m s v →
      Stays m (entryEraseRec m fuel ca file s) (eraseTouched m fuel ca file s) := by
  obtain ⟨n, hn⟩ := hruns.finishes L harea trivial
  refine ⟨n, fun fuel hfuel s h => ?_⟩
  obtain ⟨s', hexec, -, hin⟩ := hn fuel hfuel n (Nat.le_refl n) s h
  refine ⟨fun hnone => ?_, hin⟩
  rw [EraseTask.exec, hnone] at hexec
  cases hexec

end Walk

end NiFat32
