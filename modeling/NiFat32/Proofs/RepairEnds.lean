import NiFat32.Proofs.Touched

/-!
# `Proofs.RepairEnds`: when the repair of a directory ends

The repair handler walks into every entry with the directory attribute and leaves links and slots
as they are. So the condition `Ends` on the volume before the repair decides: the repair returns
inside the volume exactly where it holds (`Ends.repairs`, `iterate_mendsOnly`).
-/

set_option autoImplicit false

namespace NiFat32

variable {m : Mount} {s : FS} {v : Vol} {ca : Nat}

variable {handler : Handler Unit} {inner : Touches Unit} {es : List DirEntry}

/-- Volumes with the same links and slots are read alike. -/
theorem Reads.same {v' : Vol} (h : Reads m s v') (hz : Sized m v) (hfat : v'.fat = v.fat)
    (hslots : ∀ c, InVol m c → v'.slots m c = v.slots m c) : Reads m s v where
  fat := hfat ▸ h.fat
  slots := fun c hc => (h.slots c hc).trans (hslots c hc)
  sized := hz

/-- The slots of a cluster are written back as they are. -/
theorem Reads.written (h : Reads m s (v.setSlots m ca (v.raw ca) (v.slots m ca))) (hz : Sized m v)
    (hca : InVol m ca) : Reads m s v := by
  refine h.same hz rfl fun c hc => ?_
  by_cases hne : c = ca
  · subst hne
    exact Vol.slots_setSlots_self (length_slotsIn _) (hz c hca)
  · exact Vol.slots_setSlots_ne _ _ hne

/-- At the entry the handler returns inside the volume and leaves it as it is. -/
def Mends (m : Mount) (v : Vol) (handler : Handler Unit) (inner : Touches Unit) (e : DirEntry) :
    Prop :=
  ∀ info s, Reads m s v → ∃ s', handler info e () s = some (false, e, (), s') ∧ Reads m s' v ∧
    ∀ c ∈ inner info e () s, InVol m c

theorem slotLoop_mends (hh : ∀ e ∈ visible es, Mends m v handler inner e) (i : Nat)
    (h : Reads m s v) :
    ∃ s', slotLoop handler ca i es () s = some (false, es, (), s') ∧ Reads m s' v ∧
      ∀ c ∈ slotTouched handler inner ca i es () s, InVol m c := by
  induction es generalizing i s with
  | nil => exact ⟨s, rfl, h, fun c hc => absurd hc List.not_mem_nil⟩
  | cons e es ih =>
    unfold slotLoop slotTouched
    by_cases hend : e.first = ENTRY_END
    · rw [if_pos hend, if_pos hend]
      exact ⟨s, rfl, h, fun c hc => absurd hc List.not_mem_nil⟩
    · rw [visible_cons hend] at hh
      obtain ⟨s₁, hrun₁, hs₁, hin₁⟩ := hh e List.mem_cons_self ⟨ca, i⟩ s h
      obtain ⟨s₂, hrun₂, hs₂, hin₂⟩ := ih (fun d hd => hh d (List.mem_cons_of_mem e hd)) (i + 1) hs₁
      rw [if_neg hend, if_neg hend, hrun₁]
      simp only [hrun₂, Option.map_some]
      exact ⟨s₂, rfl, hs₂, List.forall_mem_append.mpr ⟨hin₁, hin₂⟩⟩

/-- Where the handler returns at the entry and has stayed in the volume, it leaves the volume as it
is, and the walk into the directory ends. -/
def MendsOnly (m : Mount) (v : Vol) (handler : Handler Unit) (inner : Touches Unit) (e : DirEntry) :
    Prop :=
  ∀ info s out, Reads m s v → handler info e () s = some out →
    (∀ c ∈ inner info e () s, InVol m c) →
      ∃ s', out = (false, e, (), s') ∧ Reads m s' v ∧ (e.isDir → Ends m v True e.dca.toNat)

theorem slotLoop_mendsOnly (hh : ∀ e, MendsOnly m v handler inner e) (i : Nat)
    {out : Bool × List DirEntry × Unit × FS} (h : Reads m s v)
    (hrun : slotLoop handler ca i es () s = some out)
    (hin : ∀ c ∈ slotTouched handler inner ca i es () s, InVol m c) :
    ∃ s', out = (false, es, (), s') ∧ Reads m s' v ∧
      ∀ e ∈ visible es, e.isDir → Ends m v True e.dca.toNat := by
  induction es generalizing i s out with
  | nil =>
    cases hrun
    exact ⟨s, rfl, h, fun e he => absurd he List.not_mem_nil⟩
  | cons e es ih =>
    unfold slotLoop at hrun
    unfold slotTouched at hin
    by_cases hend : e.first = ENTRY_END
    · rw [if_pos hend] at hrun
      cases hrun
      rw [visible_cons_end hend]
      exact ⟨s, rfl, h, fun e he => absurd he List.not_mem_nil⟩
    · rw [if_neg hend] at hrun hin
      rw [visible_cons hend]
      obtain ⟨hin₁, hin₂⟩ := List.forall_mem_append.mp hin
      cases hstep : handler ⟨ca, i⟩ e () s with
      | none =>
        rw [hstep] at hrun
        cases hrun
      | some out₁ =>
        obtain ⟨s₁, rfl, hs₁, hends⟩ := hh e ⟨ca, i⟩ s out₁ h hstep hin₁
        rw [hstep] at hrun hin₂
        obtain ⟨out₂, hrest, rfl⟩ := Option.map_eq_some_iff.mp hrun
        obtain ⟨s₂, rfl, hs₂, hall⟩ := ih (i + 1) hs₁ hrest hin₂
        exact ⟨s₂, rfl, hs₂, List.forall_mem_cons.mpr ⟨hends, hall⟩⟩

section Walk

variable (L : Layout m) (harea : FatArea m)

include L harea

/-- A walk that returns inside the volume ends. -/
theorem iterate_mendsOnly (hh : ∀ e, MendsOnly m v handler inner e) (fuel : Nat)
    {out : Bool × Unit × FS} (h : Reads m s v)
    (hrun : entryIterate m handler fuel ca () s = some out)
    (hin : ∀ c ∈ touched m handler inner fuel ca () s, InVol m c) :
    Reads m out.2.2 v ∧ Ends m v True ca := by
  induction fuel generalizing ca s out with
  | zero => cases hrun
  | succ fuel ih =>
    have hstays : Stays m (entryIterate m handler (fuel + 1) ca () s)
        (touched m handler inner (fuel + 1) ca () s) := by
      refine ⟨?_, hin⟩
      rw [hrun]
      exact Option.some_ne_none _
    rcases hstays.inVol with rfl | hca
    · unfold entryIterate readEncodedCluster at hrun
      rw [if_pos rfl] at hrun
      cases hrun
      exact ⟨h.error L .badClusterError, .bad⟩
    · cases hloop : slotLoop handler ca 0 (v.slots m ca) () s with
      | none => exact absurd (iterate_stuck L h hca hloop fuel) hstays.1
      | some out₁ =>
        obtain ⟨s₁, rfl, hs₁, hentries⟩ := slotLoop_mendsOnly hh 0 h hloop
          fun c hc => hin c (slotTouched_subset L h hca fuel hc)
        obtain ⟨s₂, hs₂, -, hstep⟩ := iterate_next L h hca harea hloop hs₁
        have hs₂' := hs₂.written h.sized hca
        obtain ⟨hexec, htouched⟩ := hstep fuel
        rw [hexec] at hrun
        rw [htouched] at hin
        by_cases hend : v.fat ca = FAT_CLUSTER_END
        · rw [if_neg (not_not.mpr hend)] at hrun
          cases hrun
          exact ⟨hs₂', .cluster hca (fun _ _ => trivial) hentries fun hne => absurd hend hne⟩
        · rw [if_pos hend] at hrun hin
          obtain ⟨hout, hrest⟩ := ih hs₂' hrun
            (List.forall_mem_append.mp (List.forall_mem_cons.mp hin).2).2
          exact ⟨hout, .cluster hca (fun _ _ => trivial) hentries fun _ => hrest⟩

theorem repairHandler_mendsOnly (n : Nat) (e : DirEntry) :
    MendsOnly m v (repairHandler m n) (repairTouched m n) e := by
  induction n generalizing e with
  | zero =>
    intro info s out _ hrun
    cases hrun
  | succ n ih =>
    intro info s out h hrun hin
    unfold repairHandler at hrun
    unfold repairTouched at hin
    by_cases hdir : e.isDir
    · rw [if_pos hdir] at hrun hin
      obtain ⟨out₁, hwalk, rfl⟩ := Option.map_eq_some_iff.mp hrun
      obtain ⟨hs', hends⟩ := iterate_mendsOnly L harea ih n h hwalk hin
      exact ⟨out₁.2.2, rfl, hs', fun _ => hends⟩
    · rw [if_neg hdir] at hrun
      cases hrun
      exact ⟨s, rfl, h, fun hd => absurd hd hdir⟩

omit L harea in
/-- With bounds from `n` on, the repair from the cluster returns inside the volume and leaves it as
it is. -/
def Repairs (m : Mount) (v : Vol) (n ca : Nat) : Prop :=
  ∀ k ≥ n, ∀ fuel ≥ n, ∀ s, Reads m s v →
    ∃ out, entryIterate m (repairHandler m k) fuel ca () s = some out ∧ Reads m out.2.2 v ∧
      ∀ c ∈ touched m (repairHandler m k) (repairTouched m k) fuel ca () s, InVol m c

/-- A repair that ends returns inside the volume. -/
theorem Ends.repairs (hends : Ends m v True ca) : ∃ n, Repairs m v n ca := by
  induction hends with
  | bad =>
    refine ⟨1, fun k _ fuel hfuel s h => ?_⟩
    obtain ⟨i, rfl⟩ : ∃ i, fuel = i + 1 := ⟨fuel - 1, by omega⟩
    refine ⟨(false, (), registerError m .badClusterError s), ?_, h.error L .badClusterError,
      (stays_bad i).2⟩
    unfold entryIterate readEncodedCluster
    rw [if_pos rfl]
  | @cluster c hc _ hentries hlink ih ihlink =>
    -- one bound for the entries and one for the link
    obtain ⟨n₁, hn₁⟩ := exists_common_bound
      (P := fun (e : DirEntry) n => e.isDir → Repairs m v n e.dca.toNat)
      (fun e n i hni hn hdir k hk fuel hfuel => hn hdir k (Nat.le_trans hni hk) fuel
        (Nat.le_trans hni hfuel))
      (visible (v.slots m c))
      (by
        intro e he
        by_cases hdir : e.isDir
        · obtain ⟨n, hn⟩ := ih e he hdir
          exact ⟨n, fun _ => hn⟩
        · exact ⟨0, fun hd => absurd hd hdir⟩)
    obtain ⟨n₂, hn₂⟩ : ∃ n, v.fat c ≠ FAT_CLUSTER_END → Repairs m v n (v.fat c) := by
      by_cases hend : v.fat c = FAT_CLUSTER_END
      · exact ⟨0, fun hne => absurd hend hne⟩
      · obtain ⟨n, hn⟩ := ihlink hend
        exact ⟨n, fun _ => hn⟩
    refine ⟨max n₁ n₂ + 1, fun k hk fuel hfuel s h => ?_⟩
    obtain ⟨k, rfl⟩ : ∃ i, k = i + 1 := ⟨k - 1, by omega⟩
    obtain ⟨j, rfl⟩ : ∃ i, fuel = i + 1 := ⟨fuel - 1, by omega⟩
    have hmends : ∀ e ∈ visible (v.slots m c),
        Mends m v (repairHandler m (k + 1)) (repairTouched m (k + 1)) e := by
      intro e he info s h
      unfold repairHandler repairTouched
      by_cases hdir : e.isDir
      · obtain ⟨out, hrun, hs', hin⟩ := hn₁ e he hdir k (by omega) k (by omega) s h
        simp only [if_pos hdir, hrun]
        exact ⟨out.2.2, rfl, hs', hin⟩
      · simp only [if_neg hdir]
        exact ⟨s, rfl, h, fun c hc => absurd hc List.not_mem_nil⟩
    obtain ⟨s₁, hloop, hs₁, hin₁⟩ := slotLoop_mends hmends 0 h
    obtain ⟨s₂, hs₂, -, hstep⟩ := iterate_next L h hc harea hloop hs₁
    have hs₂' := hs₂.written h.sized hc
    obtain ⟨hexec, htouched⟩ := hstep j
    rw [hexec, htouched]
    by_cases hend : v.fat c = FAT_CLUSTER_END
    · rw [if_neg (not_not.mpr hend), if_neg (not_not.mpr hend), List.append_nil]
      exact ⟨_, rfl, hs₂', List.forall_mem_cons.mpr ⟨hc, hin₁⟩⟩
    · rw [if_pos hend, if_pos hend]
      obtain ⟨out, hrun, hout, hin₂⟩ := hn₂ hend (k + 1) (by omega) j (by omega) s₂ hs₂'
      exact ⟨out, hrun, hout,
        List.forall_mem_cons.mpr ⟨hc, List.forall_mem_append.mpr ⟨hin₁, hin₂⟩⟩⟩

end Walk

end NiFat32
