import NiFat32.Proofs.AnyVolume

/-!
# `Proofs.Touched`: the clusters that a walk reads and writes

`touched` follows `entry_iterate` and lists the clusters that it reads and writes, with those that
the handler touches in between, and `eraseTouched` follows `_entry_erase_rec`. `Stays` says of a
routine that it returns and that every cluster of its list is one of the volume.

`iterate_next`, `stays_next` and `stays_last` are one cluster of a walk.
-/

set_option autoImplicit false

namespace NiFat32

/-- The clusters that a handler reads and writes at an entry. -/
abbrev Touches (σ : Type) := EntryInfo → DirEntry → σ → FS → List Nat

section Iterate

variable (m : Mount) {σ : Type} (handler : Handler σ) (inner : Touches σ)

/-- The loop over the entries of one cluster, from entry `i`. -/
def slotTouched (ca : Nat) : (i : Nat) → List DirEntry → σ → FS → List Nat
  | _, [], _, _ => []
  | i, e :: es, ctx, s =>
    if e.first = ENTRY_END then []
    else inner ⟨ca, i⟩ e ctx s ++
      match handler ⟨ca, i⟩ e ctx s with
      | some (false, _, ctx, s) => slotTouched ca (i + 1) es ctx s
      | _ => []

/-- `entry_iterate`. A bad cluster is not read. -/
def touched : (fuel ca : Nat) → σ → FS → List Nat
  | 0, _, _, _ => []
  | fuel + 1, ca, ctx, s =>
    if ca = FAT_CLUSTER_BAD then []
    else ca ::
      match readEncodedCluster m ca s with
      | (none, _) => []
      | (some (enc, dec), s) =>
        slotTouched handler inner ca 0 (slotsOf (entriesPerCluster m) dec) ctx s ++
          match slotLoop handler ca 0 (slotsOf (entriesPerCluster m) dec) ctx s with
          | none => []
          | some (exit, slots, ctx, s) =>
            match writeCluster m ca (repackCluster m enc dec slots) s with
            | (false, _) => []
            | (true, s) =>
              match readFat m ca s with
              | (next, s) =>
                if next ≠ FAT_CLUSTER_END ∧ exit = false then touched fuel next ctx s else []

end Iterate

section Erase

variable (m : Mount) (eraseRec : (ca : Nat) → (file : Bool) → FS → Option (Int × FS))
  (inner : (ca : Nat) → (file : Bool) → FS → List Nat)

/-- The loop of `_entry_erase_rec` over the entries of one cluster. -/
def eraseSlotsTouched : List DirEntry → FS → List Nat
  | [], _ => []
  | e :: es, s =>
    if e.first = ENTRY_END then []
    else if e.Valid ∧ e.first ≠ ENTRY_FREE then
      inner e.dca.toNat (!e.isDir) s ++
        match eraseRec e.dca.toNat (!e.isDir) s with
        | none => []
        | some (result, s) =>
          eraseSlotsTouched es (if result < 0 then registerError m .recursiveEraseError s else s)
    else eraseSlotsTouched es s

/-- The loop of `_entry_erase_rec` over the clusters of a directory. -/
def eraseClustersTouched : (fuel ca : Nat) → FS → List Nat
  | 0, _, _ => []
  | fuel + 1, ca, s =>
    if ca = FAT_CLUSTER_BAD then []
    else ca ::
      match readEncodedCluster m ca s with
      | (none, _) => []
      | (some (_, dec), s) =>
        match readFat m ca s with
        | (nca, s) =>
          eraseSlotsTouched m eraseRec inner (slotsOf (entriesPerCluster m) dec) s ++
            match eraseSlots m eraseRec (slotsOf (entriesPerCluster m) dec) s with
            | none => []
            | some s =>
              match deallocCluster m ca s with
              | (ok, s) =>
                let s := if ok then s else registerError m .clusterDeallocationError s
                if nca ≠ FAT_CLUSTER_END then eraseClustersTouched fuel nca s else []

end Erase

section Handlers

variable (m : Mount)

/-- `_entry_erase_rec`. The chain of a file is freed in the FAT, its clusters are not read. -/
def eraseTouched : (fuel ca : Nat) → (file : Bool) → FS → List Nat
  | 0, _, _, _ => []
  | _ + 1, _, true, _ => []
  | fuel + 1, ca, false, s =>
    eraseClustersTouched m (entryEraseRec m fuel) (eraseTouched fuel) fuel ca s

/-- `_remove_handler` -/
def removeTouched (fuel : Nat) (name : Name) (cache : Nat) : Touches Int := fun info e _ s =>
  match validateEntry e with
  | (valid, e) =>
    if valid = false ∨ e.first = ENTRY_FREE then []
    else if nameEq e.fileName name = false then []
    else
      match
        if cache = 0 then some s
        else (ecacheDelete fuel cache (hashName name) s.heap).map fun (_, heap) =>
          { s with heap := heap }
      with
      | none => []
      | some s =>
        match journalAddOperation m DEL_OP info.ca info.offset e s with
        | (_, s) => eraseTouched m fuel e.dca.toNat (!e.isDir) s

/-- `_repair_handler` -/
def repairTouched : (fuel : Nat) → Touches Unit
  | 0 => fun _ _ _ _ => []
  | fuel + 1 => fun _ e _ s =>
    if e.isDir then
      touched m (repairHandler m fuel) (repairTouched fuel) fuel e.dca.toNat () s
    else []

end Handlers

/-- The routine returns, and the clusters that it touches are clusters of the volume. -/
def Stays (m : Mount) {β : Type} (out : Option β) (cs : List Nat) : Prop :=
  out ≠ none ∧ ∀ c ∈ cs, InVol m c

/-! ### One cluster of a walk -/

section Step

variable {m : Mount} {σ : Type} {handler : Handler σ} {inner : Touches σ} {s : FS} {v : Vol}
  {ca : Nat} {ctx : σ}

/-- A bad cluster ends the walk. -/
theorem stays_bad (fuel : Nat) :
    Stays m (entryIterate m handler (fuel + 1) FAT_CLUSTER_BAD ctx s)
      (touched m handler inner (fuel + 1) FAT_CLUSTER_BAD ctx s) := by
  constructor
  · unfold entryIterate readEncodedCluster
    rw [if_pos rfl]
    exact Option.some_ne_none _
  · unfold touched
    rw [if_pos rfl]
    exact fun c hc => absurd hc List.not_mem_nil

/-- A walk reads the cluster it stands on. -/
theorem Stays.inVol {fuel : Nat} (h : Stays m (entryIterate m handler fuel ca ctx s)
    (touched m handler inner fuel ca ctx s)) : ca = FAT_CLUSTER_BAD ∨ InVol m ca := by
  by_cases hbad : ca = FAT_CLUSTER_BAD
  · exact Or.inl hbad
  · cases fuel with
    | zero => exact absurd rfl h.1
    | succ fuel =>
      refine Or.inr (h.2 ca ?_)
      unfold touched
      rw [if_neg hbad]
      exact List.mem_cons_self

/-- A cluster and the clusters behind it. -/
theorem stays_cons {β : Type} {out : Option β} {cs ds : List Nat} (hca : InVol m ca) :
    Stays m out (ca :: (cs ++ ds)) ↔ (∀ c ∈ cs, InVol m c) ∧ Stays m out ds := by
  unfold Stays
  simp only [List.mem_cons, List.mem_append]
  constructor
  · rintro ⟨hout, hall⟩
    exact ⟨fun c hc => hall c (Or.inr (Or.inl hc)), hout, fun c hc => hall c (Or.inr (Or.inr hc))⟩
  · rintro ⟨hcs, hout, hds⟩
    refine ⟨hout, fun c hc => ?_⟩
    rcases hc with rfl | hc | hc
    · exact hca
    · exact hcs c hc
    · exact hds c hc

variable (L : Layout m) (h : Reads m s v) (hca : InVol m ca)

include L h hca

/-- The handler does not return. -/
theorem iterate_stuck (hloop : slotLoop handler ca 0 (v.slots m ca) ctx s = none) (fuel : Nat) :
    entryIterate m handler (fuel + 1) ca ctx s = none := by
  obtain ⟨hread, hslots⟩ := h.readCluster L hca
  unfold entryIterate
  rw [hread]
  simp only [hslots, hloop]

/-- What the handler touches in a cluster belongs to the walk. -/
theorem slotTouched_subset (fuel : Nat) : slotTouched handler inner ca 0 (v.slots m ca) ctx s
    ⊆ touched m handler inner (fuel + 1) ca ctx s := by
  obtain ⟨hread, hslots⟩ := h.readCluster L hca
  unfold touched
  rw [if_neg (L.ne_bad hca), hread]
  simp only [hslots]
  exact List.subset_cons_of_subset _ (List.subset_append_left _ _)

/-- The handler ends the walk in the cluster. -/
theorem stays_last {slots : List DirEntry} {ctx' : σ} {s₁ : FS}
    (hloop : slotLoop handler ca 0 (v.slots m ca) ctx s = some (true, slots, ctx', s₁))
    (fuel : Nat) :
    Stays m (entryIterate m handler (fuel + 1) ca ctx s)
        (touched m handler inner (fuel + 1) ca ctx s) ↔
      ∀ c ∈ slotTouched handler inner ca 0 (v.slots m ca) ctx s, InVol m c := by
  obtain ⟨hread, hslots⟩ := h.readCluster L hca
  have hlen : slots.length = entriesPerCluster m :=
    (length_slotLoop hloop).trans (length_slotsIn _)
  have henc := length_heldBytes (m := m) s ca
  obtain ⟨s₂, he₂, -⟩ := writeCluster_works L (length_repackCluster hlen henc) ca s₁
  have hrun : entryIterate m handler (fuel + 1) ca ctx s
      = some (true, ctx', (readFat m ca s₂).2) := by
    unfold entryIterate
    rw [hread]
    simp only [hslots, hloop, he₂]
    rw [if_neg (by simp)]
  have hcs : touched m handler inner (fuel + 1) ca ctx s
      = ca :: (slotTouched handler inner ca 0 (v.slots m ca) ctx s ++ []) := by
    unfold touched
    rw [if_neg (L.ne_bad hca), hread]
    simp only [hslots, hloop, he₂]
    rw [if_neg (by simp)]
  rw [hrun, hcs, stays_cons hca]
  refine and_iff_left ⟨Option.some_ne_none _, ?_⟩
  exact fun c hc => absurd hc List.not_mem_nil

/-- The walk goes on behind the cluster. -/
theorem iterate_next (harea : FatArea m) {slots : List DirEntry} {ctx' : σ} {s₁ : FS} {v₁ : Vol}
    (hloop : slotLoop handler ca 0 (v.slots m ca) ctx s = some (false, slots, ctx', s₁))
    (h₁ : Reads m s₁ v₁) :
    ∃ s₂, Reads m s₂ (v₁.setSlots m ca (v₁.raw ca) slots) ∧ Keeps [] s₁ s₂ ∧ ∀ fuel,
      entryIterate m handler (fuel + 1) ca ctx s =
        (if v₁.fat ca ≠ FAT_CLUSTER_END then entryIterate m handler fuel (v₁.fat ca) ctx' s₂
          else some (false, ctx', s₂)) ∧
      touched m handler inner (fuel + 1) ca ctx s =
        ca :: (slotTouched handler inner ca 0 (v.slots m ca) ctx s ++
          if v₁.fat ca ≠ FAT_CLUSTER_END then touched m handler inner fuel (v₁.fat ca) ctx' s₂
          else []) := by
  obtain ⟨hread, hslots⟩ := h.readCluster L hca
  have hlen : slots.length = entriesPerCluster m :=
    (length_slotLoop hloop).trans (length_slotsIn _)
  obtain ⟨s₂, he₂, hs₂, hk₂⟩ := h₁.writeSlots L hca hlen (length_heldBytes s ca)
  obtain ⟨s₃, he₃, hs₃, hk₃⟩ := hs₂.readFat L harea hca
  rw [Vol.setSlots_fat] at he₃
  refine ⟨s₃, hs₃, hk₂.nil_trans hk₃, fun fuel => ⟨?_, ?_⟩⟩
  · conv_lhs => unfold entryIterate
    rw [hread]
    simp only [hslots, hloop, he₂, he₃, and_true]
  · conv_lhs => unfold touched
    rw [if_neg (L.ne_bad hca), hread]
    simp only [hslots, hloop, he₂, he₃, and_true]

/-- The walk stays in the volume where it does in the cluster and behind it. -/
theorem stays_next (harea : FatArea m) {slots : List DirEntry} {ctx' : σ} {s₁ : FS} {v₁ : Vol}
    (hloop : slotLoop handler ca 0 (v.slots m ca) ctx s = some (false, slots, ctx', s₁))
    (h₁ : Reads m s₁ v₁) :
    ∃ s₂, Reads m s₂ (v₁.setSlots m ca (v₁.raw ca) slots) ∧ Keeps [] s₁ s₂ ∧ ∀ fuel,
      (Stays m (entryIterate m handler (fuel + 1) ca ctx s)
          (touched m handler inner (fuel + 1) ca ctx s) ↔
        (∀ c ∈ slotTouched handler inner ca 0 (v.slots m ca) ctx s, InVol m c) ∧
        (v₁.fat ca ≠ FAT_CLUSTER_END → Stays m (entryIterate m handler fuel (v₁.fat ca) ctx' s₂)
          (touched m handler inner fuel (v₁.fat ca) ctx' s₂))) := by
  obtain ⟨s₂, hs₂, hk₂, hstep⟩ := iterate_next L h hca harea hloop h₁
  refine ⟨s₂, hs₂, hk₂, fun fuel => ?_⟩
  obtain ⟨hrun, hcs⟩ := hstep fuel
  rw [hrun, hcs, stays_cons hca]
  refine and_congr_right fun _ => ?_
  by_cases hend : v₁.fat ca = FAT_CLUSTER_END
  · rw [if_neg (not_not.mpr hend), if_neg (not_not.mpr hend)]
    refine iff_of_true ⟨Option.some_ne_none _, fun c hc => absurd hc List.not_mem_nil⟩ ?_
    exact fun hne => absurd hend hne
  · rw [if_pos hend, if_pos hend]
    exact ⟨fun hrest _ => hrest, fun hrest => hrest hend⟩

end Step

end NiFat32
