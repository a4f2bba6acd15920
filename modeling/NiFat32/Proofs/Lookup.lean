import NiFat32.Proofs.RepairTree

/-!
# `Proofs.Lookup`: what a lookup changes

`entry_search` writes back every cluster it visits, and `_validate_entry` zeroes the checksum of
every entry that it rejects on the way. `PathWalk` is the walk of a lookup over the volume, with
the clusters it visits and the volume it leaves; `lookup_unchanged_iff` says for which of them the
stored information stays as it was.
-/

set_option autoImplicit false

namespace NiFat32

open Run

variable {m : Mount} {s s' : FS} {v v' v'' : Vol} {ca : Nat}

/-! ### A scan of one cluster -/

/-- The slot ends a scan for the entries with `p`. -/
def Stops (p : DirEntry → Bool) (e : DirEntry) : Prop :=
  e.Valid ∧ e.first ≠ ENTRY_FREE ∧ p e = true

instance (p : DirEntry → Bool) (e : DirEntry) : Decidable (Stops p e) :=
  inferInstanceAs (Decidable (_ ∧ _ ∧ _))

/-- The slots of a cluster after a scan. -/
def scanSlots (p : DirEntry → Bool) : List DirEntry → List DirEntry
  | [] => []
  | e :: es =>
    if e.first = ENTRY_END then e :: es
    else if Stops p e then e :: es
    else cleaned e :: scanSlots p es

/-- The slots that the scan passes over. -/
def passed (p : DirEntry → Bool) : List DirEntry → List DirEntry
  | [] => []
  | e :: es =>
    if e.first = ENTRY_END then []
    else if Stops p e then []
    else e :: passed p es

/-- The slot at which the scan ends. -/
def scanHit (p : DirEntry → Bool) : List DirEntry → Option DirEntry
  | [] => none
  | e :: es =>
    if e.first = ENTRY_END then none
    else if Stops p e then some e
    else scanHit p es

section Scan

variable {p : DirEntry → Bool} {slots : List DirEntry}

@[simp] theorem length_scanSlots : (scanSlots p slots).length = slots.length := by
  induction slots with
  | nil => rfl
  | cons e es ih =>
    unfold scanSlots
    split
    · rfl
    split
    · rfl
    · rw [List.length_cons, ih, List.length_cons]

/-- The validation does not change the entry. -/
theorem cleaned_eq_self_iff {e : DirEntry} : cleaned e = e ↔ e.Valid ∨ e.checksum = 0 := by
  unfold cleaned
  by_cases hv : e.Valid
  · simp [hv]
  · rw [if_neg hv]
    constructor
    · intro h
      exact Or.inr (congrArg DirEntry.checksum h).symm
    · rintro (h | h)
      · exact absurd h hv
      · rw [← h]

/-- A scan changes nothing exactly when the validation changes no entry that it passes over. -/
theorem scanSlots_eq_self_iff :
    scanSlots p slots = slots ↔ ∀ e ∈ passed p slots, cleaned e = e := by
  induction slots with
  | nil => exact ⟨fun _ e he => absurd he List.not_mem_nil, fun _ => rfl⟩
  | cons e es ih =>
    unfold scanSlots passed
    by_cases hend : e.first = ENTRY_END
    · rw [if_pos hend, if_pos hend]
      exact ⟨fun _ d hd => absurd hd List.not_mem_nil, fun _ => rfl⟩
    rw [if_neg hend, if_neg hend]
    by_cases hstop : Stops p e
    · rw [if_pos hstop, if_pos hstop]
      exact ⟨fun _ d hd => absurd hd List.not_mem_nil, fun _ => rfl⟩
    · rw [if_neg hstop, if_neg hstop, List.cons.injEq, ih, List.forall_mem_cons]

/-- Slots of which some lost their checksum. -/
def Lowered (slots slots' : List DirEntry) : Prop :=
  List.Forall₂ (fun e e' : DirEntry => e' = e ∨ e' = { e with checksum := 0 }) slots slots'

theorem Lowered.refl (slots : List DirEntry) : Lowered slots slots :=
  List.forall₂_same.mpr fun _ _ => Or.inl rfl

theorem Lowered.trans {a b c : List DirEntry} (h : Lowered a b) (h' : Lowered b c) :
    Lowered a c := by
  induction h generalizing c with
  | nil => exact h'
  | cons hd _ ih =>
    cases h' with
    | cons hd' htl' =>
      refine List.Forall₂.cons ?_ (ih htl')
      rcases hd with rfl | rfl
      · exact hd'
      · rcases hd' with rfl | rfl
        · exact Or.inr rfl
        · exact Or.inr rfl

/-- A checksum that was lost does not come back. -/
theorem Lowered.antisymm {a b : List DirEntry} (h : Lowered a b) (h' : Lowered b a) : b = a := by
  induction h with
  | nil => rfl
  | cons hd _ ih =>
    cases h' with
    | cons hd' htl' =>
      rw [ih htl']
      congr 1
      rcases hd with rfl | rfl
      · rfl
      · rcases hd' with heq | heq
        · exact heq.symm
        · exact heq.symm

theorem lowered_scanSlots : Lowered slots (scanSlots p slots) := by
  induction slots with
  | nil => exact Lowered.refl []
  | cons e es ih =>
    unfold scanSlots
    by_cases hend : e.first = ENTRY_END
    · rw [if_pos hend]
      exact Lowered.refl _
    rw [if_neg hend]
    by_cases hstop : Stops p e
    · rw [if_pos hstop]
      exact Lowered.refl _
    rw [if_neg hstop]
    refine List.Forall₂.cons ?_ ih
    unfold cleaned
    split
    · exact Or.inl rfl
    · exact Or.inr rfl

/-- `_search_handler` over the slots of a cluster. -/
theorem slotLoop_search {name : Name} (i : Nat) :
    slotLoop (searchHandler name) ca i slots none s
      = some ((scanHit (Matches name) slots).isSome, scanSlots (Matches name) slots,
          (scanHit (Matches name) slots).map fun e => { e with rca := UInt32.ofNat ca }, s) := by
  induction slots generalizing i with
  | nil => rfl
  | cons e es ih =>
    unfold slotLoop scanSlots scanHit
    by_cases hend : e.first = ENTRY_END
    · rw [if_pos hend, if_pos hend, if_pos hend]
      rfl
    rw [if_neg hend, if_neg hend, if_neg hend]
    by_cases hstop : Stops (Matches name) e
    · have hmatch := hstop
      obtain ⟨hv, hf, hm⟩ := hmatch
      rw [if_pos hstop, if_pos hstop, searchHandler_hit hv hf hm ⟨ca, i⟩ none s]
      rfl
    · have hmiss : e.Valid → e.first ≠ ENTRY_FREE → Matches name e = false := by
        intro hv hf
        cases hm : Matches name e with
        | false => rfl
        | true => exact absurd ⟨hv, hf, hm⟩ hstop
      rw [if_neg hstop, if_neg hstop, searchHandler_passes name none e hmiss ⟨ca, i⟩ s]
      simp only
      rw [ih (i + 1)]
      rfl

end Scan

/-! ### The walk of a lookup -/

/-- The volume after a scan of the cluster `c`. -/
def Vol.scanned (v : Vol) (m : Mount) (p : DirEntry → Bool) (c : Nat) : Vol :=
  v.setSlots m c (v.raw c) (scanSlots p (v.slots m c))

/-- `entry_iterate` with a handler that looks for an entry with `p`, from a cluster, up to that
entry: the clusters it visits, the entry as `entry_search` hands it out and the volume after the
scans. -/
inductive ScanWalk (m : Mount) (p : DirEntry → Bool) :
    Vol → Nat → List Nat → Option DirEntry → Vol → Prop
  | bad {v : Vol} : ScanWalk m p v FAT_CLUSTER_BAD [] none v
  | hit {v : Vol} {c : Nat} {e : DirEntry} (hc : InVol m c)
      (h : scanHit p (v.slots m c) = some e) :
      ScanWalk m p v c [c] (some (foundAs (c, e))) (v.scanned m p c)
  | last {v : Vol} {c : Nat} (hc : InVol m c) (h : scanHit p (v.slots m c) = none)
      (hend : v.fat c = FAT_CLUSTER_END) : ScanWalk m p v c [c] none (v.scanned m p c)
  | next {v v' : Vol} {c : Nat} {cs : List Nat} {r : Option DirEntry} (hc : InVol m c)
      (h : scanHit p (v.slots m c) = none) (hend : v.fat c ≠ FAT_CLUSTER_END)
      (hrest : ScanWalk m p (v.scanned m p c) (v.fat c) cs r v') : ScanWalk m p v c (c :: cs) r v'

/-- A visit of a walk: the test for the entry that it looks for, and the cluster. -/
abbrev Visit := (DirEntry → Bool) × Nat

/-- The walk over the components of a path, from a directory: the clusters it visits, each with
the test for the name it looks for, the entry it ends at and the volume it leaves. -/
inductive PathWalk (m : Mount) :
    Vol → Nat → List (List UInt8) → List Visit → Option DirEntry → Vol → Prop
  | long {v : Vol} {ca : Nat} {comp : List UInt8} {comps : List (List UInt8)}
      (hlen : 32 ≤ comp.length) : PathWalk m v ca (comp :: comps) [] none v
  | missing {v v' : Vol} {ca : Nat} {comp : List UInt8} {comps : List (List UInt8)}
      {cs : List Nat} (hlen : comp.length < 32)
      (h : ScanWalk m (Matches (nameToFatname comp)) v ca cs none v') :
      PathWalk m v ca (comp :: comps) (cs.map fun c => (Matches (nameToFatname comp), c)) none v'
  | last {v v' : Vol} {ca : Nat} {comp : List UInt8} {cs : List Nat} {e : DirEntry}
      (hlen : comp.length < 32)
      (h : ScanWalk m (Matches (nameToFatname comp)) v ca cs (some e) v') :
      PathWalk m v ca [comp] (cs.map fun c => (Matches (nameToFatname comp), c)) (some e) v'
  | step {v v' v'' : Vol} {ca : Nat} {comp : List UInt8} {comps : List (List UInt8)}
      {cs : List Nat} {e : DirEntry} {ws : List Visit} {r : Option DirEntry}
      (hlen : comp.length < 32) (hmore : comps ≠ [])
      (h : ScanWalk m (Matches (nameToFatname comp)) v ca cs (some e) v')
      (hrest : PathWalk m v' e.dca.toNat comps ws r v'') :
      PathWalk m v ca (comp :: comps)
        (cs.map (fun c => (Matches (nameToFatname comp), c)) ++ ws) r v''

section Run

/-- One cluster of `entry_search`. -/
theorem entryIterate_search (L : Layout m) (h : Shows m s v) (hca : InVol m ca) (name : Name)
    (fuel : Nat) :
    ∃ s', Shows m s' (v.scanned m (Matches name) ca) ∧ s'.contents = s.contents ∧
      entryIterate m (searchHandler name) (fuel + 1) ca none s =
        match scanHit (Matches name) (v.slots m ca) with
        | some e => some (true, some (foundAs (ca, e)), s')
        | none =>
          if v.fat ca ≠ FAT_CLUSTER_END then
            entryIterate m (searchHandler name) fuel (v.fat ca) none s'
          else some (false, none, s') := by
  have hslots : slotsOf (entriesPerCluster m) (unpackMemory (v.raw ca) (decodedLen m))
      = v.slots m ca := rfl
  have hlen : (scanSlots (Matches name) (v.slots m ca)).length = entriesPerCluster m := by
    rw [length_scanSlots]
    exact length_slotsIn _
  obtain ⟨s₁, he₁, hs₁, hk₁⟩ := writeSlots_shows L h hca hlen (h.length_raw hca)
  obtain ⟨s₂, he₂, hs₂, hk₂⟩ := readFat_shows L hs₁ ca
  refine ⟨s₂, hs₂, hk₂.contents.trans hk₁.contents, ?_⟩
  conv_lhs => unfold entryIterate
  rw [readEncodedCluster_shows L h hca]
  simp only [hslots, slotLoop_search, he₁, he₂, Vol.setSlots_fat]
  cases scanHit (Matches name) (v.slots m ca) with
  | some e => simp [foundAs]
  | none => simp

/-- `entry_search` follows the walk. -/
theorem ScanWalk.run (L : Layout m) {name : Name} {cs : List Nat} {r : Option DirEntry}
    (hw : ScanWalk m (Matches name) v ca cs r v') (h : Shows m s v) {fuel : Nat}
    (hfuel : cs.length < fuel) :
    ∃ s', entrySearch m fuel name ca 0 s = some (r, s') ∧ Shows m s' v' ∧
      s'.contents = s.contents := by
  unfold entrySearch
  simp only [if_true, ne_eq, not_true_eq_false, if_false]
  suffices hiter : ∃ s', entryIterate m (searchHandler name) fuel ca none s
      = some (r.isSome, r, s') ∧ Shows m s' v' ∧ s'.contents = s.contents by
    obtain ⟨s', he, hs', hk⟩ := hiter
    refine ⟨s', ?_, hs', hk⟩
    rw [he]
    cases r with
    | none => rfl
    | some e => rfl
  induction hw generalizing s fuel with
  | bad =>
    obtain ⟨fuel, rfl⟩ : ∃ k, fuel = k + 1 := ⟨fuel - 1, by omega⟩
    unfold entryIterate readEncodedCluster
    rw [if_pos rfl]
    obtain ⟨hs', hk⟩ := registerError_shows L h .badClusterError
    exact ⟨_, rfl, hs', hk.contents⟩
  | hit hc hhit =>
    obtain ⟨fuel, rfl⟩ : ∃ k, fuel = k + 1 := ⟨fuel - 1, by omega⟩
    obtain ⟨s', hs', hk, he⟩ := entryIterate_search L h hc name fuel
    rw [he, hhit]
    exact ⟨s', rfl, hs', hk⟩
  | last hc hmiss hend =>
    obtain ⟨fuel, rfl⟩ : ∃ k, fuel = k + 1 := ⟨fuel - 1, by omega⟩
    obtain ⟨s', hs', hk, he⟩ := entryIterate_search L h hc name fuel
    rw [he, hmiss]
    simp only
    rw [if_neg (not_not.mpr hend)]
    exact ⟨s', rfl, hs', hk⟩
  | next hc hmiss hend _ ih =>
    obtain ⟨fuel, rfl⟩ : ∃ k, fuel = k + 1 := ⟨fuel - 1, by omega⟩
    obtain ⟨s₁, hs₁, hk₁, he⟩ := entryIterate_search L h hc name fuel
    rw [List.length_cons] at hfuel
    obtain ⟨s', he', hs', hk'⟩ := ih hs₁ (show _ < fuel by omega)
    rw [he, hmiss]
    simp only
    rw [if_pos hend]
    exact ⟨s', he', hs', hk'.trans hk₁⟩

/-- A component of a path, when nothing is created. -/
theorem pathStep_search {mode : UInt8} (hmode : isCreateMode mode = false) {comp : List UInt8}
    (hlen : comp.length < 32) {fuel : Nat} {r : Option DirEntry}
    (he : entrySearch m fuel (nameToFatname comp) ca 0 s = some (r, s')) (more : Bool) :
    pathStep m fuel mode comp more NO_RCI ca s = some (r, s') := by
  have hcache : getContentEcache NO_RCI s = 0 := rfl
  unfold pathStep
  rw [if_neg (Nat.not_le.mpr hlen)]
  simp only [hcache, he, hmode]
  cases r with
  | none => rfl
  | some e => rfl

/-- The loop over the components follows the walk. -/
theorem PathWalk.run (L : Layout m) {comps : List (List UInt8)} {ws : List Visit}
    {r : Option DirEntry} (mode : UInt8) (hmode : isCreateMode mode = false)
    (hw : PathWalk m v ca comps ws r v') (h : Shows m s v) {fuel : Nat}
    (hfuel : ws.length < fuel) :
    ∃ s', pathLoop m fuel mode comps NO_RCI ca s = some (r, s') ∧ Shows m s' v' ∧
      s'.contents = s.contents := by
  induction hw generalizing s with
  | long hlen =>
    unfold pathLoop pathStep
    rw [if_pos hlen]
    exact ⟨s, rfl, h, rfl⟩
  | missing hlen hscan =>
    rw [List.length_map] at hfuel
    obtain ⟨s', he, hs', hk⟩ := hscan.run L h hfuel
    unfold pathLoop
    rw [pathStep_search hmode hlen he]
    exact ⟨s', rfl, hs', hk⟩
  | last hlen hscan =>
    rw [List.length_map] at hfuel
    obtain ⟨s', he, hs', hk⟩ := hscan.run L h hfuel
    unfold pathLoop
    rw [pathStep_search hmode hlen he]
    exact ⟨s', if_pos rfl, hs', hk⟩
  | step hlen hmore hscan hrest ih =>
    rw [List.length_append, List.length_map] at hfuel
    obtain ⟨s₁, he₁, hs₁, hk₁⟩ := hscan.run L h (show _ < fuel by omega)
    obtain ⟨s', he, hs', hk⟩ := ih hs₁ (by omega)
    unfold pathLoop
    rw [pathStep_search hmode hlen he₁]
    refine ⟨s', ?_, hs', hk.trans hk₁⟩
    show (if _ then _ else _) = _
    rw [if_neg hmore]
    exact he

end Run

/-! ### What the walk leaves -/

/-- The volume after some scans: the links stay, some entries lost their checksum, and every
cluster that was visited holds clean words. -/
structure Scanned (m : Mount) (v v' : Vol) : Prop where
  fat : v'.fat = v.fat
  slots : ∀ c, Lowered (v.slots m c) (v'.slots m c)
  raw : ∀ c, v'.raw c = v.raw c ∨ CleanWords m (v'.raw c)

namespace Scanned

theorem refl (v : Vol) : Scanned m v v := ⟨rfl, fun _ => Lowered.refl _, fun _ => Or.inl rfl⟩

theorem trans (h : Scanned m v v') (h' : Scanned m v' v'') : Scanned m v v'' := by
  refine ⟨h'.fat.trans h.fat, fun c => (h.slots c).trans (h'.slots c), fun c => ?_⟩
  rcases h'.raw c with heq | hclean
  · rw [heq]
    exact h.raw c
  · exact Or.inr hclean

end Scanned

/-- Every cluster of the volume has its bytes. -/
def Sized (m : Mount) (v : Vol) : Prop := ∀ c, InVol m c → (v.raw c).length = m.fi.clusterSize

section Scan

variable {p : DirEntry → Bool} {c : Nat}

@[simp] theorem Vol.scanned_fat : (v.scanned m p c).fat = v.fat := rfl

theorem Vol.scanned_raw_ne {k : Nat} (h : k ≠ c) : (v.scanned m p c).raw k = v.raw k :=
  Vol.setSlots_raw_ne _ _ h

theorem Vol.scanned_raw_self : (v.scanned m p c).raw c = repackCluster m (v.raw c)
    (unpackMemory (v.raw c) (decodedLen m)) (scanSlots p (v.slots m c)) :=
  Vol.setRaw_raw_self v c _

theorem length_scanSlots_slots : (scanSlots p (v.slots m c)).length = entriesPerCluster m := by
  rw [length_scanSlots]
  exact length_slotsIn _

theorem Sized.length_scanned (hz : Sized m v) (hc : InVol m c) :
    ((v.scanned m p c).raw c).length = m.fi.clusterSize := by
  rw [Vol.scanned_raw_self]
  exact length_repackCluster length_scanSlots_slots (hz c hc)

theorem Sized.scanned (hz : Sized m v) (hc : InVol m c) : Sized m (v.scanned m p c) := by
  intro k hk
  by_cases heq : k = c
  · rw [heq]
    exact hz.length_scanned hc
  · rw [Vol.scanned_raw_ne heq]
    exact hz k hk

theorem Sized.slots_scanned (hz : Sized m v) (hc : InVol m c) :
    (v.scanned m p c).slots m c = scanSlots p (v.slots m c) :=
  Vol.slots_setSlots_self length_scanSlots_slots (hz c hc)

/-- A scan that changes no entry encodes the cluster again. -/
theorem Sized.scanned_same (hz : Sized m v) (hc : InVol m c)
    (h : scanSlots p (v.slots m c) = v.slots m c) :
    (v.scanned m p c).raw c = reencode m (v.raw c) := by
  rw [Vol.scanned_raw_self, h]
  exact repackCluster_slotsIn (hz c hc)

/-- The words of a cluster that was scanned are clean. -/
theorem Sized.cleanWords_scanned (L : Layout m) (hz : Sized m v) (hc : InVol m c) :
    CleanWords m ((v.scanned m p c).raw c) := by
  have hround := unpackMemory_packMemory_append (bytesOfSlots (scanSlots p (v.slots m c)) ++
    (unpackMemory (v.raw c) (decodedLen m)).drop (ENTRY_SIZE * entriesPerCluster m)) []
  rw [length_repack_decoded length_scanSlots_slots (hz c hc), List.append_nil] at hround
  have htail : (v.raw c).drop (2 * decodedLen m) = [] :=
    List.drop_of_length_le (by rw [hz c hc, L.two_decodedLen])
  rw [Vol.scanned_raw_self]
  unfold CleanWords decoded repackCluster
  rw [htail, List.append_nil, hround]

theorem Sized.scanned_step (L : Layout m) (hz : Sized m v) (hc : InVol m c) :
    Scanned m v (v.scanned m p c) := by
  refine ⟨rfl, fun k => ?_, fun k => ?_⟩
  · by_cases heq : k = c
    · rw [heq, hz.slots_scanned hc]
      exact lowered_scanSlots
    · rw [Vol.slots_congr (Vol.scanned_raw_ne heq)]
      exact Lowered.refl _
  · by_cases heq : k = c
    · rw [heq]
      exact Or.inr (hz.cleanWords_scanned L hc)
    · exact Or.inl (Vol.scanned_raw_ne heq)

end Scan

/-- A visit of a walk from `v` to `v'`. -/
def Visited (m : Mount) (v v' : Vol) (x : Visit) : Prop :=
  ∃ u, Scanned m v u ∧ Sized m u ∧ InVol m x.2 ∧ Scanned m (u.scanned m x.1 x.2) v'

theorem ScanWalk.scanned (L : Layout m) {p : DirEntry → Bool} {cs : List Nat}
    {r : Option DirEntry} (hw : ScanWalk m p v ca cs r v') (hz : Sized m v) :
    Scanned m v v' ∧ Sized m v' ∧ ∀ c ∈ cs, Visited m v v' (p, c) := by
  induction hw with
  | bad => exact ⟨Scanned.refl _, hz, fun c hc => absurd hc List.not_mem_nil⟩
  | hit hc _ =>
    refine ⟨hz.scanned_step L hc, hz.scanned hc, fun k hk => ?_⟩
    rw [List.mem_singleton.mp hk]
    exact ⟨_, Scanned.refl _, hz, hc, Scanned.refl _⟩
  | last hc _ _ =>
    refine ⟨hz.scanned_step L hc, hz.scanned hc, fun k hk => ?_⟩
    rw [List.mem_singleton.mp hk]
    exact ⟨_, Scanned.refl _, hz, hc, Scanned.refl _⟩
  | next hc _ _ _ ih =>
    obtain ⟨hrest, hz', hvisit⟩ := ih (hz.scanned hc)
    have hstep := hz.scanned_step (p := p) L hc
    refine ⟨hstep.trans hrest, hz', fun k hk => ?_⟩
    rcases List.mem_cons.mp hk with rfl | hk
    · exact ⟨_, Scanned.refl _, hz, hc, hrest⟩
    · obtain ⟨u, hu, hzu, hin, hafter⟩ := hvisit k hk
      exact ⟨u, hstep.trans hu, hzu, hin, hafter⟩

theorem PathWalk.scanned (L : Layout m) {comps : List (List UInt8)} {ws : List Visit}
    {r : Option DirEntry} (hw : PathWalk m v ca comps ws r v') (hz : Sized m v) :
    Scanned m v v' ∧ Sized m v' ∧ ∀ x ∈ ws, Visited m v v' x := by
  induction hw with
  | long _ => exact ⟨Scanned.refl _, hz, fun x hx => absurd hx List.not_mem_nil⟩
  | missing _ hscan =>
    obtain ⟨hall, hz', hvisit⟩ := hscan.scanned L hz
    exact ⟨hall, hz', List.forall_mem_map.mpr hvisit⟩
  | last _ hscan =>
    obtain ⟨hall, hz', hvisit⟩ := hscan.scanned L hz
    exact ⟨hall, hz', List.forall_mem_map.mpr hvisit⟩
  | step _ _ hscan _ ih =>
    obtain ⟨hfirst, hz₁, hvisit₁⟩ := hscan.scanned L hz
    obtain ⟨hrest, hz', hvisit⟩ := ih hz₁
    refine ⟨hfirst.trans hrest, hz', fun x hx => ?_⟩
    rcases List.mem_append.mp hx with hx | hx
    · obtain ⟨c, hc, rfl⟩ := List.mem_map.mp hx
      obtain ⟨u, hu, hzu, hin, hafter⟩ := hvisit₁ c hc
      exact ⟨u, hu, hzu, hin, hafter.trans hrest⟩
    · obtain ⟨u, hu, hzu, hin, hafter⟩ := hvisit x hx
      exact ⟨u, hfirst.trans hu, hzu, hin, hafter⟩

/-! ### Lookups and the stored information -/

/-- The tree with the root `root` holds in `v'` what it held in `v`: the bytes of its files, and
the decoded bytes of its directories. -/
structure SameStored (m : Mount) (root : Nat) (v v' : Vol) : Prop where
  files : ∀ c, FileCluster m v root c → v'.raw c = v.raw c
  dirs : ∀ c, DirCluster m v root c → decoded m (v'.raw c) = decoded m (v.raw c)

/-- A visit that leaves the stored information alone: before the entry it looks for, a cluster of
the tree holds only entries that the validation does not change, and the words of a file are
clean. -/
structure HarmlessVisit (m : Mount) (root : Nat) (v : Vol) (x : Visit) : Prop where
  passes : DirCluster m v root x.2 ∨ FileCluster m v root x.2 →
    ∀ e ∈ passed x.1 (v.slots m x.2), e.Valid ∨ e.checksum = 0
  clean : FileCluster m v root x.2 → CleanWords m (v.raw x.2)

section Stored

variable {root : Nat} {v₀ : Vol} {x : Visit}

theorem SameStored.refl (v : Vol) : SameStored m root v v := ⟨fun _ _ => rfl, fun _ _ => rfl⟩

theorem HarmlessVisit.scan_same (h : HarmlessVisit m root v x)
    (hc : DirCluster m v root x.2 ∨ FileCluster m v root x.2) :
    scanSlots x.1 (v.slots m x.2) = v.slots m x.2 :=
  scanSlots_eq_self_iff.mpr fun e he => cleaned_eq_self_iff.mpr (h.passes hc e he)

/-- A harmless visit changes nothing that is stored. -/
theorem SameStored.visit (L : Layout m) (hu : SameStored m root v₀ v) (hz : Sized m v)
    (hin : InVol m x.2) (h : HarmlessVisit m root v₀ x) :
    SameStored m root v₀ (v.scanned m x.1 x.2) := by
  refine ⟨fun c hc => ?_, fun c hc => ?_⟩
  · by_cases heq : c = x.2
    · rw [heq] at hc ⊢
      have hraw := hu.files x.2 hc
      have hsame := h.scan_same (Or.inr hc)
      rw [← Vol.slots_congr hraw] at hsame
      rw [hz.scanned_same hin hsame, hraw]
      have hlen := hz x.2 hin
      rw [hraw] at hlen
      exact (reencode_eq_self_iff L hlen).mpr (h.clean hc)
    · rw [Vol.scanned_raw_ne heq]
      exact hu.files c hc
  · by_cases heq : c = x.2
    · rw [heq] at hc ⊢
      have hdec := hu.dirs x.2 hc
      have hslots : v.slots m x.2 = v₀.slots m x.2 := slotsIn_of_decoded hdec
      have hsame := h.scan_same (Or.inl hc)
      rw [← hslots] at hsame
      rw [hz.scanned_same hin hsame, decoded_reencode (hz x.2 hin)]
      exact hdec
    · rw [Vol.scanned_raw_ne heq]
      exact hu.dirs c hc

theorem ScanWalk.sameStored (L : Layout m) {p : DirEntry → Bool} {cs : List Nat}
    {r : Option DirEntry} (hw : ScanWalk m p v ca cs r v') (hu : SameStored m root v₀ v)
    (hz : Sized m v) (h : ∀ c ∈ cs, HarmlessVisit m root v₀ (p, c)) :
    SameStored m root v₀ v' := by
  induction hw with
  | bad => exact hu
  | hit hc _ => exact hu.visit L hz hc (h _ List.mem_cons_self)
  | last hc _ _ => exact hu.visit L hz hc (h _ List.mem_cons_self)
  | next hc _ _ _ ih =>
    have hstep := hu.visit L hz hc (h _ List.mem_cons_self)
    exact ih hstep (hz.scanned hc) fun k hk => h k (List.mem_cons_of_mem _ hk)

/-- A walk of harmless visits changes nothing that is stored. -/
theorem PathWalk.sameStored (L : Layout m) {comps : List (List UInt8)} {ws : List Visit}
    {r : Option DirEntry} (hw : PathWalk m v ca comps ws r v') (hu : SameStored m root v₀ v)
    (hz : Sized m v) (h : ∀ x ∈ ws, HarmlessVisit m root v₀ x) : SameStored m root v₀ v' := by
  induction hw with
  | long _ => exact hu
  | missing _ hscan => exact hscan.sameStored L hu hz (List.forall_mem_map.mp h)
  | last _ hscan => exact hscan.sameStored L hu hz (List.forall_mem_map.mp h)
  | step _ _ hscan _ ih =>
    have hfirst : ∀ x ∈ List.map _ _, HarmlessVisit m root v₀ x :=
      fun x hx => h x (List.mem_append_left _ hx)
    exact ih (hscan.sameStored L hu hz (List.forall_mem_map.mp hfirst)) (hscan.scanned L hz).2.1
      fun x hx => h x (List.mem_append_right _ hx)

/-- A visit after which the stored information is the same was harmless. -/
theorem Visited.harmless (L : Layout m) (hv : Visited m v v' x) (h : SameStored m root v v') :
    HarmlessVisit m root v x := by
  obtain ⟨u, hbefore, hz, hin, hafter⟩ := hv
  have hslots := hz.slots_scanned (p := x.1) hin
  refine ⟨fun hc e he => ?_, fun hc => ?_⟩
  · have hsame : v'.slots m x.2 = v.slots m x.2 := by
      rcases hc with hdir | hfile
      · exact slotsIn_of_decoded (h.dirs x.2 hdir)
      · exact Vol.slots_congr (h.files x.2 hfile)
    -- the slots go down from `v` over `u` to `v'`, so they stayed where they were
    have hdown := hafter.slots x.2
    rw [hsame, hslots] at hdown
    have hu : u.slots m x.2 = v.slots m x.2 :=
      (hbefore.slots x.2).antisymm (lowered_scanSlots.trans hdown)
    rw [hu] at hdown
    have hscan := Lowered.antisymm lowered_scanSlots hdown
    exact cleaned_eq_self_iff.mp (scanSlots_eq_self_iff.mp hscan e he)
  · rw [← h.files x.2 hc]
    rcases hafter.raw x.2 with heq | hclean
    · rw [heq]
      exact hz.cleanWords_scanned L hin
    · exact hclean

end Stored

/-! ### `NIFAT32_content_exists` and `NIFAT32_open_content` -/

/-- The components that a lookup of the path goes through. -/
def pathComponents (path : List UInt8) : List (List UInt8) := splitPath (path.takeWhile (· ≠ 0))

/-- The walk of a lookup ends, and every cluster it visits is one of the volume, or bad. -/
def LookupEnds (m : Mount) (path : List UInt8) (v : Vol) : Prop :=
  ∃ ws r v', PathWalk m v m.fi.extRootCluster (pathComponents path) ws r v'

/-- The walk of a lookup ends, and all its visits are harmless. -/
def LookupHarmless (m : Mount) (path : List UInt8) (v : Vol) : Prop :=
  ∃ ws r v', PathWalk m v m.fi.extRootCluster (pathComponents path) ws r v' ∧
    ∀ x ∈ ws, HarmlessVisit m m.fi.extRootCluster v x

/-- Both lookups of a path, the second in every mode that does not create, complete and leave what
is stored. -/
def LooksOnly (m : Mount) (path : List UInt8) (s : FS) (v : Vol) : Prop :=
  Ensures (fun fuel => contentExists m fuel path s)
    (fun r => SameStored m m.fi.extRootCluster v (view m r.2)) ∧
  ∀ mode, isCreateMode mode = false →
    Ensures (fun fuel => openContent m fuel NO_RCI (some path) mode s)
      fun r => SameStored m m.fi.extRootCluster v (view m r.2)

section Main

variable {path : List UInt8}

theorem Shows.sized (h : Shows m s v) : Sized m v := fun _ hc => h.length_raw hc

theorem setContent_shows {i : Nat} {c : Content} (h : Shows m s v) : Shows m (s.setContent i c) v :=
  h.congr rfl rfl

theorem allocCi_shows (h : Shows m s v) : Shows m (allocCi s).2 v := by
  unfold allocCi
  split
  · exact h
  · exact setContent_shows h

theorem setupContent_shows {ci : Int} {isDir : Bool} {name : List UInt8} {e : DirEntry}
    {mode : UInt8} (h : Shows m s v) : Shows m (setupContent ci isDir name e mode s) v := by
  unfold setupContent
  split
  · exact setContent_shows h
  · exact h

theorem allocCi_cases (s : FS) : (allocCi s = (-1, s)) ∨
    ∃ i : Nat, (allocCi s).1 = (i : Int) ∧ ((allocCi s).2.contents i).indexRoot = NO_ECACHE := by
  unfold allocCi
  split
  · exact Or.inl rfl
  · rename_i i hi
    refine Or.inr ⟨i, rfl, ?_⟩
    unfold FS.setContent
    simp

/-- `destroy_content` of a handle without an index. -/
theorem destroyContent_shows (fuel : Nat) {ci : Int} (h : Shows m s v)
    (hroot : (s.contents ci.toNat).indexRoot = NO_ECACHE) :
    ∃ r s', destroyContent fuel ci s = some (r, s') ∧ Shows m s' v ∧ s'.allocs = s.allocs := by
  unfold destroyContent
  split
  · simp only [hroot, if_true]
    exact ⟨_, _, rfl, setContent_shows h, rfl⟩
  · exact ⟨_, _, rfl, h, rfl⟩

/-- `NIFAT32_content_exists` leaves the volume of its walk. -/
theorem contentExists_walk (L : Layout m) {ws : List Visit} {r : Option DirEntry}
    (hw : PathWalk m v m.fi.extRootCluster (pathComponents path) ws r v') (h : Shows m s v)
    {fuel : Nat} (hfuel : ws.length < fuel) :
    ∃ b s', contentExists m fuel path s = some (b, s') ∧ Shows m s' v' := by
  obtain ⟨s', he, hs', -⟩ := hw.run L (R_MODE ||| W_MODE) (by decide) h hfuel
  have hget : getClusterByPath m fuel path (R_MODE ||| W_MODE) NO_RCI s = some (r, s') := he
  unfold contentExists
  rw [hget]
  exact ⟨_, s', rfl, hs'⟩

/-- `NIFAT32_open_content` leaves it as well, when there is a free slot for a handle. -/
theorem openContent_walk (L : Layout m) {mode : UInt8} (hmode : isCreateMode mode = false)
    {ws : List Visit} {r : Option DirEntry}
    (hw : PathWalk m v m.fi.extRootCluster (pathComponents path) ws r v') (h : Shows m s v)
    {fuel : Nat} (hfuel : ws.length < fuel) :
    ∃ ci s', openContent m fuel NO_RCI (some path) mode s = some (ci, s') ∧
      (Shows m s' v' ∨ Shows m s' v) := by
  have halloc := allocCi_shows h
  rcases allocCi_cases s with hfull | ⟨i, hi, hroot⟩
  · unfold openContent
    simp only [hfull]
    exact ⟨-1, _, rfl, Or.inr (registerError_shows L h .ctableFullError).1⟩
  · obtain ⟨s₁, he, hs₁, hk⟩ := hw.run L mode hmode halloc hfuel
    have hget : getClusterByPath m fuel path mode NO_RCI (allocCi s).2 = some (r, s₁) := he
    have hci : ¬ (allocCi s).1 < 0 := by omega
    unfold openContent
    simp only
    rw [if_neg hci]
    simp only [hget]
    cases r.filter fun e => e.dca.toNat ≠ FAT_CLUSTER_BAD with
    | some e => exact ⟨_, _, rfl, Or.inl (setupContent_shows hs₁)⟩
    | none =>
      obtain ⟨hs₂, hk₂⟩ := registerError_shows L hs₁ .entryPathNfoundError
      have hroot₂ : ((registerError m .entryPathNfoundError s₁).contents
          (allocCi s).1.toNat).indexRoot = NO_ECACHE := by
        rw [hk₂.contents, hk, hi, Int.toNat_natCast]
        exact hroot
      obtain ⟨b, s', hd, hs', -⟩ := destroyContent_shows fuel hs₂ hroot₂
      simp only [hd]
      exact ⟨-2, s', rfl, Or.inl hs'⟩

/-- A lookup that leaves what is stored has a walk that does. -/
theorem LooksOnly.sameStored (L : Layout m) (h : Shows m s v) {ws : List Visit}
    {r : Option DirEntry} (hw : PathWalk m v m.fi.extRootCluster (pathComponents path) ws r v')
    (hlooks : LooksOnly m path s v) : SameStored m m.fi.extRootCluster v v' := by
  obtain ⟨⟨n, hn⟩, -⟩ := hlooks
  have hfuel : ws.length < max n (ws.length + 1) := by omega
  obtain ⟨b, s', he, hs'⟩ := contentExists_walk L hw h hfuel
  obtain ⟨out, hrun, hsame⟩ := hn (max n (ws.length + 1)) (Nat.le_max_left _ _)
  have hout : (b, s') = out := Option.some.inj (he.symm.trans hrun)
  have hview : SameStored m m.fi.extRootCluster v (view m out.2) := hsame
  rw [← hout, hs'.view_eq] at hview
  exact hview

end Main

/-! ### A directory with a damaged entry -/

/-- The entry with a wrong checksum that is not zero. -/
def misSummed (e : DirEntry) : DirEntry :=
  { e with checksum := if e.computedChecksum = 1 then 2 else 1 }

theorem misSummed_not_valid (e : DirEntry) : ¬ (misSummed e).Valid := by
  intro h
  have hsum : (misSummed e).computedChecksum = e.computedChecksum := rfl
  have hc : (misSummed e).checksum = if e.computedChecksum = 1 then 2 else 1 := rfl
  unfold DirEntry.Valid at h
  rw [hsum, hc] at h
  by_cases h1 : e.computedChecksum = 1
  · rw [if_pos h1, h1] at h
    exact absurd h (by decide)
  · rw [if_neg h1] at h
    exact h1 h

theorem misSummed_checksum (e : DirEntry) : (misSummed e).checksum ≠ 0 := by
  show (if e.computedChecksum = 1 then (2 : UInt32) else 1) ≠ 0
  split <;> decide

/-- The small volume whose root directory holds the entry with a wrong checksum. -/
def damagedVol (e : DirEntry) : Vol :=
  smallVol.setSlots (smallMount 0) 2 (smallVol.raw 2) (misSummed e :: List.replicate 3 zeroSlot)

section Damaged

variable {e : DirEntry}

theorem damagedVol_slots : (damagedVol e).slots (smallMount 0) 2
    = misSummed e :: List.replicate 3 zeroSlot :=
  Vol.slots_setSlots_self rfl List.length_replicate

theorem damagedVol_stored (e : DirEntry) (contents : Nat → Content) :
    Stored (smallMount 0) contents (damagedVol e) :=
  (smallVol_stored contents).setRaw (smallMount_layout (Nat.zero_le 1)) (by decide)
    (length_repackCluster rfl List.length_replicate)

/-- The lookup of a name passes over the damaged entry to the end of the root directory, and
leaves its checksum at zero. -/
theorem damagedVol_walk (hend : e.first ≠ ENTRY_END) (path : List UInt8) {comp : List UInt8}
    (hpath : pathComponents path = [comp]) (hlen : comp.length < 32) (hs : Shows (smallMount 0) s
      (damagedVol e)) :
    ∃ ws r v', PathWalk (smallMount 0) (damagedVol e) 2 (pathComponents path) ws r v' ∧
      ¬ SameStored (smallMount 0) 2 (damagedVol e) v' := by
  have hstop : ¬ Stops (Matches (nameToFatname comp)) (misSummed e) :=
    fun h => misSummed_not_valid e h.1
  have hlast : (misSummed e).first ≠ ENTRY_END := hend
  have hmiss : scanHit (Matches (nameToFatname comp)) ((damagedVol e).slots (smallMount 0) 2)
      = none := by
    rw [damagedVol_slots]
    unfold scanHit
    rw [if_neg hlast, if_neg hstop]
    rfl
  have hwalk := ScanWalk.last (m := smallMount 0) (by decide) hmiss rfl
  rw [hpath]
  refine ⟨_, none, _, PathWalk.missing hlen hwalk, fun hsame => ?_⟩
  have hslots := slotsIn_of_decoded (hsame.dirs 2 DirCluster.root)
  have hscan : scanSlots (Matches (nameToFatname comp)) ((damagedVol e).slots (smallMount 0) 2)
      = (damagedVol e).slots (smallMount 0) 2 :=
        (hs.sized.slots_scanned (by decide)).symm.trans hslots
  have hpassed : misSummed e ∈ passed (Matches (nameToFatname comp))
      ((damagedVol e).slots (smallMount 0) 2) := by
    rw [damagedVol_slots]
    unfold passed
    rw [if_neg hlast, if_neg hstop]
    exact List.mem_cons_self
  rcases cleaned_eq_self_iff.mp (scanSlots_eq_self_iff.mp hscan _ hpassed) with hv | h0
  · exact misSummed_not_valid e hv
  · exact misSummed_checksum e h0

end Damaged

end NiFat32
