import NiFat32.Proofs.Handles

/-!
# `Proofs.Create`: the walk that adds components

`_get_cluster_by_path` adds an entry for every component that it does not find. `Route` is a path
whose components are all there, and `Missing` a directory in which the next component is not.
`create_step` is the branch that adds one component: it ends the walk without a change, or the
directory holds the new entry (`Added`). `create_run` is the walk over all missing components,
and `Walked` what it leaves behind.
-/

set_option autoImplicit false

namespace NiFat32

variable {m : Mount} {s s' : FS} {v v' v'' : Vol} {ca dir : Nat} {cs S : List Nat}
  {comp : List UInt8} {comps : List (List UInt8)}

/-! ### Paths whose components are there -/

/-- From the directory at `ca` every component names the first entry that matches in the content
of the one before it. The directories have the clusters `S`, and no two share one. The path ends
at the content with the first cluster `dir`. -/
inductive Route (m : Mount) (v : Vol) : Nat → List (List UInt8) → List Nat → Nat → Prop
  | here (ca : Nat) : Route m v ca [] [] ca
  | step {ca dir : Nat} {comp : List UInt8} {comps : List (List UInt8)} {cs S : List Nat}
      {x : Nat × DirEntry} (hlen : comp.length < 32) (hc : HasChain m v ca cs)
      (hs : SoundDir m v cs) (hx : v.first m cs (Matches (nameToFatname comp)) = some x)
      (hrest : Route m v x.2.dca.toNat comps S dir) (hapart : cs.Disjoint S) :
      Route m v ca (comp :: comps) (cs ++ S) dir

theorem SoundDir.congr (h : SoundDir m v cs) (hraw : ∀ c ∈ cs, v'.raw c = v.raw c) :
    SoundDir m v' cs := fun c hc => by
  rw [Vol.slots_congr (hraw c hc)]
  exact h c hc

theorem Vol.first_congr_raw {p : DirEntry → Bool} (hraw : ∀ c ∈ cs, v'.raw c = v.raw c) :
    v'.first m cs p = v.first m cs p :=
  Vol.first_congr (Vol.entries_congr fun c hc => by
    show NiFat32.live (v'.slots m c) = NiFat32.live (v.slots m c)
    rw [Vol.slots_congr (hraw c hc)])

namespace Route

/-- A route depends on the clusters of its directories only. -/
theorem frame (h : Route m v ca comps S dir) (hfat : ∀ c ∈ S, v'.fat c = v.fat c)
    (hraw : ∀ c ∈ S, v'.raw c = v.raw c) : Route m v' ca comps S dir := by
  induction h with
  | here ca => exact .here ca
  | step hlen hc hs hx _ hapart ih =>
    have hl : ∀ c ∈ _, v'.raw c = v.raw c := fun c hm => hraw c (List.mem_append_left _ hm)
    refine .step hlen (hc.congr fun c hm => hfat c (List.mem_append_left _ hm)) (hs.congr hl) ?_
      (ih (fun c hm => hfat c (List.mem_append_right _ hm))
        fun c hm => hraw c (List.mem_append_right _ hm)) hapart
    rw [Vol.first_congr_raw hl]
    exact hx

/-- The directories of a route own no free cluster. -/
theorem not_free (L : Layout m) (h : Route m v ca comps S dir) :
    ∀ c ∈ S, v.fat c ≠ FAT_CLUSTER_FREE := by
  induction h with
  | here ca => exact fun c hc => absurd hc List.not_mem_nil
  | step hlen hc hs hx hrest hapart ih =>
    intro c hm
    cases List.mem_append.mp hm with
    | inl hm => exact hc.not_free L hm
    | inr hm => exact ih c hm

theorem append {comps' : List (List UInt8)} {S' : List Nat} {d : Nat}
    (h : Route m v ca comps S dir) (h' : Route m v dir comps' S' d) (hapart : S.Disjoint S') :
    Route m v ca (comps ++ comps') (S ++ S') d := by
  induction h with
  | here ca => exact h'
  | step hlen hc hs hx hrest hdisj ih =>
    rw [List.disjoint_append_left] at hapart
    have htail := ih h' hapart.2
    rw [List.append_assoc]
    exact .step hlen hc hs hx htail (List.disjoint_append_right.mpr ⟨hdisj, hapart.1⟩)

end Route

/-- A search that finds nothing leaves the view of the directory. -/
theorem entrySearch_none (L : Layout m) {fuel : Nat} (hfuel : cs.length ≤ fuel)
    (hc : HasChain m v ca cs) (h : Shows m s v) (hs : SoundDir m v cs) {name : Name}
    (hnone : v.first m cs (Matches name) = none) :
    ∃ s' v', entrySearch m fuel name ca 0 s = some (none, s') ∧ Shows m s' v' ∧ Keeps [] s s' ∧
      SameView m v v' cs := by
  obtain ⟨s', v', he, hs', hk, hview⟩ := walk_none L hfuel hc h hs
    (searchHandler_passes name none) hnone
  refine ⟨s', v', ?_, hs', hk, hview⟩
  unfold entrySearch
  simp only [if_true, ne_eq, not_true_eq_false, if_false, he]
  rfl

/-! ### The steps of the walk -/

/-- One step of the walk over the components of a path: the components behind it, the directory
and the state before it, the entry that it ends at and the state after it. -/
structure Move where
  rest : List (List UInt8)
  active : Nat
  before : FS
  entry : DirEntry
  after : FS

/-- The steps of the walk over the components, from the directory `active` on. -/
inductive Moves (m : Mount) (fuel : Nat) (mode : UInt8) :
    List (List UInt8) → Int → Nat → FS → Move → Prop
  | here {comp : List UInt8} {comps : List (List UInt8)} {ci : Int} {active : Nat} {s s' : FS}
      {e : DirEntry} (he : pathStep m fuel mode comp (comps ≠ []) ci active s = some (some e, s')) :
      Moves m fuel mode (comp :: comps) ci active s ⟨comps, active, s, e, s'⟩
  | next {comp : List UInt8} {comps : List (List UInt8)} {ci : Int} {active : Nat} {s s' : FS}
      {e : DirEntry} {x : Move}
      (he : pathStep m fuel mode comp (comps ≠ []) ci active s = some (some e, s'))
      (hx : Moves m fuel mode comps NO_RCI e.dca.toNat s' x) :
      Moves m fuel mode (comp :: comps) ci active s x

/-- The step took the first cluster of its entry from the free ones. -/
def Move.Makes (m : Mount) (x : Move) : Prop :=
  (view m x.before).fat x.entry.dca.toNat = FAT_CLUSTER_FREE ∧
  (view m x.after).fat x.entry.dca.toNat ≠ FAT_CLUSTER_FREE

/-- The step made a content of one cluster, and left its bytes as they were. -/
structure Move.Fresh (m : Mount) (x : Move) : Prop where
  makes : x.Makes m
  inVol : InVol m x.entry.dca.toNat
  last : (view m x.after).fat x.entry.dca.toNat = FAT_CLUSTER_END
  raw : (view m x.after).raw x.entry.dca.toNat = (view m x.before).raw x.entry.dca.toNat

section Loop

variable {fuel : Nat} {mode : UInt8} {ci : Int}

/-- The loop ends with an invalid path. -/
theorem pathLoop_stop (he : pathStep m fuel mode comp (comps ≠ []) ci ca s = some (none, s')) :
    pathLoop m fuel mode (comp :: comps) ci ca s = some (none, s') := by
  unfold pathLoop
  rw [he]

/-- The loop goes on behind a component. -/
theorem pathLoop_go {e : DirEntry}
    (he : pathStep m fuel mode comp (comps ≠ []) ci ca s = some (some e, s')) :
    pathLoop m fuel mode (comp :: comps) ci ca s =
      if comps = [] then some (some e, s')
      else pathLoop m fuel mode comps NO_RCI e.dca.toNat s' := by
  conv => lhs; unfold pathLoop
  rw [he]

end Loop

/-- A component that is there. -/
theorem pathStep_found {mode : UInt8} {fuel : Nat} {e : DirEntry} (hlen : comp.length < 32)
    (he : entrySearch m fuel (nameToFatname comp) ca 0 s = some (some e, s')) (more : Bool) :
    pathStep m fuel mode comp more NO_RCI ca s = some (some e, s') := by
  have hcache : getContentEcache NO_RCI s = 0 := rfl
  unfold pathStep
  rw [if_neg (Nat.not_le.mpr hlen)]
  simp only [hcache, he]

/-- The walk over the components of a route, in every mode: it goes on behind them, or ends at
the last of them. -/
theorem Route.run (L : Layout m) (hr : Route m v ca comps S dir) (h : Shows m s v) {fuel : Nat}
    (hfuel : m.fi.totalClusters ≤ fuel) :
    ∃ s' v', Shows m s' v' ∧ Keeps [] s s' ∧ v'.fat = v.fat ∧ (∀ k, k ∉ S → v'.raw k = v.raw k) ∧
      Route m v' ca comps S dir ∧ (comps = [] → s' = s) ∧ ∀ mode,
        (∀ rest, rest ≠ [] → pathLoop m fuel mode (comps ++ rest) NO_RCI ca s
          = pathLoop m fuel mode rest NO_RCI dir s') ∧
        (comps ≠ [] → ∃ e, pathLoop m fuel mode comps NO_RCI ca s = some (some e, s') ∧
          e.dca.toNat = dir) ∧
        ∀ rest x, Moves m fuel mode rest NO_RCI dir s' x →
          Moves m fuel mode (comps ++ rest) NO_RCI ca s x := by
  induction comps generalizing ca S s v with
  | nil =>
    cases hr with
    | here ca =>
      exact ⟨s, v, h, Keeps.refl s, rfl, fun _ _ => rfl, .here _, fun _ => rfl, fun mode =>
        ⟨fun _ _ => rfl, fun hne => absurd rfl hne, fun _ _ hx => hx⟩⟩
  | cons comp comps ih =>
    cases hr with
    | @step _ _ _ _ cs S x hlen hc hs hx hrest hapart =>
    obtain ⟨s₁, v₁, he₁, hs₁, hk₁, hsame⟩ := entrySearch_shows L
      (Nat.le_trans (hc.length_le L) hfuel) hc h hs (nameToFatname comp)
    rw [hx] at he₁
    have hrest₁ : Route m v₁ x.2.dca.toNat comps S dir :=
      hrest.frame (fun c _ => by rw [hsame.fat]) fun c hm =>
        hsame.raw c fun hm' => hapart hm' hm
    obtain ⟨s₂, v₂, hs₂, hk₂, hfat₂, hraw₂, hr₂, hnil, hrun⟩ := ih hrest₁ hs₁
    have hcs : ∀ c ∈ cs, v₂.raw c = v₁.raw c := fun c hm => hraw₂ c (hapart hm)
    have hc₂ : HasChain m v₂ ca cs := hc.congr fun c _ => by rw [hfat₂, hsame.fat]
    have hx₂ : v₂.first m cs (Matches (nameToFatname comp)) = some x := by
      rw [Vol.first_congr_raw hcs, Vol.first_congr hsame.entries, hx]
    have hloop : ∀ mode l, pathLoop m fuel mode (comp :: l) NO_RCI ca s
        = if l = [] then some (some (foundAs x), s₁)
          else pathLoop m fuel mode l NO_RCI x.2.dca.toNat s₁ := fun mode l =>
      pathLoop_go (pathStep_found hlen he₁ _)
    refine ⟨s₂, v₂, hs₂, hk₁.nil_trans hk₂, hfat₂.trans hsame.fat, fun k hk => ?_,
      .step hlen hc₂ (hsame.sound.congr hcs) hx₂ hr₂ hapart,
      fun heq => absurd heq (List.cons_ne_nil _ _), fun mode => ⟨fun rest hne => ?_, fun _ => ?_,
        fun rest y hy => .next (pathStep_found hlen he₁ _) ((hrun mode).2.2 rest y hy)⟩⟩
    · rw [List.mem_append, not_or] at hk
      rw [hraw₂ k hk.2, hsame.raw k hk.1]
    · have hne' : comps ++ rest ≠ [] := by simp [hne]
      rw [List.cons_append, hloop, if_neg hne']
      exact (hrun mode).1 rest hne
    · rw [hloop]
      by_cases hlast : comps = []
      · subst hlast
        cases hr₂ with
        | here => exact ⟨foundAs x, by rw [hnil rfl]; rfl, rfl⟩
      · rw [if_neg hlast]
        exact (hrun mode).2.1 hlast

/-- A step of the walk that makes a content is behind the components that are there. -/
theorem Route.makes_behind (L : Layout m) (hr : Route m v ca comps S dir) (h : Shows m s v)
    {fuel : Nat} (hfuel : m.fi.totalClusters ≤ fuel) {mode : UInt8} {rest : List (List UInt8)}
    {x : Move} (hx : Moves m fuel mode (comps ++ rest) NO_RCI ca s x) (hmakes : x.Makes m) :
    ∃ s', Moves m fuel mode rest NO_RCI dir s' x := by
  induction comps generalizing ca S s v with
  | nil =>
    cases hr with
    | here ca => exact ⟨s, hx⟩
  | cons comp comps ih =>
    cases hr with
    | @step _ _ _ _ cs S y hlen hc hs hy hrest hapart =>
    obtain ⟨s₁, v₁, he₁, hs₁, hk₁, hsame⟩ := entrySearch_shows L
      (Nat.le_trans (hc.length_le L) hfuel) hc h hs (nameToFatname comp)
    rw [hy] at he₁
    have hstep : ∀ more, pathStep m fuel mode comp more NO_RCI ca s
        = some (some (foundAs y), s₁) := pathStep_found hlen he₁
    cases hx with
    | here he =>
      -- the entry was there, and a search leaves the table
      rw [hstep] at he
      obtain ⟨hentry, rfl⟩ := Prod.mk.inj (Option.some.inj he)
      obtain rfl := Option.some.inj hentry
      have hsame' : (view m s₁).fat = (view m s).fat := by
        rw [hs₁.view_eq, h.view_eq, hsame.fat]
      exact absurd hmakes.1 (hsame' ▸ hmakes.2)
    | next he hx =>
      rw [hstep] at he
      obtain ⟨hentry, rfl⟩ := Prod.mk.inj (Option.some.inj he)
      obtain rfl := Option.some.inj hentry
      exact ih (hrest.frame (fun c _ => by rw [hsame.fat]) fun c hm =>
        hsame.raw c fun hm' => hapart hm' hm) hs₁ hx

/-! ### One component that is added -/

/-- A slot to take is one that a walk takes for a hole, or one behind the end. -/
theorem any_addable_eq_false (slots : List DirEntry) : slots.any addable = false ↔
    none ∉ scan slots ∧ (scan slots).length = slots.length := by
  induction slots with
  | nil => exact ⟨fun _ => ⟨List.not_mem_nil, rfl⟩, fun _ => rfl⟩
  | cons e es ih =>
    rw [List.any_cons, Bool.or_eq_false_iff, ih, addable_eq_false]
    by_cases hend : e.first = ENTRY_END
    · have hscan : scan (e :: es) = [] := by
        unfold scan
        rw [visible_cons_end hend]
        rfl
      rw [hscan]
      simp [hend]
    · have hscan : scan (e :: es) = slotView e :: scan es := by
        unfold scan
        rw [visible_cons hend]
        rfl
      rw [hscan, List.mem_cons, List.length_cons, List.length_cons]
      by_cases hl : e.Valid ∧ e.first ≠ ENTRY_FREE
      · rw [slotView_live hl.1 hl.2]
        simp [hl, hend]
      · rw [slotView_hole hl]
        simp [hl]

/-- Walks do not change which cluster `entry_add` takes. -/
theorem SameView.addCluster {ds : List Nat} (h : SameView m v v' cs) :
    v'.addCluster m ds = v.addCluster m ds := by
  unfold Vol.addCluster
  congr 1
  funext c
  have hlen : (v'.slots m c).length = (v.slots m c).length := by
    rw [show (v'.slots m c).length = entriesPerCluster m from length_slotsIn _]
    exact (length_slotsIn _).symm
  have hscan : NiFat32.scan (v'.slots m c) = NiFat32.scan (v.slots m c) := h.scan c
  rw [Bool.eq_iff_iff, ← not_iff_not, Bool.not_eq_true, Bool.not_eq_true, any_addable_eq_false,
    any_addable_eq_false, hscan, hlen]

/-- The cluster that `alloc_cluster` gives for a new content. -/
def pickContent (m : Mount) (s : FS) : Nat := (allocNext m s).1

/-- The cluster that it gives next, for the full directory with the clusters `cs`. -/
def pickGrowth (m : Mount) (cs : List Nat) (s : FS) : Nat :=
  (allocNext m (readLinks m cs (setClusterEnd m (pickContent m s) (allocNext m s).2).2)).1

/-- There is a cluster for the content, and then none for the directory. -/
def OneLeft (m : Mount) (cs : List Nat) (s : FS) : Prop :=
  pickContent m s ≠ FAT_CLUSTER_BAD ∧ pickGrowth m cs s = FAT_CLUSTER_BAD

/-- The cluster for the directory was free. -/
theorem pickGrowth_free (L : Layout m) (h : Shows m s v)
    (hne : pickGrowth m cs s ≠ FAT_CLUSTER_BAD) :
    InVol m (pickGrowth m cs s) ∧ v.fat (pickGrowth m cs s) = FAT_CLUSTER_FREE := by
  obtain ⟨n, s₁, he₁, ha, -⟩ := allocNext_shows L h
  have hpick : pickGrowth m cs s = (allocNext m (readLinks m cs (setClusterEnd m n s₁).2)).1 := by
    unfold pickGrowth pickContent
    rw [he₁]
  rw [hpick] at hne ⊢
  cases ha with
  | inl hbad =>
    obtain ⟨rfl, hs₁⟩ := hbad
    obtain ⟨s₂, he₂, hs₂, -⟩ := writeFat_outside L hs₁ L.not_inVol_bad FAT_CLUSTER_END
    have he : setClusterEnd m FAT_CLUSTER_BAD s₁ = (false, s₂) := he₂
    rw [he] at hne ⊢
    exact allocNext_free L (readLinks_shows L hs₂ cs) hne
  | inr hok =>
    obtain ⟨hn, hnfree, hs₁⟩ := hok
    obtain ⟨s₂, he₂, hs₂, -⟩ := setClusterEnd_shows L hs₁ hn
    rw [Vol.setFat_setFat] at hs₂
    rw [he₂] at hne ⊢
    obtain ⟨hin, hfree⟩ := allocNext_free L (readLinks_shows L hs₂ cs) hne
    refine ⟨hin, ?_⟩
    by_cases heq : (allocNext m (readLinks m cs s₂)).1 = n
    · rw [heq]
      exact hnfree
    · rwa [Vol.setFat_fat_ne _ _ heq] at hfree

/-- What the creation branch did in the directory with the clusters `cs`, under the name
`fatname`: nothing, for want of a cluster; nothing, for want of a slot; or it added the entry `e`
of the new content `n`. -/
inductive CreateStep (m : Mount) (s : FS) (v : Vol) (ca : Nat) (cs : List Nat) (fatname : Name) :
    Option DirEntry → FS → Vol → Prop
  | noCluster {s' : FS} (hs : Shows m s' v) (hk : Keeps [FAT_CLUSTER_BAD] s s')
      (hbad : pickContent m s = FAT_CLUSTER_BAD) : CreateStep m s v ca cs fatname none s' v
  | noSlot {s' : FS} {e : DirEntry} (hs : Shows m s' v)
      (hk : Keeps [e.dca.toNat, FAT_CLUSTER_BAD] s s') (hin : InVol m e.dca.toNat)
      (hfree : v.fat e.dca.toNat = FAT_CLUSTER_FREE) (hfull : v.addCluster m cs = none)
      (hone : OneLeft m cs s) : CreateStep m s v ca cs fatname (some e) s' v
  | added {s' : FS} {v' : Vol} {e : DirEntry} {c : Nat} {cs' al : List Nat} (hs : Shows m s' v')
      (hk : Keeps (e.dca.toNat :: al) s s') (hal : al ⊆ cs') (hin : InVol m e.dca.toNat)
      (hfree : v.fat e.dca.toNat = FAT_CLUSTER_FREE)
      (hname : e.fileName = fatname ∧ e.nameHash = hashName fatname)
      (hroom : ¬ (v.addCluster m cs = none ∧ OneLeft m cs s))
      (hi : Inserted m (v.setFat e.dca.toNat FAT_CLUSTER_END) v' ca cs cs' c e) :
      CreateStep m s v ca cs fatname (some e) s' v'

/-- The cluster `n` was taken for a new content, and the chain of a directory is as it was. -/
structure Picked (m : Mount) (s : FS) (v : Vol) (ca : Nat) (cs : List Nat) (n : Nat)
    (s₁ s₂ : FS) : Prop where
  alloc : allocNext m s = (n, s₁)
  marked : setClusterEnd m n s₁ = (true, s₂)
  inVol : InVol m n
  free : v.fat n = FAT_CLUSTER_FREE
  shows : Shows m s₂ (v.setFat n FAT_CLUSTER_END)
  keeps : Keeps [n] s s₂
  chain : HasChain m (v.setFat n FAT_CLUSTER_END) ca cs
  growth : pickGrowth m cs s = (allocNext m (readLinks m cs s₂)).1

/-- A creation takes a cluster for the content, or there is none. -/
theorem picked (L : Layout m) (hc : HasChain m v ca cs) (h : Shows m s v) :
    (∃ s₁ s₂, allocNext m s = (FAT_CLUSTER_BAD, s₁) ∧
      setClusterEnd m FAT_CLUSTER_BAD s₁ = (false, s₂) ∧ Shows m s₂ v ∧
      Keeps [FAT_CLUSTER_BAD] s s₂) ∨
    ∃ n s₁ s₂, Picked m s v ca cs n s₁ s₂ := by
  obtain ⟨n, s₁, he₁, ha, hk₁⟩ := allocNext_shows L h
  cases ha with
  | inl hbad =>
    obtain ⟨rfl, hs₁⟩ := hbad
    obtain ⟨s₂, he₂, hs₂, hk₂⟩ := writeFat_outside L hs₁ L.not_inVol_bad FAT_CLUSTER_END
    exact Or.inl ⟨s₁, s₂, he₁, he₂, hs₂, hk₁.trans_nil hk₂⟩
  | inr hok =>
    obtain ⟨hn, hfree, hs₁⟩ := hok
    obtain ⟨s₂, he₂, hs₂, hk₂⟩ := setClusterEnd_shows L hs₁ hn
    rw [Vol.setFat_setFat] at hs₂
    have hne : ∀ k ∈ cs, k ≠ n := fun k hk heq => hc.not_free L hk (heq ▸ hfree)
    refine Or.inr ⟨n, s₁, s₂, he₁, he₂, hn, hfree, hs₂, hk₁.trans_nil hk₂,
      hc.congr fun k hk => v.setFat_fat_ne _ (hne k hk), ?_⟩
    unfold pickGrowth pickContent
    rw [he₁, he₂]

/-- The creation branch of one component. -/
theorem createOnPath_shows (L : Layout m) {fuel : Nat} (hfuel : cs.length + 1 ≤ fuel)
    (hc : HasChain m v ca cs) (h : Shows m s v) (hs : SoundDir m v cs) {fatname : Name}
    (hfree : Name.first fatname ≠ ENTRY_FREE) (hlast : Name.first fatname ≠ ENTRY_END)
    (hext : v.addCluster m cs = none → pickGrowth m cs s ≠ FAT_CLUSTER_BAD →
      StartsFree m v (pickGrowth m cs s)) (isDir : Bool) :
    ∃ r s' v', createOnPath m fuel fatname isDir ca 0 s = some (r, s') ∧
      CreateStep m s v ca cs fatname r s' v' := by
  unfold createOnPath
  cases picked L hc h with
  | inl hbad =>
    obtain ⟨s₁, s₂, he₁, he₂, hs₂, hk₂⟩ := hbad
    have hr := registerError_shows L hs₂ .setClusterEndError
    simp only [he₁, he₂]
    exact ⟨none, _, v, rfl, .noCluster hr.1 (hk₂.trans_nil hr.2) (congrArg Prod.fst he₁)⟩
  | inr hok =>
    obtain ⟨n, s₁, s₂, he₁, he₂, hn, hnfree, hs₂, hk₂, hchain, hgrow⟩ := hok
    -- from here on the entry matters only through its name and its cluster
    have hstored : Storable (createEntry fatname isDir n m.fi.clusterSize) :=
      createEntry_storable hfree hlast
    have hname : (createEntry fatname isDir n m.fi.clusterSize).fileName = fatname ∧
        (createEntry fatname isDir n m.fi.clusterSize).nameHash = hashName fatname := ⟨rfl, rfl⟩
    have hdca : (createEntry fatname isDir n m.fi.clusterSize).dca.toNat = n := L.toNat_dca hn
    simp only [he₁, he₂]
    generalize createEntry fatname isDir n m.fi.clusterSize = e at hstored hname hdca ⊢
    subst hdca
    have hadd := entryAdd_shows (v := v.setFat e.dca.toNat FAT_CLUSTER_END) L hfuel hchain hs₂ hs
      hstored fun hnone hbad => by
        rw [← hgrow] at hbad ⊢
        exact hext hnone hbad
    have hroom : NoRoom m (v.setFat e.dca.toNat FAT_CLUSTER_END) cs s₂ ↔
        v.addCluster m cs = none ∧ OneLeft m cs s := by
      unfold NoRoom OneLeft pickContent
      rw [hgrow, he₁]
      exact ⟨fun hno => ⟨hno.1, L.ne_bad hn, hno.2⟩, fun hno => ⟨hno.1, hno.2.2⟩⟩
    cases hadd with
    | inl hfail =>
      obtain ⟨s₃, he₃, hs₃, hk₃, hno⟩ := hfail
      obtain ⟨s₄, he₄, hs₄, hk₄⟩ := deallocCluster_shows L hs₃ hn
      rw [Vol.setFat_back hnfree] at hs₄
      have hr := registerError_shows L hs₄ .addEntryError
      have hneg : (-1 : Int) < 0 := by decide
      simp only [he₃, if_pos hneg, he₄]
      exact ⟨_, _, v, rfl, .noSlot hr.1
        ((hk₂.trans hk₃).trans_nil (hk₄.nil_trans hr.2)) hn hnfree
        (hroom.mp hno).1 (hroom.mp hno).2⟩
    | inr hok =>
      obtain ⟨c, s₃, v₃, cs', al, he₃, hs₃, hk₃, hal, hyes, hi⟩ := hok
      have hpos : ¬ (1 : Int) < 0 := by decide
      simp only [he₃, if_neg hpos]
      exact ⟨_, _, v₃, rfl, .added hs₃ (hk₂.trans hk₃) hal hn hnfree hname
        (fun hno => hyes (hroom.mpr hno)) hi⟩

/-- The volume after an entry for the new content `n` went into the directory. -/
structure Placed (m : Mount) (v v' : Vol) (cs cs' : List Nat) (n : Nat) : Prop where
  sub : cs ⊆ cs'
  owned : ∀ k ∈ cs', k ∈ cs ∨ v.fat k = FAT_CLUSTER_FREE
  apart : n ∉ cs'
  last : v'.fat n = FAT_CLUSTER_END
  other : ∀ k, k ∉ cs → v.fat k ≠ FAT_CLUSTER_FREE → v'.fat k = v.fat k
  free : ∀ k, v'.fat k = FAT_CLUSTER_FREE → v.fat k = FAT_CLUSTER_FREE

theorem Inserted.placed (L : Layout m) (hc : HasChain m v ca cs) {n c : Nat} {cs' : List Nat}
    {e : DirEntry} (hfree : v.fat n = FAT_CLUSTER_FREE)
    (hi : Inserted m (v.setFat n FAT_CLUSTER_END) v' ca cs cs' c e) : Placed m v v' cs cs' n := by
  have hncs : n ∉ cs := fun hm => hc.not_free L hm hfree
  have hend : FAT_CLUSTER_END ≠ FAT_CLUSTER_FREE := by decide
  have hset : ∀ k, (v.setFat n FAT_CLUSTER_END).fat k = FAT_CLUSTER_FREE →
      k ≠ n ∧ v.fat k = FAT_CLUSTER_FREE := fun k hk => by
    by_cases hkn : k = n
    · rw [hkn, Vol.setFat_fat_self] at hk
      exact absurd hk hend
    · rw [v.setFat_fat_ne _ hkn] at hk
      exact ⟨hkn, hk⟩
  have hne : ∀ k, v.fat k ≠ FAT_CLUSTER_FREE → k ≠ n := fun k hk heq => hk (heq ▸ hfree)
  cases hi.grow with
  | inl hsame =>
    obtain ⟨rfl, hfat⟩ := hsame
    refine ⟨fun _ h => h, fun k hk => Or.inl hk, hncs, ?_, fun k _ hk => ?_, fun k hk => ?_⟩
    · rw [hfat, Vol.setFat_fat_self]
    · rw [hfat, v.setFat_fat_ne _ (hne k hk)]
    · rw [hfat] at hk
      exact (hset k hk).2
  | inr hgrow =>
    obtain ⟨ds, last, hcs, rfl, hcin, hcfree, hfat⟩ := hgrow
    obtain ⟨hcn, hcv⟩ := hset c hcfree
    have hlast : last ∈ cs := by rw [hcs]; simp
    have hnl : n ≠ last := fun heq => hncs (heq ▸ hlast)
    refine ⟨List.subset_append_left _ _, fun k hk => ?_, fun hm => ?_, ?_, fun k hkcs hk => ?_,
      fun k hk => ?_⟩
    · cases List.mem_append.mp hk with
      | inl hk => exact Or.inl hk
      | inr hk => exact Or.inr (List.mem_singleton.mp hk ▸ hcv)
    · cases List.mem_append.mp hm with
      | inl hm => exact hncs hm
      | inr hm => exact hcn (List.mem_singleton.mp hm).symm
    · rw [hfat, Vol.link_fat_ne _ hnl (Ne.symm hcn), Vol.setFat_fat_self]
    · have hkl : k ≠ last := fun heq => hkcs (heq ▸ hlast)
      have hkc : k ≠ c := fun heq => hk (heq ▸ hcv)
      rw [hfat, Vol.link_fat_ne _ hkl hkc, v.setFat_fat_ne _ (hne k hk)]
    · rw [hfat] at hk
      by_cases hkl : k = last
      · rw [hkl, Vol.link_fat_last] at hk
        exact absurd hk (L.ne_free hcin)
      · by_cases hkc : k = c
        · exact hkc ▸ hcv
        · rw [Vol.link_fat_ne _ hkl hkc] at hk
          exact (hset k hk).2

/-- The new entry is the first one under its name. -/
theorem Inserted.first_new {c : Nat} {cs' : List Nat} {e : DirEntry} {p : DirEntry → Bool}
    (hi : Inserted m v v' ca cs cs' c e) (hnone : v.first m cs p = none) (hp : p e = true) :
    v'.first m cs' p = some (c, e) := by
  obtain ⟨A, B, hold, hnew⟩ := hi.entries
  unfold Vol.first at hnone ⊢
  rw [hold, List.append_assoc, List.find?_append, Option.or_eq_none_iff] at hnone
  rw [hnew, List.find?_append, hnone.1, Option.none_or, List.find?_cons_of_pos]
  exact hp

/-- When the chain of the directory at `ca`, with the clusters `cs`, is another one behind the call,
the directory has its old entries and one new entry, under the name `fatname`. -/
def GrewBy (m : Mount) (v v' : Vol) (ca : Nat) (cs : List Nat) (fatname : Name) : Prop :=
  ∀ cs', HasChain m v' ca cs' → cs' ≠ cs → SoundDir m v' cs' ∧ ∃ A B x, v.entries m cs = A ++ B ∧
    v'.entries m cs' = A ++ x :: B ∧ x.2.fileName = fatname ∧ x.2.nameHash = hashName fatname

theorem GrewBy.of_entries {fatname : Name} (h : GrewBy m v' v'' ca cs fatname)
    (heq : v'.entries m cs = v.entries m cs) : GrewBy m v v'' ca cs fatname := by
  intro cs' hc' hne
  rw [← heq]
  exact h cs' hc' hne

/-- The chain stayed as it was. -/
theorem GrewBy.same {fatname : Name} (L : Layout m) (hc : HasChain m v' ca cs) :
    GrewBy m v v' ca cs fatname := fun _ hc' hne => absurd (hc'.unique hc L) hne

/-- What is kept of the directory keeps what it grew by. -/
theorem GrewBy.kept {fatname : Name} {cs' : List Nat} (L : Layout m)
    (h : GrewBy m v v' ca cs fatname) (hc' : HasChain m v' ca cs')
    (hkept : ∀ k ∈ cs', v''.fat k = v'.fat k ∧ v''.raw k = v'.raw k) :
    GrewBy m v v'' ca cs fatname := by
  intro ds hds hne
  have hc'' : HasChain m v'' ca cs' := hc'.congr fun k hk => (hkept k hk).1
  obtain rfl := hds.unique hc'' L
  obtain ⟨hsound, A, B, x, hold, hnew, hname⟩ := h ds hc' hne
  refine ⟨hsound.congr fun k hk => (hkept k hk).2, A, B, x, hold, ?_, hname⟩
  rw [← hnew]
  exact Vol.entries_congr fun k hk => by
    unfold Vol.live
    rw [Vol.slots_congr (hkept k hk).2]

/-- A directory that grew hides no entry. -/
theorem Inserted.grewBy (L : Layout m) {c : Nat} {cs' : List Nat} {e : DirEntry} {fatname : Name}
    (hi : Inserted m v v' ca cs cs' c e) (hc : HasChain m v ca cs)
    (hname : e.fileName = fatname ∧ e.nameHash = hashName fatname) :
    GrewBy m v v' ca cs fatname := by
  intro ds hds hne
  obtain rfl := hds.unique hi.chain L
  rcases hi.grow with ⟨heq, -⟩ | ⟨_, _, -, -, -, hfree, -⟩
  · exact absurd heq hne
  · obtain ⟨A, B, hold, hnew⟩ := hi.entries
    -- a hidden entry would lie in a cluster that was free
    have hhidden : (v.hidden m cs).map (fun e => (c, e)) = [] := by
      rw [List.eq_nil_iff_forall_not_mem]
      intro x hx
      have hmem : x ∈ v.entries m cs := by
        rw [hold]
        exact List.mem_append_left _ (List.mem_append_right _ hx)
      obtain ⟨d, -, rfl⟩ := List.mem_map.mp hx
      exact hc.not_free L (Vol.mem_entries.mp hmem).1 hfree
    rw [hhidden, List.append_nil] at hold
    exact ⟨hi.sound, A, B, _, hold, hnew, hname⟩

/-! ### The components that are added -/

/-- A component of a path: it is not empty, and no byte of it is the end of a string. -/
def PlainName (comp : List UInt8) : Prop := comp ≠ [] ∧ 0 ∉ comp

theorem toUpper_ne_zero {c : UInt8} (hc : c ≠ 0) : toUpper c ≠ 0 := by
  unfold toUpper
  split
  · rename_i hlow
    intro heq
    have h₁ : 0x61 ≤ c.toNat := hlow.1
    have h₂ : c.toNat ≤ 0x7A := hlow.2
    have h₃ := congrArg UInt8.toNat heq
    simp only [UInt8.toNat_add, UInt8.toNat_sub, UInt8.reduceToNat] at h₃
    omega
  · exact hc

/-- The short name of a component does not start like the end of a directory. -/
theorem PlainName.first_ne_end (h : PlainName comp) :
    Name.first (nameToFatname comp) ≠ ENTRY_END := by
  obtain ⟨hne, hzero⟩ := h
  cases comp with
  | nil => exact absurd rfl hne
  | cons c rest =>
    have hc : c ≠ 0 := fun heq => hzero (heq ▸ List.mem_cons_self)
    have hhead : ∃ d l, fatnameBytes (c :: rest) = d :: l ∧ d ≠ 0 := by
      unfold fatnameBytes
      by_cases hdot : c = DOT
      · rw [if_pos (by rw [hdot]; rfl)]
        split
        · exact ⟨DOT, _, rfl, by decide⟩
        · exact ⟨DOT, _, rfl, by decide⟩
      · have hbase : ∃ l, fatnameBase (c :: rest) = c :: l := by
          unfold fatnameBase
          rw [List.takeWhile_cons_of_pos (by simpa using hdot)]
          exact ⟨_, rfl⟩
        obtain ⟨l, hl⟩ := hbase
        rw [if_neg (by simpa using hdot), hl]
        exact ⟨c, _, rfl, hc⟩
    obtain ⟨d, l, hbytes, hd⟩ := hhead
    have hfirst : Name.first (nameToFatname (c :: rest)) = toUpper d := by
      unfold nameToFatname
      simp [Name.first, hbytes]
    rw [hfirst]
    exact toUpper_ne_zero hd

/-- A cluster that is an empty directory as far as the component goes: it has a slot to take,
and no entry under its name. -/
structure EmptyFor (m : Mount) (v : Vol) (comp : List UInt8) (n : Nat) : Prop where
  sound : Sound (v.slots m n)
  slot : (v.slots m n).any addable = true
  absent : ∀ e ∈ v.live m n, Matches (nameToFatname comp) e = false

theorem EmptyFor.congr {n : Nat} (h : EmptyFor m v comp n) (hraw : v'.raw n = v.raw n) :
    EmptyFor m v' comp n := by
  have hslots : v'.slots m n = v.slots m n := Vol.slots_congr hraw
  have hlive : v'.live m n = v.live m n := by
    unfold Vol.live
    rw [hslots]
  exact ⟨hslots ▸ h.sound, hslots ▸ h.slot, hlive ▸ h.absent⟩

/-- What the walk that adds the components `comps` leaves, from the directory with the clusters
`cs` on. It ends at the content of the last component; or it ends early, and the clusters `al`
that it asked for are free, or belong to directories that it can reach. -/
structure Walked (m : Mount) (v v' : Vol) (ca : Nat) (cs : List Nat)
    (comps : List (List UInt8)) (al : List Nat) (r : Option DirEntry) : Prop where
  chain : ∃ ds, HasChain m v' ca ds ∧ cs ⊆ ds
  away : ∀ k, k ∉ cs → v.fat k ≠ FAT_CLUSTER_FREE → v'.fat k = v.fat k ∧ v'.raw k = v.raw k
  found : ∀ e, r = some e → ∃ S, Route m v' ca comps S e.dca.toNat ∧
    (∀ k ∈ S, k ∈ cs ∨ v.fat k = FAT_CLUSTER_FREE) ∧ InVol m e.dca.toNat ∧
    v'.fat e.dca.toNat ≠ FAT_CLUSTER_FREE
  lost : r = none → ∀ n ∈ al, n = FAT_CLUSTER_BAD ∨ v'.fat n = FAT_CLUSTER_FREE ∨
    ∃ pre d S ds, pre <+: comps ∧ pre ≠ comps ∧ Route m v' ca pre S d ∧
      (∀ k ∈ S, k ∈ cs ∨ v.fat k = FAT_CLUSTER_FREE) ∧ HasChain m v' d ds ∧ n ∈ ds

/-- The component `comp` was added to the directory, with the entry `e` in the cluster `c`. -/
structure Added (m : Mount) (v v' : Vol) (ca : Nat) (cs cs' : List Nat) (comp : List UInt8)
    (c : Nat) (e : DirEntry) : Prop where
  short : comp.length < 32
  chain : HasChain m v' ca cs'
  sound : SoundDir m v' cs'
  raw : ∀ k, k ∉ cs' → v'.raw k = v.raw k
  first : v'.first m cs' (Matches (nameToFatname comp)) = some (c, e)
  placed : Placed m v v' cs cs' e.dca.toNat

section Walked

variable {al al' : List Nat} {r : Option DirEntry} {e : DirEntry} {c : Nat} {cs' : List Nat}
  {rest : List (List UInt8)}

/-- A walk that starts with a search. -/
theorem Walked.of_view (hview : SameView m v v' cs) (h : Walked m v' v'' ca cs comps al r) :
    Walked m v v'' ca cs comps al r := by
  obtain ⟨hchain, haway, hfound, hlost⟩ := h
  rw [hview.fat] at haway hfound hlost
  refine ⟨hchain, fun k hk hne => ?_, hfound, hlost⟩
  obtain ⟨hfat, hraw⟩ := haway k hk hne
  exact ⟨hfat, hraw.trans (hview.raw k hk)⟩

/-- The walk on from the new content does not touch the directory. -/
theorem Added.kept (L : Layout m) (ha : Added m v v' ca cs cs' comp c e)
    (h : Walked m v' v'' e.dca.toNat [e.dca.toNat] rest al r) :
    ∀ k ∈ cs', v''.fat k = v'.fat k ∧ v''.raw k = v'.raw k := fun k hk =>
  h.away k (fun hm => ha.placed.apart (List.mem_singleton.mp hm ▸ hk)) (ha.chain.not_free L hk)

theorem Added.chain_kept (L : Layout m) (ha : Added m v v' ca cs cs' comp c e)
    (h : Walked m v' v'' e.dca.toNat [e.dca.toNat] rest al r) : HasChain m v'' ca cs' :=
  ha.chain.congr fun k hk => (ha.kept L h k hk).1

/-- The clusters that the walk on uses were free before. -/
theorem Added.was_free (ha : Added m v v' ca cs cs' comp c e)
    (hfree : v.fat e.dca.toNat = FAT_CLUSTER_FREE)
    (hS : ∀ k ∈ S, k ∈ [e.dca.toNat] ∨ v'.fat k = FAT_CLUSTER_FREE) :
    ∀ k ∈ S, v.fat k = FAT_CLUSTER_FREE := fun k hk => by
  cases hS k hk with
  | inl hn => rwa [List.mem_singleton.mp hn]
  | inr hf => exact ha.placed.free k hf

/-- A route from the new content is one from the directory. -/
theorem Added.route (L : Layout m) (ha : Added m v v' ca cs cs' comp c e)
    (h : Walked m v' v'' e.dca.toNat [e.dca.toNat] rest al r)
    (hr : Route m v'' e.dca.toNat comps S dir)
    (hS : ∀ k ∈ S, k ∈ [e.dca.toNat] ∨ v'.fat k = FAT_CLUSTER_FREE) :
    Route m v'' ca (comp :: comps) (cs' ++ S) dir := by
  have hraw : ∀ k ∈ cs', v''.raw k = v'.raw k := fun k hk => (ha.kept L h k hk).2
  have hfirst : v''.first m cs' (Matches (nameToFatname comp)) = some (c, e) := by
    rw [Vol.first_congr_raw hraw, ha.first]
  refine .step ha.short (ha.chain_kept L h) (ha.sound.congr hraw) hfirst hr fun k hk hkS => ?_
  cases hS k hkS with
  | inl hn => exact ha.placed.apart (List.mem_singleton.mp hn ▸ hk)
  | inr hf => exact ha.chain.not_free L hk hf

/-- A walk that added a component and went on behind it. -/
theorem Added.walked (L : Layout m) (ha : Added m v v' ca cs cs' comp c e)
    (hfree : v.fat e.dca.toNat = FAT_CLUSTER_FREE) (hal : al ⊆ cs') (hrest : rest ≠ [])
    (h : Walked m v' v'' e.dca.toNat [e.dca.toNat] rest al' r) :
    Walked m v v'' ca cs (comp :: rest) (e.dca.toNat :: al ++ al') r := by
  have howned : ∀ S : List Nat,
      (∀ k ∈ S, k ∈ [e.dca.toNat] ∨ v'.fat k = FAT_CLUSTER_FREE) →
      ∀ k ∈ cs' ++ S, k ∈ cs ∨ v.fat k = FAT_CLUSTER_FREE := fun S hS k hk => by
    cases List.mem_append.mp hk with
    | inl hk => exact ha.placed.owned k hk
    | inr hk => exact Or.inr (ha.was_free hfree hS k hk)
  refine ⟨⟨cs', ha.chain_kept L h, ha.placed.sub⟩, fun k hk hne => ?_, fun e' he' => ?_,
    fun hnone n hn => ?_⟩
  · have hkcs : k ∉ cs' := fun hm => (ha.placed.owned k hm).elim hk hne
    have hkn : k ∉ [e.dca.toNat] := fun hm => hne (List.mem_singleton.mp hm ▸ hfree)
    have hfat := ha.placed.other k hk hne
    obtain ⟨hfat', hraw'⟩ := h.away k hkn (hfat ▸ hne)
    exact ⟨hfat'.trans hfat, hraw'.trans (ha.raw k hkcs)⟩
  · obtain ⟨S, hr, hS, hlast⟩ := h.found e' he'
    exact ⟨cs' ++ S, ha.route L h hr hS, howned S hS, hlast⟩
  · rw [List.cons_append, List.mem_cons, List.mem_append] at hn
    obtain rfl | hn | hn := hn
    · -- the new directory itself
      obtain ⟨ds, hds, hsub⟩ := h.chain
      have hshort : ([comp] : List (List UInt8)) <+: comp :: rest := ⟨rest, rfl⟩
      have hne : [comp] ≠ comp :: rest := fun heq => hrest (List.cons.inj heq).2.symm
      exact Or.inr (Or.inr ⟨[comp], _, _, ds, hshort, hne,
        ha.route L h (.here _) (fun k hk => absurd hk List.not_mem_nil),
        howned [] (fun k hk => absurd hk List.not_mem_nil), hds, hsub (List.mem_singleton_self _)⟩)
    · -- the cluster by which the directory grew
      exact Or.inr (Or.inr ⟨[], ca, [], cs', List.nil_prefix, (List.cons_ne_nil _ _).symm, .here ca,
        fun k hk => absurd hk List.not_mem_nil, ha.chain_kept L h, hal hn⟩)
    · obtain hbad | hf | ⟨pre, d, S, ds, hpre, hne, hr, hS, hds, hn⟩ := h.lost hnone n hn
      · exact Or.inl hbad
      · exact Or.inr (Or.inl hf)
      · exact Or.inr (Or.inr ⟨comp :: pre, d, cs' ++ S, ds, (List.cons_prefix_cons).mpr ⟨rfl, hpre⟩,
          fun heq => hne (List.cons.inj heq).2, ha.route L h hr hS, howned S hS, hds, hn⟩)

/-- A walk that added the last component. -/
theorem Added.walked_last (ha : Added m v v' ca cs cs' comp c e) (hin : InVol m e.dca.toNat) :
    Walked m v v' ca cs [comp] al (some e) := by
  refine ⟨⟨cs', ha.chain, ha.placed.sub⟩, fun k hk hne => ?_, fun e' he' => ?_,
    fun hnone => by cases hnone⟩
  · exact ⟨ha.placed.other k hk hne, ha.raw k fun hm => (ha.placed.owned k hm).elim hk hne⟩
  · obtain rfl := Option.some.inj he'
    have hend : FAT_CLUSTER_END ≠ FAT_CLUSTER_FREE := by decide
    refine ⟨cs' ++ [], .step ha.short ha.chain ha.sound ha.first (.here _)
      (List.disjoint_nil_right cs'), fun k hk => ?_, hin, ?_⟩
    · rw [List.append_nil] at hk
      exact ha.placed.owned k hk
    · rw [ha.placed.last]
      exact hend

end Walked

/-- A walk that ended without a change. -/
theorem Walked.stopped {al : List Nat} (hc : HasChain m v ca cs) (hal : al ⊆ [FAT_CLUSTER_BAD]) :
    Walked m v v ca cs comps al none where
  chain := ⟨cs, hc, fun _ hk => hk⟩
  away := fun _ _ _ => ⟨rfl, rfl⟩
  found := fun _ he => nomatch he
  lost := fun _ _ hn => Or.inl (List.mem_singleton.mp (hal hn))

/-- A component that is not there goes to the creation branch. -/
theorem pathStep_create {mode : UInt8} (hmode : isCreateMode mode = true) {fuel : Nat}
    (hlen : comp.length < 32)
    (he : entrySearch m fuel (nameToFatname comp) ca 0 s = some (none, s')) (more : Bool) :
    pathStep m fuel mode comp more NO_RCI ca s = createOnPath m fuel (nameToFatname comp)
      (more ∨ getModeTarget mode ≠ FILE_TARGET) ca 0 s' := by
  have hcache : getContentEcache NO_RCI s = 0 := rfl
  unfold pathStep
  rw [if_neg (Nat.not_le.mpr hlen)]
  simp only [hcache, he, hmode, if_true]

/-- A directory in which the component `comp` is missing. -/
structure Missing (m : Mount) (v : Vol) (ca : Nat) (cs : List Nat) (comp : List UInt8) : Prop where
  chain : HasChain m v ca cs
  sound : SoundDir m v cs
  none_ : comp.length < 32 → v.first m cs (Matches (nameToFatname comp)) = none
  named : comp.length < 32 → Name.first (nameToFatname comp) ≠ ENTRY_FREE

/-- A search does not change what is missing. -/
theorem Missing.of_view (hview : SameView m v v' cs) (h : Missing m v ca cs comp) :
    Missing m v' ca cs comp := by
  refine ⟨hview.chain h.chain, fun c hc => hview.sound c (h.sound c hc), fun hlen => ?_, h.named⟩
  rw [Vol.first_congr (hview.entries cs)]
  exact h.none_ hlen

/-- A full directory finds a cluster to grow by, when there is one for the content, and it takes
the entry in its first slot. -/
def HasRoom (m : Mount) (v : Vol) (cs : List Nat) (s : FS) : Prop :=
  v.addCluster m cs = none → ¬ OneLeft m cs s ∧
    (pickGrowth m cs s ≠ FAT_CLUSTER_BAD → StartsFree m v (pickGrowth m cs s))

/-- One component of the walk: it ends the walk without a change, or it is added. -/
theorem create_step (L : Layout m) {mode : UInt8} (hmode : isCreateMode mode = true) {fuel : Nat}
    (hfuel : m.fi.totalClusters + 1 ≤ fuel) (h : Shows m s v) (hplain : PlainName comp)
    (hmiss : Missing m v ca cs comp)
    (hroom : ∀ s₁, entrySearch m fuel (nameToFatname comp) ca 0 s = some (none, s₁) →
      HasRoom m v cs s₁) (more : Bool) :
    ∃ v₁ al, SameView m v v₁ cs ∧
      ((∃ s', pathStep m fuel mode comp more NO_RCI ca s = some (none, s') ∧
          Shows m s' v₁ ∧ Keeps al s s' ∧ al ⊆ [FAT_CLUSTER_BAD]) ∨
        ∃ e c cs' s' v', pathStep m fuel mode comp more NO_RCI ca s = some (some e, s') ∧
          Shows m s' v' ∧ Keeps (e.dca.toNat :: al) s s' ∧ al ⊆ cs' ∧ InVol m e.dca.toNat ∧
          v₁.fat e.dca.toNat = FAT_CLUSTER_FREE ∧ Added m v₁ v' ca cs cs' comp c e ∧
          GrewBy m v v' ca cs (nameToFatname comp)) := by
  by_cases hlen : 32 ≤ comp.length
  · exact ⟨v, [], .refl v cs, Or.inl ⟨s, if_pos hlen, h, Keeps.refl s, List.nil_subset _⟩⟩
  · have hshort : comp.length < 32 := Nat.not_le.mp hlen
    have hlencs : cs.length + 1 ≤ fuel :=
      Nat.le_trans (Nat.succ_le_succ (hmiss.chain.length_le L)) hfuel
    have hle : cs.length ≤ fuel := by omega
    obtain ⟨s₁, v₁, he₁, hs₁, hk₁, hview⟩ := entrySearch_none L hle hmiss.chain h hmiss.sound
      (hmiss.none_ hshort)
    have hmiss₁ := hmiss.of_view hview
    have hgrows : v₁.addCluster m cs = none → pickGrowth m cs s₁ ≠ FAT_CLUSTER_BAD →
        StartsFree m v₁ (pickGrowth m cs s₁) := fun hadd hne => by
      rw [hview.addCluster] at hadd
      obtain ⟨-, hf⟩ := pickGrowth_free L hs₁ hne
      unfold StartsFree
      rw [Vol.slots_congr (hview.raw _ fun hm => hmiss₁.chain.not_free L hm hf)]
      exact (hroom s₁ he₁ hadd).2 hne
    obtain ⟨r, s₂, v₂, he₂, hstep⟩ := createOnPath_shows L hlencs hmiss₁.chain hs₁ hmiss₁.sound
      (hmiss.named hshort) hplain.first_ne_end hgrows
      (more ∨ getModeTarget mode ≠ FILE_TARGET)
    rw [pathStep_create hmode hshort he₁, he₂]
    cases hstep with
    | noCluster hs hk _ =>
      exact ⟨v₁, _, hview, Or.inl ⟨s₂, rfl, hs, hk₁.nil_trans hk, fun _ hx => hx⟩⟩
    | noSlot hs hk hin hfree hfull hone =>
      rw [hview.addCluster] at hfull
      exact absurd hone (hroom s₁ he₁ hfull).1
    | @added _ _ e c cs' al hs hk hal hin hfree hname _ hi =>
      have hmatch : Matches (nameToFatname comp) e = true := by
        rw [← hname.1]
        exact matches_self (hname.2.trans (by rw [hname.1]))
      have hfirst : (v₁.setFat e.dca.toNat FAT_CLUSTER_END).first m cs
          (Matches (nameToFatname comp)) = none := hmiss₁.none_ hshort
      have hne : ∀ k ∈ cs, k ≠ e.dca.toNat := fun k hk heq =>
        hmiss₁.chain.not_free L hk (heq ▸ hfree)
      have hgrew := hi.grewBy L
        (hmiss₁.chain.congr fun k hk => v₁.setFat_fat_ne FAT_CLUSTER_END (hne k hk)) hname
      have hadded : Added m v₁ v₂ ca cs cs' comp c e := ⟨hshort, hi.chain, hi.sound, hi.raw,
        hi.first_new hfirst hmatch, hi.placed L hmiss₁.chain hfree⟩
      exact ⟨v₁, al, hview, Or.inr ⟨e, c, cs', s₂, v₂, rfl, hs, hk₁.nil_trans hk, hal, hin, hfree,
        hadded, hgrew.of_entries (hview.entries cs)⟩⟩

/-- The new content is an empty directory as far as the next component goes. -/
theorem Added.missing {c : Nat} {cs' : List Nat} {e : DirEntry} {comp' : List UInt8}
    (ha : Added m v v' ca cs cs' comp c e) (hin : InVol m e.dca.toNat)
    (he : EmptyFor m v comp' e.dca.toNat)
    (hnamed : comp'.length < 32 → Name.first (nameToFatname comp') ≠ ENTRY_FREE) :
    Missing m v' e.dca.toNat [e.dca.toNat] comp' ∧ v'.addCluster m [e.dca.toNat] ≠ none := by
  have he' := he.congr (ha.raw _ ha.placed.apart)
  have hadd : v'.addCluster m [e.dca.toNat] ≠ none := fun hnone =>
    List.find?_eq_none.mp hnone _ (List.mem_singleton_self _) he'.slot
  refine ⟨⟨.single hin ha.placed.last, fun k hk => ?_, fun _ => ?_, hnamed⟩, hadd⟩
  · rw [List.mem_singleton.mp hk]
    exact he'.sound
  · unfold Vol.first
    rw [List.find?_eq_none]
    intro x hx
    obtain ⟨hc, hx⟩ := Vol.mem_entries.mp hx
    rw [List.mem_singleton.mp hc] at hx
    simp [he'.absent x.2 hx]

/-- A directory that the step makes for a further component is empty as far as that goes. -/
def Move.ComesUpEmpty (m : Mount) (x : Move) : Prop :=
  x.Makes m → ∀ comp rest, x.rest = comp :: rest →
    EmptyFor m (view m x.before) comp x.entry.dca.toNat

/-- The step that added a component made its content. -/
theorem Added.fresh {c : Nat} {cs' : List Nat} {e : DirEntry} {v₁ : Vol} {rest : List (List UInt8)}
    (ha : Added m v₁ v' ca cs cs' comp c e) (hview : SameView m v v₁ cs) (h : Shows m s v)
    (hs' : Shows m s' v') (hc : HasChain m v ca cs) (L : Layout m) (hin : InVol m e.dca.toNat)
    (hfree : v.fat e.dca.toNat = FAT_CLUSTER_FREE) : Move.Fresh m ⟨rest, ca, s, e, s'⟩ := by
  have hend : FAT_CLUSTER_END ≠ FAT_CLUSTER_FREE := by decide
  refine ⟨⟨?_, ?_⟩, hin, ?_, ?_⟩
  · rw [h.view_eq]
    exact hfree
  · rw [hs'.view_eq, ha.placed.last]
    exact hend
  · rw [hs'.view_eq]
    exact ha.placed.last
  · rw [hs'.view_eq, h.view_eq, ha.raw _ ha.placed.apart]
    exact hview.raw _ fun hm => hc.not_free L hm hfree

/-- The walk that adds components, from the first one that is missing on. -/
theorem create_run (L : Layout m) {mode : UInt8} (hmode : isCreateMode mode = true) {fuel : Nat}
    (hfuel : m.fi.totalClusters + 1 ≤ fuel) {rest : List (List UInt8)} (h : Shows m s v)
    (hplain : ∀ x ∈ comp :: rest, PlainName x) (hmiss : Missing m v ca cs comp)
    (hnamed : ∀ x ∈ rest, x.length < 32 → Name.first (nameToFatname x) ≠ ENTRY_FREE)
    (hempty : ∀ x, Moves m fuel mode (comp :: rest) NO_RCI ca s x → x.ComesUpEmpty m)
    (hroom : ∀ s₁, entrySearch m fuel (nameToFatname comp) ca 0 s = some (none, s₁) →
      HasRoom m v cs s₁) :
    ∃ r s' v' al, pathLoop m fuel mode (comp :: rest) NO_RCI ca s = some (r, s') ∧
      Shows m s' v' ∧ Keeps al s s' ∧ Walked m v v' ca cs (comp :: rest) al r ∧
      GrewBy m v v' ca cs (nameToFatname comp) ∧
      ∀ e, r = some e → ∃ x, Moves m fuel mode (comp :: rest) NO_RCI ca s x ∧ x.rest = [] ∧
        x.entry = e ∧ x.after = s' ∧ x.Fresh m := by
  induction rest generalizing comp ca cs s v with
  | nil =>
    obtain ⟨v₁, al, hview, hstep⟩ := create_step L hmode hfuel h
      (hplain comp List.mem_cons_self) hmiss hroom (decide (([] : List (List UInt8)) ≠ []))
    cases hstep with
    | inl hstop =>
      obtain ⟨s', he, hs', hk, hal⟩ := hstop
      exact ⟨none, s', v₁, al, pathLoop_stop he, hs', hk,
        .of_view hview (.stopped (hview.chain hmiss.chain) hal), .same L (hview.chain hmiss.chain),
        fun e hr => by cases hr⟩
    | inr hadded =>
      obtain ⟨e, c, cs', s', v', he, hs', hk, hal, hin, hfree, ha, hgrew⟩ := hadded
      rw [hview.fat] at hfree
      refine ⟨some e, s', v', _, pathLoop_go he, hs', hk, .of_view hview (ha.walked_last hin),
        hgrew,
        fun e' hr => ?_⟩
      obtain rfl := Option.some.inj hr
      exact ⟨_, .here he, rfl, rfl, rfl, ha.fresh hview h hs' hmiss.chain L hin hfree⟩
  | cons comp' rest ih =>
    obtain ⟨v₁, al, hview, hstep⟩ := create_step L hmode hfuel h
      (hplain comp List.mem_cons_self) hmiss hroom (decide (comp' :: rest ≠ []))
    cases hstep with
    | inl hstop =>
      obtain ⟨s', he, hs', hk, hal⟩ := hstop
      exact ⟨none, s', v₁, al, pathLoop_stop he, hs', hk,
        .of_view hview (.stopped (hview.chain hmiss.chain) hal), .same L (hview.chain hmiss.chain),
        fun e hr => by cases hr⟩
    | inr hadded =>
      obtain ⟨e, c, cs', s', v', he, hs', hk, hal, hin, hfree, ha, hgrew⟩ := hadded
      have hnew : v.fat e.dca.toNat = FAT_CLUSTER_FREE := by
        rw [← hview.fat]
        exact hfree
      have hfresh : Move.Fresh m ⟨comp' :: rest, ca, s, e, s'⟩ :=
        ha.fresh hview h hs' hmiss.chain L hin hnew
      have hempty₁ : EmptyFor m v₁ comp' e.dca.toNat := by
        have hbefore := hempty _ (.here he) hfresh.makes comp' rest rfl
        rw [h.view_eq] at hbefore
        exact hbefore.congr (hview.raw _ fun hm => hmiss.chain.not_free L hm hnew)
      obtain ⟨hmiss', hslot⟩ := ha.missing hin hempty₁ (hnamed comp' List.mem_cons_self)
      obtain ⟨r, s₂, v₂, al₂, he₂, hs₂, hk₂, hw, -, hmade⟩ := ih hs'
        (fun x hx => hplain x (List.mem_cons_of_mem _ hx)) hmiss'
        (fun x hx => hnamed x (List.mem_cons_of_mem _ hx))
        (fun x hx => hempty x (.next he hx)) (fun _ _ hno => absurd hno hslot)
      rw [pathLoop_go he, if_neg (List.cons_ne_nil _ _)]
      refine ⟨r, s₂, v₂, _, he₂, hs₂, hk.trans hk₂,
        .of_view hview (ha.walked L hfree hal (List.cons_ne_nil _ _) hw),
        hgrew.kept L ha.chain (ha.kept L hw), fun e' hr => ?_⟩
      obtain ⟨x, hx, hlast⟩ := hmade e' hr
      exact ⟨x, .next he hx, hlast⟩

end NiFat32
