import NiFat32.Proofs.Create

/-!
# `Proofs.OpenPath`: opening a path with creation

`Misses` is what an open finds at the first component that is not there, and `Room` that
`entry_add` finds a slot for it. `open_creates_iff` says that under these conditions an open did
what it reports; without the slot it reports a content that does not exist, as
`full_directory_open` shows.
-/

set_option autoImplicit false

namespace NiFat32

open Run

variable {m : Mount} {s s' : FS} {v v' v'' : Vol} {ca dir : Nat} {cs S : List Nat}
  {comp : List UInt8} {comps : List (List UInt8)}

/-! ### The whole open -/

/-- One byte of a path. -/
theorem splitPath_cons (c : UInt8) (path : List UInt8) : splitPath (c :: path) =
    if c = PATH_SPLITTER then [] :: splitPath path
    else (c :: (splitPath path).headD []) :: (splitPath path).tail := by
  rw [splitPath, splitPath, List.foldr_cons]
  by_cases hc : c = PATH_SPLITTER
  · rw [if_pos hc, if_pos hc]
  · rw [if_neg hc, if_neg hc]
    generalize List.foldr _ [[]] path = parts
    cases parts <;> rfl

theorem mem_splitPath {path comp : List UInt8} (h : comp ∈ splitPath path) :
    ∀ c ∈ comp, c ∈ path := by
  induction path generalizing comp with
  | nil =>
    intro c hc
    rw [List.mem_singleton.mp h] at hc
    exact absurd hc List.not_mem_nil
  | cons d path ih =>
    intro c hc
    rw [splitPath_cons] at h
    by_cases hd : d = PATH_SPLITTER
    · rw [if_pos hd] at h
      cases List.mem_cons.mp h with
      | inl hnil => rw [hnil] at hc; exact absurd hc List.not_mem_nil
      | inr hmem => exact List.mem_cons_of_mem d (ih hmem c hc)
    · rw [if_neg hd] at h
      cases hs : splitPath path with
      | nil =>
        rw [hs] at h
        rw [List.mem_singleton.mp h] at hc
        rw [List.mem_singleton.mp hc]
        exact List.mem_cons_self
      | cons x xs =>
        rw [hs] at h ih
        cases List.mem_cons.mp h with
        | inl heq =>
          rw [heq] at hc
          cases List.mem_cons.mp hc with
          | inl hcd => rw [hcd]; exact List.mem_cons_self
          | inr hcx => exact List.mem_cons_of_mem d (ih List.mem_cons_self c hcx)
        | inr hmem => exact List.mem_cons_of_mem d (ih (List.mem_cons_of_mem x hmem) c hc)

/-- The components of a path are plain when they are not empty. -/
theorem pathComponents_plain {path comp : List UInt8} (h : comp ∈ pathComponents path)
    (hne : comp ≠ []) : PlainName comp := by
  refine ⟨hne, fun hzero => ?_⟩
  have hmem := mem_splitPath h 0 hzero
  have hall := List.all_eq_true.mp List.all_takeWhile 0 hmem
  simp at hall

/-- The components lead to the content with the first cluster `d`, for a lookup without
creation. -/
def Resolves (m : Mount) (comps : List (List UInt8)) (d : Nat) (s : FS) : Prop :=
  (comps = [] ∧ d = m.fi.extRootCluster) ∨
  Ensures (fun fuel => pathLoop m fuel (R_MODE ||| W_MODE) comps NO_RCI m.fi.extRootCluster s)
    fun r => ∃ e, r.1 = some e ∧ e.dca.toNat = d

/-- The allocated cluster `n` is free again, or belongs to a directory that a lookup of a part of
the path reaches. -/
def Accounted (m : Mount) (path : List UInt8) (s : FS) (n : Nat) : Prop :=
  (view m s).fat n = FAT_CLUSTER_FREE ∨
  ∃ pre d ds, pre <+: pathComponents path ∧ pre ≠ pathComponents path ∧ Resolves m pre d s ∧
    HasChain m (view m s) d ds ∧ n ∈ ds

/-- The open of `path` from the state `s` on did what its result says: with a handle, the content
exists, and the handle has its first cluster; without one, every cluster that was allocated is
accounted for. -/
structure OpenOk (m : Mount) (s : FS) (path : List UInt8) (r : Int × FS) : Prop where
  created : 0 ≤ r.1 → Ensures (fun fuel => contentExists m fuel path r.2) (fun x => x.1 = true) ∧
    Ensures (fun fuel => getClusterByPath m fuel path (R_MODE ||| W_MODE) NO_RCI r.2)
      (fun x => ∃ e, x.1 = some e ∧ e.dca.toNat = getContentDataCa r.1 r.2) ∧
    (view m r.2).fat (getContentDataCa r.1 r.2) ≠ FAT_CLUSTER_FREE
  failed : r.1 < 0 → ∀ n ∈ r.2.allocs.drop s.allocs.length, n ≠ FAT_CLUSTER_BAD →
    Accounted m path r.2 n

/-- `comp` is the first component of the path that is not there, and `rest` are those behind it;
they can be added as far as the names go. -/
structure Misses (m : Mount) (v : Vol) (path : List UInt8) (dir : Nat) (cs : List Nat)
    (comp : List UInt8) (rest : List (List UInt8)) : Prop where
  path_eq : ∃ pre S, pathComponents path = pre ++ comp :: rest ∧
    Route m v m.fi.extRootCluster pre S dir ∧ S.Disjoint cs
  short : comp.length < 32
  missing : Missing m v dir cs comp
  named : ∀ x ∈ rest, x.length < 32 → Name.first (nameToFatname x) ≠ ENTRY_FREE

/-- `entry_add` finds room for the entry: the directory has a slot to take, or, when the lookup of
the path is over, the allocator gives not only the cluster of the new content but also one for
the directory. -/
def Room (m : Mount) (s : FS) (v : Vol) (cs : List Nat) (path : List UInt8) : Prop :=
  v.addCluster m cs = none →
    Ensures (fun fuel => contentExists m fuel path (allocCi s).2) fun r => ¬ OneLeft m cs r.2

/-- The cluster by which a full directory grows takes the entry in its first slot. -/
def Grows (m : Mount) (s : FS) (v : Vol) (cs : List Nat) (path : List UInt8) : Prop :=
  v.addCluster m cs = none →
    Ensures (fun fuel => contentExists m fuel path (allocCi s).2) fun r =>
      pickGrowth m cs r.2 ≠ FAT_CLUSTER_BAD → StartsFree m v (pickGrowth m cs r.2)

/-- Every directory that the open makes on its way to the last component comes up empty for the
component that goes into it. -/
def ComesUpEmpty (m : Mount) (s : FS) (path : List UInt8) (mode : UInt8) : Prop :=
  ∃ bound, ∀ fuel, bound ≤ fuel → ∀ x, Moves m fuel mode (pathComponents path) NO_RCI
    m.fi.extRootCluster (allocCi s).2 x → x.ComesUpEmpty m

/-- What an open with creation meets: a path that is there, one with a component that is too
long, or one whose first missing component has room. -/
inductive OpenFits (m : Mount) (s : FS) (v : Vol) (path : List UInt8) (mode : UInt8) : Prop
  | found {S : List Nat} {dir : Nat}
      (hr : Route m v m.fi.extRootCluster (pathComponents path) S dir)
      (hused : v.fat dir ≠ FAT_CLUSTER_FREE) : OpenFits m s v path mode
  | long {pre rest : List (List UInt8)} {comp : List UInt8} {S : List Nat} {dir : Nat}
      (hpath : pathComponents path = pre ++ comp :: rest)
      (hr : Route m v m.fi.extRootCluster pre S dir) (hlen : 32 ≤ comp.length) :
      OpenFits m s v path mode
  | missing {dir : Nat} {cs : List Nat} {comp : List UInt8} {rest : List (List UInt8)}
      (hmiss : Misses m v path dir cs comp rest) (hgrows : Grows m s v cs path)
      (hempty : ComesUpEmpty m s path mode) (hroom : Room m s v cs path) :
      OpenFits m s v path mode

section Main

variable {path : List UInt8} {pre rest : List (List UInt8)}

theorem pathComponents_ne_nil : pathComponents path ≠ [] := by
  have hsplit : ∀ l : List UInt8, splitPath l ≠ [] := fun l => by
    cases l with
    | nil => exact List.cons_ne_nil _ _
    | cons c l =>
      rw [splitPath_cons]
      split
      · exact List.cons_ne_nil _ _
      · exact List.cons_ne_nil _ _
  exact hsplit _

/-- What a walk from the root made of the path. -/
structure Opened (m : Mount) (v : Vol) (path : List UInt8) (al : List Nat)
    (r : Option DirEntry) : Prop where
  found : ∀ e, r = some e →
    (∃ S, Route m v m.fi.extRootCluster (pathComponents path) S e.dca.toNat) ∧
    v.fat e.dca.toNat ≠ FAT_CLUSTER_FREE ∧ (e.dca.toNat = FAT_CLUSTER_BAD → al = [])
  lost : r = none → ∀ n ∈ al, n ≠ FAT_CLUSTER_BAD → v.fat n = FAT_CLUSTER_FREE ∨
    ∃ pre d S ds, pre <+: pathComponents path ∧ pre ≠ pathComponents path ∧
      Route m v m.fi.extRootCluster pre S d ∧ HasChain m v d ds ∧ n ∈ ds

/-- The walk behind the directories that are there. -/
theorem Walked.opened (L : Layout m) {al : List Nat} {r : Option DirEntry}
    (hpath : pathComponents path = pre ++ comps) (hr : Route m v m.fi.extRootCluster pre S dir)
    (hapart : S.Disjoint cs) (h : Walked m v v' dir cs comps al r) : Opened m v' path al r := by
  have hfree := hr.not_free L
  have hr' : Route m v' m.fi.extRootCluster pre S dir :=
    hr.frame (fun k hk => (h.away k (hapart hk) (hfree k hk)).1)
      fun k hk => (h.away k (hapart hk) (hfree k hk)).2
  have hdisj : ∀ S' : List Nat, (∀ k ∈ S', k ∈ cs ∨ v.fat k = FAT_CLUSTER_FREE) →
      S.Disjoint S' := fun S' hS' k hk hk' => (hS' k hk').elim (hapart hk) (hfree k hk)
  refine ⟨fun e he => ?_, fun hnone n hn hbad => ?_⟩
  · obtain ⟨S', hr₂, hS', hin, hused⟩ := h.found e he
    refine ⟨⟨S ++ S', ?_⟩, hused, fun heq => absurd heq (L.ne_bad hin)⟩
    rw [hpath]
    exact hr'.append hr₂ (hdisj S' hS')
  · obtain hb | hf | ⟨pre', d, S', ds, hpre, hne, hr₂, hS', hds, hn⟩ := h.lost hnone n hn
    · exact absurd hb hbad
    · exact Or.inl hf
    · refine Or.inr ⟨pre ++ pre', d, S ++ S', ds, ?_, fun heq => ?_,
        hr'.append hr₂ (hdisj S' hS'), hds, hn⟩
      · rw [hpath]
        exact (List.prefix_append_right_inj pre).mpr hpre
      · rw [hpath] at heq
        exact hne (List.append_cancel_left heq)

/-- The directory of a missing component, after a walk elsewhere. -/
theorem Missing.frame (h : Missing m v dir cs comp) (hapart : S.Disjoint cs)
    (hfat : v'.fat = v.fat) (hraw : ∀ k, k ∉ S → v'.raw k = v.raw k) :
    Missing m v' dir cs comp ∧ v'.addCluster m cs = v.addCluster m cs := by
  have hcs : ∀ k ∈ cs, v'.raw k = v.raw k := fun k hk => hraw k fun hm => hapart hm hk
  have hslots : ∀ k ∈ cs, v'.slots m k = v.slots m k := fun k hk => Vol.slots_congr (hcs k hk)
  refine ⟨⟨h.chain.congr fun k _ => by rw [hfat], h.sound.congr hcs, fun hlen => ?_, h.named⟩, ?_⟩
  · rw [Vol.first_congr_raw hcs]
    exact h.none_ hlen
  · unfold Vol.addCluster
    rw [← List.head?_filter, ← List.head?_filter]
    exact congrArg List.head? (List.filter_congr fun k hk => by rw [hslots k hk])

/-- A lookup ends at the first component that is missing. -/
theorem contentExists_missing {fuel : Nat} {s₁ s₂ : FS} (hlen : comp.length < 32)
    (hpath : pathComponents path = pre ++ comp :: rest)
    (hrun : pathLoop m fuel (R_MODE ||| W_MODE) (pre ++ comp :: rest) NO_RCI m.fi.extRootCluster s
      = pathLoop m fuel (R_MODE ||| W_MODE) (comp :: rest) NO_RCI dir s₁)
    (he : entrySearch m fuel (nameToFatname comp) dir 0 s₁ = some (none, s₂)) :
    contentExists m fuel path s = some (false, s₂) := by
  have hmode : isCreateMode (R_MODE ||| W_MODE) = false := by decide
  have hcache : getContentEcache NO_RCI s₁ = 0 := rfl
  have hstep : pathStep m fuel (R_MODE ||| W_MODE) comp (rest ≠ []) NO_RCI dir s₁
      = some (none, s₂) := by
    unfold pathStep
    rw [if_neg (Nat.not_le.mpr hlen)]
    simp only [hcache, he, hmode, Bool.false_eq_true, if_false]
  have hget : getClusterByPath m fuel path (R_MODE ||| W_MODE) NO_RCI s = some (none, s₂) := by
    show pathLoop m fuel _ (pathComponents path) NO_RCI m.fi.extRootCluster s = _
    rw [hpath, hrun]
    exact pathLoop_stop hstep
  unfold contentExists
  rw [hget]
  rfl

/-- The directory of the first missing component has room, when the search of its name is over. -/
theorem Room.hasRoom (L : Layout m) {fuel : Nat} {s₁ : FS} {v₁ : Vol} {x : Bool × FS}
    (hmiss : Missing m v₁ dir cs comp) (hlen : comp.length < 32) (h₁ : Shows m s₁ v₁)
    (hfuel : m.fi.totalClusters ≤ fuel) (hfat : v₁.fat = v.fat)
    (hraw : ∀ k, v.fat k = FAT_CLUSTER_FREE → v₁.raw k = v.raw k)
    (hexists : ∀ s₂, entrySearch m fuel (nameToFatname comp) dir 0 s₁ = some (none, s₂) →
      contentExists m fuel path s = some (false, s₂))
    (hx : contentExists m fuel path s = some x) (hone : ¬ OneLeft m cs x.2)
    (hgrow : pickGrowth m cs x.2 ≠ FAT_CLUSTER_BAD → StartsFree m v (pickGrowth m cs x.2)) :
    ∀ s₂, entrySearch m fuel (nameToFatname comp) dir 0 s₁ = some (none, s₂) →
      HasRoom m v₁ cs s₂ := fun s₂ he _ => by
  obtain rfl := Option.some.inj ((hexists s₂ he).symm.trans hx)
  refine ⟨hone, fun hne => ?_⟩
  have hlen' : cs.length ≤ fuel := Nat.le_trans (hmiss.chain.length_le L) hfuel
  obtain ⟨s₃, v₃, he₃, hs₃, -, hview⟩ := entrySearch_none L hlen' hmiss.chain h₁ hmiss.sound
    (hmiss.none_ hlen)
  obtain rfl : s₃ = s₂ := (Prod.mk.inj (Option.some.inj (he₃.symm.trans he))).2
  obtain ⟨-, hfree⟩ := pickGrowth_free L hs₃ hne
  rw [hview.fat, hfat] at hfree
  unfold StartsFree
  rw [Vol.slots_congr (hraw _ hfree)]
  exact hgrow hne

/-- The walk of an open that fits. -/
theorem OpenFits.walk (L : Layout m) {mode : UInt8} (hmode : isCreateMode mode = true)
    (h : Shows m s v) (hplain : ∀ comp ∈ pathComponents path, PlainName comp)
    (hfits : OpenFits m s v path mode) :
    Ensures (fun fuel => getClusterByPath m fuel path mode NO_RCI (allocCi s).2) fun r =>
      ∃ al v', Shows m r.2 v' ∧ Keeps al (allocCi s).2 r.2 ∧ Opened m v' path al r.1 := by
  have h₀ := allocCi_shows h
  have hget : ∀ fuel, getClusterByPath m fuel path mode NO_RCI (allocCi s).2
      = pathLoop m fuel mode (pathComponents path) NO_RCI m.fi.extRootCluster (allocCi s).2 :=
    fun _ => rfl
  cases hfits with
  | @found S dir hr hused =>
    refine ⟨m.fi.totalClusters, fun fuel hfuel => ?_⟩
    obtain ⟨s₁, v₁, hs₁, hk, hfat, -, hr₁, -, hrun⟩ := hr.run L h₀ hfuel
    obtain ⟨e, he, hdca⟩ := (hrun mode).2.1 pathComponents_ne_nil
    refine ⟨_, (hget fuel).trans he, [], v₁, hs₁, hk, fun e' he' => ?_, fun hnone => by cases hnone⟩
    obtain rfl := Option.some.inj he'
    rw [hdca, hfat]
    exact ⟨⟨S, hr₁⟩, hused, fun _ => rfl⟩
  | @long pre rest comp S dir hpath hr hlen =>
    refine ⟨m.fi.totalClusters, fun fuel hfuel => ?_⟩
    obtain ⟨s₁, v₁, hs₁, hk, -, -, -, -, hrun⟩ := hr.run L h₀ hfuel
    have hstep : pathStep m fuel mode comp (rest ≠ []) NO_RCI dir s₁ = some (none, s₁) :=
        if_pos hlen
    have he : pathLoop m fuel mode (comp :: rest) NO_RCI dir s₁ = some (none, s₁) :=
      pathLoop_stop hstep
    have hopened : Opened m v₁ path [] none :=
      ⟨fun _ he' => (Option.some_ne_none _ he'.symm).elim, fun _ _ hn => absurd hn List.not_mem_nil⟩
    refine ⟨(none, s₁), (hget fuel).trans ?_, [], v₁, hs₁, hk, hopened⟩
    rw [hpath, (hrun mode).1 _ (List.cons_ne_nil _ _), he]
  | @missing dir cs comp rest hmiss hgrows hempty hroom =>
    obtain ⟨⟨pre, S, hpath, hr, hapart⟩, hshort, hmissing, hnamed⟩ := hmiss
    obtain ⟨bound, hb⟩ := hempty
    have hbound : ∃ bound', ∀ fuel, bound' ≤ fuel → v.addCluster m cs = none →
        ∃ x, contentExists m fuel path (allocCi s).2 = some x ∧ ¬ OneLeft m cs x.2 ∧
          (pickGrowth m cs x.2 ≠ FAT_CLUSTER_BAD → StartsFree m v (pickGrowth m cs x.2)) := by
      by_cases hadd : v.addCluster m cs = none
      · obtain ⟨bound', hb'⟩ := (hroom hadd).and (hgrows hadd)
        exact ⟨bound', fun fuel hfuel _ => hb' fuel hfuel⟩
      · exact ⟨0, fun _ _ hno => absurd hno hadd⟩
    obtain ⟨bound', hb'⟩ := hbound
    refine ⟨max (max bound bound') (m.fi.totalClusters + 1), fun fuel hfuel => ?_⟩
    have hfuel₁ : m.fi.totalClusters ≤ fuel := by omega
    obtain ⟨s₁, v₁, hs₁, hk, hfat, hraw, hr₁, -, hrun⟩ := hr.run L h₀ hfuel₁
    obtain ⟨hmissing₁, hadd₁⟩ := hmissing.frame hapart hfat hraw
    have hroom₁ : ∀ s₂, entrySearch m fuel (nameToFatname comp) dir 0 s₁ = some (none, s₂) →
        HasRoom m v₁ cs s₂ := fun s₂ he hfull => by
      obtain ⟨x, hx, hone, hgrow⟩ := hb' fuel (by omega) (hadd₁ ▸ hfull)
      exact Room.hasRoom L hmissing₁ hshort hs₁ hfuel₁ hfat
        (fun k hk => hraw k fun hm => hr.not_free L k hm hk)
        (fun s₂ he => contentExists_missing hshort hpath
          ((hrun _).1 _ (List.cons_ne_nil _ _)) he) hx hone hgrow s₂ he hfull
    have hempty₁ : ∀ x, Moves m fuel mode (comp :: rest) NO_RCI dir s₁ x → x.ComesUpEmpty m :=
      fun x hx => hb fuel (by omega) x (by
        rw [hpath]
        exact (hrun mode).2.2 _ x hx)
    obtain ⟨r, s₂, v₂, al, he, hs₂, hk₂, hw, -⟩ := create_run L hmode (by omega) hs₁
      (fun x hx => hplain x (by rw [hpath]; exact List.mem_append_right _ hx)) hmissing₁ hnamed
      hempty₁ hroom₁
    refine ⟨(r, s₂), (hget fuel).trans ?_, al, v₂, hs₂, hk.nil_trans hk₂,
      hw.opened L hpath hr₁ hapart⟩
    rw [hpath, (hrun mode).1 _ (List.cons_ne_nil _ _), he]

/-- A route resolves. -/
theorem Route.resolves (L : Layout m) (hr : Route m v m.fi.extRootCluster comps S dir)
    (h : Shows m s v) : Resolves m comps dir s := by
  by_cases hnil : comps = []
  · subst hnil
    cases hr with
    | here => exact Or.inl ⟨rfl, rfl⟩
  · refine Or.inr ⟨m.fi.totalClusters, fun fuel hfuel => ?_⟩
    obtain ⟨s₁, _, _, _, _, _, _, _, hrun⟩ := hr.run L h hfuel
    obtain ⟨e, he, hdca⟩ := (hrun (R_MODE ||| W_MODE)).2.1 hnil
    exact ⟨_, he, e, rfl, hdca⟩

theorem allocCi_allocs (s : FS) : (allocCi s).2.allocs = s.allocs := by
  unfold allocCi
  split <;> rfl

theorem setupContent_allocs (ci : Int) (isDir : Bool) (name : List UInt8) (e : DirEntry)
    (mode : UInt8) (s : FS) : (setupContent ci isDir name e mode s).allocs = s.allocs := by
  unfold setupContent
  split <;> rfl

/-- The handle that an open sets up has the first cluster of the entry. -/
theorem getContentDataCa_setupContent {ci : Int} (hin : inTable ci) (isDir : Bool)
    (name : List UInt8) (e : DirEntry) (mode : UInt8) (s : FS) :
    getContentDataCa ci (setupContent ci isDir name e mode s) = e.dca.toNat := by
  unfold getContentDataCa setupContent FS.setContent
  rw [if_pos hin, if_pos hin]
  simp

/-- An open whose walk is over. -/
theorem openContent_after (L : Layout m) {mode : UInt8} {fuel : Nat} {r : Option DirEntry}
    {al : List Nat} (hci : 0 ≤ (allocCi s).1)
    (hget : getClusterByPath m fuel path mode NO_RCI (allocCi s).2 = some (r, s'))
    (h : Shows m s' v) (hk : Keeps al (allocCi s).2 s') :
    ∃ ci s₂, openContent m fuel NO_RCI (some path) mode s = some (ci, s₂) ∧ Shows m s₂ v ∧
      s₂.allocs.drop s.allocs.length = al ∧
      ((∃ e, r = some e ∧ e.dca.toNat ≠ FAT_CLUSTER_BAD ∧ 0 ≤ ci ∧
          getContentDataCa ci s₂ = e.dca.toNat) ∨
        (ci < 0 ∧ ∀ e, r = some e → e.dca.toNat = FAT_CLUSTER_BAD)) := by
  have hallocs : s'.allocs.drop s.allocs.length = al := by
    rw [hk.allocs, allocCi_allocs, List.drop_left]
  have hneg : ¬ (allocCi s).1 < 0 := not_lt.mpr hci
  have hopen : openContent m fuel NO_RCI (some path) mode s =
      (r.filter fun e => e.dca.toNat ≠ FAT_CLUSTER_BAD).elim
        ((destroyContent fuel (allocCi s).1 (registerError m .entryPathNfoundError s')).map
          fun d => (-2, d.2))
        fun e => some ((allocCi s).1,
          setupContent (allocCi s).1 e.isDir e.fileName.toList e mode s') := by
    unfold openContent
    simp only
    rw [if_neg hneg]
    simp only [hget]
    cases r.filter fun e => e.dca.toNat ≠ FAT_CLUSTER_BAD <;> rfl
  rw [hopen]
  by_cases hfound : ∃ e, r = some e ∧ e.dca.toNat ≠ FAT_CLUSTER_BAD
  · obtain ⟨e, rfl, hbad⟩ := hfound
    have hfilter : (some e).filter (fun e => decide (e.dca.toNat ≠ FAT_CLUSTER_BAD)) = some e := by
      simp [Option.filter, hbad]
    rw [hfilter]
    refine ⟨_, _, rfl, setupContent_shows h, ?_, Or.inl ⟨e, rfl, hbad, hci,
      getContentDataCa_setupContent (allocCi_inTable rfl hci) _ _ _ _ _⟩⟩
    rw [setupContent_allocs]
    exact hallocs
  · have hnone : r.filter (fun e => decide (e.dca.toNat ≠ FAT_CLUSTER_BAD)) = none := by
      cases r with
      | none => rfl
      | some e =>
        have hbad : e.dca.toNat = FAT_CLUSTER_BAD := by
          by_contra hne
          exact hfound ⟨e, rfl, hne⟩
        simp [Option.filter, hbad]
    rw [hnone]
    obtain ⟨hs₂, hk₂⟩ := registerError_shows L h .entryPathNfoundError
    have hroot : ((registerError m .entryPathNfoundError s').contents
        (allocCi s).1.toNat).indexRoot = NO_ECACHE := by
      rw [hk₂.contents, hk.contents]
      cases allocCi_cases s with
      | inl hfull =>
        rw [hfull] at hneg
        exact absurd (show (-1 : Int) < 0 by decide) hneg
      | inr hsome =>
        obtain ⟨i, hi, hroot⟩ := hsome
        rw [hi, Int.toNat_natCast]
        exact hroot
    obtain ⟨b, s₃, hd, hs₃, hall⟩ := destroyContent_shows fuel hs₂ hroot
    simp only [hd]
    refine ⟨-2, s₃, rfl, hs₃, ?_, Or.inr ⟨by decide, fun e he => ?_⟩⟩
    · rw [hall, hk₂.allocs, List.append_nil]
      exact hallocs
    · by_contra hne
      exact hfound ⟨e, he, hne⟩

/-- An open that fits did what its result says. -/
theorem OpenFits.openOk (L : Layout m) {mode : UInt8} (hmode : isCreateMode mode = true)
    (h : Shows m s v) (hplain : ∀ comp ∈ pathComponents path, PlainName comp)
    (hfits : OpenFits m s v path mode) :
    Ensures (fun fuel => openContent m fuel NO_RCI (some path) mode s) (OpenOk m s path) := by
  by_cases hci : 0 ≤ (allocCi s).1
  · obtain ⟨bound, hb⟩ := hfits.walk L hmode h hplain
    refine ⟨bound, fun fuel hfuel => ?_⟩
    obtain ⟨⟨r, s₁⟩, hget, al, v', hs₁, hk, hopened⟩ := hb fuel hfuel
    obtain ⟨ci, s₂, he, hs₂, hallocs, hres⟩ := openContent_after L hci hget hs₁ hk
    refine ⟨(ci, s₂), he, fun hpos => ?_, fun hneg n hn hbad => ?_⟩
    · obtain ⟨e, hr, hne, -, hca⟩ | ⟨hneg, -⟩ := hres
      · obtain ⟨⟨S, hroute⟩, hused, -⟩ := hopened.found e hr
        have hres := (hroute.resolves L hs₂).resolve_left fun hno => pathComponents_ne_nil hno.1
        refine ⟨Ensures.map (hres.imp fun x hx => ?_), hres.imp fun x hx => ?_, ?_⟩
        · obtain ⟨x, s₃⟩ := x
          obtain ⟨e', he', hdca⟩ := hx
          obtain rfl : x = some e' := he'
          simp [hdca, hne]
        · rw [hca]
          exact hx
        · rw [hca, hs₂.view_eq]
          exact hused
      · exact absurd hpos (not_le.mpr hneg)
    · rw [hallocs] at hn
      obtain ⟨e, hr, hne, hpos, -⟩ | ⟨-, hbadr⟩ := hres
      · exact absurd hneg (not_lt.mpr hpos)
      · cases hr : r with
        | some e =>
          rw [(hopened.found e hr).2.2 (hbadr e hr)] at hn
          exact absurd hn List.not_mem_nil
        | none =>
          unfold Accounted
          rw [hs₂.view_eq]
          obtain hf | ⟨pre, d, S, ds, hpre, hne, hroute, hds, hn⟩ := hopened.lost hr n hn hbad
          · exact Or.inl hf
          · exact Or.inr ⟨pre, d, ds, hpre, hne, hroute.resolves L hs₂, hds, hn⟩
  · obtain hfull | ⟨i, hi, -⟩ := allocCi_cases s
    · refine ⟨0, fun fuel _ => ⟨(-1, registerError m .ctableFullError s), ?_,
        fun hpos => absurd hpos (show ¬ (0 : Int) ≤ -1 by decide), fun _ n hn _ => ?_⟩⟩
      · show openContent m fuel NO_RCI (some path) mode s = _
        unfold openContent
        simp only [hfull]
        rfl
      · rw [(registerError_shows L h .ctableFullError).2.allocs, List.append_nil,
          List.drop_length] at hn
        exact absurd hn List.not_mem_nil
    · omega

/-- The lookup of a path with a missing component. -/
theorem Misses.run (L : Layout m) (h : Shows m s v) {cs : List Nat}
    (hmiss : Misses m v path dir cs comp rest) {fuel : Nat} (hfuel : m.fi.totalClusters ≤ fuel) :
    ∃ s' v' s₁, contentExists m fuel path s = some (false, s') ∧ Shows m s' v' ∧ Keeps [] s s' ∧
      Misses m v' path dir cs comp rest ∧ v'.fat = v.fat ∧
      (∀ k, v.fat k = FAT_CLUSTER_FREE → v'.raw k = v.raw k) ∧
      v'.addCluster m cs = v.addCluster m cs ∧
      entrySearch m fuel (nameToFatname comp) dir 0 s₁ = some (none, s') ∧
      ∀ mode, getClusterByPath m fuel path mode NO_RCI s
        = pathLoop m fuel mode (comp :: rest) NO_RCI dir s₁ := by
  obtain ⟨⟨pre, S, hpath, hr, hapart⟩, hshort, hmissing, hnamed⟩ := hmiss
  obtain ⟨s₁, v₁, hs₁, hk, hfat, hraw, hr₁, -, hrun⟩ := hr.run L h hfuel
  obtain ⟨hmissing₁, hadd₁⟩ := hmissing.frame hapart hfat hraw
  have hlen : cs.length ≤ fuel := Nat.le_trans (hmissing.chain.length_le L) hfuel
  obtain ⟨s₂, v₂, he₂, hs₂, hk₂, hview⟩ := entrySearch_none L hlen hmissing₁.chain hs₁
    hmissing₁.sound (hmissing₁.none_ hshort)
  have hr₂ : Route m v₂ m.fi.extRootCluster pre S dir :=
    hr₁.frame (fun k _ => by rw [hview.fat]) fun k hk => hview.raw k (hapart hk)
  refine ⟨s₂, v₂, s₁, contentExists_missing hshort hpath ((hrun _).1 _ (List.cons_ne_nil _ _)) he₂,
    hs₂, hk.nil_trans hk₂, ⟨⟨pre, S, hpath, hr₂, hapart⟩, hshort, hmissing₁.of_view hview, hnamed⟩,
    hview.fat.trans hfat, fun k hk => ?_, hview.addCluster.trans hadd₁, he₂, fun mode => ?_⟩
  · rw [hview.raw k fun hm => hmissing.chain.not_free L hm hk,
      hraw k fun hm => hr.not_free L k hm hk]
  · show pathLoop m fuel mode (pathComponents path) NO_RCI m.fi.extRootCluster s = _
    rw [hpath]
    exact (hrun mode).1 _ (List.cons_ne_nil _ _)

/-- An open that did what its result says found room for the entry, when only the last component
was missing. -/
theorem Misses.room (L : Layout m) {mode : UInt8} (hmode : isCreateMode mode = true)
    (h : Shows m s v) (hplain : PlainName comp) {cs : List Nat}
    (hmiss : Misses m v path dir cs comp [])
    (hci : 0 ≤ (allocCi s).1)
    (hok : Ensures (fun fuel => openContent m fuel NO_RCI (some path) mode s) (OpenOk m s path)) :
    Room m s v cs path := by
  intro hfull
  obtain ⟨bound, hb⟩ := hok
  refine ⟨max bound (m.fi.totalClusters + 1), fun fuel hfuel => ?_⟩
  obtain ⟨s₁, v₁, s₀, hexists, hs₁, hk₁, hmiss₁, hfat₁, hraw₁, hadd₁, he₁, hget⟩ :=
    hmiss.run L (allocCi_shows h) (show m.fi.totalClusters ≤ fuel by omega)
  refine ⟨_, hexists, fun hone => ?_⟩
  have hlen : cs.length + 1 ≤ fuel := by
    have := hmiss.missing.chain.length_le L
    omega
  -- the directory does not grow, so it does not matter by what
  obtain ⟨r, s₂, v₂, he₂, hstep⟩ := createOnPath_shows L hlen hmiss₁.missing.chain hs₁
    hmiss₁.missing.sound (hmiss.missing.named hmiss.short) hplain.first_ne_end
    (fun _ hne => absurd hone.2 hne)
    (decide (([] : List (List UInt8)) ≠ []) ∨ getModeTarget mode ≠ FILE_TARGET)
  have hwalk : getClusterByPath m fuel path mode NO_RCI (allocCi s).2 = some (r, s₂) := by
    have hstep := (pathStep_create hmode hmiss.short he₁
      (decide (([] : List (List UInt8)) ≠ []))).trans he₂
    rw [hget]
    cases r with
    | none => exact pathLoop_stop hstep
    | some e => exact pathLoop_go hstep
  cases hstep with
  | noCluster _ _ hbad => exact hone.1 hbad
  | added _ _ _ _ _ _ hroom _ => exact hroom ⟨hadd₁.trans hfull, hone⟩
  | noSlot hs₂ hk₂ hin hfree _ _ =>
    -- the new cluster is free again, and the open hands it out
    obtain ⟨ci, s₃, he₃, hs₃, -, hres⟩ := openContent_after L hci hwalk hs₂ (hk₁.nil_trans hk₂)
    obtain ⟨x, hx, hok⟩ := hb fuel (by omega)
    obtain rfl : (ci, s₃) = x := Option.some.inj (he₃.symm.trans hx)
    obtain ⟨e, he, -, hpos, -⟩ | ⟨-, hbad⟩ := hres
    · obtain ⟨bound', hb'⟩ := (hok.created hpos).1
      obtain ⟨y, hy, htrue⟩ := hb' (max bound' m.fi.totalClusters) (Nat.le_max_left _ _)
      obtain ⟨s₄, _, _, hno, _⟩ := hmiss₁.run L hs₃ (Nat.le_max_right bound' _)
      obtain rfl : (false, s₄) = y := Option.some.inj (hno.symm.trans hy)
      cases htrue
    · exact L.ne_bad hin (hbad _ rfl)

/-- An open that did what its result says found a content that is in use, when the whole path was
there. -/
theorem Route.used (L : Layout m) {mode : UInt8} (h : Shows m s v)
    (hr : Route m v m.fi.extRootCluster (pathComponents path) S dir) (hbad : dir ≠ FAT_CLUSTER_BAD)
    (hci : 0 ≤ (allocCi s).1)
    (hok : Ensures (fun fuel => openContent m fuel NO_RCI (some path) mode s) (OpenOk m s path)) :
    v.fat dir ≠ FAT_CLUSTER_FREE := by
  obtain ⟨bound, hb⟩ := hok
  obtain ⟨x, hx, hok⟩ := hb (max bound m.fi.totalClusters) (Nat.le_max_left _ _)
  obtain ⟨s₁, v₁, hs₁, hk, hfat, -, -, -, hrun⟩ := hr.run L (allocCi_shows h)
    (Nat.le_max_right bound _)
  obtain ⟨e, he, rfl⟩ := (hrun mode).2.1 pathComponents_ne_nil
  obtain ⟨ci, s₂, he₂, hs₂, -, hres⟩ := openContent_after L hci he hs₁ hk
  obtain rfl : (ci, s₂) = x := Option.some.inj (he₂.symm.trans hx)
  obtain ⟨e', he', -, hpos, hca⟩ | ⟨-, hbad'⟩ := hres
  · obtain rfl := Option.some.inj he'
    have hused := (hok.created hpos).2.2
    rw [hca, hs₂.view_eq, hfat] at hused
    exact hused
  · exact absurd (hbad' e rfl) hbad

/-- Where only the last component is missing, no directory is made on the way to it. -/
theorem Misses.comesUpEmpty (L : Layout m) (h : Shows m s v)
    (hmiss : Misses m v path dir cs comp []) (mode : UInt8) : ComesUpEmpty m s path mode := by
  obtain ⟨pre, S, hpath, hr, -⟩ := hmiss.path_eq
  refine ⟨m.fi.totalClusters, fun fuel hfuel x hx hmakes comp' rest' hrest => ?_⟩
  rw [hpath] at hx
  obtain ⟨s', hlast⟩ := hr.makes_behind L (allocCi_shows h) hfuel hx hmakes
  cases hlast with
  | here => exact absurd hrest.symm (List.cons_ne_nil _ _)
  | next _ hx => cases hx

end Main

/-! ### A full root directory -/

/-- The mode of an open that creates a file to read and write. -/
def createFileMode : UInt8 := 0b00010111

/-- The four entries of a full directory. -/
def fullSlots : List DirEntry :=
  [storedIn (letterFile 0x41 3) 2, storedIn (letterFile 0x42 4) 2, storedIn (letterFile 0x43 5) 2,
    storedIn (letterFile 0x44 6) 2]

/-- The small volume with a full root directory, and `7` as its only free cluster. -/
def fullVol : Vol :=
  (smallVol.setFat 6 FAT_CLUSTER_END).setSlots (smallMount 0) 2 (smallVol.raw 2) fullSlots

theorem letterFile_storable {c : UInt8} (hfree : c ≠ ENTRY_FREE) (hlast : c ≠ ENTRY_END)
    (dca : Nat) : Storable (letterFile c dca) := createEntry_storable hfree hlast

theorem fullVol_stored (contents : Nat → Content) : Stored (smallMount 0) contents fullVol := by
  have L := smallMount_layout (Nat.zero_le 1)
  exact ((smallVol_stored contents).setFat L (by decide) (by decide)).setRaw L (by decide)
    (length_repackCluster rfl List.length_replicate)

theorem fullVol_slots : fullVol.slots (smallMount 0) 2 = fullSlots :=
  Vol.slots_setSlots_self rfl List.length_replicate

/-- `7` is the only free cluster. -/
theorem fullVol_free {n : Nat} (hn : InVol (smallMount 0) n) :
    (n = 7 ∧ fullVol.fat n = FAT_CLUSTER_FREE) ∨ fullVol.fat n = FAT_CLUSTER_END := by
  obtain ⟨h₁, h₂⟩ : 2 ≤ n ∧ n < 8 := hn
  obtain h | rfl : n < 7 ∨ n = 7 := by omega
  · right
    obtain rfl | rfl | rfl | rfl | rfl : n = 2 ∨ n = 3 ∨ n = 4 ∨ n = 5 ∨ n = 6 := by omega
    all_goals rfl
  · exact Or.inl ⟨rfl, rfl⟩

/-- The entries of the full directory are no slots to take, and none has the name. -/
theorem mem_fullSlots {e : DirEntry} (he : e ∈ fullSlots) : e.Valid ∧ addable e = false ∧
    Matches (nameToFatname [0x45]) e = false := by
  have hone : ∀ (c : UInt8) (dca : Nat), c ≠ ENTRY_FREE → c ≠ ENTRY_END →
      nameEq (nameToFatname [0x45]) (letterName c) = false →
      (storedIn (letterFile c dca) 2).Valid ∧ addable (storedIn (letterFile c dca) 2) = false ∧
        Matches (nameToFatname [0x45]) (storedIn (letterFile c dca) 2) = false :=
    fun c dca hfree hlast hname => by
      have hst := letterFile_storable hfree hlast dca
      refine ⟨hst.valid 2, hst.not_addable 2, ?_⟩
      unfold Matches
      rw [storedIn_fileName, show (letterFile c dca).fileName = letterName c from rfl, hname,
        Bool.and_false]
  unfold fullSlots at he
  simp only [List.mem_cons, List.not_mem_nil, or_false] at he
  obtain rfl | rfl | rfl | rfl := he
  all_goals exact hone _ _ (by decide) (by decide) (by decide)

theorem fullVol_misses : Misses (smallMount 0) fullVol [0x45] 2 [2] [0x45] [] where
  path_eq := ⟨[], [], rfl, .here 2, List.disjoint_nil_left _⟩
  short := by decide
  missing := {
    chain := .single (by decide) rfl
    sound := fun c hc => by
      rw [List.mem_singleton.mp hc, fullVol_slots]
      exact fun e he _ => Or.inl (mem_fullSlots ((List.takeWhile_sublist _).subset he)).1
    none_ := fun _ => by
      unfold Vol.first
      rw [List.find?_eq_none]
      intro x hx
      obtain ⟨hc, hx⟩ := Vol.mem_entries.mp hx
      rw [List.mem_singleton.mp hc] at hx
      have hmem : x.2 ∈ fullSlots := by
        have hlive : x.2 ∈ live (fullVol.slots (smallMount 0) 2) := hx
        rw [fullVol_slots] at hlive
        exact (List.takeWhile_sublist _).subset (mem_live.mp hlive).1
      simp [(mem_fullSlots hmem).2.2]
    named := fun _ => by decide }
  named := fun x hx => absurd hx List.not_mem_nil

/-- The scan of `alloc_cluster` takes a free cluster when all clusters before it are in use. -/
theorem allocScan_used (L : Layout m) (offt : Nat) {n : Nat} (hfree : v.fat n = FAT_CLUSTER_FREE)
    {passes c skip : Nat} (hle : c ≤ n) (hpasses : n < c + passes) (h : Shows m s v)
    (hused : ∀ k, c ≤ k → k < n → v.fat k = FAT_CLUSTER_END) :
    (allocScan m offt passes c skip s).1 = n := by
  have hn : InVol m n := h.inVol_of_fat (by rw [hfree]; decide)
  induction passes generalizing c s with
  | zero => omega
  | succ passes ih =>
    have hlt : ¬ m.fi.totalClusters ≤ c := by
      have := hn.2
      omega
    obtain ⟨s₁, he, hs₁, -⟩ := readFat_shows L h c
    unfold allocScan
    rw [if_neg hlt, he]
    by_cases heq : c = n
    · subst heq
      obtain ⟨s₂, he₂, -, -⟩ := claimCluster_shows L hs₁ hn offt
      simp only [hfree, if_true, he₂]
    · have hend := hused c (Nat.le_refl c) (by omega)
      have h₁ : ¬ FAT_CLUSTER_END = FAT_CLUSTER_FREE := by decide
      have h₂ : ¬ (FAT_CLUSTER_END = FAT_CLUSTER_BAD ∨ FAT_CLUSTER_END = FAT_CLUSTER_RESERVED) := by
        decide
      simp only [hend, if_neg h₁, if_neg h₂]
      exact ih (by omega) (by omega) hs₁ fun k hk => hused k (by omega)

/-- The scan skips a bad cluster. -/
theorem allocScan_bad (L : Layout m) (offt : Nat) {passes c skip : Nat}
    (hlt : c < m.fi.totalClusters) (hbad : v.fat c = FAT_CLUSTER_BAD) (h : Shows m s v) :
    ∃ s', allocScan m offt (passes + 1) c skip s
      = allocScan m offt passes (c + skip + 1) (skip + 1) s' ∧ Shows m s' v := by
  obtain ⟨s₁, he, hs₁, -⟩ := readFat_shows L h c
  have h₁ : ¬ FAT_CLUSTER_BAD = FAT_CLUSTER_FREE := by decide
  refine ⟨s₁, ?_, hs₁⟩
  conv => lhs; unfold allocScan
  rw [if_neg (Nat.not_le.mpr hlt), he, hbad]
  simp only [if_neg h₁, true_or, if_true]

/-- Wherever the allocator of the small volume looks first, it finds a free cluster, when the ones
in front of a free cluster behind `5` are all in use. -/
theorem smallMount_alloc (h : Shows (smallMount 0) s v) {n : Nat}
    (hfree : v.fat n = FAT_CLUSTER_FREE) (hn : 6 ≤ n)
    (hall : ∀ k, 2 ≤ k → k < n → v.fat k = FAT_CLUSTER_END) :
    v.fat (allocNext (smallMount 0) s).1 = FAT_CLUSTER_FREE := by
  have L := smallMount_layout (Nat.zero_le 1)
  have hlt : n < 8 := (h.inVol_of_fat (by rw [hfree]; decide) : InVol (smallMount 0) n).2
  have hbad : ∀ c, c < 2 → v.fat c = FAT_CLUSTER_BAD := fun c hc =>
    h.fat_outside fun hin => absurd (show 2 ≤ c from hin.1) (Nat.not_le.mpr hc)
  have hused : ∀ c, 2 ≤ c → ∀ k, c ≤ k → k < n → v.fat k = FAT_CLUSTER_END :=
    fun c hc k hk => hall k (Nat.le_trans hc hk)
  have hscan : ∀ (offt c : Nat) (t : FS), c < 6 → Shows (smallMount 0) t v →
      (allocScan (smallMount 0) offt 8 c 0 t).1 = n := fun offt c t hc ht => by
    obtain hlow | rfl | rfl : 2 ≤ c ∨ c = 0 ∨ c = 1 := by omega
    · exact allocScan_used L offt hfree (by omega) (by omega) ht (hused c hlow)
    · obtain ⟨t₁, he₁, ht₁⟩ := allocScan_bad L offt
        (show 0 < 8 by decide) (hbad 0 (by decide)) ht
      obtain ⟨t₂, he₂, ht₂⟩ := allocScan_bad L offt
        (show 1 < 8 by decide) (hbad 1 (by decide)) ht₁
      rw [he₁, he₂]
      exact allocScan_used L offt hfree (by omega) (by omega) ht₂ (hused 3 (by decide))
    · obtain ⟨t₁, he₁, ht₁⟩ := allocScan_bad L offt
        (show 1 < 8 by decide) (hbad 1 (by decide)) ht
      rw [he₁]
      exact allocScan_used L offt hfree (by omega) (by omega) ht₁ (hused 2 (by decide))
  have hsearch : ∀ (offt : Nat) (t : FS), offt < 6 → Shows (smallMount 0) t v →
      v.fat (allocSearch (smallMount 0) offt t).1 = FAT_CLUSTER_FREE := fun offt t hlt ht => by
    have hoff : offt ≠ NO_CLUSTER_OFFSET := Nat.ne_of_lt (Nat.lt_trans hlt (by decide))
    unfold allocSearch
    simp only [if_neg hoff]
    split
    · exact (congrArg v.fat (hscan offt offt t hlt ht)).trans hfree
    · obtain ⟨t₁, he, ht₁, -⟩ := readFat_shows L ht (fatmapFindFree (smallMount 0) offt 1 t)
      rw [he]
      simp only
      split
      · rename_i hf
        have hin : InVol (smallMount 0) _ := ht.inVol_of_fat (by rw [hf]; decide)
        obtain ⟨t₂, he₂, -, -⟩ := claimCluster_shows L ht₁ hin offt
        rw [he₂]
        exact hf
      · exact (congrArg v.fat (hscan offt offt t₁ hlt ht₁)).trans hfree
  unfold allocNext getClusterOffset
  rw [if_neg (show ¬ (smallMount 0).fi.entryOffset = -1 by decide)]
  exact hsearch _ _ (Nat.mod_lt _ (by decide)) (h.congr rfl rfl)

/-- On the full volume it finds the cluster `7`. -/
theorem fullVol_alloc (h : Shows (smallMount 0) s v) (hfat : v.fat = fullVol.fat) :
    (allocNext (smallMount 0) s).1 = 7 := by
  have hused : ∀ k, 2 ≤ k → k < 7 → v.fat k = FAT_CLUSTER_END := fun k hk hlt => by
    rw [hfat]
    have hin : InVol (smallMount 0) k := ⟨hk, Nat.lt_succ_of_lt hlt⟩
    exact (fullVol_free hin).resolve_left fun heq => Nat.ne_of_lt hlt heq.1
  have hpick := smallMount_alloc h (by rw [hfat]; rfl) (show 6 ≤ 7 by decide) hused
  have hin : InVol (smallMount 0) (allocNext (smallMount 0) s).1 :=
    h.inVol_of_fat (by rw [hpick]; decide)
  rw [hfat] at hpick
  obtain heq | hend := fullVol_free hin
  · exact heq.1
  · rw [hend] at hpick
    exact absurd hpick (by decide)

/-- The first handle is free in an empty table. -/
theorem allocCi_emptyTable (h : s.contents = emptyTable) : 0 ≤ (allocCi s).1 := by
  have hslot : emptySlot s CONTENT_TABLE_SIZE 0 = some 0 := by
    unfold emptySlot
    rw [h]
    rfl
  unfold allocCi
  rw [hslot]
  exact Int.le_refl 0

theorem rootVol_slots : rootVol.slots (smallMount 0) 2 = List.replicate 4 zeroSlot :=
  slotsIn_zero (m := smallMount 0)

/-- In an empty root directory the file `E` is missing and has room. -/
theorem rootVol_misses : Misses (smallMount 0) rootVol [0x45] 2 [2] [0x45] [] ∧
    rootVol.addCluster (smallMount 0) [2] = some 2 := by
  have hlive : rootVol.live (smallMount 0) 2 = [] := by
    show live (rootVol.slots (smallMount 0) 2) = []
    rw [rootVol_slots]
    exact live_cons_end first_zeroSlot
  have hslot : (rootVol.slots (smallMount 0) 2).any addable = true := by
    rw [rootVol_slots, List.any_eq_true]
    exact ⟨zeroSlot, List.mem_cons_self, (addable_iff _).mpr (Or.inr first_zeroSlot)⟩
  have hadd : rootVol.addCluster (smallMount 0) [2] = some 2 := by
    unfold Vol.addCluster
    exact List.find?_cons_of_pos hslot
  refine ⟨⟨⟨[], [], rfl, .here 2, List.disjoint_nil_left _⟩, by decide,
    ⟨.single (by decide) rfl, fun c hc => ?_, fun _ => ?_, fun _ => by decide⟩,
    fun x hx => absurd hx List.not_mem_nil⟩, hadd⟩
  · rw [List.mem_singleton.mp hc, rootVol_slots]
    intro e he
    have hvis : visible (List.replicate 4 zeroSlot) = [] := visible_cons_end first_zeroSlot
    rw [hvis] at he
    exact absurd he List.not_mem_nil
  · unfold Vol.first
    rw [Vol.entries_cons, hlive]
    rfl

end NiFat32
