import NiFat32.Proofs.OpenPath

/-!
# `Proofs.Reserve`: creating a content with reserved clusters

`NIFAT32_put_content` takes a cluster for the content, adds the entry, and then extends the content
cluster by cluster. It gives the first cluster back when the entry finds no slot. The loop that
extends the content looks at no result: when the space runs out, the call reports a content with
all its clusters, and the content has fewer.

`put_all_or_nothing_iff` says when the call does what it reports. `PutFits` is the condition behind
the search for the name.
-/

set_option autoImplicit false

namespace NiFat32

open Run

variable {m : Mount} {s s' s₁ : FS} {v v' v₁ : Vol} {ca : Nat} {cs : List Nat}

/-! ### Searches before and after -/

/-- Every search in the directory at `ca`, with any index, gives the same from both states. -/
def SameFinds (m : Mount) (ca : Nat) (s s' : FS) : Prop :=
  ∀ cache name, ∃ bound, ∀ fuel, bound ≤ fuel →
    (entrySearch m fuel name ca cache s').map Prod.fst
      = (entrySearch m fuel name ca cache s).map Prod.fst

/-- A search that asks the index first. -/
theorem entrySearch_indexed (m : Mount) (fuel : Nat) (name : Name) (ca cache : Nat) (s : FS) :
    entrySearch m fuel name ca cache s =
      (if cache = 0 then some 0 else ecacheFind (hashName name) s.heap fuel cache).bind fun node =>
        if node ≠ 0 then
          some (some (createEntry name (Heap.isDir s.heap node) (s.heap node).ca 0), s)
        else entrySearch m fuel name ca 0 s := by
  conv => lhs; unfold entrySearch
  generalize (if cache = 0 then some 0 else ecacheFind (hashName name) s.heap fuel cache) = found
  cases found with
  | none => rfl
  | some node => by_cases hnode : node = 0 <;> simp [hnode, entrySearch]

/-- The searches depend on the entries of the directory and on the index. -/
theorem SameFinds.of_same (L : Layout m) (hc : HasChain m v ca cs) (h : Shows m s v)
    (hs : SoundDir m v cs) (h' : Shows m s' v') (hsame : SameDir m v v' cs)
    (hheap : s'.heap = s.heap) : SameFinds m ca s s' := by
  intro cache name
  refine ⟨cs.length, fun fuel hfuel => ?_⟩
  have hc' : HasChain m v' ca cs := hc.congr fun c _ => by rw [hsame.fat]
  obtain ⟨t, -, he, -⟩ := entrySearch_shows L hfuel hc h hs name
  obtain ⟨t', -, he', -⟩ := entrySearch_shows L hfuel hc' h' hsame.sound name
  rw [entrySearch_indexed m fuel name ca cache s, entrySearch_indexed m fuel name ca cache s',
    hheap, he, he', Vol.first_congr hsame.entries]
  generalize (if cache = 0 then some 0 else ecacheFind (hashName name) s.heap fuel cache) = found
  cases found with
  | none => rfl
  | some node => by_cases hnode : node = 0 <;> simp [hnode]

/-! ### Names that no search finds -/

/-- The name marks neither a free slot nor the end of a directory. -/
def Name.Findable (name : Name) : Prop :=
  Name.first name ≠ ENTRY_FREE ∧ Name.first name ≠ ENTRY_END

/-- Equal names start with the same byte. -/
theorem first_of_nameEq {a b : Name} (h : nameEq a b = true) : Name.first a = Name.first b := by
  have hcons : ∀ c : Name, ∃ l, c.toList = Name.first c :: l := fun c => by
    cases hl : c.toList with
    | nil =>
      have hlen : c.toList.length = 11 := Vector.length_toList
      rw [hl] at hlen
      cases hlen
    | cons x l =>
      refine ⟨l, ?_⟩
      have hget : c.toList[0]? = some (Name.first c) := by simp [Name.first]
      rw [hl] at hget
      rw [Option.some.inj hget]
  obtain ⟨l, hl⟩ := hcons a
  obtain ⟨k, hk⟩ := hcons b
  unfold nameEq at h
  rw [decide_eq_true_eq, hl, hk, strncmp] at h
  split at h
  · have hnat : (Name.first a).toNat = (Name.first b).toNat := by omega
    exact UInt8.toNat_inj.mp hnat
  · rename_i hsame
    by_contra hne
    exact hsame (Or.inl hne)

/-- The walk of a search for such a name passes every slot. -/
theorem slotLoop_unfindable {name : Name} (hname : ¬ name.Findable) (ca i : Nat)
    (slots : List DirEntry) (s : FS) :
    ∃ slots', slotLoop (searchHandler name) ca i slots none s = some (false, slots', none, s) := by
  induction slots generalizing i with
  | nil => exact ⟨[], rfl⟩
  | cons e es ih =>
    unfold slotLoop
    by_cases hend : e.first = ENTRY_END
    · exact ⟨e :: es, if_pos hend⟩
    · obtain ⟨es', he⟩ := ih (i + 1)
      have hpass : ∃ e', searchHandler name ⟨ca, i⟩ e none s = some (false, e', none, s) := by
        unfold searchHandler
        have hkept : (validateEntry e).2.first = e.first := by
          unfold validateEntry
          split <;> rfl
        generalize validateEntry e = checked at hkept
        obtain ⟨valid, e'⟩ := checked
        simp only at hkept ⊢
        split
        · exact ⟨e', rfl⟩
        · rename_i hlive
          split
          · exact ⟨e', rfl⟩
          · split
            · exact ⟨e', rfl⟩
            · -- a slot that matches is not free and not the end, and the name starts like it
              rename_i heq
              have hfirst : Name.first name = e'.first :=
                first_of_nameEq (by simpa using heq)
              refine absurd ⟨?_, ?_⟩ hname
              · rw [hfirst]
                exact fun hf => hlive (Or.inr hf)
              · rw [hfirst, hkept]
                exact hend
      obtain ⟨e', he'⟩ := hpass
      exact ⟨e' :: es', by rw [if_neg hend, he']; simp only [he, Option.map_some]⟩

/-- A search for such a name finds nothing, in any directory. -/
theorem entrySearch_unfindable {name : Name} (hname : ¬ name.Findable) {fuel : Nat}
    {x : Option DirEntry × FS} (h : entrySearch m fuel name ca 0 s = some x) : x.1 = none := by
  have hwalk : ∀ fuel ca s y, entryIterate m (searchHandler name) fuel ca none s = some y →
      y.1 = false := by
    intro fuel
    induction fuel with
    | zero => intro ca s y hy; cases hy
    | succ fuel ih =>
      intro ca s y hy
      unfold entryIterate at hy
      split at hy
      · rw [← Option.some.inj hy]
      · rename_i enc dec s₀ _
        obtain ⟨slots, he⟩ := slotLoop_unfindable hname ca 0 (slotsOf (entriesPerCluster m) dec) s₀
        simp only [he] at hy
        split at hy
        · rw [← Option.some.inj hy]
        · split at hy
          · exact ih _ _ _ hy
          · rw [← Option.some.inj hy]
  unfold entrySearch at h
  simp only [if_true, ne_eq, not_true_eq_false, if_false] at h
  obtain ⟨y, hy, rfl⟩ := Option.map_eq_some_iff.mp h
  simp [hwalk _ _ _ _ hy]

/-! ### The loop that extends the content -/

/-- The allocator gives a cluster for each of the next `n` steps of the loop, from the last cluster
`lca` on. -/
def Extends (m : Mount) : (n lca : Nat) → FS → Prop
  | 0, _, _ => True
  | n + 1, lca, s => (allocNext m s).1 ≠ FAT_CLUSTER_BAD ∧
    Extends m n (allocNext m s).1 (addClusterToChain m lca s).2

/-- The clusters that the loop gets in its `n` steps, before it fails. -/
def extension (m : Mount) : (n lca : Nat) → FS → List Nat
  | 0, _, _ => []
  | n + 1, lca, s =>
    if (allocNext m s).1 = FAT_CLUSTER_BAD then []
    else (allocNext m s).1 :: extension m n (allocNext m s).1 (addClusterToChain m lca s).2

/-- All of them are there when the allocator gives a cluster for each step. -/
theorem length_extension (m : Mount) (n lca : Nat) (s : FS) :
    (extension m n lca s).length = n ↔ Extends m n lca s := by
  induction n generalizing lca s with
  | zero => exact ⟨fun _ => trivial, fun _ => rfl⟩
  | succ n ih =>
    unfold extension Extends
    by_cases hbad : (allocNext m s).1 = FAT_CLUSTER_BAD
    · rw [if_pos hbad]
      constructor
      · intro hlen
        cases hlen
      · intro hext
        exact absurd hbad hext.1
    · rw [if_neg hbad, List.length_cons, Nat.succ_inj, ih]
      exact ⟨fun hext => ⟨hbad, hext⟩, fun hext => hext.2⟩

/-- Behind a step that failed there is no cluster to link to, so the new one is given back. -/
theorem addClusterToChain_bad (L : Layout m) (h : Shows m s v) :
    ∃ s', addClusterToChain m FAT_CLUSTER_BAD s = (FAT_CLUSTER_BAD, s') ∧ Shows m s' v := by
  obtain ⟨n, s₁, he₁, ha, -⟩ := allocNext_shows L h
  unfold addClusterToChain
  rw [he₁]
  cases ha with
  | inl hbad =>
    obtain ⟨rfl, hs₁⟩ := hbad
    exact ⟨_, rfl, (registerError_shows L hs₁ .allocatedClusterBadError).1⟩
  | inr hok =>
    obtain ⟨hn, hfree, hs₁⟩ := hok
    obtain ⟨s₂, he₂, hs₂, -⟩ := setClusterEnd_shows L hs₁ hn
    rw [Vol.setFat_setFat] at hs₂
    obtain ⟨s₃, he₃, hs₃, -⟩ := writeFat_outside L hs₂ L.not_inVol_bad n
    have hs₃' := (registerError_shows L hs₃ .writeFatError).1
    obtain ⟨s₄, he₄, hs₄, -⟩ := deallocCluster_shows L hs₃' hn
    rw [Vol.setFat_back hfree] at hs₄
    simp only [if_neg (L.ne_bad hn), he₂, he₃, he₄]
    exact ⟨s₄, rfl, hs₄⟩

theorem reserveLoop_bad (L : Layout m) (n : Nat) (h : Shows m s v) :
    Shows m (reserveLoop m n FAT_CLUSTER_BAD s) v := by
  induction n generalizing s with
  | zero => exact h
  | succ n ih =>
    obtain ⟨s', he, hs'⟩ := addClusterToChain_bad L h
    unfold reserveLoop
    rw [he]
    exact ih hs'

/-- A step that extends a chain returns the cluster of the allocator. -/
theorem addClusterToChain_alloc (L : Layout m) (h : Shows m s v) {last : Nat}
    (hlast : InVol m last) : (allocNext m s).1 = (addClusterToChain m last s).1 := by
  obtain ⟨n, s₁, he₁, ha, -⟩ := allocNext_shows L h
  unfold addClusterToChain
  rw [he₁]
  cases ha with
  | inl hbad =>
    obtain ⟨rfl, -⟩ := hbad
    rfl
  | inr hok =>
    obtain ⟨hn, -, hs₁⟩ := hok
    obtain ⟨s₂, he₂, hs₂, -⟩ := setClusterEnd_shows L hs₁ hn
    obtain ⟨s₃, he₃, -, -⟩ := writeFat_shows L hs₂ (x := n) hlast (L.lt_value hn)
    simp only [if_neg (L.ne_bad hn), he₂, he₃]

/-- What the loop leaves: the chain has grown by the clusters that the loop got, which were free. -/
theorem reserveLoop_shows (L : Layout m) (n : Nat) {last : Nat} (h : Shows m s v)
    (hc : HasChain m v ca (cs ++ [last])) :
    ∃ v', Shows m (reserveLoop m n last s) v' ∧ v'.raw = v.raw ∧
      HasChain m v' ca (cs ++ [last] ++ extension m n last s) ∧
      (∀ k ∈ extension m n last s, v.fat k = FAT_CLUSTER_FREE) ∧
      ∀ k, k ≠ last → v.fat k ≠ FAT_CLUSTER_FREE → v'.fat k = v.fat k := by
  induction n generalizing s v cs last with
  | zero =>
    refine ⟨v, h, rfl, ?_, fun k hk => absurd hk List.not_mem_nil, fun _ _ _ => rfl⟩
    rw [extension, List.append_nil]
    exact hc
  | succ n ih =>
    have hlast : InVol m last := hc.inVol last (by simp)
    obtain ⟨k, s₁, he, -, hcases⟩ := addClusterToChain_shows L h hlast
    have hpick : (allocNext m s).1 = k := by rw [addClusterToChain_alloc L h hlast, he]
    unfold reserveLoop extension
    rw [he, hpick]
    cases hcases with
    | inl hbad =>
      obtain ⟨rfl, hs₁⟩ := hbad
      rw [if_pos rfl, List.append_nil]
      exact ⟨v, reserveLoop_bad L n hs₁, rfl, hc, fun k hk => absurd hk List.not_mem_nil,
        fun _ _ _ => rfl⟩
    | inr hok =>
      obtain ⟨hk, hfree, hs₁⟩ := hok
      obtain ⟨v', hs', hraw, hc', hnew, hother⟩ := ih hs₁ (hc.link L hk hfree)
      rw [if_neg (L.ne_bad hk)]
      refine ⟨v', hs', hraw, by simpa using hc', fun j hj => ?_, fun j hj hused => ?_⟩
      · cases List.mem_cons.mp hj with
        | inl heq => rw [heq]; exact hfree
        | inr hj =>
          have hj' := hnew j hj
          have hend : FAT_CLUSTER_END ≠ FAT_CLUSTER_FREE := by decide
          have hnl : k ≠ last := fun heq => hc.not_free L (by simp) (heq ▸ hfree)
          by_cases hjl : j = last
          · rw [hjl, Vol.link_fat_last] at hj'
            exact absurd hj' (L.ne_free hk)
          · by_cases hjk : j = k
            · rw [hjk]
              exact hfree
            · rwa [Vol.link_fat_ne _ hjl hjk] at hj'
      · -- a cluster in use is not the one that was linked
        have hjk : j ≠ k := fun heq => hused (heq ▸ hfree)
        have hsame : (v.link last k).fat j = v.fat j := v.link_fat_ne hj hjk
        rw [hother j hjk (hsame ▸ hused), hsame]

/-! ### The call -/

/-- The state in which the content has its first cluster, as the end of its chain. -/
def contentTaken (m : Mount) (s : FS) : FS :=
  (setClusterEnd m (pickContent m s) (allocNext m s).2).2

/-- The entry that is put. -/
def putEntry (m : Mount) (info : CInfo) (reserve : Int) (n : Nat) : DirEntry :=
  createEntry info.fullName (info.type = STAT_DIR) n (reserve * m.fi.clusterSize % 2 ^ 32).toNat

/-- There is no cluster for the content, or none for the full directory with the clusters `cs`. -/
def PutRefused (m : Mount) (v : Vol) (cs : List Nat) (s : FS) : Prop :=
  pickContent m s = FAT_CLUSTER_BAD ∨ v.addCluster m cs = none ∧ pickGrowth m cs s = FAT_CLUSTER_BAD

/-- What the call meets when the search for the name, which leaves `s`, found nothing: it is refused
a cluster; or the name can be found and, with the entry stored, the allocator gives all clusters
that are left to reserve. -/
def PutFits (m : Mount) (v : Vol) (ca cache : Nat) (cs : List Nat) (info : CInfo) (reserve : Int)
    (fuel : Nat) (s : FS) : Prop :=
  PutRefused m v cs s ∨ info.fullName.Findable ∧
    ∃ x, entryAdd m fuel ca cache (putEntry m info reserve (pickContent m s)) (contentTaken m s)
        = some x ∧ Extends m (reserve - NO_RESERVE).toNat (pickContent m s) x.2.2

/-- What the call leaves in the directory at `ca`: with the result 1 the name is found, and its
content has `reserve` clusters; with the result 0 no further cluster is in use and the searches in
the directory give the same. -/
structure PutOk (m : Mount) (s : FS) (ca : Nat) (info : CInfo) (reserve : Int) (r : Bool × FS) :
    Prop where
  created : r.1 = true → Ensures (fun fuel => entrySearch m fuel info.fullName ca NO_ECACHE r.2)
    fun x => ∃ e ds, x.1 = some e ∧ HasChain m (view m r.2) e.dca.toNat ds ∧
      (ds.length : Int) = reserve
  refused : r.1 = false → (∀ n, InVol m n → (view m s).fat n = FAT_CLUSTER_FREE →
    (view m r.2).fat n = FAT_CLUSTER_FREE) ∧ SameFinds m ca s r.2

section Call

variable {ci : Int} {info : CInfo} {reserve : Int} {fuel : Nat}

/-- The call behind a search that finds nothing. -/
theorem putContent_miss (L : Layout m) (hfuel : cs.length + 1 ≤ fuel)
    (hsearch : entrySearch m fuel info.fullName (getContentDataCa ci s) (getContentEcache ci s) s
      = some (none, s₁)) (h : Shows m s₁ v) (hc : HasChain m v (getContentDataCa ci s) cs)
    (hgrow : pickContent m s₁ ≠ FAT_CLUSTER_BAD → v.addCluster m cs = none →
      pickGrowth m cs s₁ ≠ FAT_CLUSTER_BAD → StartsFree m v (pickGrowth m cs s₁)) :
    (PutRefused m v cs s₁ ∧ ∃ s', putContent m fuel ci info reserve s = some (false, s') ∧
      Shows m s' v ∧ s'.heap = s₁.heap) ∨
    ¬ PutRefused m v cs s₁ ∧ InVol m (pickContent m s₁) ∧
      v.fat (pickContent m s₁) = FAT_CLUSTER_FREE ∧
      ((putContent m fuel ci info reserve s = none ∧
        entryAdd m fuel (getContentDataCa ci s) (getContentEcache ci s)
          (putEntry m info reserve (pickContent m s₁)) (contentTaken m s₁) = none) ∨
      ∃ c s₂ v₂ cs', entryAdd m fuel (getContentDataCa ci s) (getContentEcache ci s)
          (putEntry m info reserve (pickContent m s₁)) (contentTaken m s₁)
            = some (1, storedIn (putEntry m info reserve (pickContent m s₁)) c, s₂) ∧
        putContent m fuel ci info reserve s = some (true,
          reserveLoop m (reserve - NO_RESERVE).toNat (pickContent m s₁) s₂) ∧
        Shows m s₂ v₂ ∧ Fills m (v.setFat (pickContent m s₁) FAT_CLUSTER_END) cs
          (putEntry m info reserve (pickContent m s₁)) c cs' v₂) := by
  unfold putContent
  cases picked L hc h with
  | inl hbad =>
    obtain ⟨s₂, s₃, he₂, he₃, hs₃, hk₃⟩ := hbad
    obtain ⟨hs₄, hk₄⟩ := registerError_shows L hs₃ .setClusterEndError
    simp only [hsearch, he₂, he₃]
    exact Or.inl ⟨Or.inl (congrArg Prod.fst he₂), _, rfl, hs₄, (hk₃.trans_nil hk₄).heap⟩
  | inr hok =>
    obtain ⟨n, s₂, s₃, he₂, he₃, hn, hfree, hs₃, hk₃, hchain, hgrowth⟩ := hok
    have hpick : pickContent m s₁ = n := congrArg Prod.fst he₂
    have htaken : contentTaken m s₁ = s₃ := by
      unfold contentTaken
      rw [hpick, he₂, he₃]
    have hroom : NoRoom m (v.setFat n FAT_CLUSTER_END) cs s₃ ↔ PutRefused m v cs s₁ := by
      unfold NoRoom PutRefused
      rw [hgrowth, hpick]
      exact ⟨Or.inr, fun hno => hno.resolve_left (L.ne_bad hn)⟩
    have hadd := @entryAdd_runs m s₃ (v.setFat n FAT_CLUSTER_END) (getContentDataCa ci s) cs
      (putEntry m info reserve n) fuel L hfuel hchain hs₃ (getContentEcache ci s)
      fun hnone hbad => by
        rw [← hgrowth] at hbad ⊢
        exact hgrow (hpick ▸ L.ne_bad hn) hnone hbad
    have hentry : createEntry info.fullName (info.type = STAT_DIR) n
        (reserve * m.fi.clusterSize % 2 ^ 32).toNat = putEntry m info reserve n := rfl
    rw [hpick, htaken]
    simp only [hsearch, he₂, he₃, hentry]
    cases hadd with
    | inl hfail =>
      obtain ⟨s₄, he₄, hs₄, hk₄, hno⟩ := hfail
      obtain ⟨hs₅, hk₅⟩ := registerError_shows L hs₄ .entryAddError
      obtain ⟨s₆, he₆, hs₆, hk₆⟩ := deallocCluster_shows L hs₅ hn
      rw [Vol.setFat_back hfree] at hs₆
      have hneg : (-1 : Int) < 0 := by decide
      have hdca : (putEntry m info reserve n).dca.toNat = n := L.toNat_dca hn
      simp only [he₄, if_pos hneg, hdca, he₆]
      exact Or.inl ⟨hroom.mp hno, s₆, rfl, hs₆,
        ((hk₃.trans hk₄).trans_nil (hk₅.nil_trans hk₆)).heap⟩
    | inr hyes =>
      obtain ⟨hno, hcases⟩ := hyes
      refine Or.inr ⟨fun hr => hno (hroom.mpr hr), hn, hfree, ?_⟩
      cases hcases with
      | inl hnone =>
        simp [hnone.2]
      | inr hsome =>
        obtain ⟨c, s₄, v₄, cs', al, he₄, hs₄, -, -, hf⟩ := hsome
        have hpos : ¬ (1 : Int) < 0 := by decide
        have hdca : (storedIn (putEntry m info reserve n) c).dca.toNat = n := L.toNat_dca hn
        simp only [he₄, if_neg hpos, hdca]
        exact Or.inr ⟨c, s₄, v₄, cs', rfl, rfl, hs₄, hf⟩

/-- A search with any index leaves the entries of the directory. -/
theorem entrySearch_leaves (L : Layout m) {name : Name} {cache : Nat} {r : Option DirEntry}
    (hfuel : cs.length ≤ fuel) (hc : HasChain m v ca cs) (h : Shows m s v) (hs : SoundDir m v cs)
    (he : entrySearch m fuel name ca cache s = some (r, s₁)) :
    ∃ v₁, Shows m s₁ v₁ ∧ SameDir m v v₁ cs ∧ s₁.heap = s.heap := by
  rw [entrySearch_indexed] at he
  obtain ⟨node, -, he⟩ := Option.bind_eq_some_iff.mp he
  by_cases hnode : node = 0
  · rw [if_neg (not_not.mpr hnode)] at he
    obtain ⟨s₂, v₂, he₂, hs₂, hk, hsame⟩ := entrySearch_shows L hfuel hc h hs name
    obtain ⟨-, rfl⟩ := Prod.mk.inj (Option.some.inj (he₂.symm.trans he))
    exact ⟨v₂, hs₂, hsame, hk.heap⟩
  · rw [if_pos hnode] at he
    obtain ⟨-, rfl⟩ := Prod.mk.inj (Option.some.inj he)
    exact ⟨v, h, ⟨rfl, fun _ _ => rfl, hs, rfl⟩, rfl⟩

/-- A search with any index that finds nothing looked at the whole directory. -/
theorem entrySearch_missed (L : Layout m) {name : Name} {cache : Nat} (hfuel : cs.length ≤ fuel)
    (hc : HasChain m v ca cs) (h : Shows m s v) (hs : SoundDir m v cs)
    (he : entrySearch m fuel name ca cache s = some (none, s₁)) :
    v.first m cs (Matches name) = none ∧ ∃ v₁, Shows m s₁ v₁ ∧ SameView m v v₁ cs ∧
      s₁.heap = s.heap := by
  rw [entrySearch_indexed] at he
  obtain ⟨node, -, he⟩ := Option.bind_eq_some_iff.mp he
  by_cases hnode : node = 0
  · rw [if_neg (not_not.mpr hnode)] at he
    obtain ⟨s₂, v₂, he₂, -⟩ := entrySearch_shows L hfuel hc h hs name
    have hnone := (Prod.mk.inj (Option.some.inj (he₂.symm.trans he))).1
    rw [Option.map_eq_none_iff] at hnone
    obtain ⟨s₃, v₃, he₃, hs₃, hk, hview⟩ := entrySearch_none L hfuel hc h hs hnone
    obtain ⟨-, rfl⟩ := Prod.mk.inj (Option.some.inj (he₃.symm.trans he))
    exact ⟨hnone, v₃, hs₃, hview, hk.heap⟩
  · rw [if_pos hnode] at he
    cases (Prod.mk.inj (Option.some.inj he)).1

/-- What a call leaves that stored the entry of the content `n`, which got the clusters `ds`: the
name is found, and the directory has grown by the entry, if it has grown. -/
structure Reserved (m : Mount) (v : Vol) (ca : Nat) (cs : List Nat) (info : CInfo) (n : Nat)
    (ds : List Nat) (s' : FS) (v' : Vol) : Prop where
  shows : Shows m s' v'
  chain : HasChain m v' n ds
  found : Ensures (fun fuel => entrySearch m fuel info.fullName ca NO_ECACHE s') fun x =>
    ∃ e, x.1 = some e ∧ e.dca.toNat = n
  raw : ∀ j ∈ ds, v'.raw j = v.raw j
  grew : GrewBy m v v' ca cs info.fullName

/-- A stored entry, and the loop. -/
theorem reserved_of_stored (L : Layout m) (hc : HasChain m v ca cs)
    (hnone : v.first m cs (Matches info.fullName) = none) (hs : SoundDir m v cs)
    (h : Shows m s v) {n c : Nat} {s₂ : FS} {v₂ : Vol} {cs' : List Nat} (hn : InVol m n)
    (hfree : v.fat n = FAT_CLUSTER_FREE) (hname : info.fullName.Findable) (hs₂ : Shows m s₂ v₂)
    (hf : Fills m (v.setFat n FAT_CLUSTER_END) cs (putEntry m info reserve n) c cs' v₂) (k : Nat) :
    ∃ v₃, Reserved m v ca cs info n (n :: extension m k n s₂) (reserveLoop m k n s₂) v₃ := by
  have hst : Storable (putEntry m info reserve n) := createEntry_storable hname.1 hname.2
  have hne : ∀ j ∈ cs, j ≠ n := fun j hj heq => hc.not_free L hj (heq ▸ hfree)
  have hc₁ : HasChain m (v.setFat n FAT_CLUSTER_END) ca cs :=
    hc.congr fun j hj => v.setFat_fat_ne _ (hne j hj)
  have hi := hf.inserted L hc₁ (fun _ => h.length_raw) hs hst
  have hplaced := hi.placed L hc hfree
  have hsingle : HasChain m v₂ n ([] ++ [n]) := .single hn hplaced.last
  obtain ⟨v₃, hs₃, hraw, hc₃, hnew, hother⟩ := reserveLoop_shows L k hs₂ hsingle
  have hmatch : Matches info.fullName (storedIn (putEntry m info reserve n) c) = true :=
    @matches_self (storedIn (putEntry m info reserve n) c) rfl
  have hfirst : v₃.first m cs' (Matches info.fullName)
      = some (c, storedIn (putEntry m info reserve n) c) := by
    rw [Vol.first_congr_raw fun j _ => congrFun hraw j]
    exact hi.first_new hnone hmatch
  -- the loop keeps the directory
  have hfat : ∀ j ∈ cs', v₃.fat j = v₂.fat j := fun j hj =>
    hother j (fun heq => hplaced.apart (heq ▸ hj)) (hi.chain.not_free L hj)
  have hdir : HasChain m v₃ ca cs' := hi.chain.congr hfat
  have hsound : SoundDir m v₃ cs' := hi.sound.congr fun j _ => congrFun hraw j
  refine ⟨v₃, hs₃, hc₃, ?_, fun j hj => ?_, ?_⟩
  · refine (entrySearch_result L hdir hs₃ hsound info.fullName).imp fun x hx => ?_
    rw [hfirst] at hx
    exact ⟨_, hx, L.toNat_dca hn⟩
  · rw [hraw]
    refine hi.raw j fun hmem => ?_
    cases List.mem_cons.mp hj with
    | inl heq => exact hplaced.apart (heq ▸ hmem)
    | inr hj => exact hi.chain.not_free L hmem (hnew j hj)
  · exact (hi.grewBy L hc₁ ⟨rfl, rfl⟩).kept L hi.chain fun j hj => ⟨hfat j hj, congrFun hraw j⟩

/-- The cluster by which a full directory grows takes the entry in its first slot. -/
def PutGrows (m : Mount) (s : FS) (v : Vol) (ca cache : Nat) (cs : List Nat) (name : Name) : Prop :=
  ∀ fuel s₁, entrySearch m fuel name ca cache s = some (none, s₁) →
    pickContent m s₁ ≠ FAT_CLUSTER_BAD → v.addCluster m cs = none →
    pickGrowth m cs s₁ ≠ FAT_CLUSTER_BAD → StartsFree m v (pickGrowth m cs s₁)

/-- A directory with a slot to take does not grow. -/
theorem PutGrows.of_slot {cache : Nat} {name : Name} (hslot : v.addCluster m cs ≠ none) :
    PutGrows m s v ca cache cs name := fun _ _ _ _ hfull => absurd hfull hslot

/-- The condition on the growth, in the volume that the search leaves. -/
theorem PutGrows.behind {cache : Nat} {name : Name} {s₁ : FS} (L : Layout m)
    (hgrows : PutGrows m s v ca cache cs name) (hc : HasChain m v ca cs)
    (hsearch : entrySearch m fuel name ca cache s = some (none, s₁)) (h₁ : Shows m s₁ v₁)
    (hview : SameView m v v₁ cs) (hpick : pickContent m s₁ ≠ FAT_CLUSTER_BAD)
    (hadd : v₁.addCluster m cs = none) (hne : pickGrowth m cs s₁ ≠ FAT_CLUSTER_BAD) :
    StartsFree m v₁ (pickGrowth m cs s₁) := by
  obtain ⟨-, hfree⟩ := pickGrowth_free L h₁ hne
  rw [hview.fat] at hfree
  rw [hview.addCluster] at hadd
  unfold StartsFree
  rw [Vol.slots_congr (hview.raw _ fun hm => hc.not_free L hm hfree)]
  exact hgrows fuel s₁ hsearch hpick hadd hne

section Behind

variable (L : Layout m) (h : Shows m s v) (hc : HasChain m v (getContentDataCa ci s) cs)
  (hs : SoundDir m v cs)

include L h hc hs

/-- A call that leaves the entries of the directory and the FAT. -/
theorem putOk_unchanged (h' : Shows m s' v') (hsame : SameDir m v v' cs)
    (hheap : s'.heap = s.heap) :
    PutOk m s (getContentDataCa ci s) info reserve (false, s') where
  created := fun hr => by cases hr
  refused := fun _ => by
    refine ⟨fun n _ hfree => ?_, .of_same L hc h hs h' hsame hheap⟩
    rw [h.view_eq] at hfree
    rw [h'.view_eq, hsame.fat]
    exact hfree

/-- The name is there. -/
theorem put_found (hfuel : cs.length ≤ fuel) {e : DirEntry}
    (hsearch : entrySearch m fuel info.fullName (getContentDataCa ci s) (getContentEcache ci s) s
      = some (some e, s₁)) :
    ∃ r, putContent m fuel ci info reserve s = some r ∧
      PutOk m s (getContentDataCa ci s) info reserve r := by
  obtain ⟨v₁, h₁, hsame, hheap⟩ := entrySearch_leaves L hfuel hc h hs hsearch
  obtain ⟨h₂, hk₂⟩ := registerError_shows L h₁ .entrySearchError
  refine ⟨(false, registerError m .entrySearchError s₁), ?_,
    putOk_unchanged L h hc hs h₂ hsame (hk₂.heap.trans hheap)⟩
  unfold putContent
  simp only [hsearch]

/-- The name is not there: the call did what it reports exactly when the state fits. -/
theorem put_missed (hreserve : 1 ≤ reserve)
    (hgrows : PutGrows m s v (getContentDataCa ci s) (getContentEcache ci s) cs info.fullName)
    (hfuel : cs.length + 1 ≤ fuel)
    (hsearch : entrySearch m fuel info.fullName (getContentDataCa ci s) (getContentEcache ci s) s
      = some (none, s₁)) :
    (PutFits m v (getContentDataCa ci s) (getContentEcache ci s) cs info reserve fuel s₁ →
      ∃ r, putContent m fuel ci info reserve s = some r ∧
        PutOk m s (getContentDataCa ci s) info reserve r) ∧
    ∀ r, putContent m fuel ci info reserve s = some r →
      PutOk m s (getContentDataCa ci s) info reserve r →
      PutFits m v (getContentDataCa ci s) (getContentEcache ci s) cs info reserve fuel s₁ := by
  have hcount : (((reserve - NO_RESERVE).toNat + 1 : Nat) : Int) = reserve := by
    show (((reserve - 1).toNat + 1 : Nat) : Int) = reserve
    omega
  obtain ⟨hnone, v₁, h₁, hview, hheap⟩ := entrySearch_missed L (by omega) hc h hs hsearch
  have hsame := SameDir.of_view hview hs
  have hc₁ := hview.chain hc
  have hrefuses : PutRefused m v₁ cs s₁ ↔ PutRefused m v cs s₁ := by
    unfold PutRefused
    rw [hview.addCluster]
  have hnone₁ : v₁.first m cs (Matches info.fullName) = none := by
    rw [Vol.first_congr hsame.entries, hnone]
  have hcall := @putContent_miss m s s₁ v₁ cs ci info reserve fuel L hfuel hsearch h₁ hc₁
    (hgrows.behind L hc hsearch h₁ hview)
  generalize hn : pickContent m s₁ = n at hcall
  unfold PutFits
  rw [← hrefuses, hn]
  rcases hcall with ⟨hno, s', he, hs', hheap'⟩ | ⟨hyes, hin, hfree, ⟨he, hadd⟩ | hstored⟩
  · -- no cluster for the content, or none for the directory
    refine ⟨fun _ => ⟨_, he, ?_⟩, fun _ _ _ => Or.inl hno⟩
    exact putOk_unchanged L h hc hs hs' hsame (hheap'.trans hheap)
  · -- the index does not return
    refine ⟨fun hfits => ?_, fun r hr _ => ?_⟩
    · obtain ⟨-, x, hx, -⟩ := hfits.resolve_left hyes
      rw [hadd] at hx
      cases hx
    · rw [he] at hr
      cases hr
  · -- the entry is stored
    obtain ⟨c, s₂, v₂, cs', hadd, he, h₂, hf⟩ := hstored
    rw [he]
    constructor
    · intro hfits
      obtain ⟨hname, x, hx, hext⟩ := hfits.resolve_left hyes
      obtain rfl := Option.some.inj (hadd.symm.trans hx)
      obtain ⟨v₃, hres⟩ := reserved_of_stored L hc₁ hnone₁ hsame.sound h₁ hin hfree hname h₂ hf
        (reserve - NO_RESERVE).toNat
      refine ⟨_, rfl, fun _ => hres.found.imp fun y hy => ?_, fun hr => by cases hr⟩
      obtain ⟨e, hy, hdca⟩ := hy
      refine ⟨e, n :: extension m (reserve - NO_RESERVE).toNat n s₂, hy, ?_, ?_⟩
      · rw [hres.shows.view_eq, hdca]
        exact hres.chain
      · rw [List.length_cons, (length_extension m _ n s₂).mpr hext]
        exact hcount
    · intro r hr hok
      obtain rfl := Option.some.inj hr
      have hfound := hok.created rfl
      have hname : info.fullName.Findable := by
        by_contra hno
        obtain ⟨bound, hb⟩ := hfound
        obtain ⟨y, hy, e, ds, hsome, -⟩ := hb bound (Nat.le_refl bound)
        rw [entrySearch_unfindable hno hy] at hsome
        cases hsome
      obtain ⟨v₃, hres⟩ := reserved_of_stored L hc₁ hnone₁ hsame.sound h₁ hin hfree hname h₂ hf
        (reserve - NO_RESERVE).toNat
      refine Or.inr ⟨hname, _, hadd, (length_extension m _ n s₂).mp ?_⟩
      -- the content that is found is the new one
      obtain ⟨y, ⟨e, ds', hy, hds', hlen'⟩, e', hy', hdca⟩ := (hfound.and hres.found).result
      obtain rfl := Option.some.inj (hy.symm.trans hy')
      rw [hres.shows.view_eq, hdca] at hds'
      rw [hds'.unique hres.chain L, List.length_cons] at hlen'
      omega

end Behind

end Call

/-! ### A content that is too short -/

/-- The small volume with an empty root directory, and `7` as its only free cluster. -/
def lastVol : Vol := smallVol.setFat 6 FAT_CLUSTER_END

/-- A content table whose slots are handles of the root directory. -/
def rootHandle : Nat → Content := fun i =>
  { oneFile 2 (R_MODE ||| W_MODE) i with contentType := .directory }

/-- An empty directory takes the file, and does not grow for it. -/
theorem empty_dir_put (hslots : v.slots (smallMount 0) 2 = List.replicate 4 zeroSlot)
    (hend : v.fat 2 = FAT_CLUSTER_END) :
    HasChain (smallMount 0) v 2 [2] ∧ SoundDir (smallMount 0) v [2] ∧
      v.addCluster (smallMount 0) [2] ≠ none ∧
      v.first (smallMount 0) [2] (Matches (letterName 0x45)) = none := by
  have hvis : visible (List.replicate 4 zeroSlot) = [] := visible_cons_end first_zeroSlot
  refine ⟨.single (by decide) hend, fun c hc => ?_, ?_, ?_⟩
  · rw [List.mem_singleton.mp hc, hslots]
    intro e he
    rw [hvis] at he
    exact absurd he List.not_mem_nil
  · have hslot : (v.slots (smallMount 0) 2).any addable = true := by
      rw [hslots, List.any_eq_true]
      exact ⟨zeroSlot, List.mem_cons_self, (addable_iff _).mpr (Or.inr first_zeroSlot)⟩
    have hfind : v.addCluster (smallMount 0) [2] = some 2 := List.find?_cons_of_pos hslot
    rw [hfind]
    exact Option.some_ne_none 2
  · have hlive : v.live (smallMount 0) 2 = [] := by
      show live (v.slots (smallMount 0) 2) = []
      rw [hslots]
      exact live_cons_end first_zeroSlot
    unfold Vol.first
    rw [Vol.entries_cons, hlive]
    rfl

end NiFat32
