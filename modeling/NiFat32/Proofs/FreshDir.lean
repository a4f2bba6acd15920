import NiFat32.Proofs.Reserve
import NiFat32.Proofs.Subtree

/-!
# `Proofs.FreshDir`: what a new directory holds

A cluster keeps its bytes when it is freed, and the allocator hands it out as it is. So a new
directory comes up with the entries that its cluster showed before, and a directory that grows shows
them next to its own.

`fresh_dirs_empty` follows the runs in which each creating call gets clusters that show no entry:
every directory that they make comes up empty, and a directory that grows gains one name.
-/

set_option autoImplicit false

namespace NiFat32

open Run

variable {m : Mount} {s s' : FS} {v v' : Vol} {ca : Nat} {cs : List Nat}

/-! ### Blank clusters -/

/-- The cluster shows no entry that a search can find. -/
def Blank (m : Mount) (v : Vol) (c : Nat) : Prop :=
  ∀ name, ∀ e ∈ v.live m c, Matches name e = false

/-- Every search in the directory at `ca` finds nothing. -/
def FindsNothing (m : Mount) (ca : Nat) (s : FS) : Prop := ∀ name, Finds m s ca name none

theorem Blank.congr {c : Nat} (h : Blank m v c) (hraw : v'.raw c = v.raw c) : Blank m v' c := by
  intro name e he
  unfold Vol.live at he
  rw [Vol.slots_congr hraw] at he
  exact h name e he

/-- The slot at which a scan stops is an entry. -/
theorem scanHit_live {p : DirEntry → Bool} {slots : List DirEntry} {e : DirEntry}
    (h : scanHit p slots = some e) : e ∈ live slots ∧ p e = true := by
  induction slots with
  | nil => cases h
  | cons d es ih =>
    unfold scanHit at h
    by_cases hend : d.first = ENTRY_END
    · rw [if_pos hend] at h
      cases h
    · rw [if_neg hend] at h
      rw [mem_live, visible_cons hend]
      by_cases hstop : Stops p d
      · rw [if_pos hstop] at h
        obtain rfl := Option.some.inj h
        exact ⟨⟨List.mem_cons_self, hstop.1, hstop.2.1⟩, hstop.2.2⟩
      · rw [if_neg hstop] at h
        obtain ⟨hmem, hp⟩ := ih h
        obtain ⟨hvis, hlive⟩ := mem_live.mp hmem
        exact ⟨⟨List.mem_cons_of_mem d hvis, hlive⟩, hp⟩

/-- A directory of blank clusters, with whatever slots that are no entries. -/
theorem findsNothing_of_blank (L : Layout m) (hc : HasChain m v ca cs) (h : Shows m s v)
    (hblank : ∀ c ∈ cs, Blank m v c) : FindsNothing m ca s := by
  intro name
  refine ⟨cs.length + 1, fun fuel hfuel => ?_⟩
  have hwalk : ∃ s',
      entryIterate m (searchHandler name) fuel ca none s = some (false, none, s') := by
    induction cs generalizing ca s v fuel with
    | nil => exact absurd rfl (hc.ne_nil L)
    | cons c cs ih =>
      obtain ⟨fuel, rfl⟩ : ∃ k, fuel = k + 1 := ⟨fuel - 1, by omega⟩
      have hca : ca = c := hc.path.head_eq
      subst hca
      have hmiss : scanHit (Matches name) (v.slots m ca) = none := by
        cases hhit : scanHit (Matches name) (v.slots m ca) with
        | none => rfl
        | some e =>
          obtain ⟨hlive, hmatch⟩ := scanHit_live hhit
          rw [hblank ca List.mem_cons_self name e hlive] at hmatch
          cases hmatch
      obtain ⟨s₁, hs₁, -, he⟩ :=
        entryIterate_pass L h hc.head (searchHandler_passes name none) hmiss fuel
      rw [he]
      rcases hc.cases_head L with ⟨-, hend⟩ | ⟨rest, heq, hrest⟩
      · rw [if_neg (not_not.mpr hend)]
        exact ⟨s₁, rfl⟩
      · obtain rfl : cs = rest := (List.cons.inj heq).2
        have hnot : ca ∉ cs := (List.nodup_cons.mp (hc.nodup L)).1
        rw [if_pos (L.ne_end hrest.head)]
        -- the scan left the rest of the chain alone
        have hrest' : HasChain m (v.scanned m (Matches name) ca) (v.fat ca) cs :=
          hrest.congr fun k _ => rfl
        refine ih hrest' hs₁ (fun k hk => ?_) fuel ?_
        · exact (hblank k (List.mem_cons_of_mem ca hk)).congr
            (Vol.scanned_raw_ne fun heq => hnot (heq ▸ hk))
        · rw [List.length_cons] at hfuel
          omega
  obtain ⟨s', he⟩ := hwalk
  refine ⟨(none, s'), ?_, rfl⟩
  unfold entrySearch
  simp only [if_true, ne_eq, not_true_eq_false, if_false, he]
  rfl

/-! ### Directories that grow -/

/-- The names have the same hash, and the same bytes up to their end. -/
def SameKey (a b : Name) : Prop := hashName b = hashName a ∧ nameEq b a = true

/-- When the chain of the directory at `ca` became another one, the searches find what they found,
and the name. -/
def GrewExactly (m : Mount) (ca : Nat) (name : Name) (s s' : FS) : Prop :=
  ∀ cs cs', HasChain m (view m s) ca cs → HasChain m (view m s') ca cs' → cs' ≠ cs →
    ∀ name', (∃ e, Finds m s' ca name' (some e)) ↔
      (∃ e, Finds m s ca name' (some e)) ∨ SameKey name name'

/-- A search finds a name when there is an entry that matches. -/
theorem finds_some_iff (L : Layout m) (hc : HasChain m v ca cs) (h : Shows m s v)
    (hs : SoundDir m v cs) (name : Name) :
    (∃ e, Finds m s ca name (some e)) ↔ ∃ x ∈ v.entries m cs, Matches name x.2 = true := by
  have hfirst : (v.first m cs (Matches name)).isSome ↔
      ∃ x ∈ v.entries m cs, Matches name x.2 = true := by
    unfold Vol.first
    rw [List.find?_isSome]
  rw [← hfirst]
  constructor
  · rintro ⟨e, hfound⟩
    rw [finds_iff L hc h hs] at hfound
    obtain ⟨x, hx, -⟩ := Option.map_eq_some_iff.mp hfound
    rw [hx]
    rfl
  · intro hsome
    obtain ⟨x, hx⟩ := Option.isSome_iff_exists.mp hsome
    refine ⟨foundAs x, (finds_iff L hc h hs _).mpr ?_⟩
    rw [hx]
    rfl

/-- A directory that grew by one entry finds one more name. -/
theorem GrewBy.exactly {name : Name} (L : Layout m) (hgrew : GrewBy m v v' ca cs name)
    (hc : HasChain m v ca cs) (hs : SoundDir m v cs) (h : Shows m s v) (h' : Shows m s' v') :
    GrewExactly m ca name s s' := by
  intro ds ds' hds hds' hne name'
  rw [h.view_eq] at hds
  rw [h'.view_eq] at hds'
  obtain rfl := hds.unique hc L
  obtain ⟨hs', A, B, x, hold, hnew, hname, hhash⟩ := hgrew ds' hds' hne
  rw [finds_some_iff L hds' h' hs' name', finds_some_iff L hc h hs name', hnew, hold]
  have hkey : Matches name' x.2 = true ↔ SameKey name name' := by
    unfold Matches SameKey
    rw [hname, hhash, Bool.and_eq_true, decide_eq_true_eq]
  constructor
  · rintro ⟨y, hy, hmatch⟩
    rcases List.mem_append.mp hy with hA | hB
    · exact Or.inl ⟨y, List.mem_append_left B hA, hmatch⟩
    · rcases List.mem_cons.mp hB with rfl | hB
      · exact Or.inr (hkey.mp hmatch)
      · exact Or.inl ⟨y, List.mem_append_right A hB, hmatch⟩
  · rintro (⟨y, hy, hmatch⟩ | hsame)
    · rcases List.mem_append.mp hy with hA | hB
      · exact ⟨y, List.mem_append_left _ hA, hmatch⟩
      · exact ⟨y, List.mem_append_right _ (List.mem_cons_of_mem x hB), hmatch⟩
    · exact ⟨x, List.mem_append_right _ List.mem_cons_self, hkey.mpr hsame⟩

/-- A directory with the same links did not grow. -/
theorem GrewExactly.of_fat {name : Name} (L : Layout m)
    (hfat : (view m s').fat = (view m s).fat) : GrewExactly m ca name s s' := by
  intro ds ds' hds hds' hne
  have hsame : HasChain m (view m s') ca ds := hds.congr fun k _ => congrFun hfat k
  exact absurd (hds'.unique hsame L) hne

/-! ### Runs -/

/-- What the creation of an entry needs of the state `s` behind the search in the directory with
the clusters `cs`, which found nothing: the name can be found, the cluster of a new directory shows
no entry, and a cluster by which a full directory grows takes the entry in its first slot. -/
structure Ready (m : Mount) (s : FS) (cs : List Nat) (name : Name) (isDir : Bool) : Prop where
  findable : name.Findable
  blank : isDir = true → pickContent m s ≠ FAT_CLUSTER_BAD →
    Blank m (view m s) (pickContent m s)
  starts : (view m s).addCluster m cs = none → pickGrowth m cs s ≠ FAT_CLUSTER_BAD →
    StartsFree m (view m s) (pickGrowth m cs s)

/-- The directory at `ca` has a chain and no damaged slots, and is ready for the name if that is not
there. -/
def CleanAdd (m : Mount) (fuel : Nat) (name : Name) (isDir : Bool) (ca cache : Nat) (s : FS) :
    Prop :=
  Coherent m s ∧ ∃ cs, HasChain m (view m s) ca cs ∧ SoundDir m (view m s) cs ∧
    ∀ s₁, entrySearch m fuel name ca cache s = some (none, s₁) → Ready m s₁ cs name isDir

/-- The steps of the walk over the components, each where the walk is. -/
def CleanWalk (m : Mount) (fuel : Nat) (mode : UInt8) :
    List (List UInt8) → (currCi : Int) → (active : Nat) → FS → Prop
  | [], _, _, _ => True
  | comp :: comps, currCi, active, s =>
    (comp.length < 32 → CleanAdd m fuel (nameToFatname comp)
      (comps ≠ [] ∨ getModeTarget mode ≠ FILE_TARGET) active (getContentEcache currCi s) s) ∧
    ∀ e s', pathStep m fuel mode comp (comps ≠ []) currCi active s = some (some e, s') →
      CleanWalk m fuel mode comps NO_RCI e.dca.toNat s'

/-- The clusters that are reserved behind the first one show no entry either. -/
def CleanReserve (m : Mount) (fuel : Nat) (info : CInfo) (reserve : Int) (ca cache : Nat) (s : FS) :
    Prop :=
  info.type = STAT_DIR → ∀ s₁ x, entrySearch m fuel info.fullName ca cache s = some (none, s₁) →
    entryAdd m fuel ca cache (putEntry m info reserve (pickContent m s₁)) (contentTaken m s₁)
      = some x → ∀ k ∈ extension m (reserve - NO_RESERVE).toNat (pickContent m s₁) x.2.2,
        Blank m (view m s₁) k

/-- The directory in which the walk over a path starts. -/
def startDir (m : Mount) (rci : Int) (s : FS) : Nat :=
  if rci = NO_RCI then m.fi.extRootCluster else getContentDataCa rci s

/-- What a call meets that creates an entry. -/
def CleanMake (m : Mount) (fuel : Nat) (s : FS) : ApiCall → Prop
  | .putContent ci info reserve =>
    CleanAdd m fuel info.fullName (info.type = STAT_DIR) (getContentDataCa ci s)
      (getContentEcache ci s) s ∧
    CleanReserve m fuel info reserve (getContentDataCa ci s) (getContentEcache ci s) s
  | .openContent rci (some path) mode => isCreateMode mode = true →
    CleanWalk m fuel mode (pathComponents path) rci (startDir m rci (allocCi s).2) (allocCi s).2
  | _ => True

/-- What an open that creates makes: with every step of its walk, a directory that grew finds one
more name, and a new directory is empty; and so is the directory that the handle is for. -/
def OpensFresh (m : Mount) (fuel : Nat) (mode : UInt8) (comps : List (List UInt8)) (rci : Int)
    (s : FS) (r : Int × FS) : Prop :=
  ∀ x, Moves m fuel mode comps rci (startDir m rci s) s x →
    GrewExactly m x.active x.entry.fileName x.before x.after ∧
    (x.Makes m → x.rest ≠ [] ∨ getModeTarget mode ≠ FILE_TARGET →
      FindsNothing m x.entry.dca.toNat x.after ∧
      (x.rest = [] → 0 ≤ r.1 → getContentDataCa r.1 r.2 = x.entry.dca.toNat ∧
        FindsNothing m (getContentDataCa r.1 r.2) r.2))

/-- A put makes an entry: a directory that grew finds one more name, and a new directory is
empty. -/
def PutsFresh (m : Mount) (ca : Nat) (info : CInfo) (s : FS) (r : Int × FS) : Prop :=
  GrewExactly m ca info.fullName s r.2 ∧
  (r.1 = 1 → info.type = STAT_DIR →
    Ensures (fun fuel => entrySearch m fuel info.fullName ca NO_ECACHE r.2) fun y =>
      ∃ e, y.1 = some e ∧ FindsNothing m e.dca.toNat r.2)

/-- What the call that returned `r` has to do with the directories that it makes. -/
def MakesFresh (m : Mount) (fuel : Nat) (s : FS) (r : Int × FS) : ApiCall → Prop
  | .putContent ci info _ => PutsFresh m (getContentDataCa ci s) info s r
  | .openContent rci (some path) mode => isCreateMode mode = true →
    OpensFresh m fuel mode (pathComponents path) rci (allocCi s).2 r
  | _ => True

/-- The state of a run, and whether every directory came up empty, and gained one name when it
grew. -/
structure MakeRun where
  fs : FS
  fresh : Prop

/-- One call of a run. -/
def MakeRun.call (m : Mount) (c : ApiCall) (x : MakeRun) (fuel : Nat) : Option MakeRun :=
  (runCall m c fuel x.fs).map fun r => ⟨r.2, x.fresh ∧ MakesFresh m fuel x.fs r c⟩

/-- The call returns. -/
def CallReturns (m : Mount) (x : MakeRun) (c : ApiCall) : Prop :=
  Ensures (fun fuel => runCall m c fuel x.fs) fun _ => True

/-- The call returns, and a directory that it makes, and one that grows, get clean clusters. -/
def CleanCall (m : Mount) (x : MakeRun) (c : ApiCall) : Prop :=
  CallReturns m x c ∧ ∃ bound, ∀ fuel, bound ≤ fuel → CleanMake m fuel x.fs c

/-! ### One step of a walk -/

section Step

variable {name : Name} {fuel : Nat} {isDir : Bool} {cache : Nat} {mode : UInt8} {ci : Int}

/-- The content at `n` is a directory of one cluster, which shows no entry. -/
def EmptyDir (m : Mount) (s : FS) (n : Nat) : Prop :=
  ∃ v, Shows m s v ∧ HasChain m v n [n] ∧ Blank m v n

theorem EmptyDir.findsNothing {n : Nat} (L : Layout m) (h : EmptyDir m s n) :
    FindsNothing m n s := by
  obtain ⟨v, hs, hc, hblank⟩ := h
  refine findsNothing_of_blank L hc hs fun c hc => ?_
  rw [List.mem_singleton.mp hc]
  exact hblank

/-- The creation of a component, with any index: the links stay as they were, or the directory has
the entry `e` of the cluster that was picked. -/
theorem createOnPath_makes (L : Layout m) (hfuel : cs.length + 1 ≤ fuel) (hc : HasChain m v ca cs)
    (h : Shows m s v) (hs : SoundDir m v cs) (hready : Ready m s cs name isDir) {e : DirEntry}
    (he : createOnPath m fuel name isDir ca cache s = some (some e, s')) :
    ∃ v', Shows m s' v' ∧ (v'.fat = v.fat ∨ ∃ c cs', e.dca.toNat = pickContent m s ∧
      InVol m e.dca.toNat ∧ v.fat e.dca.toNat = FAT_CLUSTER_FREE ∧
      (e.fileName = name ∧ e.nameHash = hashName name) ∧
      Inserted m (v.setFat e.dca.toNat FAT_CLUSTER_END) v' ca cs cs' c e) := by
  unfold createOnPath at he
  cases picked L hc h with
  | inl hbad =>
    obtain ⟨s₁, s₂, he₁, he₂, -⟩ := hbad
    simp only [he₁, he₂] at he
    cases (Prod.mk.inj (Option.some.inj he)).1
  | inr hok =>
    obtain ⟨n, s₁, s₂, he₁, he₂, hn, hnfree, hs₂, -, hc₁, hgrow⟩ := hok
    have hpick : pickContent m s = n := congrArg Prod.fst he₁
    have hst : Storable (createEntry name isDir n m.fi.clusterSize) :=
      createEntry_storable hready.findable.1 hready.findable.2
    have hdca : (createEntry name isDir n m.fi.clusterSize).dca.toNat = n := L.toNat_dca hn
    have hname : (createEntry name isDir n m.fi.clusterSize).fileName = name ∧
        (createEntry name isDir n m.fi.clusterSize).nameHash = hashName name := ⟨rfl, rfl⟩
    simp only [he₁, he₂] at he
    generalize createEntry name isDir n m.fi.clusterSize = e₀ at hst hdca hname he
    have hadd := @entryAdd_runs m s₂ (v.setFat n FAT_CLUSTER_END) ca cs e₀ fuel L hfuel hc₁ hs₂
      cache fun hnone hbad => by
        rw [← hgrow] at hbad ⊢
        have hstarts := hready.starts
        rw [h.view_eq] at hstarts
        exact hstarts hnone hbad
    rcases hadd with ⟨s₃, he₃, hs₃, -, -⟩ |
      ⟨-, ⟨-, hnone⟩ | ⟨c, s₃, v₃, cs', -, he₃, hs₃, -, -, hf⟩⟩
    · -- no slot: the cluster is given back
      obtain ⟨s₄, he₄, hs₄, -⟩ := deallocCluster_shows L hs₃ hn
      rw [Vol.setFat_back hnfree] at hs₄
      have hneg : (-1 : Int) < 0 := by decide
      simp only [he₃, if_pos hneg, hdca, he₄] at he
      obtain ⟨-, rfl⟩ := Prod.mk.inj (Option.some.inj he)
      exact ⟨v, (registerError_shows L hs₄ .addEntryError).1, Or.inl rfl⟩
    · simp only [hnone] at he
      cases he
    · have hpos : ¬ (1 : Int) < 0 := by decide
      simp only [he₃, if_neg hpos] at he
      obtain ⟨heq, rfl⟩ := Prod.mk.inj (Option.some.inj he)
      obtain rfl := Option.some.inj heq
      have hi := hf.inserted L hc₁ (fun _ => h.length_raw) hs hst
      have hdca' : (storedIn e₀ c).dca.toNat = n := hdca
      refine ⟨v₃, hs₃, Or.inr ⟨c, cs', hdca'.trans hpick.symm, hdca'.symm ▸ hn,
        hdca'.symm ▸ hnfree, hname, ?_⟩⟩
      rw [hdca']
      exact hi

/-- One step of the walk, with any index. -/
theorem pathStep_fresh (L : Layout m) {comp : List UInt8} {more : Bool} {e : DirEntry}
    (hfuel : m.fi.totalClusters + 1 ≤ fuel) (hmode : isCreateMode mode = true)
    (hclean : comp.length < 32 → CleanAdd m fuel (nameToFatname comp)
      (more ∨ getModeTarget mode ≠ FILE_TARGET) ca (getContentEcache ci s) s)
    (he : pathStep m fuel mode comp more ci ca s = some (some e, s')) :
    GrewExactly m ca e.fileName s s' ∧
      ((view m s).fat e.dca.toNat = FAT_CLUSTER_FREE →
        (view m s').fat e.dca.toNat ≠ FAT_CLUSTER_FREE →
        more = true ∨ getModeTarget mode ≠ FILE_TARGET → EmptyDir m s' e.dca.toNat) := by
  unfold pathStep at he
  by_cases hlen : 32 ≤ comp.length
  · rw [if_pos hlen] at he
    cases (Prod.mk.inj (Option.some.inj he)).1
  rw [if_neg hlen] at he
  obtain ⟨hco, cs, hc, hs, hready⟩ := hclean (Nat.not_le.mp hlen)
  have hlencs := hc.length_le L
  have h := hco.shows
  simp only at he
  cases hsearch : entrySearch m fuel (nameToFatname comp) ca (getContentEcache ci s) s with
  | none =>
    rw [hsearch] at he
    cases he
  | some x =>
    obtain ⟨found, s₁⟩ := x
    rw [hsearch] at he
    cases found with
    | some e' =>
      -- the entry is there, and a search leaves the links
      obtain ⟨-, rfl⟩ := Prod.mk.inj (Option.some.inj he)
      obtain ⟨v₁, h₁, hsame, -⟩ := entrySearch_leaves L (by omega) hc h hs hsearch
      have hfat : (view m s₁).fat = (view m s).fat := by rw [h₁.view_eq, hsame.fat]
      exact ⟨.of_fat L hfat, fun hfree hused => absurd (hfat ▸ hfree) hused⟩
    | none =>
      obtain ⟨-, v₁, h₁, hview, -⟩ := entrySearch_missed L (by omega) hc h hs hsearch
      simp only [hmode, if_true] at he
      obtain ⟨v', h', hcases⟩ := createOnPath_makes L (by omega) (hview.chain hc) h₁
        (SameDir.of_view hview hs).sound (hready s₁ hsearch) he
      rcases hcases with hfat | ⟨c, cs', hpick, hin, hfree, hname, hi⟩
      · have hfat' : (view m s').fat = (view m s).fat := by rw [h'.view_eq, hfat, hview.fat]
        exact ⟨.of_fat L hfat', fun hfree hused => absurd (hfat' ▸ hfree) hused⟩
      · have hne : ∀ k ∈ cs, k ≠ e.dca.toNat := fun k hk heq =>
          (hview.chain hc).not_free L hk (heq ▸ hfree)
        have hc₁ : HasChain m (v₁.setFat e.dca.toNat FAT_CLUSTER_END) ca cs :=
          (hview.chain hc).congr fun k hk => v₁.setFat_fat_ne _ (hne k hk)
        have hgrew := hi.grewBy L hc₁ hname
        have hplaced := hi.placed L (hview.chain hc) hfree
        rw [hname.1]
        refine ⟨(GrewBy.of_entries hgrew (hview.entries cs)).exactly L hc hs h h',
          fun _ _ hdir => ⟨v', h', .single hin hplaced.last, ?_⟩⟩
        have hblank := (hready s₁ hsearch).blank (decide_eq_true hdir) (hpick ▸ L.ne_bad hin)
        rw [h₁.view_eq, ← hpick] at hblank
        exact hblank.congr (hi.raw _ hplaced.apart)

end Step

/-! ### The calls -/

section Open

variable {fuel : Nat} {mode : UInt8} {comps : List (List UInt8)} {ci rci : Int} {active : Nat}
  {x : Move}

/-- Every step of a clean walk is a clean one. -/
theorem CleanWalk.step (hclean : CleanWalk m fuel mode comps ci active s)
    (hx : Moves m fuel mode comps ci active s x) :
    ∃ comp ci', pathStep m fuel mode comp (x.rest ≠ []) ci' x.active x.before
        = some (some x.entry, x.after) ∧
      (comp.length < 32 → CleanAdd m fuel (nameToFatname comp)
        (x.rest ≠ [] ∨ getModeTarget mode ≠ FILE_TARGET) x.active (getContentEcache ci' x.before)
          x.before) := by
  induction hx with
  | here he => exact ⟨_, _, he, hclean.1⟩
  | next he _ ih => exact ih (hclean.2 _ _ he)

/-- The walk ends with its last step. -/
theorem Moves.ends (hx : Moves m fuel mode comps ci active s x) (hlast : x.rest = []) :
    pathLoop m fuel mode comps ci active s = some (some x.entry, x.after) := by
  induction hx with
  | here he =>
    rw [pathLoop_go he, if_pos hlast]
  | next he hx ih =>
    rw [pathLoop_go he, if_neg, ih hlast]
    rintro rfl
    cases hx

/-- The handle of an open whose walk found the entry. -/
theorem openContent_entry {path : List UInt8} {r : Int × FS} {e : DirEntry}
    (he : openContent m fuel rci (some path) mode s = some r) (hpos : 0 ≤ r.1)
    (hget : getClusterByPath m fuel path mode rci (allocCi s).2 = some (some e, s')) :
    getContentDataCa r.1 r.2 = e.dca.toNat ∧ ∀ v, Shows m s' v → Shows m r.2 v := by
  have hci : ¬ (allocCi s).1 < 0 := fun hneg => by
    unfold openContent at he
    simp only [if_pos hneg] at he
    obtain rfl := Option.some.inj he
    exact absurd (show (0 : Int) ≤ -1 from hpos) (by decide)
  unfold openContent at he
  simp only [if_neg hci, hget] at he
  by_cases hbad : e.dca.toNat = FAT_CLUSTER_BAD
  · have hnone : (some e).filter (fun e => decide (e.dca.toNat ≠ FAT_CLUSTER_BAD)) = none := by
      simp [Option.filter, hbad]
    rw [hnone] at he
    obtain ⟨d, -, rfl⟩ := Option.map_eq_some_iff.mp he
    exact absurd (show (0 : Int) ≤ -2 from hpos) (by decide)
  · have hsome : (some e).filter (fun e => decide (e.dca.toNat ≠ FAT_CLUSTER_BAD)) = some e := by
      simp [Option.filter, hbad]
    rw [hsome] at he
    obtain rfl := Option.some.inj he
    exact ⟨getContentDataCa_setupContent (allocCi_inTable rfl (not_lt.mp hci)) _ _ _ _ _,
      fun v h => setupContent_shows h⟩

/-- An open whose walk is clean. -/
theorem openContent_fresh (L : Layout m) {path : List UInt8} {r : Int × FS}
    (hfuel : m.fi.totalClusters + 1 ≤ fuel) (hmode : isCreateMode mode = true)
    (hclean : CleanWalk m fuel mode (pathComponents path) rci (startDir m rci (allocCi s).2)
      (allocCi s).2) (he : openContent m fuel rci (some path) mode s = some r) :
    OpensFresh m fuel mode (pathComponents path) rci (allocCi s).2 r := by
  intro x hx
  obtain ⟨comp, ci', hstep, hadd⟩ := hclean.step hx
  obtain ⟨hgrew, hempty⟩ := pathStep_fresh L hfuel hmode (by simpa using hadd) hstep
  refine ⟨hgrew, fun hmakes hdir => ?_⟩
  obtain ⟨v', h', hc', hblank⟩ := hempty hmakes.1 hmakes.2 (by simpa using hdir)
  refine ⟨EmptyDir.findsNothing L ⟨v', h', hc', hblank⟩, fun hlast hpos => ?_⟩
  obtain ⟨hca, hshows⟩ := openContent_entry he hpos (hx.ends hlast)
  refine ⟨hca, ?_⟩
  rw [hca]
  exact EmptyDir.findsNothing L ⟨v', hshows v' h', hc', hblank⟩

end Open

/-- A put that gets clean clusters. -/
theorem putContent_fresh (L : Layout m) {fuel : Nat} {ci : Int} {info : CInfo} {reserve : Int}
    {r : Bool × FS} (hfuel : m.fi.totalClusters + 1 ≤ fuel)
    (hclean : CleanMake m fuel s (.putContent ci info reserve))
    (he : putContent m fuel ci info reserve s = some r) :
    PutsFresh m (getContentDataCa ci s) info s (intOfBool r) := by
  obtain ⟨⟨hco, cs, hc, hs, hready⟩, hreserve⟩ := hclean
  have h := hco.shows
  have hlencs := hc.length_le L
  have hunchanged : ∀ v', Shows m r.2 v' → v'.fat = (view m s).fat → r.1 = false →
      PutsFresh m (getContentDataCa ci s) info s (intOfBool r) := fun v' h' hfat hr => by
    refine ⟨.of_fat L ?_, fun hone => ?_⟩
    · show (view m r.2).fat = _
      rw [h'.view_eq, hfat]
    · unfold intOfBool at hone
      rw [hr] at hone
      cases hone
  cases hsearch : entrySearch m fuel info.fullName (getContentDataCa ci s) (getContentEcache ci s) s
  with
  | none =>
    unfold putContent at he
    simp only [hsearch] at he
    cases he
  | some x =>
    obtain ⟨found, s₁⟩ := x
    cases found with
    | some e =>
      obtain ⟨v₁, h₁, hsame, -⟩ := entrySearch_leaves L (by omega) hc h hs hsearch
      unfold putContent at he
      simp only [hsearch] at he
      obtain rfl := Option.some.inj he
      exact hunchanged v₁ (registerError_shows L h₁ .entrySearchError).1 hsame.fat rfl
    | none =>
      obtain ⟨hnone, v₁, h₁, hview, -⟩ := entrySearch_missed L (by omega) hc h hs hsearch
      obtain ⟨hname, hblank, hstarts⟩ := hready s₁ hsearch
      rw [h₁.view_eq] at hblank hstarts
      have hc₁ := hview.chain hc
      rcases @putContent_miss m s s₁ v₁ cs ci info reserve fuel L (by omega) hsearch h₁ hc₁
          (fun _ => hstarts) with ⟨-, s₂, he₂, h₂, -⟩ | ⟨-, hin, hfree, ⟨he₂, -⟩ | hstored⟩
      · obtain rfl := Option.some.inj (he₂.symm.trans he)
        exact hunchanged v₁ h₂ hview.fat rfl
      · rw [he₂] at he
        cases he
      · obtain ⟨c, s₂, v₂, cs', hadd, he₂, h₂, hf⟩ := hstored
        obtain rfl := Option.some.inj (he₂.symm.trans he)
        have hsame := SameDir.of_view hview hs
        have hnone₁ : v₁.first m cs (Matches info.fullName) = none := by
          rw [Vol.first_congr hsame.entries, hnone]
        obtain ⟨v₃, hres⟩ := reserved_of_stored L hc₁ hnone₁ hsame.sound h₁ hin hfree hname h₂ hf
          (reserve - NO_RESERVE).toNat
        refine ⟨(GrewBy.of_entries hres.grew (hview.entries cs)).exactly L hc hs h hres.shows,
          fun _ hdir => hres.found.imp fun y hy => ?_⟩
        obtain ⟨e, hy, hdca⟩ := hy
        refine ⟨e, hy, ?_⟩
        rw [hdca]
        refine findsNothing_of_blank L hres.chain hres.shows fun k hk => ?_
        refine Blank.congr ?_ (hres.raw k hk)
        rcases List.mem_cons.mp hk with rfl | hk
        · exact hblank (decide_eq_true hdir) (L.ne_bad hin)
        · have hclean := hreserve hdir s₁ _ hsearch hadd k hk
          rwa [h₁.view_eq] at hclean

/-- The directory `A` in the cluster `6`. -/
def staleDir : DirEntry := createEntry (letterName 0x41) true 6 0

/-- The slots of its cluster: the file `B` in the cluster `7`. -/
def staleSlots : List DirEntry :=
  storedIn (letterFile 0x42 7) 6 :: closeSlots (List.replicate 3 zeroSlot)

/-- The small volume with the directory `A` in its root directory, and the file `B` in `A`. The
bytes of `B` are those of the cluster of `A`, so that it does not matter which cluster is taken
first. -/
def staleVol : Vol :=
  ((((smallVol.setFat 6 FAT_CLUSTER_END).setFat 7 FAT_CLUSTER_END).setSlots (smallMount 0) 7
    (smallVol.raw 7) staleSlots).setSlots (smallMount 0) 6 (smallVol.raw 6) staleSlots).setSlots
      (smallMount 0) 2 (smallVol.raw 2)
      (storedIn staleDir 2 :: closeSlots (List.replicate 3 zeroSlot))

/-- The table with a handle of `A` in the slot `0`. -/
def staleTable : Nat → Content := handleTable staleDir

theorem staleVol_stored (contents : Nat → Content) : Stored (smallMount 0) contents staleVol := by
  have L := smallMount_layout (Nat.zero_le 1)
  have hx : FAT_CLUSTER_END < 2 ^ 28 := by decide
  exact (((((smallVol_stored contents).setFat L (by decide) hx).setFat L (by decide) hx).setRaw L
    (by decide) (length_repackCluster rfl List.length_replicate)).setRaw L
    (by decide) (length_repackCluster rfl List.length_replicate)).setRaw L
    (by decide) (length_repackCluster rfl List.length_replicate)

theorem staleDir_storable : Storable staleDir := createEntry_storable (by decide) (by decide)

theorem staleVol_slots : staleVol.slots (smallMount 0) 2
      = storedIn staleDir 2 :: closeSlots (List.replicate 3 zeroSlot) ∧
    ∀ c, c = 6 ∨ c = 7 → staleVol.slots (smallMount 0) c = staleSlots := by
  refine ⟨Vol.slots_setSlots_self rfl List.length_replicate, ?_⟩
  rintro c (rfl | rfl)
  · unfold staleVol
    rw [Vol.slots_setSlots_ne _ _ (by decide)]
    exact Vol.slots_setSlots_self rfl List.length_replicate
  · unfold staleVol
    rw [Vol.slots_setSlots_ne _ _ (by decide), Vol.slots_setSlots_ne _ _ (by decide)]
    exact Vol.slots_setSlots_self rfl List.length_replicate

/-- A cluster with one entry, as a directory. -/
theorem oneEntry_cluster {e : DirEntry} {c c' : Nat} (he : Storable e)
    (hslots : v.slots m c = storedIn e c' :: closeSlots (List.replicate 3 zeroSlot)) :
    SoundDir m v [c] ∧ v.entries m [c] = [(c, storedIn e c')] := by
  have hvis : visible (v.slots m c) = [storedIn e c'] := by
    rw [hslots, visible_cons (he.stored_last c'), visible_closeSlots]
  have hlive : v.live m c = [storedIn e c'] := by
    show live (v.slots m c) = _
    rw [hslots, live_cons (he.stored_last c') (he.valid c') (he.stored_free c')]
    unfold live scan
    rw [visible_closeSlots]
    rfl
  constructor
  · intro k hk y hy _
    rw [List.mem_singleton.mp hk, hvis, List.mem_singleton] at hy
    rw [hy]
    exact Or.inl (he.valid c')
  · rw [Vol.entries_cons, hlive]
    rfl

/-- `A` owns its cluster and the one of `B`. -/
theorem staleVol_owns : Owns (smallMount 0) staleVol 2 6 true [6, 7] := by
  have hB := letterFile_storable (show (0x42 : UInt8) ≠ ENTRY_FREE by decide)
    (show (0x42 : UInt8) ≠ ENTRY_END by decide) 7
  obtain ⟨hsound, hentries⟩ := oneEntry_cluster hB (staleVol_slots.2 6 (Or.inl rfl))
  refine ⟨[6], [7], .single (by decide) rfl, hsound, ?_, rfl⟩
  rw [hentries]
  exact ⟨[7], [], .single (by decide) rfl, rfl, rfl⟩

/-- What the deletion of `A` leaves: its clusters are free, and they still have their bytes. -/
structure StaleLeft (s : FS) (v : Vol) : Prop where
  shows : Shows (smallMount 0) s v
  fat : v.fat = (staleVol.freeAll [6, 7]).fat
  slots : v.slots (smallMount 0) 2
    = (storedIn staleDir 2).setFirst ENTRY_FREE :: closeSlots (List.replicate 3 zeroSlot)
  raw : ∀ k, k ≠ 2 → v.raw k = staleVol.raw k

/-- The deletion of `A`. -/
theorem deleteContent_stale (h : Shows (smallMount 0) s staleVol)
    (hcont : s.contents = staleTable) :
    Ensures (fun fuel => deleteContent (smallMount 0) fuel 0 s) fun r => r.1 = true ∧
      ∃ v, StaleLeft r.2 v := by
  have L := smallMount_layout (Nat.zero_le 1)
  have he := staleDir_storable
  obtain ⟨hsound, hentries⟩ := oneEntry_cluster he staleVol_slots.1
  have hchain : HasChain (smallMount 0) staleVol 2 [2] := .single (by decide) rfl
  have ht : FirstAt (smallMount 0) staleVol [2] (SameName (letterName 0x41))
      ⟨[], 2, [], [], storedIn staleDir 2, closeSlots (List.replicate 3 zeroSlot)⟩ :=
    ⟨⟨rfl, staleVol_slots.1, fun x hx => absurd hx List.not_mem_nil, he.stored_last 2⟩,
      fun x hx => absurd hx List.not_mem_nil, fun x hx => absurd hx List.not_mem_nil, he.valid 2,
      he.stored_free 2, nameEq_self _⟩
  refine ⟨11, fun fuel hfuel => ?_⟩
  have hlen : ([2] : List Nat).length ≤ fuel := Nat.le_trans (by decide) hfuel
  have hdepth : 2 + (smallMount 0).fi.totalClusters + 1 ≤ fuel := hfuel
  obtain ⟨s₁, v₁, he₁, hs₁, hl, hfat, hrep⟩ := (entryRemove_first 0 L hlen hdepth hchain h hsound ht
    staleVol_owns (by decide)).resolve_left fun hstuck => hstuck.1 rfl
  have hname : getContentName 0 s = some (letterName 0x41) := by
    unfold getContentName
    rw [hcont]
    rfl
  have hroot : getContentRootCa 0 s = 2 := by
    unfold getContentRootCa
    rw [hcont]
    rfl
  have hcache : getContentEcache 0 s = 0 := by
    unfold getContentEcache
    rw [hcont]
    rfl
  have hremove : removeContent (smallMount 0) fuel 0 s = some (true, s₁) := by
    unfold removeContent
    simp only [hname, hroot, hcache]
    exact he₁
  have hindex : (s₁.contents (0 : Int).toNat).indexRoot = NO_ECACHE := by
    rw [hl.contents, hcont]
    rfl
  obtain ⟨b, s₂, he₂, hs₂, -⟩ := destroyContent_shows fuel hs₁ hindex
  refine ⟨(true, s₂), ?_, rfl, v₁, hs₂, hfat, hrep.slots,
    fun k hk => hrep.raw k (by simpa using hk)⟩
  unfold deleteContent
  simp only [hremove, he₂]
  rfl

/-- The mode of an open that creates a directory. -/
def createDirMode : UInt8 := 0b00100111

/-- The free clusters are the two of `A`. -/
theorem StaleLeft.free (hl : StaleLeft s v) {n : Nat} (hn : v.fat n = FAT_CLUSTER_FREE) :
    n = 6 ∨ n = 7 := by
  obtain ⟨h₁, h₂⟩ : InVol (smallMount 0) n := hl.shows.inVol_of_fat (by rw [hn]; decide)
  have h8 : n < 8 := h₂
  have h2 : 2 ≤ n := h₁
  obtain h | h | h : n < 6 ∨ n = 6 ∨ n = 7 := by omega
  · rw [hl.fat] at hn
    obtain rfl | rfl | rfl | rfl : n = 2 ∨ n = 3 ∨ n = 4 ∨ n = 5 := by omega
    all_goals exact absurd hn (by decide)
  · exact Or.inl h
  · exact Or.inr h

/-- The root directory has no entry, and a slot to take. -/
theorem StaleLeft.root (hl : StaleLeft s v) : HasChain (smallMount 0) v 2 [2] ∧
    SoundDir (smallMount 0) v [2] ∧ v.addCluster (smallMount 0) [2] ≠ none ∧
    v.first (smallMount 0) [2] (Matches (nameToFatname [0x4E])) = none := by
  have hfree : ((storedIn staleDir 2).setFirst ENTRY_FREE).first = ENTRY_FREE :=
    DirEntry.first_setFirst _ _
  have hvis : visible (v.slots (smallMount 0) 2) = [(storedIn staleDir 2).setFirst ENTRY_FREE] := by
    rw [hl.slots, visible_cons (by rw [hfree]; decide), visible_closeSlots]
  refine ⟨.single (by decide) (by rw [hl.fat]; rfl), fun c hc y hy hne => ?_, ?_, ?_⟩
  · rw [List.mem_singleton.mp hc, hvis, List.mem_singleton] at hy
    rw [hy] at hne
    exact absurd hfree hne
  · have hslot : (v.slots (smallMount 0) 2).any addable = true := by
      rw [hl.slots, List.any_eq_true]
      refine ⟨_, List.mem_cons_self, (addable_iff _).mpr (Or.inl ?_)⟩
      exact fun hlive => hlive.2 hfree
    have hfind : v.addCluster (smallMount 0) [2] = some 2 := List.find?_cons_of_pos hslot
    rw [hfind]
    exact Option.some_ne_none 2
  · have hlive : v.live (smallMount 0) 2 = [] := by
      rw [List.eq_nil_iff_forall_not_mem]
      intro e he
      obtain ⟨hmem, -, hused⟩ := mem_live.mp he
      rw [hvis, List.mem_singleton] at hmem
      rw [hmem] at hused
      exact hused hfree
    unfold Vol.first
    rw [Vol.entries_cons, hlive]
    rfl

/-- The walk of an open that creates the directory `N`: its cluster shows the file `B`. -/
theorem pathStep_stale (hl : StaleLeft s v) {fuel : Nat} (hfuel : 2 ≤ fuel) :
    ∃ e s' v', pathStep (smallMount 0) fuel createDirMode [0x4E] false NO_RCI 2 s
        = some (some e, s') ∧
      Shows (smallMount 0) s' v' ∧ (∃ al, Keeps al s s') ∧ InVol (smallMount 0) e.dca.toNat ∧
      v.fat e.dca.toNat = FAT_CLUSTER_FREE ∧ v'.fat e.dca.toNat ≠ FAT_CLUSTER_FREE ∧
      ∃ b, Finds (smallMount 0) s' e.dca.toNat (letterName 0x42) (some b) := by
  have L := smallMount_layout (Nat.zero_le 1)
  obtain ⟨hc, hs, hslot, hnone⟩ := hl.root
  have hlen : ([2] : List Nat).length ≤ fuel := Nat.le_of_succ_le hfuel
  obtain ⟨s₁, v₁, he₁, hs₁, hk₁, hview⟩ := entrySearch_none L hlen hc hl.shows hs hnone
  -- the allocator finds `6` or `7`
  have hpick : v₁.fat (pickContent (smallMount 0) s₁) = FAT_CLUSTER_FREE := by
    refine smallMount_alloc hs₁ (show v₁.fat 6 = _ by rw [hview.fat, hl.fat]; rfl)
      (Nat.le_refl 6) ?_
    intro k h2 h6
    rw [hview.fat, hl.fat]
    obtain rfl | rfl | rfl | rfl : k = 2 ∨ k = 3 ∨ k = 4 ∨ k = 5 := by omega
    all_goals rfl
  have hgot : pickContent (smallMount 0) s₁ ≠ FAT_CLUSTER_BAD := by
    rcases hl.free (hview.fat ▸ hpick) with h | h
    · rw [h]
      decide
    · rw [h]
      decide
  have hslot₁ : v₁.addCluster (smallMount 0) [2] ≠ none := by
    rw [hview.addCluster]
    exact hslot
  obtain ⟨r, s₂, v₂, he₂, hstep⟩ := createOnPath_shows L hfuel (hview.chain hc) hs₁
    (SameDir.of_view hview hs).sound (show Name.first (nameToFatname [0x4E]) ≠ ENTRY_FREE by decide)
    (by decide) (fun hfull => absurd hfull hslot₁) true
  have hmode : isCreateMode createDirMode = true := by decide
  have hrun := pathStep_create hmode (show ([0x4E] : List UInt8).length < 32 by decide) he₁ false
  rw [show decide (false = true ∨ getModeTarget createDirMode ≠ FILE_TARGET) = true by decide, he₂]
    at hrun
  cases hstep with
  | noCluster _ _ hbad => exact absurd hbad hgot
  | noSlot _ _ _ _ hfull => exact absurd hfull hslot₁
  | @added _ _ e c cs' al hs₂ hk₂ _ hin hfree _ _ hi =>
    have hplaced := hi.placed L (hview.chain hc) hfree
    have hend : FAT_CLUSTER_END ≠ FAT_CLUSTER_FREE := by decide
    rw [hview.fat] at hfree
    have hold := hl.free hfree
    have hne : e.dca.toNat ≠ 2 := by
      rcases hold with h | h <;> omega
    -- the cluster has the bytes that it had in the deleted directory
    have hslots : v₂.slots (smallMount 0) e.dca.toNat = staleSlots := by
      have hraw : v₂.raw e.dca.toNat = staleVol.raw e.dca.toNat :=
        ((hi.raw _ hplaced.apart).trans (hview.raw _ (by simpa using hne))).trans (hl.raw _ hne)
      rw [Vol.slots_congr hraw]
      exact staleVol_slots.2 _ hold
    have hB := letterFile_storable (show (0x42 : UInt8) ≠ ENTRY_FREE by decide)
      (show (0x42 : UInt8) ≠ ENTRY_END by decide) 7
    obtain ⟨hsound, hentries⟩ := oneEntry_cluster hB hslots
    have hfirst : v₂.first (smallMount 0) [e.dca.toNat] (Matches (letterName 0x42))
        = some (e.dca.toNat, storedIn (letterFile 0x42 7) 6) := by
      have hmatch : Matches (letterName 0x42) (storedIn (letterFile 0x42 7) 6) = true :=
        @matches_self (storedIn (letterFile 0x42 7) 6) rfl
      unfold Vol.first
      rw [hentries]
      exact List.find?_cons_of_pos hmatch
    refine ⟨e, s₂, v₂, hrun, hs₂, ⟨_, hk₁.nil_trans hk₂⟩, hin, hfree, ?_,
      foundAs (e.dca.toNat, storedIn (letterFile 0x42 7) 6),
      (finds_iff L (.single hin hplaced.last) hs₂ hsound _).mpr ?_⟩
    · rw [hplaced.last]
      exact hend
    · rw [hfirst]
      rfl

/-- One call of a run, with a fact about the state it leaves. -/
theorem makeRun_step {calls : List ApiCall} {c : ApiCall} {x : MakeRun} (p : FS → Prop)
    (hrun : Always (CallReturns m) (MakeRun.call m) MakeRun.fresh (c :: calls) x)
    (h : Ensures (fun fuel => runCall m c fuel x.fs) fun r => p r.2) :
    ∃ y : MakeRun, p y.fs ∧ Always (CallReturns m) (MakeRun.call m) MakeRun.fresh calls y := by
  have hret : CallReturns m x c := h.imp fun _ _ => trivial
  have hfact : Ensures (MakeRun.call m c x) fun y => p y.fs := by
    obtain ⟨bound, hb⟩ := h
    refine ⟨bound, fun fuel hfuel => ?_⟩
    obtain ⟨r, hr, hp⟩ := hb fuel hfuel
    exact ⟨_, congrArg (Option.map _) hr, hp⟩
  exact hrun.step hret hfact

/-- In the empty root directory of the small volume there is nothing to recycle. -/
theorem rootVol_clean (h : Shows (smallMount 0) s rootVol) {fuel : Nat} (hfuel : 1 ≤ fuel) :
    CleanMake (smallMount 0) fuel s (.openContent NO_RCI (some [0x45]) createDirMode) := by
  intro _
  have L := smallMount_layout (Nat.zero_le 1)
  have h₀ := allocCi_shows h
  have hmiss := rootVol_misses.1.missing
  have hview : view (smallMount 0) (allocCi s).2 = rootVol := h₀.view_eq
  refine ⟨fun hlen => ⟨h₀.coherent, [2], ?_, ?_, fun s₁ hsearch => ?_⟩, fun _ _ _ => trivial⟩
  · rw [hview]
    exact hmiss.chain
  · rw [hview]
    exact hmiss.sound
  · obtain ⟨s₂, v₂, he₂, hs₂, -, hview₂⟩ := entrySearch_none L hfuel hmiss.chain h₀ hmiss.sound
      (hmiss.none_ hlen)
    obtain rfl : s₂ = s₁ := (Prod.mk.inj (Option.some.inj (he₂.symm.trans hsearch))).2
    refine ⟨⟨by decide, by decide⟩, fun _ hne => ?_, fun hfull => ?_⟩
    · obtain ⟨hin, hfree⟩ := allocNext_free L hs₂ hne
      rw [hs₂.view_eq]
      rw [hview₂.fat] at hfree
      have hnot : pickContent (smallMount 0) s₂ ∉ [2] := fun hm => hmiss.chain.not_free L hm hfree
      refine Blank.congr (v := rootVol) (fun name e he => ?_) (hview₂.raw _ hnot)
      have hraw : rootVol.raw (pickContent (smallMount 0) s₂)
          = List.replicate (smallMount 0).fi.clusterSize 0 := if_pos hin
      have hslots : rootVol.slots (smallMount 0) (pickContent (smallMount 0) s₂)
          = List.replicate 4 zeroSlot := by
        unfold Vol.slots
        rw [hraw]
        exact slotsIn_zero (m := smallMount 0)
      have hlive : live (List.replicate 4 zeroSlot) = [] := live_cons_end first_zeroSlot
      unfold Vol.live at he
      rw [hslots, hlive] at he
      exact absurd he List.not_mem_nil
    · rw [hs₂.view_eq, hview₂.addCluster, rootVol_misses.2] at hfull
      cases hfull

end NiFat32
