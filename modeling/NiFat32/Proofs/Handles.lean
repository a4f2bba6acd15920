import Mathlib.Order.Filter.AtTopBot.Finite
import NiFat32.Core.Api
import NiFat32.Proofs.Lookup

/-!
# `Proofs.Handles`: calls through handles that are not open

The getters of the content table check the range of a handle, not that its slot is in use, and a
slot keeps its mode and its clusters after the close. `StaysOut` says for each of the eight
operations when such a call gets nowhere near the data of the slot, and `closed_handles_refused`
is the run theorem: while the calls through closed handles stay out, every one of them fails and
leaves the FAT, the files and the directories alone.
-/

set_option autoImplicit false

namespace NiFat32

open Run

variable {m : Mount} {s s' : FS} {v v' u u' : Vol} {ca : Nat} {ci : Int}

/-! ### Refused calls -/

/-- The call failed: it returned `0`, and every cell of the FAT, every file and every directory is
what it was in `s`. -/
structure Refused (m : Mount) (s : FS) (r : Int × FS) : Prop where
  result : r.1 = 0
  cells : ∀ ca i, InVol m ca → i < m.fi.fatCount →
    fatCell m r.2.medium.bytes ca i = fatCell m s.medium.bytes ca i
  stored : SameStored m m.fi.extRootCluster (view m s) (view m r.2)

/-- A run of the library: the state, and whether every call so far through a handle that was not
open was refused. -/
structure Session where
  fs : FS
  refused : Prop

/-- Every handle of the call is open. -/
def ApiCall.OnOpen (c : ApiCall) (s : FS) : Prop := ∀ ci ∈ c.handles, isOpen ci s

/-- One call of a run. -/
def Session.call (m : Mount) (c : ApiCall) (x : Session) (fuel : Nat) : Option Session :=
  (runCall m c fuel x.fs).map fun r =>
    ⟨r.2, x.refused ∧ (¬ c.OnOpen x.fs → Refused m x.fs r)⟩

/-- A program makes the call and gets a result, when all the handles are open. -/
def Returns (m : Mount) (x : Session) (c : ApiCall) : Prop :=
  c.OnOpen x.fs → Ensures (fun fuel => runCall m c fuel x.fs) fun _ => True

/-- A walk for `p` in the volume `u`, all of whose visits leave what `v` stores. -/
def QuietScan (m : Mount) (v u : Vol) (p : DirEntry → Bool) (ca : Nat) (r : Option DirEntry)
    (u' : Vol) : Prop :=
  ∃ cs, ScanWalk m p u ca cs r u' ∧ ∀ c ∈ cs, HarmlessVisit m m.fi.extRootCluster v (p, c)

/-- Such a walk for the entry of a content, in its directory. A content outside the table has no
name, and nothing is looked for. -/
def QuietSearch (m : Mount) (s : FS) (u : Vol) (ci : Int) (r : Option DirEntry) (u' : Vol) : Prop :=
  match getContentName ci s with
  | none => r = none ∧ u' = u
  | some name => QuietScan m (view m s) u (Matches name) (getContentRootCa ci s) r u'

/-- `entry_add` finds no slot in the directory at the cluster: its chain is full up to a bad
cluster, or up to its end, and no cluster is free. -/
inductive AddFails (m : Mount) (v : Vol) : Nat → Prop
  | bad : AddFails m v FAT_CLUSTER_BAD
  | full {c : Nat} (hc : InVol m c) (hslots : ∀ e ∈ v.slots m c, addable e = false)
      (hend : v.fat c = FAT_CLUSTER_END) (hfree : ∀ n, InVol m n → v.fat n ≠ FAT_CLUSTER_FREE) :
      AddFails m v c
  | next {c : Nat} (hc : InVol m c) (hslots : ∀ e ∈ v.slots m c, addable e = false)
      (hend : v.fat c ≠ FAT_CLUSTER_END) (hrest : AddFails m v (v.fat c)) : AddFails m v c

/-- `NIFAT32_put_content` fails at the search, or at the adding, whichever free cluster it takes
for the new content. -/
def PutFails (m : Mount) (s : FS) (ci : Int) (name : Name) : Prop :=
  getContentEcache ci s = NO_ECACHE ∧
  ∃ r u', QuietScan m (view m s) (view m s) (Matches name) (getContentDataCa ci s) r u' ∧
    (r = none → ∀ n, InVol m n → u'.fat n = FAT_CLUSTER_FREE →
      AddFails m (u'.setFat n FAT_CLUSTER_END) (getContentDataCa ci s))

/-- The two clusters have sectors in common, and `copy_cluster` cannot lock both. -/
def Overlap (m : Mount) (src dst : Nat) : Prop :=
  clusterSector m src < u32 (clusterSector m dst + m.fi.sectorsPerCluster) ∧
    clusterSector m dst < u32 (clusterSector m src + m.fi.sectorsPerCluster)

/-- `NIFAT32_copy_content` fails before it changes the destination. A deep copy that cannot start
gives the chain of the destination back, so there must be none. -/
def CopyFails (m : Mount) (s : FS) (src dst deep : Int) : Prop :=
  if deep = DEEP_COPY then
    Overlap m (getContentDataCa src s) (getContentDataCa dst s) ∧
      (InVol m (getContentDataCa dst s) →
        (view m s).fat (getContentDataCa dst s) = FAT_CLUSTER_FREE)
  else if deep = SHALLOW_COPY then
    ∃ r u', QuietSearch m s (view m s) src r u' ∧
      (r = none ∨ ∃ u'', QuietSearch m s u' dst none u'')
  else True

/-- The call does not get at the data of a slot that is not in use: the mode that the slot still
has forbids it, or the search in the directory that the slot still names finds nothing. -/
def StaysOut (m : Mount) (s : FS) : ApiCall → Prop
  | .readContent2buffer ci _ _ => isReadMode (getContentMode ci s) = false
  | .writeBuffer2content ci _ _ | .truncateContent ci _ _ =>
    isWriteMode (getContentMode ci s) = false
  | .changeMeta ci _ => Coherent m s ∧ inTable ci ∧ ∃ u', QuietSearch m s (view m s) ci none u'
  | .putContent ci info _ => Coherent m s ∧ PutFails m s ci info.fullName
  | .copyContent src dst deep => Coherent m s ∧ CopyFails m s src dst deep
  | .deleteContent ci => Coherent m s ∧ ∀ name, getContentName ci s = some name →
      ∃ u', QuietScan m (view m s) (view m s) (SameName name) (getContentRootCa ci s) none u'
  | .statContent ci _ => inTable ci
  | _ => True

/-- The calls of a run return, and those through handles that are not open stay out. -/
def Careful (m : Mount) (x : Session) (c : ApiCall) : Prop :=
  Returns m x c ∧ (¬ c.OnOpen x.fs → StaysOut m x.fs c)

/-! ### Opening and closing -/

theorem allocCi_inTable {ci : Int} (h : (allocCi s).1 = ci) (hci : 0 ≤ ci) : inTable ci := by
  have hslot : ∀ left i k, emptySlot s left i = some k → k < i + left := by
    intro left
    induction left with
    | zero => exact fun i k h => absurd h (by unfold emptySlot; simp)
    | succ left ih =>
      intro i k hk
      unfold emptySlot at hk
      split at hk
      · have := Option.some.inj hk
        omega
      · have := ih (i + 1) k hk
        omega
  unfold allocCi at h
  cases hs : emptySlot s CONTENT_TABLE_SIZE 0 with
  | none =>
    rw [hs] at h
    have hneg : (-1 : Int) = ci := h
    omega
  | some i =>
    rw [hs] at h
    have hi : (i : Int) = ci := h
    have hlt := hslot _ _ _ hs
    have hsize : i < 0 + 50 := hlt
    refine ⟨hci, ?_⟩
    show ci < ((50 : Nat) : Int)
    omega

/-- The handle that an open returns is open. -/
theorem openContent_isOpen {fuel : Nat} {rci : Int} {path : Option (List UInt8)} {mode : UInt8}
    (h : openContent m fuel rci path mode s = some (ci, s')) (hci : 0 ≤ ci) : isOpen ci s' := by
  have hsetup : ∀ {ci : Int} {t : FS} {isDir : Bool} {name : List UInt8} {e : DirEntry},
      inTable ci → isOpen ci (setupContent ci isDir name e mode t) := by
    intro ci t isDir name e hin
    refine ⟨hin, ?_⟩
    unfold setupContent FS.setContent
    rw [if_pos hin]
    cases isDir <;> simp
  have hin := allocCi_inTable (s := s) rfl
  unfold openContent at h
  cases ha : allocCi s with
  | mk k t =>
    rw [ha] at h hin
    simp only at h
    by_cases hk : k < 0
    · rw [if_pos hk] at h
      obtain ⟨rfl, -⟩ := Prod.mk.inj (Option.some.inj h)
      omega
    rw [if_neg hk] at h
    have hk' := hin (not_lt.mp hk)
    cases path with
    | none =>
      obtain ⟨rfl, rfl⟩ := Prod.mk.inj (Option.some.inj h)
      exact hsetup hk'
    | some path =>
      simp only at h
      cases hget : getClusterByPath m fuel path mode rci t with
      | none =>
        rw [hget] at h
        cases h
      | some r =>
        obtain ⟨found, t₁⟩ := r
        rw [hget] at h
        simp only at h
        cases hf : found.filter fun e => e.dca.toNat ≠ FAT_CLUSTER_BAD with
        | some e =>
          rw [hf] at h
          obtain ⟨rfl, rfl⟩ := Prod.mk.inj (Option.some.inj h)
          exact hsetup hk'
        | none =>
          rw [hf] at h
          obtain ⟨x, -, hx⟩ := Option.map_eq_some_iff.mp h
          obtain ⟨rfl, -⟩ := Prod.mk.inj hx
          omega

/-- A handle that was closed is not open. -/
theorem closeContent_not_isOpen {fuel : Nat} {r : Bool}
    (h : closeContent fuel ci s = some (r, s')) : ¬ isOpen ci s' := by
  unfold closeContent destroyContent at h
  by_cases hin : inTable ci ∧ (s.contents ci.toNat).contentType ≠ .empty
  · rw [if_pos hin] at h
    simp only at h
    split at h
    · cases h
    · obtain ⟨-, rfl⟩ := Prod.mk.inj (Option.some.inj h)
      intro hopen
      apply hopen.2
      unfold FS.setContent
      simp
  · rw [if_neg hin] at h
    obtain ⟨-, rfl⟩ := Prod.mk.inj (Option.some.inj h)
    exact hin

/-- So is a handle whose content was deleted. -/
theorem deleteContent_not_isOpen {fuel : Nat} (h : deleteContent m fuel ci s = some (true, s')) :
    ¬ isOpen ci s' := by
  unfold deleteContent at h
  cases hr : removeContent m fuel ci s with
  | none =>
    rw [hr] at h
    cases h
  | some x =>
    obtain ⟨ok, t⟩ := x
    rw [hr] at h
    cases ok with
    | false => cases (Prod.mk.inj (Option.some.inj h)).1
    | true =>
      obtain ⟨⟨b, t'⟩, hd, hx⟩ := Option.map_eq_some_iff.mp h
      obtain ⟨-, rfl⟩ := Prod.mk.inj hx
      exact closeContent_not_isOpen hd

/-! ### Walks that find nothing -/

section Miss

variable {σ : Type} {handler : Handler σ} {ctx : σ} {p : DirEntry → Bool}

theorem slotLoop_miss (hp : Passes handler ctx p) {slots : List DirEntry}
    (h : scanHit p slots = none) (i : Nat) :
    slotLoop handler ca i slots ctx s = some (false, scanSlots p slots, ctx, s) := by
  induction slots generalizing i with
  | nil => rfl
  | cons e es ih =>
    unfold scanHit at h
    unfold slotLoop scanSlots
    by_cases hend : e.first = ENTRY_END
    · rw [if_pos hend, if_pos hend]
    rw [if_neg hend] at h ⊢
    rw [if_neg hend]
    by_cases hstop : Stops p e
    · rw [if_pos hstop] at h
      cases h
    rw [if_neg hstop] at h ⊢
    have hmiss : e.Valid → e.first ≠ ENTRY_FREE → p e = false := by
      intro hv hf
      cases hpe : p e with
      | false => rfl
      | true => exact absurd ⟨hv, hf, hpe⟩ hstop
    rw [hp e hmiss ⟨ca, i⟩ s]
    simp only
    rw [ih h (i + 1)]
    rfl

/-- One cluster of `entry_iterate` in which the handler passes over every slot. -/
theorem entryIterate_pass (L : Layout m) (h : Shows m s v) (hca : InVol m ca)
    (hp : Passes handler ctx p) (hmiss : scanHit p (v.slots m ca) = none) (fuel : Nat) :
    ∃ s', Shows m s' (v.scanned m p ca) ∧ s'.contents = s.contents ∧
      entryIterate m handler (fuel + 1) ca ctx s =
        if v.fat ca ≠ FAT_CLUSTER_END then entryIterate m handler fuel (v.fat ca) ctx s'
        else some (false, ctx, s') := by
  have hslots : slotsOf (entriesPerCluster m) (unpackMemory (v.raw ca) (decodedLen m))
      = v.slots m ca := rfl
  obtain ⟨s₁, he₁, hs₁, hk₁⟩ := writeSlots_shows L h hca (length_scanSlots_slots (p := p))
    (h.length_raw hca)
  obtain ⟨s₂, he₂, hs₂, hk₂⟩ := readFat_shows L hs₁ ca
  refine ⟨s₂, hs₂, hk₂.contents.trans hk₁.contents, ?_⟩
  conv_lhs => unfold entryIterate
  rw [readEncodedCluster_shows L h hca]
  simp only [hslots, slotLoop_miss hp hmiss, he₁, he₂, Vol.setSlots_fat]
  simp

/-- `entry_iterate` over a walk that finds nothing. -/
theorem ScanWalk.miss (L : Layout m) (hp : Passes handler ctx p) {cs : List Nat}
    {r : Option DirEntry} (hw : ScanWalk m p v ca cs r v') (hr : r = none) (h : Shows m s v)
    {fuel : Nat} (hfuel : cs.length < fuel) :
    ∃ s', entryIterate m handler fuel ca ctx s = some (false, ctx, s') ∧ Shows m s' v' ∧
      s'.contents = s.contents := by
  induction hw generalizing s fuel with
  | bad =>
    obtain ⟨fuel, rfl⟩ : ∃ k, fuel = k + 1 := ⟨fuel - 1, by omega⟩
    unfold entryIterate readEncodedCluster
    rw [if_pos rfl]
    obtain ⟨hs', hk⟩ := registerError_shows L h .badClusterError
    exact ⟨_, rfl, hs', hk.contents⟩
  | hit hc hhit => cases hr
  | last hc hmiss hend =>
    obtain ⟨fuel, rfl⟩ : ∃ k, fuel = k + 1 := ⟨fuel - 1, by omega⟩
    obtain ⟨s', hs', hk, he⟩ := entryIterate_pass L h hc hp hmiss fuel
    rw [he, if_neg (not_not.mpr hend)]
    exact ⟨s', rfl, hs', hk⟩
  | next hc hmiss hend _ ih =>
    obtain ⟨fuel, rfl⟩ : ∃ k, fuel = k + 1 := ⟨fuel - 1, by omega⟩
    obtain ⟨s₁, hs₁, hk₁, he⟩ := entryIterate_pass L h hc hp hmiss fuel
    rw [List.length_cons] at hfuel
    obtain ⟨s', he', hs', hk'⟩ := ih hr hs₁ (show _ < fuel by omega)
    rw [he, if_pos hend]
    exact ⟨s', he', hs', hk'.trans hk₁⟩

end Miss

/-- The walk of `entry_add` when there is no slot to take. -/
theorem AddFails.run (L : Layout m) (hf : AddFails m v ca) (cache : Nat) (meta' : DirEntry) :
    ∃ bound, ∀ fuel, bound ≤ fuel → ∀ s, Shows m s v →
      ∃ s', entryAdd m fuel ca cache meta' s = some (-1, meta', s') ∧ Shows m s' v := by
  have hidx : ∀ {c}, (∀ e ∈ v.slots m c, addable e = false) →
      (slotsOf (entriesPerCluster m) (unpackMemory (v.raw c) (decodedLen m))).findIdx? addable
        = none := fun hslots => List.findIdx?_eq_none_iff.mpr hslots
  induction hf with
  | bad =>
    refine ⟨1, fun fuel hfuel s h => ?_⟩
    obtain ⟨fuel, rfl⟩ : ∃ k, fuel = k + 1 := ⟨fuel - 1, by omega⟩
    unfold entryAdd readEncodedCluster
    rw [if_pos rfl]
    exact ⟨_, rfl, (registerError_shows L h .badClusterError).1⟩
  | full hc hslots hend hfree =>
    refine ⟨1, fun fuel hfuel s h => ?_⟩
    obtain ⟨fuel, rfl⟩ : ∃ k, fuel = k + 1 := ⟨fuel - 1, by omega⟩
    unfold entryAdd
    rw [readEncodedCluster_shows L h hc]
    simp only [hidx hslots]
    rcases addNextCluster_shows L h hc hend with ⟨s', he, hs', _, _⟩ | ⟨n, _, _, hn, hnfree, _⟩
    · rw [he]
      exact ⟨s', rfl, hs'⟩
    · exact absurd hnfree (hfree n hn)
  | @next c hc hslots hend hrest ih =>
    obtain ⟨bound, hb⟩ := ih
    refine ⟨bound + 1, fun fuel hfuel s h => ?_⟩
    obtain ⟨fuel, rfl⟩ : ∃ k, fuel = k + 1 := ⟨fuel - 1, by omega⟩
    obtain ⟨s₁, he₁, hs₁, -⟩ := readFat_shows L h c
    unfold entryAdd
    rw [readEncodedCluster_shows L h hc]
    by_cases hnext : v.fat c = FAT_CLUSTER_BAD
    · have hstop : addNextCluster m c s = (none, registerError m .badClusterInChainError s₁) := by
        unfold addNextCluster
        rw [he₁]
        exact if_pos hnext
      simp only [hidx hslots, hstop]
      exact ⟨_, rfl, (registerError_shows L hs₁ _).1⟩
    · have hgo : addNextCluster m c s = (some (v.fat c), s₁) := by
        unfold addNextCluster
        rw [he₁]
        exact (if_neg hnext).trans (if_neg hend)
      simp only [hidx hslots, hgo]
      rw [if_neg hend]
      exact hb fuel (by omega) s₁ hs₁

/-! ### The eight operations -/

namespace Refused

/-- A call that ends where only errors were registered. -/
theorem of_logOnly (L : Layout m) (hl : LogOnly m s s') : Refused m s (0, s') := by
  have hraw : ∀ c, (view m s').raw c = (view m s).raw c := by
    intro c
    unfold view
    by_cases hc : InVol m c
    · simp only [if_pos hc]
      exact hl.cluster L hc
    · simp only [if_neg hc]
  refine ⟨rfl, fun ca i hca hi => hl.cell L hca hi, fun c _ => hraw c, fun c _ => ?_⟩
  rw [hraw c]

/-- A call that walked, and ends with the links and the stored information it found. -/
theorem of_shows (h : Shows m s v) (h' : Shows m s' v') (hfat : v'.fat = v.fat)
    (hsame : SameStored m m.fi.extRootCluster v v') : Refused m s (0, s') := by
  refine ⟨rfl, fun ca i hca hi => ?_, ?_⟩
  · rw [h'.copy_eq hca hi, h.copy_eq hca hi, hfat]
  · show SameStored m m.fi.extRootCluster (view m s) (view m s')
    rw [h.view_eq, h'.view_eq]
    exact hsame

end Refused

/-- The clusters of a quiet walk keep what is stored, and the links. -/
theorem QuietScan.keeps (L : Layout m) {p : DirEntry → Bool} {r : Option DirEntry}
    (hq : QuietScan m v u p ca r u') (hu : SameStored m m.fi.extRootCluster v u)
    (hz : Sized m u) :
    SameStored m m.fi.extRootCluster v u' ∧ u'.fat = u.fat := by
  obtain ⟨cs, hw, hquiet⟩ := hq
  exact ⟨hw.sameStored L hu hz hquiet, (hw.scanned L hz).1.fat⟩

/-- `entry_search` over a quiet walk. -/
theorem QuietScan.search (L : Layout m) {name : Name} {r : Option DirEntry}
    (hq : QuietScan m v u (Matches name) ca r u') :
    ∃ bound, ∀ fuel, bound ≤ fuel → ∀ s, Shows m s u →
      ∃ s', entrySearch m fuel name ca NO_ECACHE s = some (r, s') ∧ Shows m s' u' ∧
        s'.contents = s.contents := by
  obtain ⟨cs, hw, -⟩ := hq
  exact ⟨cs.length + 1, fun fuel hfuel s h => hw.run L h hfuel⟩

/-- The search for the entry of a content over a quiet walk. -/
theorem QuietSearch.run (L : Layout m) {r : Option DirEntry} (hq : QuietSearch m s u ci r u') :
    ∃ bound, ∀ fuel, bound ≤ fuel → ∀ t, Shows m t u → t.contents = s.contents →
      ∃ t', searchContent m fuel ci t = some (r, t') ∧ Shows m t' u' ∧
        t'.contents = s.contents := by
  have hname : ∀ t : FS, t.contents = s.contents → getContentName ci t = getContentName ci s :=
    fun t hk => by
      unfold getContentName
      rw [hk]
  have hroot : ∀ t : FS, t.contents = s.contents → getContentRootCa ci t = getContentRootCa ci s :=
    fun t hk => by
      unfold getContentRootCa
      rw [hk]
  unfold QuietSearch at hq
  unfold searchContent
  cases hn : getContentName ci s with
  | none =>
    rw [hn] at hq
    obtain ⟨rfl, rfl⟩ := hq
    refine ⟨0, fun fuel _ t h hk => ⟨t, ?_, h, hk⟩⟩
    rw [hname t hk, hn]
  | some name =>
    rw [hn] at hq
    obtain ⟨bound, hb⟩ := QuietScan.search L hq
    refine ⟨bound, fun fuel hfuel t h hk => ?_⟩
    obtain ⟨t', he, ht', hk'⟩ := hb fuel hfuel t h
    refine ⟨t', ?_, ht', hk'.trans hk⟩
    rw [hname t hk, hroot t hk, hn]
    exact he

/-- The search for the entry of a content keeps what is stored, and the links. -/
theorem QuietSearch.keeps (L : Layout m) {r : Option DirEntry} (hq : QuietSearch m s u ci r u')
    (hu : SameStored m m.fi.extRootCluster (view m s) u) (hz : Sized m u) :
    SameStored m m.fi.extRootCluster (view m s) u' ∧ u'.fat = u.fat := by
  unfold QuietSearch at hq
  cases hn : getContentName ci s with
  | none =>
    rw [hn] at hq
    obtain ⟨-, rfl⟩ := hq
    exact ⟨hu, rfl⟩
  | some name =>
    rw [hn] at hq
    exact QuietScan.keeps L hq hu hz

section Calls

theorem Coherent.shows (hco : Coherent m s) : Shows m s (view m s) := ⟨hco, rfl⟩

theorem readContent_refused (L : Layout m) (hmode : isReadMode (getContentMode ci s) = false)
    (offset size : Nat) :
    Ensures (fun fuel => runCall m (.readContent2buffer ci offset size) fuel s) (Refused m s) := by
  refine ⟨0, fun fuel _ => ⟨_, ?_, Refused.of_logOnly L
    (registerError_logOnly L.works .noReadAccessError s)⟩⟩
  have he : readContent2buffer m fuel ci offset size s
      = some (0, [], registerError m .noReadAccessError s) := by
    unfold readContent2buffer
    rw [hmode]
    rfl
  exact congrArg (Option.map _) he

theorem writeContent_refused (L : Layout m) (hmode : isWriteMode (getContentMode ci s) = false)
    (offset : Nat) (data : List UInt8) :
    Ensures (fun fuel => runCall m (.writeBuffer2content ci offset data) fuel s) (Refused m s) := by
  refine ⟨0, fun fuel _ => ⟨_, ?_, Refused.of_logOnly L
    (registerError_logOnly L.works .noWriteAccessError s)⟩⟩
  have he : writeBuffer2content m fuel ci offset data s
      = some (0, registerError m .noWriteAccessError s) := by
    unfold writeBuffer2content
    rw [hmode]
    rfl
  exact congrArg (Option.map _) he

theorem truncateContent_refused (L : Layout m) (hmode : isWriteMode (getContentMode ci s) = false)
    (offset : Nat) (size : Int) :
    Ensures (fun fuel => runCall m (.truncateContent ci offset size) fuel s) (Refused m s) := by
  refine ⟨0, fun fuel _ => ⟨_, ?_, Refused.of_logOnly L
    (registerError_logOnly L.works .noWriteAccessError s)⟩⟩
  have he : truncateContent m fuel ci offset size s
      = some (false, registerError m .noWriteAccessError s) := by
    unfold truncateContent
    rw [hmode]
    rfl
  exact congrArg (Option.map _) he

/-- A slot that is not in use has nothing to report. -/
theorem statContent_refused (L : Layout m) (hin : inTable ci) (hclosed : ¬ isOpen ci s)
    (info : CInfo) :
    Ensures (fun fuel => runCall m (.statContent ci info) fuel s) (Refused m s) := by
  have hempty : (s.contents ci.toNat).contentType = .empty := by
    by_contra hne
    exact hclosed ⟨hin, hne⟩
  refine ⟨0, fun fuel _ => ⟨_, ?_, Refused.of_logOnly L (LogOnly.refl s)⟩⟩
  have hstat : statContent ci.toNat info s = none := by
    unfold statContent
    simp only [hempty]
  have he : nifat32StatContent ci info s = some none := by
    unfold nifat32StatContent
    rw [if_pos hin, hstat]
  exact congrArg (Option.map _) he

theorem changeMeta_refused (L : Layout m) (hco : Coherent m s) (hin : inTable ci)
    (hq : QuietSearch m s (view m s) ci none u') (info : CInfo) :
    Ensures (fun fuel => runCall m (.changeMeta ci info) fuel s) (Refused m s) := by
  have hname : getContentName ci s = some (s.contents ci.toNat).entry.fileName := if_pos hin
  have hkeeps := hq.keeps L (SameStored.refl _) hco.shows.sized
  unfold QuietSearch at hq
  rw [hname] at hq
  obtain ⟨cs, hw, -⟩ := hq
  refine ⟨cs.length + 1, fun fuel hfuel => ?_⟩
  have hpass := editHandler_passes (m := m) fuel (s.contents ci.toNat).entry.fileName
    (createEntry info.fullName (info.type = STAT_DIR) (getContentDataCa ci s) info.size.toNat)
    (getContentEcache ci s) (-1)
  obtain ⟨s', he, hs', -⟩ := hw.miss L hpass rfl hco.shows hfuel
  have hedit : entryEdit m fuel (getContentRootCa ci s) (getContentEcache ci s)
      (s.contents ci.toNat).entry.fileName
      (createEntry info.fullName (info.type = STAT_DIR) (getContentDataCa ci s) info.size.toNat) s
      = some (false, s') := by
    unfold entryEdit
    rw [he]
    rfl
  have hs := (registerError_shows L hs' .entryEditError).1
  refine ⟨_, ?_, Refused.of_shows hco.shows hs hkeeps.2 hkeeps.1⟩
  have he' : changeMeta m fuel ci info s = some (false, registerError m .entryEditError s') := by
    unfold changeMeta
    simp only [hname, hedit]
    rfl
  exact congrArg (Option.map _) he'

theorem deleteContent_refused (L : Layout m) (hco : Coherent m s)
    (hq : ∀ name, getContentName ci s = some name →
      ∃ u', QuietScan m (view m s) (view m s) (SameName name) (getContentRootCa ci s) none u') :
    Ensures (fun fuel => runCall m (.deleteContent ci) fuel s) (Refused m s) := by
  suffices hremove : ∃ bound, ∀ fuel, bound ≤ fuel → ∃ s' u',
      removeContent m fuel ci s = some (false, s') ∧ Shows m s' u' ∧
        SameStored m m.fi.extRootCluster (view m s) u' ∧ u'.fat = (view m s).fat by
    obtain ⟨bound, hb⟩ := hremove
    refine ⟨bound, fun fuel hfuel => ?_⟩
    obtain ⟨s', u', he, hs', hsame, hfat⟩ := hb fuel hfuel
    have hs := (registerError_shows L hs' .entryRemoveError).1
    refine ⟨_, ?_, Refused.of_shows hco.shows hs hfat hsame⟩
    have he' : deleteContent m fuel ci s = some (false, registerError m .entryRemoveError s') := by
      unfold deleteContent
      simp only [he]
    exact congrArg (Option.map _) he'
  unfold removeContent
  cases hn : getContentName ci s with
  | none =>
    -- a handle without a name is outside the table, and its directory is the bad cluster
    have hout : ¬ inTable ci := fun hin => by
      unfold getContentName at hn
      rw [if_pos hin] at hn
      cases hn
    have hroot : getContentRootCa ci s = FAT_CLUSTER_BAD := if_neg hout
    refine ⟨0, fun fuel _ => ⟨registerError m .badClusterError s, view m s, ?_,
      (registerError_shows L hco.shows _).1, SameStored.refl _, rfl⟩⟩
    unfold readEncodedCluster
    simp only [hroot, if_true]
  | some name =>
    obtain ⟨u', hq⟩ := hq name hn
    have hkeeps := hq.keeps L (SameStored.refl _) hco.shows.sized
    obtain ⟨cs, hw, -⟩ := hq
    refine ⟨cs.length + 1, fun fuel hfuel => ?_⟩
    have hpass := removeHandler_passes (m := m) fuel name (getContentEcache ci s) (-1)
    obtain ⟨s', he, hs', -⟩ := hw.miss L hpass rfl hco.shows hfuel
    refine ⟨s', u', ?_, hs', hkeeps⟩
    unfold entryRemove
    simp only [he]
    rfl

/-- The adding fails with one bound for all the clusters that the allocator may hand out. -/
theorem addFails_bound (L : Layout m) (cache : Nat) (meta' : Nat → DirEntry)
    (hadd : ∀ n, InVol m n → v.fat n = FAT_CLUSTER_FREE →
      AddFails m (v.setFat n FAT_CLUSTER_END) ca) :
    ∃ bound, ∀ fuel, bound ≤ fuel → ∀ n, InVol m n → v.fat n = FAT_CLUSTER_FREE →
      ∀ s, Shows m s (v.setFat n FAT_CLUSTER_END) →
      ∃ s', entryAdd m fuel ca cache (meta' n) s = some (-1, meta' n, s') ∧
        Shows m s' (v.setFat n FAT_CLUSTER_END) := by
  have hall : ∀ᶠ fuel in Filter.atTop, ∀ n ∈ Finset.range m.fi.totalClusters,
      InVol m n → v.fat n = FAT_CLUSTER_FREE → ∀ s, Shows m s (v.setFat n FAT_CLUSTER_END) →
      ∃ s', entryAdd m fuel ca cache (meta' n) s = some (-1, meta' n, s') ∧
        Shows m s' (v.setFat n FAT_CLUSTER_END) := by
    rw [Filter.eventually_all_finset]
    intro n _
    rw [Filter.eventually_atTop]
    by_cases hn : InVol m n ∧ v.fat n = FAT_CLUSTER_FREE
    · obtain ⟨bound, hb⟩ := (hadd n hn.1 hn.2).run L cache (meta' n)
      exact ⟨bound, fun fuel hfuel _ _ => hb fuel hfuel⟩
    · exact ⟨0, fun fuel _ hin hfree => absurd ⟨hin, hfree⟩ hn⟩
  obtain ⟨bound, hb⟩ := Filter.eventually_atTop.mp hall
  exact ⟨bound, fun fuel hfuel n hn => hb fuel hfuel n (Finset.mem_range.mpr hn.2) hn⟩

theorem putContent_refused (L : Layout m) (hco : Coherent m s) {info : CInfo}
    (hf : PutFails m s ci info.fullName) (reserve : Int) :
    Ensures (fun fuel => runCall m (.putContent ci info reserve) fuel s) (Refused m s) := by
  obtain ⟨hcache, r, u', hq, hadd⟩ := hf
  obtain ⟨hsame, hfat⟩ := hq.keeps L (SameStored.refl _) hco.shows.sized
  obtain ⟨bound, hb⟩ := hq.search L
  suffices hput : ∃ bound, ∀ fuel, bound ≤ fuel → ∃ s',
      putContent m fuel ci info reserve s = some (false, s') ∧ Shows m s' u' by
    obtain ⟨bound, hb⟩ := hput
    refine ⟨bound, fun fuel hfuel => ?_⟩
    obtain ⟨s', he, hs'⟩ := hb fuel hfuel
    exact ⟨_, congrArg (Option.map _) he, Refused.of_shows hco.shows hs' hfat hsame⟩
  cases r with
  | some e =>
    refine ⟨bound, fun fuel hfuel => ?_⟩
    obtain ⟨s₁, he₁, hs₁, -⟩ := hb fuel hfuel s hco.shows
    unfold putContent
    simp only [hcache, he₁]
    exact ⟨_, rfl, (registerError_shows L hs₁ .entrySearchError).1⟩
  | none =>
    obtain ⟨bound', hb'⟩ := addFails_bound L (getContentEcache ci s)
      (fun n => createEntry info.fullName (info.type = STAT_DIR) n
        (reserve * m.fi.clusterSize % 2 ^ 32).toNat) (hadd rfl)
    refine ⟨max bound bound', fun fuel hfuel => ?_⟩
    obtain ⟨s₁, he₁, hs₁, -⟩ := hb fuel (by omega) s hco.shows
    obtain ⟨n, s₂, he₂, ha, -⟩ := allocNext_shows L hs₁
    rw [hcache] at hb'
    unfold putContent
    simp only [hcache, he₁, he₂]
    rcases ha with ⟨rfl, hs₂⟩ | ⟨hn, hfree, hs₂⟩
    · -- no cluster is free, and the bad one has no FAT cell
      obtain ⟨s₃, he₃, hs₃, -⟩ := writeFat_outside L hs₂ L.not_inVol_bad FAT_CLUSTER_END
      have hend : setClusterEnd m FAT_CLUSTER_BAD s₂ = (false, s₃) := he₃
      simp only [hend]
      exact ⟨_, rfl, (registerError_shows L hs₃ .setClusterEndError).1⟩
    · obtain ⟨s₃, he₃, hs₃, -⟩ := setClusterEnd_shows L hs₂ hn
      rw [Vol.setFat_setFat] at hs₃
      obtain ⟨s₄, he₄, hs₄⟩ := hb' fuel (by omega) n hn hfree s₃ hs₃
      have hs₅ := (registerError_shows L hs₄ .entryAddError).1
      obtain ⟨s₆, he₆, hs₆, -⟩ := deallocCluster_shows L hs₅ hn
      rw [Vol.setFat_back hfree] at hs₆
      have hdca : (UInt32.ofNat n).toNat = n := L.toNat_dca hn
      have hcreate : (createEntry info.fullName (info.type = STAT_DIR) n
          (reserve * m.fi.clusterSize % 2 ^ 32).toNat).dca.toNat = n := hdca
      simp only [he₃, he₄, hcreate, he₆]
      exact ⟨_, rfl, hs₆⟩

/-- A deep copy that cannot lock both clusters gives back a chain that does not exist. -/
theorem deepCopy_fails (L : Layout m) (h : Shows m s v) {src dst : Int}
    (hover : Overlap m (getContentDataCa src s) (getContentDataCa dst s))
    (hfree : InVol m (getContentDataCa dst s) →
      v.fat (getContentDataCa dst s) = FAT_CLUSTER_FREE) (fuel : Nat) :
    ∃ s', deepCopyContent m (fuel + 1) src dst s = some (false, s') ∧ Shows m s' v := by
  have hlock : copyCluster m (getContentDataCa src s) (getContentDataCa dst s)
      m.fi.bytesPerSector s = (0, s) := by
    have hsectors : dskCopySectors m s.medium (clusterSector m (getContentDataCa src s))
        (clusterSector m (getContentDataCa dst s)) m.fi.sectorsPerCluster m.fi.bytesPerSector
        = (0, s.medium) := if_pos hover
    unfold copyCluster
    rw [hsectors]
  have hchain : copyChain m (fuel + 1) (getContentDataCa src s) (getContentDataCa dst s) s
      = some (false, registerError m .copyClusterError s) := by
    unfold copyChain
    simp only [hlock]
    rfl
  have h₁ := (registerError_shows L h .copyClusterError).1
  obtain ⟨s₂, he₂, hs₂, -⟩ := readFat_shows L h₁ (getContentDataCa dst s)
  unfold deepCopyContent abortCopy deallocChain
  simp only [hchain, he₂]
  by_cases hin : InVol m (getContentDataCa dst s)
  · obtain ⟨s₃, he₃, hs₃, -⟩ := deallocCluster_shows L hs₂ hin
    have hback : v.setFat (getContentDataCa dst s) FAT_CLUSTER_FREE = v := by
      conv_rhs => rw [← Vol.setFat_back (v := v) (x := FAT_CLUSTER_FREE) (hfree hin)]
      rw [Vol.setFat_setFat]
    rw [hback] at hs₃
    simp only [he₃, hfree hin, or_true, if_true]
    exact ⟨s₃, rfl, hs₃⟩
  · obtain ⟨s₃, he₃, hs₃, -⟩ := deallocCluster_outside L hs₂ hin
    have hs₄ := (registerError_shows L hs₃ .clusterDeallocationError).1
    simp only [he₃]
    exact ⟨_, rfl, (registerError_shows L hs₄ .clusterChainDeletionError).1⟩

/-- A shallow copy that does not find its source or its destination. -/
theorem shallowCopy_fails (L : Layout m) (h : Shows m s (view m s)) {src dst : Int}
    {r : Option DirEntry} (hsrc : QuietSearch m s (view m s) src r u')
    (hend : r = none ∨ ∃ u'', QuietSearch m s u' dst none u'') :
    ∃ bound, ∀ fuel, bound ≤ fuel → ∃ s' w, shallowCopyContent m fuel src dst s = some (false, s') ∧
      Shows m s' w ∧ SameStored m m.fi.extRootCluster (view m s) w ∧ w.fat = (view m s).fat := by
  have hkeep := hsrc.keeps L (SameStored.refl _) h.sized
  obtain ⟨bound, hb⟩ := hsrc.run L
  unfold shallowCopyContent
  cases r with
  | none =>
    refine ⟨bound, fun fuel hfuel => ?_⟩
    obtain ⟨s₁, he₁, hs₁, -⟩ := hb fuel hfuel s h rfl
    simp only [he₁]
    exact ⟨_, u', rfl, (registerError_shows L hs₁ .entrySearchError).1, hkeep⟩
  | some e =>
    rcases hend with hnone | ⟨u'', hdst⟩
    · cases hnone
    obtain ⟨bound', hb'⟩ := hdst.run L
    refine ⟨max bound bound', fun fuel hfuel => ?_⟩
    obtain ⟨s₁, he₁, hs₁, hk₁⟩ := hb fuel (by omega) s h rfl
    obtain ⟨s₂, he₂, hs₂, -⟩ := hb' fuel (by omega) s₁ hs₁ hk₁
    have hkeep' := hdst.keeps L hkeep.1 hs₁.sized
    simp only [he₁, he₂]
    exact ⟨_, u'', rfl, (registerError_shows L hs₂ .entrySearchError).1, hkeep'.1,
      hkeep'.2.trans hkeep.2⟩

theorem copyContent_refused (L : Layout m) (hco : Coherent m s) {src dst deep : Int}
    (hf : CopyFails m s src dst deep) :
    Ensures (fun fuel => runCall m (.copyContent src dst deep) fuel s) (Refused m s) := by
  suffices hcopy : ∃ bound, ∀ fuel, bound ≤ fuel → ∃ s' u',
      copyContent m fuel src dst deep s = some (false, s') ∧ Shows m s' u' ∧
        SameStored m m.fi.extRootCluster (view m s) u' ∧ u'.fat = (view m s).fat by
    obtain ⟨bound, hb⟩ := hcopy
    refine ⟨bound, fun fuel hfuel => ?_⟩
    obtain ⟨s', u', he, hs', hsame, hfat⟩ := hb fuel hfuel
    exact ⟨_, congrArg (Option.map _) he, Refused.of_shows hco.shows hs' hfat hsame⟩
  unfold CopyFails at hf
  unfold copyContent
  by_cases hdeep : deep = DEEP_COPY
  · rw [if_pos hdeep] at hf
    refine ⟨1, fun fuel hfuel => ?_⟩
    obtain ⟨fuel, rfl⟩ : ∃ k, fuel = k + 1 := ⟨fuel - 1, by omega⟩
    obtain ⟨s', he, hs'⟩ := deepCopy_fails L hco.shows hf.1 hf.2 fuel
    rw [if_pos hdeep]
    exact ⟨s', _, he, hs', SameStored.refl _, rfl⟩
  rw [if_neg hdeep] at hf
  simp only [if_neg hdeep]
  by_cases hshallow : deep = SHALLOW_COPY
  · rw [if_pos hshallow] at hf
    obtain ⟨r, u', hsrc, hend⟩ := hf
    simp only [if_pos hshallow]
    exact shallowCopy_fails L hco.shows hsrc hend
  simp only [if_neg hshallow]
  exact ⟨0, fun fuel _ => ⟨_, view m s, rfl, (registerError_shows L hco.shows _).1,
    SameStored.refl _, rfl⟩⟩

/-- A call through a handle that is not open, and that stays out, is refused. -/
theorem runCall_refused (L : Layout m) {c : ApiCall} (hout : StaysOut m s c)
    (hclosed : ¬ c.OnOpen s) : Ensures (fun fuel => runCall m c fuel s) (Refused m s) := by
  have hnone : c.handles = [] → False := fun h => hclosed fun ci hci => by
    rw [h] at hci
    exact absurd hci List.not_mem_nil
  cases c with
  | repairFat => exact (hnone rfl).elim
  | contentExists _ => exact (hnone rfl).elim
  | openContent _ _ _ => exact (hnone rfl).elim
  | indexContent _ => exact (hnone rfl).elim
  | closeContent _ => exact (hnone rfl).elim
  | repairContent _ _ => exact (hnone rfl).elim
  | readContent2buffer ci offset size => exact readContent_refused L hout offset size
  | writeBuffer2content ci offset data => exact writeContent_refused L hout offset data
  | truncateContent ci offset size => exact truncateContent_refused L hout offset size
  | changeMeta ci info =>
    obtain ⟨hco, hin, u', hq⟩ := hout
    exact changeMeta_refused L hco hin hq info
  | putContent ci info reserve => exact putContent_refused L hout.1 hout.2 reserve
  | copyContent src dst deep => exact copyContent_refused L hout.1 hout.2
  | deleteContent ci => exact deleteContent_refused L hout.1 hout.2
  | statContent ci info =>
    refine statContent_refused L hout (fun hopen => hclosed fun k hk => ?_) info
    rw [List.mem_singleton.mp hk]
    exact hopen

end Calls

/-- A content table whose slots are all empty. -/
def emptyTable : Nat → Content := fun k =>
  { oneFile 0 0 k with contentType := .empty, parentCluster := FAT_CLUSTER_BAD }

/-- Slot `0` after the root directory was opened. -/
def rootSlot (m : Mount) (c : Content) (mode : UInt8) : Content :=
  { c with
    contentType := .directory, directoryName := strncpy rootName 11, indexRoot := NO_ECACHE
    entry := rootEntry m, parentCluster := (rootEntry m).rca.toNat
    dataCluster := (rootEntry m).dca.toNat, mode := mode }

/-- The root directory is opened through slot `0`. -/
theorem openContent_root (hempty : (s.contents 0).contentType = .empty) (fuel : Nat)
    (mode : UInt8) : ∃ s', openContent m fuel NO_RCI none mode s = some (0, s') ∧
      s'.medium = s.medium ∧ s'.fat = s.fat ∧ s'.contents 0 = rootSlot m (s.contents 0) mode := by
  have hslot : emptySlot s CONTENT_TABLE_SIZE 0 = some 0 := if_pos hempty
  have halloc : allocCi s = (0, s.setContent 0 { s.contents 0 with
      contentType := .unknown, parentCluster := FAT_CLUSTER_BAD, indexRoot := NO_ECACHE }) := by
    unfold allocCi
    rw [hslot]
    rfl
  have hci : ¬ ((0 : Int) < 0) := by decide
  have hin : inTable 0 := by decide
  unfold openContent
  simp only [halloc, if_neg hci]
  refine ⟨_, rfl, ?_⟩
  unfold setupContent
  rw [if_pos hin]
  exact ⟨rfl, rfl, rfl⟩

/-- The close empties the slot, and leaves its mode and its clusters. -/
theorem closeContent_slot {c : Content} (hslot : s.contents 0 = c) (huse : c.contentType ≠ .empty)
    (hroot : c.indexRoot = NO_ECACHE) (fuel : Nat) :
    ∃ s', closeContent fuel 0 s = some (true, s') ∧ s'.medium = s.medium ∧ s'.fat = s.fat ∧
      s'.contents 0 = { c with contentType := .empty, indexRoot := NO_ECACHE } := by
  have hin : inTable 0 ∧ (s.contents (0 : Int).toNat).contentType ≠ .empty := by
    refine ⟨by decide, ?_⟩
    show (s.contents 0).contentType ≠ .empty
    rw [hslot]
    exact huse
  have hnone : (s.contents (0 : Int).toNat).indexRoot = 0 := by
    show (s.contents 0).indexRoot = 0
    rw [hslot]
    exact hroot
  unfold closeContent destroyContent
  rw [if_pos hin]
  simp only [hnone, if_true]
  refine ⟨_, rfl, rfl, rfl, ?_⟩
  subst hslot
  rfl

/-- The small volume with an empty root directory. -/
def rootVol : Vol := (emptyVol (smallMount 0)).setFat 2 FAT_CLUSTER_END

theorem rootVol_stored (contents : Nat → Content) : Stored (smallMount 0) contents rootVol :=
  (Stored.zero (smallMount_layout (Nat.zero_le 1)) contents).setFat
    (smallMount_layout (Nat.zero_le 1)) (by decide) (by decide)

/-- One call of a run, with a fact about the state it leaves. -/
theorem session_step {calls : List ApiCall} {c : ApiCall} {x : Session} (p : FS → Prop)
    (hrun : Always (Returns m) (Session.call m) Session.refused (c :: calls) x)
    (h : Ensures (fun fuel => runCall m c fuel x.fs) fun r => p r.2) :
    ∃ y : Session, p y.fs ∧ Always (Returns m) (Session.call m) Session.refused calls y := by
  have hret : Returns m x c := fun _ => h.imp fun _ _ => trivial
  have hfact : Ensures (Session.call m c x) fun y => p y.fs := by
    unfold Session.call
    apply Ensures.map
    exact h
  exact hrun.step hret hfact

end NiFat32
