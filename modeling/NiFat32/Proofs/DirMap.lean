import NiFat32.Lib.Assoc
import NiFat32.Proofs.Insert

/-!
# `Proofs.DirMap`: a directory as a finite map

A directory maps a name to the record of its entry (`Vol.dirMap`). The three calls of `entry.c`
are run beside the map they should keep: `entry_add` updates it at the name, `entry_remove`
clears the name, `entry_search` reads it.

`directory_finite_map` says that a run agrees with the map as long as every call is `Harmless`:
no entry is hidden behind the slot that an add takes, and no remove or search takes the entry of
another name for its own. `directory_not_finite_map` is a run of five calls in which a hidden
entry disappears.
-/

set_option autoImplicit false

namespace NiFat32

open Run

/-- What a caller stored under a name. -/
structure Record where
  dca : UInt32
  fileSize : UInt32
  attributes : UInt8
  deriving DecidableEq

/-- The record of an entry. -/
def DirEntry.record (e : DirEntry) : Record := ⟨e.dca, e.fileSize, e.attributes⟩

/-- The name of an entry in its cluster. -/
def nameOf (x : Nat × DirEntry) : Name := x.2.fileName

/-- The map of a directory. -/
def Vol.dirMap (v : Vol) (m : Mount) (cs : List Nat) (name : Name) : Option Record :=
  (Assoc.lookup nameOf (v.entries m cs) name).map fun x => x.2.record

/-- The content with the first cluster `ca` is a directory with the clusters `cs`. Its entries
carry the hash of their names, and no two have the same name. -/
structure DirOf (m : Mount) (v : Vol) (ca : Nat) (cs : List Nat) : Prop where
  chain : HasChain m v ca cs
  sound : SoundDir m v cs
  hashed : ∀ x ∈ v.entries m cs, x.2.nameHash = hashName x.2.fileName
  distinct : ((v.entries m cs).map nameOf).Nodup

/-- A call of `entry.c` on a directory, without an index. -/
inductive DirCall
  | add (meta' : DirEntry)
  | remove (name : Name)
  | search (name : Name)

section Calls

variable (m : Mount) (ca : Nat)

/-- A call beside the map it should keep. -/
def callDir : DirCall → FS × (Name → Option Record) → (fuel : Nat) →
    Option (FS × (Name → Option Record))
  | .add meta', (s, d), fuel =>
    (entryAdd m fuel ca NO_ECACHE meta' s).map fun (result, _, s') =>
      (s', if result = 1 then Function.update d meta'.fileName (some meta'.record) else d)
  | .remove name, (s, d), fuel =>
    (entryRemove m fuel ca name NO_ECACHE s).map fun (_, s') =>
      (s', Function.update d name none)
  | .search name, (s, d), fuel =>
    (entrySearch m fuel name ca NO_ECACHE s).map fun (_, s') => (s', d)

/-- A search returns the record of the map. -/
def SearchAgrees (name : Name) (x : FS × (Name → Option Record)) : Prop :=
  Ensures (fun fuel => entrySearch m fuel name ca NO_ECACHE x.1) fun r =>
    r.1.map DirEntry.record = x.2 name

/-- What the callers of the three functions keep to: a name is added while it is absent, the
clusters by which the directory can grow are clean, and the content of a removed entry lies
apart from the directory. -/
def Fits (x : FS × (Name → Option Record)) : DirCall → Prop
  | .add meta' => Storable meta' ∧ x.2 meta'.fileName = none ∧
      ∀ cs, HasChain m (view m x.1) ca cs → (view m x.1).addCluster m cs = none →
        ∀ n, InVol m n → (view m x.1).fat n = FAT_CLUSTER_FREE → Clean m (view m x.1) n
  | .remove name => ∀ cs, HasChain m (view m x.1) ca cs →
      ∀ y ∈ (view m x.1).entries m cs, nameOf y = name →
        ∃ d S, Owns m (view m x.1) d y.2.dca.toNat y.2.isDir S ∧ S.Nodup ∧ List.Disjoint cs S
  | .search _ => True

/-- The call touches no entry but the one of its name: no entry is hidden behind the slot that
`entry_add` takes, and the first entry that passes the test of `entry_remove` or of
`entry_search` has the name. -/
def Harmless (s : FS) (call : DirCall) : Prop :=
  ∀ cs, HasChain m (view m s) ca cs →
    match call with
    | .add _ => (view m s).hidden m cs = []
    | .remove name => ∀ y, (view m s).first m cs (SameName name) = some y → nameOf y = name
    | .search name => ∀ y, (view m s).first m cs (Matches name) = some y → nameOf y = name

end Calls

variable {m : Mount} {s : FS} {v v' : Vol} {ca : Nat} {cs : List Nat}

namespace DirOf

/-- A directory whose entries did not change. -/
theorem same (h : DirOf m v ca cs) (hsame : SameDir m v v' cs) : DirOf m v' ca cs where
  chain := h.chain.congr fun c _ => by rw [hsame.fat]
  sound := hsame.sound
  hashed := by rw [hsame.entries]; exact h.hashed
  distinct := by rw [hsame.entries]; exact h.distinct

/-- The entry that `entry_search` finds is the one of the map. -/
theorem first_matches (h : DirOf m v ca cs) {name : Name}
    (hfirst : ∀ y, v.first m cs (Matches name) = some y → nameOf y = name) :
    v.first m cs (Matches name) = Assoc.lookup nameOf (v.entries m cs) name := by
  refine Assoc.find?_eq_lookup (fun y hy hname => ?_) hfirst
  have hm := matches_self (h.hashed y hy)
  rw [show y.2.fileName = name from hname] at hm
  exact hm

/-- The entry that `entry_remove` finds is the one of the map. -/
theorem first_sameName {name : Name}
    (hfirst : ∀ y, v.first m cs (SameName name) = some y → nameOf y = name) :
    v.first m cs (SameName name) = Assoc.lookup nameOf (v.entries m cs) name := by
  refine Assoc.find?_eq_lookup (fun y hy hname => ?_) hfirst
  have hn : y.2.fileName = name := hname
  unfold SameName
  rw [hn]
  exact nameEq_self name

theorem search_agrees (L : Layout m) (h : DirOf m v ca cs) (hs : Shows m s v) {name : Name}
    (hharm : Harmless m ca s (.search name)) :
    SearchAgrees m ca name (s, v.dirMap m cs) := by
  have hfirst := h.first_matches fun y hy => by
    have := hharm cs
    rw [hs.view_eq] at this
    exact this h.chain y hy
  refine ⟨cs.length, fun fuel hfuel => ?_⟩
  obtain ⟨s', v', he, _⟩ := entrySearch_shows L hfuel h.chain hs h.sound name
  refine ⟨_, he, ?_⟩
  show Option.map DirEntry.record (Option.map foundAs (v.first m cs (Matches name)))
    = v.dirMap m cs name
  rw [hfirst, Option.map_map]
  rfl

/-- The directory after an entry with a new name went in, with nothing hidden. -/
theorem insert {c : Nat} {cs' : List Nat} {e : DirEntry} (h : DirOf m v ca cs)
    (hm : Storable e) (hnew : v.dirMap m cs e.fileName = none) (hhid : v.hidden m cs = [])
    (hi : Inserted m v v' ca cs cs' c (storedIn e c)) :
    DirOf m v' ca cs' ∧
      v'.dirMap m cs' = Function.update (v.dirMap m cs) e.fileName (some e.record) := by
  obtain ⟨A, B, hold, hentries⟩ := hi.entries
  rw [hhid, List.map_nil, List.append_nil] at hold
  have hnone : Assoc.lookup nameOf (A ++ B) (nameOf (c, storedIn e c)) = none := by
    rw [← hold]
    exact Option.map_eq_none_iff.mp hnew
  refine ⟨⟨hi.chain, hi.sound, fun x hx => ?_, ?_⟩, ?_⟩
  · rw [hentries, List.mem_append, List.mem_cons] at hx
    have hback : x ∈ A ++ B → x.2.nameHash = hashName x.2.fileName := fun hm =>
      h.hashed x (hold ▸ hm)
    obtain hA | rfl | hB := hx
    · exact hback (List.mem_append_left B hA)
    · exact hm.hash
    · exact hback (List.mem_append_right A hB)
  · have hdist := h.distinct
    rw [hold] at hdist
    rw [hentries, List.map_append, List.map_cons]
    refine List.perm_middle.nodup_iff.mpr (List.nodup_cons.mpr ⟨fun hmem => ?_, ?_⟩)
    · rw [← List.map_append] at hmem
      obtain ⟨x, hx, hname⟩ := List.mem_map.mp hmem
      exact Assoc.lookup_eq_none.mp hnone x hx hname
    · rw [← List.map_append]
      exact hdist
  · funext name
    unfold Vol.dirMap
    rw [hentries, Assoc.lookup_insert hnone, hold]
    by_cases hname : name = e.fileName
    · rw [hname, Function.update_self]
      have hself : nameOf (c, storedIn e c) = e.fileName := rfl
      rw [← hself, Function.update_self]
      rfl
    · have hkey : name ≠ nameOf (c, storedIn e c) := hname
      rw [Function.update_of_ne hkey, Function.update_of_ne hname]

/-- The directory after the first entry of a name was taken out. -/
theorem erase {t : Slot} {S : List Nat} {name : Name} (h : DirOf m v ca cs)
    (ht : FirstAt m v cs (SameName name) t) (hname : t.e.fileName = name)
    (hS : List.Disjoint cs S) (hfat : v'.fat = (v.freeAll S).fat)
    (hrep : Replaced m v v' cs t (t.e.setFirst ENTRY_FREE)) :
    DirOf m v' ca cs ∧ v'.dirMap m cs = Function.update (v.dirMap m cs) name none := by
  have hold := ht.at_.entries_eq ht.valid ht.free
  have hfree : (t.e.setFirst ENTRY_FREE).first = ENTRY_FREE := DirEntry.first_setFirst _ _
  have hentries : v'.entries m cs = t.before m v ++ t.after m v := by
    rw [hrep.entries (by rw [hfree]; decide), slotView_free hfree]
    rfl
  have hdist := h.distinct
  rw [hold] at hdist
  refine ⟨⟨h.chain.congr fun c hc => ?_, hrep.sound fun hne => absurd hfree hne, fun x hx => ?_,
    ?_⟩, ?_⟩
  · rw [hfat]
    exact v.freeAll_fat_ne (hS hc)
  · rw [hentries] at hx
    refine h.hashed x ?_
    rw [hold]
    cases List.mem_append.mp hx with
    | inl hA => exact List.mem_append_left _ hA
    | inr hB => exact List.mem_append_right _ (List.mem_cons_of_mem _ hB)
  · rw [hentries]
    rw [List.map_append, List.map_cons] at hdist
    rw [List.map_append]
    exact (List.nodup_cons.mp (List.perm_middle.nodup_iff.mp hdist)).2
  · funext n
    have hkey : nameOf (t.c, t.e) = name := hname
    unfold Vol.dirMap
    rw [hentries, Assoc.lookup_erase hdist, ← hold, hkey]
    by_cases hn : n = name
    · rw [hn, Function.update_self, Function.update_self]
      rfl
    · rw [Function.update_of_ne hn, Function.update_of_ne hn]

end DirOf

/-- The directory keeps up with the map. -/
def Keeping (m : Mount) (ca : Nat) (x : FS × (Name → Option Record)) : Prop :=
  ∃ v cs, Shows m x.1 v ∧ DirOf m v ca cs ∧ x.2 = v.dirMap m cs

/-- One call keeps the directory and the map together. -/
theorem callDir_keeping (L : Layout m) {x : FS × (Name → Option Record)} {call : DirCall}
    (hkeep : Keeping m ca x) (hfits : Fits m ca x call) (hharm : Harmless m ca x.1 call) :
    Ensures (callDir m ca call x) (Keeping m ca) := by
  obtain ⟨s, d⟩ := x
  obtain ⟨v, cs, hs, hdir, hd⟩ := hkeep
  obtain rfl : d = v.dirMap m cs := hd
  have hview : view m s = v := hs.view_eq
  cases call with
  | search name =>
    refine ⟨cs.length, fun fuel hfuel => ?_⟩
    obtain ⟨s', v', he, hs', _, hsame⟩ := entrySearch_shows L hfuel hdir.chain hs hdir.sound name
    refine ⟨(s', v.dirMap m cs), ?_, v', cs, hs', hdir.same hsame, ?_⟩
    · show (entrySearch m fuel name ca 0 s).map _ = _
      rw [he]
      rfl
    · unfold Vol.dirMap
      rw [hsame.entries]
  | add e =>
    obtain ⟨hm, hnew, hclean⟩ := hfits
    simp only [hview] at hclean
    have hhid : v.hidden m cs = [] := by
      have := hharm cs
      simp only [hview] at this
      exact this hdir.chain
    refine ⟨cs.length + 1, fun fuel hfuel => ?_⟩
    show ∃ r, (entryAdd m fuel ca 0 e s).map _ = some r ∧ _
    have hfirst : v.addCluster m cs = none →
        (allocNext m (readLinks m cs s)).1 ≠ FAT_CLUSTER_BAD →
        StartsFree m v (allocNext m (readLinks m cs s)).1 := fun hadd hne => by
      obtain ⟨hn, hfree⟩ := allocNext_free L (readLinks_shows L hs cs) hne
      exact (hclean cs hdir.chain hadd _ hn hfree).startsFree L
    cases entryAdd_shows L hfuel hdir.chain hs hdir.sound hm hfirst with
    | inl hfull =>
      obtain ⟨s', he, hs', _⟩ := hfull
      rw [he]
      exact ⟨_, rfl, v, cs, hs', hdir, rfl⟩
    | inr hok =>
      obtain ⟨c, s', v', cs', al, he, hs', _, _, _, hi⟩ := hok
      obtain ⟨hdir', hmap⟩ := hdir.insert hm hnew hhid hi
      rw [he]
      exact ⟨_, rfl, v', cs', hs', hdir', hmap.symm⟩
  | remove name =>
    have hfirst : ∀ y, v.first m cs (SameName name) = some y → nameOf y = name := by
      have := hharm cs
      simp only [hview] at this
      exact this hdir.chain
    cases firstAt_or m v cs (SameName name) with
    | inl hnone =>
      refine ⟨cs.length, fun fuel hfuel => ?_⟩
      obtain ⟨s', v', he, hs', _, hsame⟩ := entryRemove_none 0 L hfuel hdir.chain hs
        hdir.sound hnone.1
      refine ⟨(s', Function.update (v.dirMap m cs) name none), ?_, v', cs, hs', hdir.same hsame, ?_⟩
      · show (entryRemove m fuel ca name 0 s).map _ = _
        rw [he]
        rfl
      · have habsent : v.dirMap m cs name = none := by
          unfold Vol.dirMap
          rw [← DirOf.first_sameName hfirst, hnone.1]
          rfl
        have hmap : v'.dirMap m cs = v.dirMap m cs := by
          unfold Vol.dirMap
          rw [hsame.entries]
        rw [hmap, ← habsent, Function.update_eq_self]
    | inr hsome =>
      obtain ⟨t, ht⟩ := hsome
      have hname : t.e.fileName = name := hfirst _ ht.first_eq
      have hown := hfits cs
      simp only [hview] at hown
      obtain ⟨depth, S, howns, hnodup, hdisj⟩ := hown hdir.chain _ ht.mem hname
      refine ⟨cs.length + depth + m.fi.totalClusters + 1, fun fuel hfuel => ?_⟩
      have hlen : cs.length ≤ fuel := by omega
      have hdepth : depth + m.fi.totalClusters + 1 ≤ fuel := by omega
      obtain ⟨s', v', he, hs', _, hfat, hrep⟩ := (entryRemove_first 0 L hlen hdepth hdir.chain hs
        hdir.sound ht howns hnodup).resolve_left fun hstuck => hstuck.1 rfl
      obtain ⟨hdir', hmap⟩ := hdir.erase ht hname hdisj hfat hrep
      refine ⟨(s', Function.update (v.dirMap m cs) name none), ?_, v', cs, hs', hdir', hmap.symm⟩
      show (entryRemove m fuel ca name 0 s).map _ = _
      rw [he]
      rfl

/-- The small volume with a root directory and the files `3`, `4` and `5`, of one cluster each. -/
def smallVol : Vol :=
  ((((emptyVol (smallMount 0)).setFat 2 FAT_CLUSTER_END).setFat 3 FAT_CLUSTER_END).setFat 4
    FAT_CLUSTER_END).setFat 5 FAT_CLUSTER_END

theorem smallVol_stored (contents : Nat → Content) : Stored (smallMount 0) contents smallVol := by
  have L := smallMount_layout (Nat.zero_le 1)
  have hx : FAT_CLUSTER_END < 2 ^ 28 := by decide
  exact ((((Stored.zero L contents).setFat L (by decide) hx).setFat L (by decide) hx).setFat L
    (by decide) hx).setFat L (by decide) hx

/-- The directory in cluster `2` has the slots `slots`, beside the links of `v`. -/
def OneCluster (v : Vol) (slots : List DirEntry) (s : FS) : Prop :=
  ∃ v', Shows (smallMount 0) s v' ∧ v'.fat = v.fat ∧ v'.slots (smallMount 0) 2 = slots

section OneCluster

variable {slots pre post : List DirEntry} {e e' : DirEntry} {d : Name → Option Record}

theorem smallVol_slots : smallVol.slots (smallMount 0) 2 = List.replicate 4 zeroSlot :=
  slotsIn_zero (m := smallMount 0)

theorem OneCluster.chain (hend : v.fat 2 = FAT_CLUSTER_END) (hv : v'.fat = v.fat) :
    HasChain (smallMount 0) v' 2 [2] := HasChain.single (by decide) (by rw [hv]; exact hend)

/-- The other clusters than the directory keep their links. -/
theorem OneCluster.add (h : OneCluster v slots s) (hend : v.fat 2 = FAT_CLUSTER_END)
    (ht : TakesAt slots pre e post) (hm : Storable e') (hnew : d e'.fileName = none) :
    Fits (smallMount 0) 2 (s, d) (.add e') ∧
    Ensures (callDir (smallMount 0) 2 (.add e') (s, d)) fun x =>
      OneCluster v (pre ++ storedIn e' 2 :: closeSlots post) x.1 ∧
        x.2 = Function.update d e'.fileName (some e'.record) := by
  have L := smallMount_layout (Nat.zero_le 1)
  obtain ⟨v₁, hs, hfat, rfl⟩ := h
  have hlen : (pre ++ storedIn e' 2 :: closeSlots post).length
      = entriesPerCluster (smallMount 0) := by
    have hl : (v₁.slots (smallMount 0) 2).length = entriesPerCluster (smallMount 0) :=
      length_slotsIn _
    rw [ht.split] at hl
    simpa [length_closeSlots] using hl
  refine ⟨⟨hm, hnew, fun cs hcs hfull => ?_⟩, 1, fun fuel hfuel => ?_⟩
  · -- the directory has a slot to take
    rw [hs.view_eq] at hcs hfull
    obtain rfl := hcs.unique (OneCluster.chain hend hfat) L
    have hany := List.find?_eq_none.mp hfull 2 List.mem_cons_self
    rw [List.any_eq_true] at hany
    exact absurd ⟨e, by rw [ht.split]; simp, ht.slot⟩ hany
  · obtain ⟨k, rfl⟩ : ∃ k, fuel = k + 1 := ⟨fuel - 1, by omega⟩
    obtain ⟨s', he, hs', _⟩ := entryAdd_here e' k L hs (by decide) ht
    have hin : InVol (smallMount 0) 2 := by decide
    have hslots := Vol.slots_setSlots_self (v := v₁) (c := 2) hlen (hs.length_raw hin)
    refine ⟨(s', Function.update d e'.fileName (some e'.record)), ?_, ⟨_, hs', hfat, hslots⟩, rfl⟩
    show (entryAdd (smallMount 0) (k + 1) 2 0 e' s).map _ = _
    rw [he]
    rfl

theorem OneCluster.remove (h : OneCluster v (e :: post) s) (hend : v.fat 2 = FAT_CLUSTER_END)
    (hsound : Sound (e :: post)) (hv : e.Valid) (hfree : e.first ≠ ENTRY_FREE)
    (hlast : e.first ≠ ENTRY_END) (hother : ∀ x ∈ live post, x.fileName ≠ e.fileName) {c : Nat}
    (hc : HasChain (smallMount 0) v c [c]) (hne : c ≠ 2) (hdca : e.dca.toNat = c)
    (hfile : e.isDir = false) :
    Fits (smallMount 0) 2 (s, d) (.remove e.fileName) ∧
    Ensures (callDir (smallMount 0) 2 (.remove e.fileName) (s, d)) fun x =>
      OneCluster (v.freeAll [c]) (e.setFirst ENTRY_FREE :: post) x.1 ∧
        x.2 = Function.update d e.fileName none := by
  have L := smallMount_layout (Nat.zero_le 1)
  obtain ⟨v₁, hs, hfat, hslots⟩ := h
  have hchain := OneCluster.chain hend hfat
  have hown : Owns (smallMount 0) v₁ 1 e.dca.toNat e.isDir [c] := by
    rw [hdca, hfile]
    exact hc.congr fun k _ => by rw [hfat]
  have hdir : SoundDir (smallMount 0) v₁ [2] := fun k hk => by
    rw [List.mem_singleton.mp hk, hslots]
    exact hsound
  refine ⟨fun cs hcs y hy hname => ?_, 10, fun fuel hfuel => ?_⟩
  · rw [hs.view_eq] at hcs hy ⊢
    obtain rfl := hcs.unique hchain L
    obtain ⟨k, x⟩ := y
    obtain ⟨_, hx⟩ := Vol.mem_entries.mp hy
    have hx' : x ∈ live (v₁.slots (smallMount 0) k) := hx
    rw [List.mem_singleton.mp (Vol.mem_entries.mp hy).1, hslots, live_cons hlast hv hfree] at hx'
    cases List.mem_cons.mp hx' with
    | inl heq =>
      rw [heq]
      exact ⟨1, [c], hown, List.nodup_singleton c, by simpa using hne⟩
    | inr hpost => exact absurd hname (hother x hpost)
  · have ht : FirstAt (smallMount 0) v₁ [2] (SameName e.fileName) ⟨[], 2, [], [], e, post⟩ :=
      ⟨⟨rfl, hslots, fun x hx => absurd hx List.not_mem_nil, hlast⟩,
        fun x hx => absurd hx List.not_mem_nil, fun x hx => absurd hx List.not_mem_nil, hv, hfree,
        nameEq_self _⟩
    have hlen : ([2] : List Nat).length ≤ fuel := by
      show 1 ≤ fuel
      omega
    have hdepth : 1 + (smallMount 0).fi.totalClusters + 1 ≤ fuel := by
      show 1 + 8 + 1 ≤ fuel
      omega
    obtain ⟨s', v', he, hs', _, hfat', hrep⟩ := (entryRemove_first 0 L hlen hdepth hchain hs hdir ht
      hown (List.nodup_singleton c)).resolve_left fun hstuck => hstuck.1 rfl
    have hv' : v'.fat = (v.freeAll [c]).fat := by
      rw [hfat']
      unfold Vol.freeAll
      rw [hfat]
    refine ⟨(s', Function.update d e.fileName none), ?_, ⟨v', hs', hv', hrep.slots⟩, rfl⟩
    show (entryRemove (smallMount 0) fuel 2 e.fileName 0 s).map _ = _
    rw [he]
    rfl

end OneCluster

/-- The directory of the small volume is empty. -/
theorem smallVol_dirOf : DirOf (smallMount 0) smallVol 2 [2] ∧
    ∀ name, smallVol.dirMap (smallMount 0) [2] name = none := by
  have hvis : visible (List.replicate 4 zeroSlot) = [] := visible_cons_end first_zeroSlot
  have hentries : smallVol.entries (smallMount 0) [2] = [] := by
    have hlive : smallVol.live (smallMount 0) 2 = [] := by
      show live (smallVol.slots (smallMount 0) 2) = []
      rw [smallVol_slots]
      exact live_cons_end first_zeroSlot
    rw [Vol.entries_cons, hlive]
    rfl
  refine ⟨⟨OneCluster.chain rfl rfl, fun c hc => ?_, ?_, ?_⟩, fun name => ?_⟩
  · rw [List.mem_singleton.mp hc, smallVol_slots]
    intro e he
    rw [hvis] at he
    exact absurd he List.not_mem_nil
  · rw [hentries]
    exact fun x hx => absurd hx List.not_mem_nil
  · rw [hentries]
    exact List.nodup_nil
  · unfold Vol.dirMap
    rw [hentries]
    rfl

section Hiding

variable {a b c : DirEntry}

/-- The directory after two adds. -/
theorem two_adds (ha : Storable a) (hb : Storable b) (hab : b.fileName ≠ a.fileName)
    (hs : Shows (smallMount 0) s smallVol) {post : FS × (Name → Option Record) → Prop}
    {calls : List DirCall}
    (hrun : Always (Fits (smallMount 0) 2) (callDir (smallMount 0) 2) post
      (.add a :: .add b :: calls) (s, smallVol.dirMap (smallMount 0) [2])) :
    ∃ s' d, OneCluster smallVol (storedIn a 2 :: storedIn b 2 ::
        closeSlots (List.replicate 2 zeroSlot)) s' ∧
      d = Function.update (Function.update (fun _ => none) a.fileName (some a.record)) b.fileName
        (some b.record) ∧
      Always (Fits (smallMount 0) 2) (callDir (smallMount 0) 2) post calls (s', d) := by
  have hend : smallVol.fat 2 = FAT_CLUSTER_END := rfl
  have h₀ : OneCluster smallVol (List.replicate 4 zeroSlot) s := ⟨_, hs, rfl, smallVol_slots⟩
  have t₁ : TakesAt (List.replicate 4 zeroSlot) [] zeroSlot (List.replicate 3 zeroSlot) :=
    ⟨rfl, fun x hx => absurd hx List.not_mem_nil, (addable_iff _).mpr (Or.inr first_zeroSlot)⟩
  have t₂ : TakesAt (storedIn a 2 :: closeSlots (List.replicate 3 zeroSlot)) [storedIn a 2]
      (zeroSlot.setFirst ENTRY_END) (List.replicate 2 zeroSlot) :=
    ⟨rfl, fun x hx => by rw [List.mem_singleton.mp hx]; exact ha.not_addable 2,
      (addable_iff _).mpr (Or.inr (DirEntry.first_setFirst _ _))⟩
  have hnone : smallVol.dirMap (smallMount 0) [2] = fun _ => none := funext smallVol_dirOf.2
  rw [hnone] at hrun
  obtain ⟨hfit₁, he₁⟩ := h₀.add (d := fun _ => none) hend t₁ ha rfl
  obtain ⟨⟨s₁, d₁⟩, ⟨h₁, hd₁⟩, hrun₁⟩ := hrun.step hfit₁ he₁
  obtain rfl : d₁ = Function.update (fun _ => none) a.fileName (some a.record) := hd₁
  have hnew : Function.update (fun _ => none) a.fileName (some a.record) b.fileName = none :=
    Function.update_of_ne hab _ _
  obtain ⟨hfit₂, he₂⟩ := h₁.add hend t₂ hb hnew
  obtain ⟨⟨s₂, d₂⟩, ⟨h₂, hd₂⟩, hrun₂⟩ := hrun₁.step hfit₂ he₂
  exact ⟨s₂, d₂, h₂, hd₂, hrun₂⟩

/-- The entry behind a removed one disappears with the next add. -/
theorem hiding_run (ha : Storable a) (hb : Storable b) (hc : Storable c)
    (hab : b.fileName ≠ a.fileName) (hac : c.fileName ≠ a.fileName)
    (hbc : nameEq b.fileName c.fileName = false) (hfile : a.isDir = false) (hdca : a.dca.toNat = 3)
    (hs : Shows (smallMount 0) s smallVol) :
    ¬ Always (Fits (smallMount 0) 2) (callDir (smallMount 0) 2)
      (fun x => ∀ name, SearchAgrees (smallMount 0) 2 name x)
      [.add a, .add b, .remove a.fileName, .add c] (s, smallVol.dirMap (smallMount 0) [2]) := by
  intro hrun
  have L := smallMount_layout (Nat.zero_le 1)
  have hne : c.fileName ≠ b.fileName := fun heq => by
    rw [heq, nameEq_self] at hbc
    cases hbc
  obtain ⟨s₂, d₂, h₂, hd₂, hrun₂⟩ := two_adds ha hb hab hs hrun
  -- `a` is removed: its slot is free, and `b` lies behind it
  have hlive : live (storedIn b 2 :: closeSlots (List.replicate 2 zeroSlot)) = [storedIn b 2] := by
    rw [live_cons (hb.stored_last 2) (hb.valid 2) (hb.stored_free 2)]
    unfold live scan
    rw [visible_closeSlots]
    rfl
  have hsound : Sound (storedIn a 2 :: storedIn b 2 :: closeSlots (List.replicate 2 zeroSlot)) := by
    intro x hx _
    rw [visible_cons (ha.stored_last 2), visible_cons (hb.stored_last 2), visible_closeSlots] at hx
    simp only [List.mem_cons, List.not_mem_nil, or_false] at hx
    obtain rfl | rfl := hx
    · exact Or.inl (ha.valid 2)
    · exact Or.inl (hb.valid 2)
  have hother : ∀ x ∈ live (storedIn b 2 :: closeSlots (List.replicate 2 zeroSlot)),
      x.fileName ≠ (storedIn a 2).fileName := fun x hx => by
    rw [hlive, List.mem_singleton] at hx
    rw [hx]
    exact hab
  obtain ⟨hfit₃, he₃⟩ := h₂.remove (d := d₂) rfl hsound (ha.valid 2) (ha.stored_free 2)
    (ha.stored_last 2) hother (c := 3) (HasChain.single (by decide) rfl) (by decide) hdca hfile
  obtain ⟨⟨s₃, d₃⟩, ⟨h₃, hd₃⟩, hrun₃⟩ := hrun₂.step hfit₃ he₃
  -- `c` takes the slot of `a` and hides `b`
  have t₄ : TakesAt ((storedIn a 2).setFirst ENTRY_FREE :: storedIn b 2 ::
      closeSlots (List.replicate 2 zeroSlot)) [] ((storedIn a 2).setFirst ENTRY_FREE)
      (storedIn b 2 :: closeSlots (List.replicate 2 zeroSlot)) :=
    ⟨rfl, fun x hx => absurd hx List.not_mem_nil,
      (addable_iff _).mpr (Or.inl fun hl => hl.2 (DirEntry.first_setFirst _ _))⟩
  have hend₃ : (smallVol.freeAll [3]).fat 2 = FAT_CLUSTER_END := rfl
  have hd₃' : d₃ = Function.update d₂ a.fileName none := hd₃
  have hnew : d₃ c.fileName = none := by
    rw [hd₃', hd₂, Function.update_of_ne hac, Function.update_of_ne hne, Function.update_of_ne hac]
  obtain ⟨hfit₄, he₄⟩ := h₃.add hend₃ t₄ hc hnew
  obtain ⟨⟨s₄, d₄⟩, ⟨⟨v₄, hs₄, hfat₄, hslots₄⟩, hd₄⟩, hrun₄⟩ := hrun₃.step hfit₄ he₄
  -- the map still holds `b`, and the search does not find it
  have hd₄' : d₄ = Function.update d₃ c.fileName (some c.record) := hd₄
  have hB : d₄ b.fileName = some b.record := by
    rw [hd₄', hd₃', hd₂, Function.update_of_ne (Ne.symm hne), Function.update_of_ne hab,
      Function.update_self]
  have hmiss : v₄.first (smallMount 0) [2] (Matches b.fileName) = none := by
    have hlive₄ : v₄.live (smallMount 0) 2 = [storedIn c 2] := by
      show live (v₄.slots (smallMount 0) 2) = _
      rw [hslots₄]
      exact t₄.live_put (hc.valid 2) (hc.stored_free 2) (hc.stored_last 2)
    have hno : Matches b.fileName (storedIn c 2) = false := by
      unfold Matches
      rw [storedIn_fileName, hbc, Bool.and_false]
    unfold Vol.first
    rw [Vol.entries_cons, hlive₄]
    simp [hno]
  have hsound₄ : SoundDir (smallMount 0) v₄ [2] := fun k hk => by
    rw [List.mem_singleton.mp hk, hslots₄]
    exact t₄.sound_put (hc.valid 2)
  have hsearch : Ensures (fun fuel => entrySearch (smallMount 0) fuel b.fileName 2 NO_ECACHE s₄)
      fun r => r.1 = none := by
    refine ⟨1, fun fuel hfuel => ?_⟩
    obtain ⟨s', v', he, _⟩ := entrySearch_shows L hfuel (OneCluster.chain hend₃ hfat₄) hs₄ hsound₄
      b.fileName
    refine ⟨_, he, ?_⟩
    rw [hmiss]
    rfl
  obtain ⟨r, hr, hagree⟩ := (hsearch.and (hrun₄.now b.fileName)).result
  rw [hr, show (s₄, d₄).2 b.fileName = _ from hB] at hagree
  cases hagree

end Hiding

/-- An 11-byte name of one letter. -/
def letterName (c : UInt8) : Name := Name.setFirst (Vector.replicate 11 SPACE) c

/-- A file of one byte under a name of one letter. -/
def letterFile (c : UInt8) (dca : Nat) : DirEntry := createEntry (letterName c) false dca 1

end NiFat32
