import NiFat32.Proofs.DirMap

/-!
# `Proofs.Rename`: changing the metadata of an open content

`NIFAT32_change_meta` builds a new entry and stores it over the one of the handle, but it stores
no checksum, and the handle keeps the old name. `Renamed` says what a rename should do.
`rename_keeps_entry_iff` is the condition under which it does so: the name stays the same, and
the checksum of the new entry happens to be zero.

`HandleOf` ties a handle to its entry, and `ActsOn` says which entry an operation through a
handle works on; both are used for the other operations on handles as well.
-/

set_option autoImplicit false

namespace NiFat32

open Run

variable {m : Mount} {s s' : FS} {v v' : Vol} {ci : Int} {dir : Nat} {cs ds : List Nat}
  {x : Nat × DirEntry} {info : CInfo}

/-! ### Finding in a list with one element replaced -/

section Find

variable {α : Type} {p : α → Bool} {A B : List α} {a a' b : α}

/-- The first hit is the replaced element. -/
theorem find?_replace_self (hA : A.find? p = none) (ha' : p a' = true) :
    (A ++ a' :: B).find? p = some a' := by
  rw [List.find?_append, hA, Option.none_or]
  exact List.find?_cons_of_pos ha'

/-- The first hit is another element. -/
theorem find?_replace_ne (h : (A ++ a :: B).find? p = some b) (hne : b ≠ a)
    (hp : p a' = p a) : (A ++ a' :: B).find? p = some b := by
  rw [List.find?_append] at h ⊢
  cases hA : A.find? p with
  | some y =>
    rw [hA] at h
    exact h
  | none =>
    rw [hA, Option.none_or] at h
    rw [Option.none_or]
    cases ha : p a with
    | true =>
      rw [List.find?_cons_of_pos ha] at h
      exact absurd (Option.some.inj h).symm hne
    | false =>
      rw [List.find?_cons_of_neg (by simp [ha])] at h
      rw [List.find?_cons_of_neg (by simp [hp, ha])]
      exact h

/-- An element that was replaced by one that fares alike, when it is the hit again. -/
theorem find?_replace_back (h : (A ++ a' :: B).find? p = some a') (hp : p a' = p a)
    (ha' : a' ∉ A) : (A ++ a :: B).find? p = some a := by
  have hA : A.find? p = none := by
    rw [List.find?_append] at h
    cases hA : A.find? p with
    | none => rfl
    | some y =>
      rw [hA] at h
      have heq : y = a' := Option.some.inj h
      exact absurd (heq ▸ List.mem_of_find?_eq_some hA) ha'
  have hpa' : p a' = true := List.find?_some h
  exact find?_replace_self hA (hp ▸ hpa')

end Find

/-! ### Handles -/

/-- The slot `ci` of the content table is a handle of the entry `x` in the directory with the
clusters `cs`: the entry that `entry_search` finds under the name of the handle. Operations on
the handle start at the cluster of the entry, and see the rest `ds` of the chain. -/
structure HandleOf (m : Mount) (s : FS) (v : Vol) (ci : Int) (dir : Nat) (cs ds : List Nat)
    (x : Nat × DirEntry) : Prop where
  directory : DirOf m v dir cs
  name : getContentName ci s = some x.2.fileName
  root : getContentRootCa ci s = x.1
  data : getContentDataCa ci s = x.2.dca.toNat
  found : v.first m cs (Matches x.2.fileName) = some x
  suffix : ∃ pre, cs = pre ++ ds
  chain : HasChain m v x.1 ds

/-- An operation through the handle `ci` works on the entry `x`: it is the first one, from the
cluster of the handle on, that passes the tests of `_edit_handler` and of `_remove_handler`. -/
def ActsOn (m : Mount) (s : FS) (v : Vol) (ci : Int) (x : Nat × DirEntry) : Prop :=
  ∃ name ds, getContentName ci s = some name ∧ HasChain m v (getContentRootCa ci s) ds ∧
    v.first m ds (Matches name) = some x ∧ v.first m ds (SameName name) = some x

/-- The table without the rest of the state decides what a handle refers to. -/
theorem getContentName_congr (h : s'.contents = s.contents) (ci : Int) :
    getContentName ci s' = getContentName ci s := by
  unfold getContentName
  rw [h]

theorem getContentRootCa_congr (h : s'.contents = s.contents) (ci : Int) :
    getContentRootCa ci s' = getContentRootCa ci s := by
  unfold getContentRootCa
  rw [h]

theorem getContentDataCa_congr (h : s'.contents = s.contents) (ci : Int) :
    getContentDataCa ci s' = getContentDataCa ci s := by
  unfold getContentDataCa
  rw [h]

namespace HandleOf

variable (h : HandleOf m s v ci dir cs ds x)

include h

theorem subset : ds ⊆ cs := by
  obtain ⟨pre, rfl⟩ := h.suffix
  exact List.subset_append_right pre ds

theorem mem : x ∈ v.entries m cs := List.mem_of_find?_eq_some h.found

theorem sound : SoundDir m v ds := fun c hc => h.directory.sound c (h.subset hc)

theorem hash : x.2.nameHash = hashName x.2.fileName := h.directory.hashed x h.mem

/-- A handle refers to the same entry when the directory looks as before. -/
theorem congr (hcont : s'.contents = s.contents) (hag : Agree m v v' cs) :
    HandleOf m s' v' ci dir cs ds x := by
  have hentries := hag.entries
  have hfat : ∀ c ∈ cs, v'.fat c = v.fat c := fun c hc => (hag c hc).1
  refine ⟨⟨h.directory.chain.congr hfat, hag.sound h.directory.sound, ?_, ?_⟩, ?_, ?_, ?_, ?_,
    h.suffix, h.chain.congr fun c hc => hfat c (h.subset hc)⟩
  · rw [hentries]
    exact h.directory.hashed
  · rw [hentries]
    exact h.directory.distinct
  · rw [getContentName_congr hcont]
    exact h.name
  · rw [getContentRootCa_congr hcont]
    exact h.root
  · rw [getContentDataCa_congr hcont]
    exact h.data
  · unfold Vol.first
    rw [hentries]
    exact h.found

/-- The clusters before the handle's hold no entry that matches. -/
theorem pre_none (L : Layout m) {pre : List Nat} (hpre : cs = pre ++ ds) :
    (v.entries m pre).find? (fun y => Matches x.2.fileName y.2) = none := by
  have hfound : ((v.entries m pre ++ v.entries m ds).find?
      fun y => Matches x.2.fileName y.2) = some x := by
    rw [← Vol.entries_append, ← hpre]
    exact h.found
  cases hfind : (v.entries m pre).find? fun y => Matches x.2.fileName y.2 with
  | none => rfl
  | some y =>
    rw [List.find?_append, hfind] at hfound
    obtain rfl : y = x := Option.some.inj hfound
    have hy := List.mem_of_find?_eq_some hfind
    obtain ⟨hyc, _⟩ := Vol.mem_entries.mp (show (y.1, y.2) ∈ v.entries m pre from hy)
    have hnodup := h.directory.chain.nodup L
    rw [hpre, List.nodup_append] at hnodup
    exact absurd rfl (hnodup.2.2 y.1 hyc y.1 (h.chain.head_mem L))

/-- The entry is the first one that matches from the cluster of the handle on. -/
theorem first_suffix (L : Layout m) : v.first m ds (Matches x.2.fileName) = some x := by
  obtain ⟨pre, hpre⟩ := h.suffix
  have hfound := h.found
  unfold Vol.first at hfound ⊢
  rw [hpre, Vol.entries_append, List.find?_append, h.pre_none L hpre, Option.none_or] at hfound
  exact hfound

end HandleOf

/-! ### The rename -/

/-- The entry that `NIFAT32_change_meta` stores. -/
def renamedEntry (s : FS) (ci : Int) (info : CInfo) : DirEntry :=
  createEntry info.fullName (info.type = STAT_DIR) (getContentDataCa ci s) info.size.toNat

/-- What a rename of the entry `x` should leave: the entry is found under its new name with the
data and the metadata it should have, it is no longer found under a different old name, the
entries that were found before are found again, and the handle works on the renamed entry. -/
structure Renamed (m : Mount) (s s' : FS) (ci : Int) (dir : Nat) (x : Nat × DirEntry)
    (info : CInfo) : Prop where
  found : Ensures (fun fuel => entrySearch m fuel info.fullName dir NO_ECACHE s') fun r =>
    ∃ e, r.1 = some e ∧ e.fileName = info.fullName ∧ e.dca = x.2.dca ∧
      e.isDir = decide (info.type = STAT_DIR) ∧ (info.type ≠ STAT_DIR → e.fileSize = info.size)
  oldName : x.2.fileName ≠ info.fullName →
    Ensures (fun fuel => entrySearch m fuel x.2.fileName dir NO_ECACHE s') fun r => r.1 = none
  others : ∀ cs, HasChain m (view m s) dir cs → ∀ y ∈ (view m s).entries m cs, y ≠ x →
    (view m s).first m cs (Matches y.2.fileName) = some y →
    Ensures (fun fuel => entrySearch m fuel y.2.fileName dir NO_ECACHE s') fun r =>
      r.1 = some (foundAs y)
  acts : ActsOn m s' (view m s') ci (x.1, renamedEntry s ci info)

/-- When a rename does what it should: the new name is the name of the handle, the checksum of
the new entry is the zero that the rename stores, and no entry in front has the name up to a
zero byte. -/
def RenameOk (m : Mount) (s : FS) (ci : Int) (x : Nat × DirEntry) (info : CInfo) : Prop :=
  getContentName ci s = some info.fullName ∧ (renamedEntry s ci info).computedChecksum = 0 ∧
    ∀ ds, HasChain m (view m s) (getContentRootCa ci s) ds →
      (view m s).first m ds (SameName info.fullName) = some x

theorem createEntry_isDir (name : Name) (isDir : Bool) (ca size : Nat) :
    (createEntry name isDir ca size).isDir = isDir := by
  have hfile : decide (FILE_ARCHIVE &&& FILE_DIRECTORY = FILE_DIRECTORY) = false := by decide
  have hdir : decide (FILE_DIRECTORY &&& FILE_DIRECTORY = FILE_DIRECTORY) = true := by decide
  cases isDir with
  | false => exact hfile
  | true => exact hdir

section Edit

variable {t : Slot} {e' : DirEntry}

/-- The directory `pre ++ ds` after the entry `x` of a handle became `e'`, an entry with the hash
of its name and without a checksum. -/
structure AfterEdit (m : Mount) (s s' : FS) (v v' : Vol) (ci : Int) (dir : Nat)
    (pre ds : List Nat) (x : Nat × DirEntry) (e' : DirEntry) (t : Slot) : Prop where
  handle : HandleOf m s v ci dir (pre ++ ds) ds x
  before : Shows m s v
  after : Shows m s' v'
  contents : s'.contents = s.contents
  fat : v'.fat = v.fat
  first : FirstAt m v ds (Matches x.2.fileName) t
  slot : (t.c, t.e) = x
  checksum : e'.checksum = 0
  hash : e'.nameHash = hashName e'.fileName
  replaced : Replaced m v v' ds t e'

namespace AfterEdit

variable {pre : List Nat} (h : AfterEdit m s s' v v' ci dir pre ds x e' t)

include h

theorem chain : HasChain m v' dir (pre ++ ds) :=
  h.handle.directory.chain.congr fun c _ => by rw [h.fat]

theorem chain_suffix : HasChain m v' x.1 ds := h.handle.chain.congr fun c _ => by rw [h.fat]

/-- Without a checksum, the new entry validates when zero is the right one. -/
theorem valid_iff : e'.Valid ↔ e'.computedChecksum = 0 := by
  unfold DirEntry.Valid
  rw [h.checksum]

/-- The clusters in front of the handle's are as they were. -/
theorem raw_pre (L : Layout m) : ∀ c ∈ pre, v'.raw c = v.raw c := fun c hc => by
  have hnodup := h.handle.directory.chain.nodup L
  rw [List.nodup_append] at hnodup
  exact h.replaced.raw c fun hm => hnodup.2.2 c hc c hm rfl

theorem sound (L : Layout m) : SoundDir m v' (pre ++ ds) := fun c hc => by
  cases List.mem_append.mp hc with
  | inl hp =>
    rw [Vol.slots_congr (h.raw_pre L c hp)]
    exact h.handle.directory.sound c hc
  | inr hd =>
    refine h.replaced.sound (fun _ => ?_) c hd
    rw [h.valid_iff]
    exact Classical.em _

theorem entries_pre (L : Layout m) : v'.entries m pre = v.entries m pre :=
  Vol.entries_congr fun c hc => congrArg live (Vol.slots_congr (h.raw_pre L c hc))

theorem entries_suffix : v.entries m ds = t.before m v ++ x :: t.after m v := by
  rw [← h.slot]
  exact h.first.at_.entries_eq h.first.valid h.first.free

theorem entries_old : v.entries m (pre ++ ds)
    = (v.entries m pre ++ t.before m v) ++ x :: t.after m v := by
  rw [Vol.entries_append, h.entries_suffix, List.append_assoc]

/-- What a walk sees of the new entry stands in the place of the old one. -/
theorem entries_new_suffix (hend : e'.first ≠ ENTRY_END) : v'.entries m ds
    = t.before m v ++ ([slotView e'].reduceOption.map (fun e => (x.1, e)) ++ t.after m v) := by
  rw [h.replaced.entries hend, ← h.slot]

theorem entries_new (L : Layout m) (hv : e'.Valid) (hfree : e'.first ≠ ENTRY_FREE)
    (hend : e'.first ≠ ENTRY_END) : v'.entries m (pre ++ ds)
      = (v.entries m pre ++ t.before m v) ++ (x.1, e') :: t.after m v := by
  rw [Vol.entries_append, h.entries_pre L, h.entries_new_suffix hend, slotView_live hv hfree,
    List.append_assoc]
  rfl

theorem search (L : Layout m) (name : Name) :
    Ensures (fun fuel => entrySearch m fuel name dir NO_ECACHE s') fun r =>
      r.1 = (v'.first m (pre ++ ds) (Matches name)).map foundAs :=
  entrySearch_result L h.chain h.after (h.sound L) name

/-- With the name of the handle, the new entry passes the same tests as the old one. -/
theorem matches_eq (hname : e'.fileName = x.2.fileName) (n : Name) :
    Matches n e' = Matches n x.2 := by
  unfold Matches
  rw [h.hash, hname, h.handle.hash]

/-- The name of the handle is one that a walk sees. -/
theorem first_ne (hname : e'.fileName = x.2.fileName) :
    e'.first ≠ ENTRY_FREE ∧ e'.first ≠ ENTRY_END := by
  have hx : t.e = x.2 := congrArg Prod.snd h.slot
  have hfirst : e'.first = t.e.first := by
    show Name.first e'.fileName = Name.first t.e.fileName
    rw [hname, hx]
  rw [hfirst]
  exact ⟨h.first.free, h.first.at_.first⟩

/-- No entry in front of the handle's matches its name. -/
theorem front_none (L : Layout m) : (v.entries m pre ++ t.before m v).find?
    (fun y => Matches x.2.fileName y.2) = none := by
  rw [List.find?_append, h.handle.pre_none L rfl, Option.none_or]
  exact h.first.before_none

/-- A valid new entry with the name of the handle is found under it. -/
theorem found (L : Layout m) (hname : e'.fileName = x.2.fileName) (hv : e'.Valid) :
    v'.first m (pre ++ ds) (Matches x.2.fileName) = some (x.1, e') := by
  have hself : Matches x.2.fileName e' = true := by
    rw [h.matches_eq hname]
    exact matches_self h.handle.hash
  unfold Vol.first
  rw [h.entries_new L hv (h.first_ne hname).1 (h.first_ne hname).2]
  exact find?_replace_self (h.front_none L) hself

/-- The other entries are found as before. -/
theorem found_other (L : Layout m) (hname : e'.fileName = x.2.fileName) (hv : e'.Valid)
    {y : Nat × DirEntry} {n : Name} (hy : v.first m (pre ++ ds) (Matches n) = some y)
    (hne : y ≠ x) : v'.first m (pre ++ ds) (Matches n) = some y := by
  unfold Vol.first at hy ⊢
  rw [h.entries_old] at hy
  rw [h.entries_new L hv (h.first_ne hname).1 (h.first_ne hname).2]
  exact find?_replace_ne hy hne (h.matches_eq hname n)

/-- When an entry with the name of the handle is found, it is the new one, and it is valid. -/
theorem valid_of_found (L : Layout m) (hname : e'.fileName = x.2.fileName)
    {y : Nat × DirEntry} (hy : y ∈ v'.entries m (pre ++ ds))
    (hyname : y.2.fileName = x.2.fileName) : e'.Valid ∧ y = (x.1, e') := by
  have hend := (h.first_ne hname).2
  have hold : ∀ z ∈ v.entries m pre ++ (t.before m v ++ t.after m v),
      z.2.fileName ≠ x.2.fileName := by
    have hdist := h.handle.directory.distinct
    rw [h.entries_old, List.map_append, List.map_cons] at hdist
    have hmid := (List.nodup_cons.mp (List.perm_middle.nodup_iff.mp hdist)).1
    intro z hz heq
    refine hmid ?_
    rw [← List.map_append, List.append_assoc]
    exact List.mem_map.mpr ⟨z, hz, heq⟩
  rw [Vol.entries_append, h.entries_pre L, h.entries_new_suffix hend] at hy
  by_cases hl : e'.Valid ∧ e'.first ≠ ENTRY_FREE
  · rw [slotView_live hl.1 hl.2] at hy
    simp only [List.reduceOption_singleton, Option.toList_some, List.map_cons, List.map_nil,
      List.mem_append, List.mem_singleton] at hy
    obtain hp | hb | rfl | ha := hy
    · exact absurd hyname (hold y (List.mem_append_left _ hp))
    · exact absurd hyname (hold y (List.mem_append_right _ (List.mem_append_left _ hb)))
    · exact ⟨hl.1, rfl⟩
    · exact absurd hyname (hold y (List.mem_append_right _ (List.mem_append_right _ ha)))
  · rw [slotView_hole hl] at hy
    exact absurd hyname (hold y hy)

end AfterEdit

/-- An edit through a handle, of its own name: the entry of the handle becomes the new one. -/
theorem HandleOf.edit {pre : List Nat} (L : Layout m) (h : Shows m s v)
    (hh : HandleOf m s v ci dir (pre ++ ds) ds x) (cache : Nat) (e' : DirEntry)
    (hsum : e'.checksum = 0) (hhash : e'.nameHash = hashName e'.fileName) {fuel : Nat}
    (hfuel : ds.length ≤ fuel) :
    (cache ≠ 0 ∧ entryEdit m fuel x.1 cache x.2.fileName e' s = none) ∨
    ∃ s' v' t, entryEdit m fuel x.1 cache x.2.fileName e' s = some (true, s') ∧
      AfterEdit m s s' v v' ci dir pre ds x e' t := by
  have hfirst := hh.first_suffix L
  obtain ⟨t, ht⟩ : ∃ t, FirstAt m v ds (Matches x.2.fileName) t := by
    refine (firstAt_or m v ds (Matches x.2.fileName)).resolve_left fun hnone => ?_
    rw [hnone.1] at hfirst
    cases hfirst
  have htx : (t.c, t.e) = x := by
    rw [ht.first_eq] at hfirst
    exact Option.some.inj hfirst
  cases entryEdit_first cache e' L hfuel hh.chain h hh.sound ht with
  | inl hstuck => exact Or.inl hstuck
  | inr hdone =>
    obtain ⟨s', v', he, hs', hl, hfat, hrep⟩ := hdone
    exact Or.inr ⟨s', v', t, he, hh, h, hs', hl.contents, hfat, ht, htx, hsum, hhash, hrep⟩

end Edit

/-- The state after a rename: the entry of the handle became the new one. -/
theorem changeMeta_shows {pre : List Nat} (L : Layout m) (h : Shows m s v)
    (hh : HandleOf m s v ci dir (pre ++ ds) ds x) (info : CInfo) {fuel : Nat}
    (hfuel : ds.length ≤ fuel) :
    (getContentEcache ci s ≠ 0 ∧ changeMeta m fuel ci info s = none) ∨
    ∃ s' v' t, changeMeta m fuel ci info s = some (true, s') ∧
      AfterEdit m s s' v v' ci dir pre ds x (renamedEntry s ci info) t := by
  unfold changeMeta
  rw [hh.name, hh.root]
  simp only
  rw [show createEntry info.fullName (info.type = STAT_DIR) (getContentDataCa ci s)
    info.size.toNat = renamedEntry s ci info from rfl]
  cases hh.edit L h (getContentEcache ci s) (renamedEntry s ci info) rfl rfl hfuel with
  | inl hstuck =>
    rw [hstuck.2]
    exact Or.inl ⟨hstuck.1, rfl⟩
  | inr hdone =>
    obtain ⟨s', v', t, he, hafter⟩ := hdone
    rw [he]
    exact Or.inr ⟨s', v', t, rfl, hafter⟩

section Iff

variable {t : Slot} {pre : List Nat}

/-- The condition is enough. -/
theorem AfterEdit.renamed (L : Layout m)
    (h : AfterEdit m s s' v v' ci dir pre ds x (renamedEntry s ci info) t)
    (hok : RenameOk m s ci x info) : Renamed m s s' ci dir x info := by
  obtain ⟨hnm, hsum, hdel⟩ := hok
  have hname : (renamedEntry s ci info).fileName = x.2.fileName := by
    rw [h.handle.name] at hnm
    exact (Option.some.inj hnm).symm
  have hnm' : info.fullName = x.2.fileName := hname
  have hv := h.valid_iff.mpr hsum
  have hself : Matches x.2.fileName (renamedEntry s ci info) = true := by
    rw [h.matches_eq hname]
    exact matches_self h.handle.hash
  have hnew : v'.entries m ds
      = t.before m v ++ (x.1, renamedEntry s ci info) :: t.after m v := by
    rw [h.entries_new_suffix (h.first_ne hname).2, slotView_live hv (h.first_ne hname).1]
    rfl
  refine ⟨?_, fun hne => absurd hnm'.symm hne, fun cs hcs y hy hne hfound => ?_, ?_⟩
  · refine (h.search L info.fullName).imp fun r hr => ?_
    rw [hnm', h.found L hname hv] at hr
    refine ⟨_, hr, rfl, ?_, ?_, fun hfile => ?_⟩
    · show UInt32.ofNat (getContentDataCa ci s) = x.2.dca
      rw [h.handle.data]
      exact UInt32.ofNat_toNat
    · exact createEntry_isDir info.fullName (info.type = STAT_DIR) (getContentDataCa ci s)
        info.size.toNat
    · show (if decide (info.type = STAT_DIR) = true then (1 : UInt32)
        else UInt32.ofNat info.size.toNat) = info.size
      rw [if_neg (by simpa using hfile)]
      exact UInt32.ofNat_toNat
  · rw [h.before.view_eq] at hcs hy hfound
    obtain rfl := hcs.unique h.handle.directory.chain L
    refine (h.search L y.2.fileName).imp fun r hr => ?_
    rw [hr, h.found_other L hname hv hfound hne]
    rfl
  · have hdel' := hdel ds
    rw [h.before.view_eq, h.handle.root, hnm'] at hdel'
    have hsame := hdel' h.handle.chain
    refine ⟨x.2.fileName, ds, ?_, ?_, ?_, ?_⟩
    · rw [getContentName_congr h.contents, h.handle.name]
    · rw [h.after.view_eq, getContentRootCa_congr h.contents, h.handle.root]
      exact h.chain_suffix
    · rw [h.after.view_eq]
      unfold Vol.first
      rw [hnew]
      exact find?_replace_self h.first.before_none hself
    · rw [h.after.view_eq]
      unfold Vol.first at hsame ⊢
      rw [h.entries_suffix] at hsame
      rw [hnew]
      have hA : (t.before m v).find? (fun y => SameName x.2.fileName y.2) = none := by
        cases hfind : (t.before m v).find? fun y => SameName x.2.fileName y.2 with
        | none => rfl
        | some y =>
          -- it would be the entry of the handle itself, which matches
          rw [List.find?_append, hfind] at hsame
          obtain rfl : y = x := Option.some.inj hsame
          have hmiss := List.find?_eq_none.mp h.first.before_none y
            (List.mem_of_find?_eq_some hfind)
          exact absurd (matches_self h.handle.hash) hmiss
      exact find?_replace_self hA (Matches.sameName hself)

/-- The condition is necessary. -/
theorem AfterEdit.renameOk (L : Layout m)
    (h : AfterEdit m s s' v v' ci dir pre ds x (renamedEntry s ci info) t)
    (hr : Renamed m s s' ci dir x info) : RenameOk m s ci x info := by
  obtain ⟨name, ds', hname, hchain, hmatch, hsame⟩ := hr.acts
  rw [getContentName_congr h.contents, h.handle.name] at hname
  obtain rfl := Option.some.inj hname
  rw [h.after.view_eq] at hchain hmatch hsame
  rw [getContentRootCa_congr h.contents, h.handle.root] at hchain
  obtain rfl := hchain.unique h.chain_suffix L
  -- the new entry is one that a walk sees
  have hmem : (x.1, renamedEntry s ci info) ∈ v'.entries m ds' := List.mem_of_find?_eq_some hmatch
  have hlive : renamedEntry s ci info ∈ live (v'.slots m x.1) := (Vol.mem_entries.mp hmem).2
  obtain ⟨hvis, hvalid, hfree⟩ := mem_live.mp hlive
  have hnm : info.fullName = x.2.fileName := by
    by_contra hne
    obtain ⟨r, hnone, hfirst⟩ := ((hr.oldName (Ne.symm hne)).and (h.search L x.2.fileName)).result
    rw [hnone] at hfirst
    have hmiss := Option.map_eq_none_iff.mp hfirst.symm
    unfold Vol.first at hmiss hmatch
    rw [Vol.entries_append, List.find?_append, hmatch] at hmiss
    cases hp : (v'.entries m pre).find? fun y => Matches x.2.fileName y.2 with
    | none => rw [hp] at hmiss; cases hmiss
    | some y => rw [hp] at hmiss; cases hmiss
  refine ⟨by rw [h.handle.name, hnm], h.valid_iff.mp hvalid, fun es hes => ?_⟩
  rw [h.before.view_eq] at hes ⊢
  rw [h.handle.root] at hes
  obtain rfl := hes.unique h.handle.chain L
  unfold Vol.first at hsame ⊢
  rw [h.entries_new_suffix (first_of_mem_visible hvis), slotView_live hvalid hfree] at hsame
  rw [h.entries_suffix, hnm]
  refine find?_replace_back hsame ?_ fun hA => ?_
  · show nameEq (renamedEntry s ci info).fileName _ = nameEq x.2.fileName _
    rw [show (renamedEntry s ci info).fileName = x.2.fileName from hnm]
  · have hmiss := List.find?_eq_none.mp h.first.before_none _ hA
    have hself : Matches x.2.fileName (renamedEntry s ci info) = true := by
      rw [h.matches_eq hnm]
      exact matches_self h.handle.hash
    exact hmiss hself

end Iff

/-- The small volume with the entry `e` in its root directory. -/
def oneEntryVol (e : DirEntry) : Vol :=
  smallVol.setSlots (smallMount 0) 2 (smallVol.raw 2)
    (storedIn e 2 :: closeSlots (List.replicate 3 zeroSlot))

/-- A content table of handles of the entry `e` in the cluster `2`. -/
def handleTable (e : DirEntry) : Nat → Content := fun _ => {
  directoryName := [], fileName := [], fileExtension := [], indexRoot := NO_ECACHE
  parentCluster := 2, dataCluster := e.dca.toNat, entry := e
  contentType := .file, mode := R_MODE ||| W_MODE }

section OneEntry

variable {e : DirEntry}

theorem oneEntryVol_slots : (oneEntryVol e).slots (smallMount 0) 2
    = storedIn e 2 :: closeSlots (List.replicate 3 zeroSlot) :=
  Vol.slots_setSlots_self rfl (List.length_replicate)

theorem oneEntryVol_stored (e : DirEntry) (contents : Nat → Content) :
    Stored (smallMount 0) contents (oneEntryVol e) :=
  (smallVol_stored contents).setRaw (smallMount_layout (Nat.zero_le 1)) (by decide)
    (length_repackCluster rfl List.length_replicate)

theorem oneEntryVol_entries (he : Storable e) :
    (oneEntryVol e).entries (smallMount 0) [2] = [(2, storedIn e 2)] := by
  have hlive : (oneEntryVol e).live (smallMount 0) 2 = [storedIn e 2] := by
    show live ((oneEntryVol e).slots (smallMount 0) 2) = _
    rw [oneEntryVol_slots, live_cons (he.stored_last 2) (he.valid 2) (he.stored_free 2)]
    unfold live scan
    rw [visible_closeSlots]
    rfl
  rw [Vol.entries_cons, hlive]
  rfl

theorem oneEntryVol_dirOf (he : Storable e) : DirOf (smallMount 0) (oneEntryVol e) 2 [2] := by
  refine ⟨HasChain.single (by decide) rfl, fun c hc y hy _ => ?_, fun y hy => ?_, ?_⟩
  · rw [List.mem_singleton.mp hc, oneEntryVol_slots, visible_cons (he.stored_last 2),
      visible_closeSlots, List.mem_singleton] at hy
    rw [hy]
    exact Or.inl (he.valid 2)
  · rw [oneEntryVol_entries he, List.mem_singleton] at hy
    rw [hy]
    exact he.hash
  · rw [oneEntryVol_entries he]
    exact List.nodup_singleton _

theorem oneEntry_handle (he : Storable e) (hcont : s.contents = handleTable (storedIn e 2)) :
    HandleOf (smallMount 0) s (oneEntryVol e) 0 2 [2] [2] (2, storedIn e 2) where
  directory := oneEntryVol_dirOf he
  name := by
    unfold getContentName
    rw [hcont]
    rfl
  root := by
    unfold getContentRootCa
    rw [hcont]
    rfl
  data := by
    unfold getContentDataCa
    rw [hcont]
    rfl
  found := by
    have hself : Matches (storedIn e 2).fileName (storedIn e 2) = true := matches_self he.hash
    unfold Vol.first
    rw [oneEntryVol_entries he]
    exact List.find?_cons_of_pos hself
  suffix := ⟨[], rfl⟩
  chain := (oneEntryVol_dirOf he).chain

end OneEntry

/-- The metadata of a file of one byte under a name of one letter. -/
def letterInfo (c : UInt8) : CInfo :=
  { fullName := letterName c, name := [], extention := [], size := 1, type := STAT_FILE }

end NiFat32
