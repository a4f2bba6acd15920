import Mathlib.Data.List.Pairwise
import NiFat32.Proofs.Rename

/-!
# `Proofs.Subtree`: the removal of an entry frees its subtree

`entry_remove` is started at the cluster that holds the entry, so its walk sees a part of the
directory only. `entryRemove_entry` puts the result of that walk (`entryRemove_first`) back into the
whole directory: the entry is gone, the others are where they were, and the clusters that the entry
owned are free.
-/

set_option autoImplicit false

namespace NiFat32

variable {m : Mount} {s : FS} {v v' : Vol} {ca d : Nat} {cs U S : List Nat} {x y : Nat × DirEntry}
  {A B : List (Nat × DirEntry)} {name : Name}

/-- `entry_search` without an index, started at the cluster `ca`, returns `found`. -/
def Finds (m : Mount) (s : FS) (ca : Nat) (name : Name) (found : Option DirEntry) : Prop :=
  Run.Ensures (fun fuel => entrySearch m fuel name ca NO_ECACHE s) fun r => r.1 = found

/-- No two entries have the same name, as the library compares names. -/
def NamesDiffer (es : List (Nat × DirEntry)) : Prop :=
  es.Pairwise fun x y => nameEq x.2.fileName y.2.fileName = false

/-- An entry with the name of another one is this entry. -/
theorem NamesDiffer.eq {es : List (Nat × DirEntry)} (h : NamesDiffer es) (hx : x ∈ es)
    (hy : y ∈ es) (hname : nameEq x.2.fileName y.2.fileName = true) : x = y := by
  by_contra hne
  have hsymm : Std.Symm fun a b : Nat × DirEntry => nameEq a.2.fileName b.2.fileName = false :=
    ⟨fun a b hab => by rwa [nameEq_comm]⟩
  have hfalse := h.forall hx hy hne
  rw [hname] at hfalse
  cases hfalse

/-- The search finds the first entry that matches. -/
theorem finds_iff (L : Layout m) (hc : HasChain m v ca cs) (hs : Shows m s v)
    (hsound : SoundDir m v cs) (found : Option DirEntry) :
    Finds m s ca name found ↔ (v.first m cs (Matches name)).map foundAs = found := by
  have hrun := entrySearch_result L hc hs hsound name
  constructor
  · intro h
    obtain ⟨r, hr, hfound⟩ := (hrun.and h).result
    exact hr.symm.trans hfound
  · rintro rfl
    exact hrun

/-- An entry that carries the hash of its name is found under its name. -/
theorem first_of_hashed (hnames : NamesDiffer (v.entries m cs)) (hy : y ∈ v.entries m cs)
    (hhash : y.2.nameHash = hashName y.2.fileName) :
    v.first m cs (Matches y.2.fileName) = some y := by
  rw [Vol.first]
  cases hfirst : (v.entries m cs).find? fun z => Matches y.2.fileName z.2 with
  | none =>
    have hno := List.find?_eq_none.mp hfirst y hy
    exact absurd (matches_self hhash) hno
  | some z =>
    have hz := List.find?_some hfirst
    exact congrArg some (hnames.eq (List.mem_of_find?_eq_some hfirst) hy (Matches.sameName hz))

/-- The removal of an entry from a directory whose names differ. -/
theorem entryRemove_entry (L : Layout m) (hs : Shows m s v) (hc : HasChain m v ca cs)
    (hsound : SoundDir m v cs) (hnames : NamesDiffer (v.entries m cs)) (hx : x ∈ v.entries m cs)
    (hown : Owns m v d x.2.dca.toNat x.2.isDir S) (hnodup : S.Nodup) {fuel : Nat}
    (hfuel : cs.length + d + m.fi.totalClusters + 1 ≤ fuel) :
    ∃ s' v' A B, entryRemove m fuel x.1 x.2.fileName NO_ECACHE s = some (true, s') ∧
      Shows m s' v' ∧ v'.fat = (v.freeAll S).fat ∧ SoundDir m v' cs ∧
      v.entries m cs = A ++ x :: B ∧ v'.entries m cs = A ++ B := by
  obtain ⟨c, e⟩ := x
  obtain ⟨hcm, hlive⟩ := Vol.mem_entries.mp hx
  obtain ⟨pre, post, rfl, hchain⟩ := hc.of_mem hcm
  have hsub : SoundDir m v (c :: post) := fun k hk => hsound k (List.mem_append_right pre hk)
  -- the first entry with the name, from its cluster on, is the entry itself
  have hfirst : ∃ t, FirstAt m v (c :: post) (SameName e.fileName) t := by
    refine (firstAt_or m v (c :: post) (SameName e.fileName)).resolve_left fun hno => ?_
    have hfalse := hno.2 c List.mem_cons_self e hlive
    rw [SameName, nameEq_self] at hfalse
    cases hfalse
  obtain ⟨t, ht⟩ := hfirst
  have htx : (t.c, t.e) = (c, e) := by
    refine hnames.eq ?_ hx ht.sat
    rw [Vol.entries_append]
    exact List.mem_append_right _ ht.mem
  obtain ⟨rfl, rfl⟩ := Prod.mk.inj htx
  have hlen : (t.c :: post).length ≤ fuel := by
    rw [List.length_append] at hfuel
    omega
  obtain ⟨s', v', hrun, hs', -, hfat, hrep⟩ := (entryRemove_first NO_ECACHE L hlen (by omega) hchain
    hs hsub ht hown hnodup).resolve_left fun hstuck => hstuck.1 rfl
  -- the clusters in front of it are not visited
  have hout : ∀ k ∈ pre, v'.raw k = v.raw k := by
    have hnd := hc.nodup L
    intro k hk
    refine hrep.raw k fun hmem => ?_
    exact (List.nodup_append.mp hnd).2.2 k hk k hmem rfl
  have hpre : v'.entries m pre = v.entries m pre :=
    Vol.entries_congr fun k hk => congrArg live (Vol.slots_congr (hout k hk))
  have hfree : (t.e.setFirst ENTRY_FREE).first = ENTRY_FREE := DirEntry.first_setFirst _ _
  have hpost : v'.entries m (t.c :: post) = t.before m v ++ t.after m v := by
    rw [hrep.entries (by rw [hfree]; decide), slotView_free hfree]
    rfl
  refine ⟨s', v', v.entries m pre ++ t.before m v, t.after m v, hrun, hs', hfat, ?_, ?_, ?_⟩
  · intro k hk
    cases List.mem_append.mp hk with
    | inl hk =>
      rw [Vol.slots_congr (hout k hk)]
      exact hsound k (List.mem_append_left _ hk)
    | inr hk => exact hrep.sound (fun hne => absurd hfree hne) k hk
  · rw [Vol.entries_append, ht.at_.entries_eq ht.valid ht.free, List.append_assoc]
  · rw [Vol.entries_append, hpre, hpost, List.append_assoc]

/-- What one of the entries of a directory owns. -/
theorem Owns.entry (L : Layout m) (htree : Owns m v d ca true U) (hU : U.Nodup)
    (hc : HasChain m v ca cs) (hx : x ∈ v.entries m cs) :
    SoundDir m v cs ∧ ∃ d' S, Owns m v d' x.2.dca.toNat x.2.isDir S ∧ S.Nodup ∧
      List.Disjoint cs S := by
  obtain ⟨d, rfl⟩ := htree.depth_pos
  obtain ⟨cs', T, hc', hsound, hT, rfl⟩ := htree
  obtain rfl := hc.unique hc' L
  obtain ⟨A, B, hAB⟩ := List.append_of_mem hx
  rw [hAB] at hT
  obtain ⟨SA, K, SB, -, hK, -, rfl⟩ := hT.focus
  obtain ⟨-, hnd, hdisj⟩ := List.nodup_append.mp hU
  have hKnd := (List.nodup_append.mp (List.nodup_append.mp hnd).2.1).1
  refine ⟨hsound, d, K, hK, hKnd, fun c hcm hcK => ?_⟩
  exact hdisj c hcm c (List.mem_append_right SA (List.mem_append_left SB hcK)) rfl

/-- The empty directory `A` in the cluster `3`. -/
def letterDir : DirEntry := createEntry (letterName 0x41) true 3 0

/-- Its entry in the root directory. -/
def letterDirEntry : Nat × DirEntry := (2, storedIn letterDir 2)

theorem letterDir_storable : Storable letterDir := createEntry_storable (by decide) (by decide)

theorem letterDir_owns :
    Owns (smallMount 0) (oneEntryVol letterDir) 2 2 true ([2] ++ ([3] ++ [])) := by
  have hentries := oneEntryVol_entries letterDir_storable
  refine ⟨[2], [3] ++ [], (oneEntryVol_dirOf letterDir_storable).chain,
    (oneEntryVol_dirOf letterDir_storable).sound, ?_, rfl⟩
  rw [hentries]
  have hslots : (oneEntryVol letterDir).slots (smallMount 0) 3 = List.replicate 4 zeroSlot :=
    (Vol.slots_setSlots_ne _ _ (by decide)).trans (slotsIn_zero (m := smallMount 0))
  have hvis : visible (List.replicate 4 zeroSlot) = [] := visible_cons_end first_zeroSlot
  have hempty : (oneEntryVol letterDir).entries (smallMount 0) [3] = [] := by
    have hlive : (oneEntryVol letterDir).live (smallMount 0) 3 = [] := by
      rw [Vol.live, hslots]
      exact live_cons_end first_zeroSlot
    rw [Vol.entries_cons, hlive]
    rfl
  refine ⟨[3], [], ⟨[3], [], HasChain.single (by decide) rfl, ?_, ?_, rfl⟩, rfl, rfl⟩
  · intro c hc e he
    rw [List.mem_singleton.mp hc, hslots, hvis] at he
    exact absurd he List.not_mem_nil
  · rw [hempty]
    rfl

end NiFat32
