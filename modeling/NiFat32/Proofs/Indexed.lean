import NiFat32.Proofs.Calls
import NiFat32.Proofs.Handles

/-!
# `Proofs.Indexed`: lookups through an index

`entry_search` answers from the index of a handle when the index has the hash of the name, and an
answer from the index has no cluster of its own: its `rca` is bad, and its size and attributes
are made up. So the two lookups agree as long as the index is empty. Only
`NIFAT32_index_content` fills an index, and it fills it with the live entries of its directory
(`entryIterate_index`).
-/

set_option autoImplicit false

namespace NiFat32

open Relational Run

variable {m : Mount} {s s' : FS} {ca : Nat}

/-! ### Directories without a live entry -/

/-- A walk that stops at the first live entry. -/
def liveHandler : Handler Unit := fun _ e _ s =>
  match validateEntry e with
  | (valid, e) => some (!(valid = false ∨ e.first = ENTRY_FREE), e, (), s)

/-- No walk over the directory meets a live entry. -/
def Bare (m : Mount) (ca : Nat) (s : FS) : Prop :=
  ∀ fuel exit s', entryIterate m liveHandler fuel ca () s = some (exit, (), s') → exit = false

/-- The index handler and the walk do the same up to the first live entry. -/
theorem slotLoop_index (ca fuel i root : Nat) (es : List DirEntry) :
    (slotLoop liveHandler ca i es () s).map (fun r => r.1) = some true ∨
    ∃ es', slotLoop liveHandler ca i es () s = some (false, es', (), s) ∧
      slotLoop (indexHandler m fuel) ca i es root s = some (false, es', root, s) := by
  induction es generalizing i with
  | nil => exact Or.inr ⟨[], rfl, rfl⟩
  | cons e es ih =>
    simp only [slotLoop]
    by_cases hend : e.first = ENTRY_END
    · simp only [if_pos hend]
      exact Or.inr ⟨e :: es, rfl, rfl⟩
    simp only [if_neg hend, liveHandler, indexHandler]
    by_cases hdead : (validateEntry e).1 = false ∨ (validateEntry e).2.first = ENTRY_FREE
    · -- both handlers pass over the slot
      simp only [hdead, decide_true, Bool.not_true, if_true]
      rcases ih (i + 1) with hlive | ⟨es', hl, hi⟩
      · left
        simp only [Option.map_map]
        exact hlive
      · right
        exact ⟨(validateEntry e).2 :: es', by rw [hl]; rfl, by rw [hi]; rfl⟩
    · left
      simp only [hdead, decide_false, Bool.not_false, Option.map_some]

/-- Over a directory without a live entry the index stays what it is. -/
theorem entryIterate_index (k root fuel : Nat) (hbare : Bare m ca s) :
    entryIterate m (indexHandler m k) fuel ca root s
      = (entryIterate m liveHandler fuel ca () s).map fun r => (r.1, root, r.2.2) := by
  induction fuel generalizing ca s with
  | zero => rfl
  | succ fuel ih =>
    simp only [entryIterate]
    cases hread : readEncodedCluster m ca s with
    | mk read s₁ =>
    cases read with
    | none => rfl
    | some bufs =>
      rcases slotLoop_index (m := m) (s := s₁) ca k 0 root
        (slotsOf (entriesPerCluster m) bufs.2) with hlive | ⟨slots, hl, hi⟩
      · -- a live entry stops the walk, which the directory does not do
        obtain ⟨⟨exit, slots, u, s₂⟩, hl, rfl⟩ := Option.map_eq_some_iff.mp hlive
        have hstop := hbare 1
        simp only [entryIterate, hread, hl] at hstop
        cases hw : writeCluster m ca (repackCluster m bufs.1 bufs.2 slots) s₂ with
        | mk ok s₃ =>
        cases ok with
        | false =>
          rw [hw] at hstop
          exact absurd (hstop _ _ rfl) Bool.true_eq_false_eq_False
        | true =>
          rw [hw] at hstop
          simp at hstop
      · simp only [hl, hi]
        cases hw : writeCluster m ca (repackCluster m bufs.1 bufs.2 slots) s₁ with
        | mk ok s₂ =>
        cases ok with
        | false => rfl
        | true =>
          cases hr : readFat m ca s₂ with
          | mk next s₃ =>
          by_cases hmore : next ≠ FAT_CLUSTER_END
          · simp only [hr, and_true, if_pos hmore]
            apply ih
            intro n exit s' hn
            refine hbare (n + 1) exit s' ?_
            simp only [entryIterate, hread, hl, hw, hr, and_true, if_pos hmore]
            exact hn
          · simp only [hr, and_true, if_neg hmore, Option.map_some]

/-! ### Without memory -/

/-- The allocator answers every further request with `NULL`. -/
def NoMemory (m : Mount) (s : FS) : Prop := ∀ n, s.mallocs ≤ n → m.malloc n = 0

theorem noMemory_bisim (m : Mount) (root root' : Nat) :
    Bisim m fun s t => s = t ∧ (root' = root ∧ NoMemory m s) := by
  refine (StepInvariant.of_statics (P := fun s => root' = root ∧ NoMemory m s) ?_ (fun h _ => h)
    (fun h _ => h) (fun h _ => h) (fun h _ => h) ?_ (fun h _ => h)).bisim
  · intro s s' h hlogs
    refine ⟨h.1, ?_⟩
    intro n hn
    exact h.2 n (hlogs.mallocs ▸ hn)
  · intro s h
    exact ⟨h.1, fun n hn => h.2 n (Nat.le_of_succ_le hn)⟩

/-- Without memory the index stays what it is. -/
theorem indexHandler_noMemory {fuel root root' : Nat} {info : EntryInfo} {e e' : DirEntry}
    {exit : Bool} {root'' : Nat} (h : root' = root ∧ NoMemory m s)
    (hrun : indexHandler m fuel info e root' s = some (exit, e', root'', s')) :
    root'' = root ∧ NoMemory m s' := by
  rw [indexHandler] at hrun
  simp only at hrun
  split at hrun
  · cases hrun
    exact h
  have hnull := h.2 s.mallocs (Nat.le_refl _)
  rw [ecacheInsert] at hrun
  simp only [hnull, if_true, Option.map_some] at hrun
  cases hrun
  exact ⟨h.1, fun n hn => h.2 n (Nat.le_of_succ_le hn)⟩

/-! ### Runs that leave the index empty -/

/-- The index of the slot is empty, in both of two equal states. -/
def Unindexed (i : Nat) (s t : FS) : Prop := s = t ∧ (s.contents i).indexRoot = NO_ECACHE

/-- Equal contents, without an index in the slot `i`. -/
def UnindexedSlot (i k : Nat) (c c' : Content) : Prop :=
  c = c' ∧ (k = i → c.indexRoot = NO_ECACHE)

theorem unindexed_bisim (m : Mount) (i : Nat) :
    TableBisim m (Unindexed i) (UnindexedSlot i) where
  bisim := (StepInvariant.of_statics (P := fun s => (s.contents i).indexRoot = NO_ECACHE)
    (fun h hlogs => by rw [hlogs.contents]; exact h) (fun h _ => h) (fun h _ => h) (fun h _ => h)
    (fun h _ => h) (fun h => h) (fun h _ => h)).bisim
  table := by
    rintro s _ ⟨rfl, h⟩ k
    refine ⟨rfl, ?_⟩
    intro hk
    rw [hk]
    exact h
  setContent := by
    rintro s _ ⟨rfl, h⟩ k c _ ⟨rfl, hc⟩
    refine ⟨rfl, ?_⟩
    show (if i = k then c else s.contents i).indexRoot = NO_ECACHE
    split
    · next hik => exact hc hik.symm
    · exact h
  contentType h := congrArg _ h.1
  indexRoot h := congrArg _ h.1
  emptied h := ⟨congrArg _ h.1, fun _ => rfl⟩
  taken h := ⟨congrArg _ h.1, fun _ => rfl⟩
  filled := by
    rintro k c _ ⟨rfl, hc⟩ isDir name e mode
    refine ⟨rfl, ?_⟩
    intro hk
    cases isDir <;> exact hc hk
  moved := by
    rintro k c _ ⟨rfl, hc⟩ ca
    exact ⟨rfl, hc⟩

/-- The handle is indexed only while its directory has no live entry, or there is no memory for
the index. -/
def IndexesNothing (m : Mount) (rci : Int) (s : FS) (c : ApiCall) : Prop :=
  c = .indexContent rci → Bare m (getContentDataCa rci s) s ∨ NoMemory m s

/-- The index that such a call leaves is empty. -/
theorem entryIndex_root {fuel root : Nat} {rci : Int}
    (h : Bare m (getContentDataCa rci s) s ∨ NoMemory m s)
    (hrun : entryIndex m fuel (getContentDataCa rci s) NO_ECACHE s = some (root, s')) :
    root = NO_ECACHE := by
  rw [entryIndex] at hrun
  rcases h with hbare | hmem
  · rw [entryIterate_index fuel NO_ECACHE fuel hbare, Option.map_map] at hrun
    obtain ⟨r, -, hr⟩ := Option.map_eq_some_iff.mp hrun
    exact (Prod.mk.inj hr).1.symm
  · obtain ⟨⟨exit, root', s''⟩, hwalk, hr⟩ := Option.map_eq_some_iff.mp hrun
    obtain ⟨rfl, rfl⟩ := Prod.mk.inj hr
    exact (Bisim.entryIterate_invariant (I := fun root' s => root' = NO_ECACHE ∧ NoMemory m s)
      (noMemory_bisim m NO_ECACHE) indexHandler_noMemory fuel ⟨rfl, hmem⟩ hwalk).1

/-- One call leaves the index of the handle empty. -/
theorem runCall_unindexed {rci : Int} {c : ApiCall} {fuel : Nat} {r : Int}
    (h : getContentEcache rci s = NO_ECACHE) (hc : IndexesNothing m rci s c)
    (hrun : runCall m c fuel s = some (r, s')) : getContentEcache rci s' = NO_ECACHE := by
  by_cases hin : inTable rci
  · rw [getContentEcache, if_pos hin] at h ⊢
    have hb := unindexed_bisim m rci.toNat
    have hends := hb.runCall (s := s) (c := c) ⟨rfl, h⟩ fuel (c.readsSame_refl s) ?_
    · rcases hends with ⟨hnone, _⟩ | ⟨r', u, u', hu, -, -, hroot⟩
      · rw [hnone] at hrun
        cases hrun
      · rw [hu] at hrun
        cases hrun
        exact hroot
    · -- an index call on the handle itself finds nothing to insert
      rintro ci rfl hci root u _ hindex ⟨rfl, -⟩
      refine ⟨rfl, ?_⟩
      intro hsame
      obtain rfl : ci = rci := by
        have hpos := hci.1
        have hpos' := hin.1
        omega
      rw [getContentEcache, if_pos hin, h] at hindex
      exact entryIndex_root (hc rfl) hindex
  · rw [getContentEcache, if_neg hin]

/-- Two answers of `entry_search`: found or not alike, with the same links, attributes and size. -/
def SameAnswer : Option DirEntry → Option DirEntry → Prop
  | none, none => True
  | some e, some e' => e.dca = e'.dca ∧ e.attributes = e'.attributes ∧ e.fileSize = e'.fileSize ∧
      e.rca = e'.rca
  | _, _ => False

theorem SameAnswer.refl (r : Option DirEntry) : SameAnswer r r := by
  cases r with
  | none => trivial
  | some e => exact ⟨rfl, rfl, rfl, rfl⟩

/-- In the directory of the handle, a lookup through its index answers as one without. -/
def LookupAgrees (m : Mount) (rci : Int) (s : FS) : Prop :=
  ∀ fuel name r r',
    entrySearch m fuel name (getContentDataCa rci s) (getContentEcache rci s) s = some r →
    entrySearch m fuel name (getContentDataCa rci s) NO_ECACHE s = some r' → SameAnswer r.1 r'.1

theorem LookupAgrees.of_unindexed {rci : Int} (h : getContentEcache rci s = NO_ECACHE) :
    LookupAgrees m rci s := by
  intro fuel name r r' hr hr'
  rw [h, hr'] at hr
  cases hr
  exact SameAnswer.refl _

/-- A call and the state it leaves. -/
def callState (m : Mount) (c : ApiCall) (s : FS) (fuel : Nat) : Option FS :=
  (runCall m c fuel s).map fun r => r.2

/-- In every run of calls that indexes the directory of the handle only while it holds no live
entry, or while there is no memory, the two lookups agree after every call. -/
theorem indexed_lookup_agrees {rci : Int} (hopen : getContentEcache rci s = NO_ECACHE)
    (calls : List ApiCall) :
    Throughout (IndexesNothing m rci) (callState m) (LookupAgrees m rci) calls s := by
  apply Throughout.of_invariant (fun s => getContentEcache rci s = NO_ECACHE) _ _ calls hopen
  · intro s h
    exact LookupAgrees.of_unindexed h
  · intro s c fuel s' h hc hrun
    obtain ⟨⟨r, s''⟩, hcall, rfl⟩ := Option.map_eq_some_iff.mp hrun
    exact runCall_unindexed h hc hcall

/-! ### A directory with one entry -/

/-- The node that `ecache_insert` puts into an empty index. -/
def newNode (flags : BitVec 3) (hash : UInt32) (isDir : Bool) (ca : Nat) : EcacheNode where
  p := 0
  l := 0
  r := 0
  flags := flags &&& ~~~ECACHE_BLACK ||| (if isDir then ECACHE_DIR else ECACHE_FILE)
  hash := hash
  ca := ca

/-- The heap after the first insertion. -/
def rootHeap (h : Heap) (z : Nat) (hash : UInt32) (isDir : Bool) (ca : Nat) : Heap :=
  Heap.setBlack (Heap.setP (Heap.upd h z (newNode (h z).flags hash isDir ca)) z 0) z

theorem rootHeap_hash {h : Heap} {z : Nat} {hash : UInt32} {isDir : Bool} {ca : Nat} :
    (rootHeap h z hash isDir ca z).hash = hash := by
  simp [rootHeap, Heap.setBlack, Heap.setP, Heap.upd, newNode]

/-- The first insertion makes a root. -/
theorem ecacheInsert_empty {fuel : Nat} {hash : UInt32} {isDir : Bool}
    (hz : m.malloc s.mallocs ≠ 0) :
    ecacheInsert m (fuel + 1) NO_ECACHE hash isDir ca s = some (m.malloc s.mallocs,
      { s with
        mallocs := s.mallocs + 1
        heap := rootHeap s.heap (m.malloc s.mallocs) hash isDir ca }) := by
  generalize hm : m.malloc s.mallocs = z at hz
  have hp : (Heap.setP (Heap.upd s.heap z (newNode (s.heap z).flags hash isDir ca)) z 0 z).p
      = 0 := by
    simp [Heap.setP, Heap.upd]
  have hfix : fixInsert (fuel + 1) z
      (Heap.setP (Heap.upd s.heap z (newNode (s.heap z).flags hash isDir ca)) z 0) z
        = some (z, rootHeap s.heap z hash isDir ca) := by
    rw [fixInsert, fixInsertLoop]
    simp only [hp, true_or, if_true, Option.map_some]
    rfl
  rw [ecacheInsert, hm]
  simp only [if_neg hz, insertPos, if_true]
  exact congrArg (Option.map _) hfix

/-- The index of a directory of one cluster whose first slot is its only entry. -/
theorem entryIndex_one (L : Layout m) {v : Vol} (h : Shows m s v) (hca : InVol m ca)
    (hend : v.fat ca = FAT_CLUSTER_END) (hsound : SoundDir m v [ca]) {e : DirEntry}
    {es : List DirEntry} (hslots : v.slots m ca = e :: closeSlots es)
    (hlast : e.first ≠ ENTRY_END) (hvalid : e.Valid) (hfree : e.first ≠ ENTRY_FREE)
    (hz : m.malloc s.mallocs ≠ 0) (fuel : Nat) :
    ∃ s' v', entryIndex m (fuel + 1) ca NO_ECACHE s = some (m.malloc s.mallocs, s') ∧
      Shows m s' v' ∧ SameDir m v v' [ca] ∧ s'.contents = s.contents ∧
      s'.heap = rootHeap s.heap (m.malloc s.mallocs) (hashName e.fileName) (!e.isDir)
        e.dca.toNat := by
  have hclosed : ∀ (k : Nat) (root : Nat) (u : FS),
      slotLoop (indexHandler m (fuel + 1)) ca k (closeSlots es) root u
        = some (false, closeSlots es, root, u) := by
    intro k root u
    cases es with
    | nil => rfl
    | cons d es =>
      rw [closeSlots, slotLoop, if_pos (DirEntry.first_setFirst d ENTRY_END)]
  have hone : slotLoop (indexHandler m (fuel + 1)) ca 0 (v.slots m ca) NO_ECACHE s
      = some (false, cleanSlots (v.slots m ca), m.malloc s.mallocs, { s with
        mallocs := s.mallocs + 1
        heap := rootHeap s.heap (m.malloc s.mallocs) (hashName e.fileName) (!e.isDir)
          e.dca.toNat }) := by
    have hclean : cleanSlots (closeSlots es) = closeSlots es := by
      cases es with
      | nil => rfl
      | cons d es =>
        rw [closeSlots, cleanSlots, if_pos (DirEntry.first_setFirst d ENTRY_END)]
    rw [hslots, slotLoop, if_neg hlast, indexHandler, validateEntry_eq, cleaned_of_valid hvalid]
    simp only [hvalid, decide_true, hfree, Bool.true_eq_false, or_self, if_false,
      ecacheInsert_empty hz, Option.map_some, hclosed, cleanSlots, if_neg hlast,
      cleaned_of_valid hvalid, hclean]
  -- the cluster goes back as it was
  have hlen : (cleanSlots (v.slots m ca)).length = entriesPerCluster m := by
    rw [length_cleanSlots]
    exact length_slotsIn _
  have hstate : Shows m { s with
      mallocs := s.mallocs + 1
      heap := rootHeap s.heap (m.malloc s.mallocs) (hashName e.fileName) (!e.isDir)
        e.dca.toNat } v := h.congr rfl rfl
  obtain ⟨s₁, he₁, hs₁, hk₁⟩ := writeSlots_shows L hstate hca hlen (h.length_raw hca)
  obtain ⟨s₂, he₂, hs₂, hk₂⟩ := readFat_shows L hs₁ ca
  have hview := SameView.clean (hsound ca (List.mem_singleton_self ca)) (h.length_raw hca)
  refine ⟨s₂, _, ?_, hs₂, SameDir.of_view hview hsound, hk₂.contents.trans hk₁.contents,
    hk₂.heap.trans hk₁.heap⟩
  have hdec : slotsOf (entriesPerCluster m) (unpackMemory (v.raw ca) (decodedLen m))
      = v.slots m ca := rfl
  rw [entryIndex, entryIterate, readEncodedCluster_shows L h hca]
  simp only [hdec, hone, he₁, he₂, Vol.setSlots_fat, hend, ne_eq, not_true_eq_false, false_and,
    if_false, Option.map_some]

/-- Indexing the root directory that holds the file `A` makes the two lookups of `A` disagree:
the one through the index answers with the cluster `bad`. -/
theorem index_changes_lookup : ∃ s, Shows (smallMount 0) s (oneEntryVol (letterFile 0x41 3)) ∧
    getContentEcache 0 s = NO_ECACHE ∧
    ¬ Throughout (fun _ _ => True) (callState (smallMount 0)) (LookupAgrees (smallMount 0) 0)
      [.indexContent 0] s := by
  have L := smallMount_layout (Nat.zero_le 1)
  have he : Storable (letterFile 0x41 3) := createEntry_storable (by decide) (by decide)
  obtain ⟨s, hs, hk⟩ := oneEntryVol_stored (letterFile 0x41 3) rootTable
  have hdir := oneEntryVol_dirOf he
  have hin : InVol (smallMount 0) 2 := by decide
  refine ⟨s, hs, by rw [getContentEcache, hk.contents]; rfl, ?_⟩
  intro hrun
  have hz : (smallMount 0).malloc s.mallocs ≠ 0 := Nat.succ_ne_zero _
  obtain ⟨s', v', hindex, hs', hsame, hcont, hheap⟩ := entryIndex_one L hs hin rfl hdir.sound
    oneEntryVol_slots (he.stored_last 2) (he.valid 2) (he.stored_free 2) hz 1
  generalize hroot : (smallMount 0).malloc s.mallocs = z at hindex hheap hz
  have htable : s.contents = rootTable := hk.contents
  have htable' : s'.contents = rootTable := hcont.trans htable
  -- the call returns with the root of the index in the slot
  have hcall : callState (smallMount 0) (.indexContent 0) s 2
      = some (s'.setContent 0 { s'.contents 0 with indexRoot := z }) := by
    have hin0 : inTable 0 := by decide
    have hread : getContentType 0 s = .directory := by
      rw [getContentType, htable]
      rfl
    have hroot : (s.contents (0 : Int).toNat).indexRoot = NO_ECACHE := by
      rw [htable]
      rfl
    have hdata : (s.contents (0 : Int).toNat).dataCluster = 2 := by
      rw [htable]
      rfl
    rw [callState, runCall, nifat32IndexContent, hread, if_neg (by decide), indexContent,
      if_pos hin0]
    simp only [hroot, hdata, hindex, if_true, Option.map_some, intOfBool]
    rfl
  have hagree := (hrun.2 trivial 2 _ hcall).now
  generalize hafter : s'.setContent 0 { s'.contents 0 with indexRoot := z } = s'' at hagree
  have hs'' : Shows (smallMount 0) s'' v' := by
    rw [← hafter]
    exact setContent_shows hs'
  have hdata : getContentDataCa 0 s'' = 2 := by
    rw [← hafter, getContentDataCa, if_pos (by decide)]
    show (s'.contents 0).dataCluster = 2
    rw [htable']
    rfl
  have hcache : getContentEcache 0 s'' = z := by
    rw [← hafter]
    rfl
  have hheap'' : s''.heap z = rootHeap s.heap z (hashName (storedIn (letterFile 0x41 3) 2).fileName)
      (!(storedIn (letterFile 0x41 3) 2).isDir) (storedIn (letterFile 0x41 3) 2).dca.toNat z := by
    rw [← hafter]
    exact congrFun hheap z
  have hhash : (s''.heap z).hash = hashName (letterName 0x41) := by
    rw [hheap'', rootHeap_hash]
    rfl
  -- the plain lookup finds the entry in its cluster, the index has no cluster
  obtain ⟨bound, hplain⟩ := entrySearch_result L
    (hdir.chain.congr fun c _ => congrFun hsame.fat c) hs'' hsame.sound (letterName 0x41)
  obtain ⟨r', hr', hfound⟩ := hplain (bound + 1) (Nat.le_succ bound)
  have hfirst : v'.first (smallMount 0) [2] (Matches (letterName 0x41))
      = some (2, storedIn (letterFile 0x41 3) 2) := by
    have hmatch : Matches (letterName 0x41) (storedIn (letterFile 0x41 3) 2) = true :=
      matches_self (e := storedIn (letterFile 0x41 3) 2) he.hash
    rw [Vol.first, hsame.entries, oneEntryVol_entries he]
    exact List.find?_cons_of_pos hmatch
  have hindexed : entrySearch (smallMount 0) (bound + 1) (letterName 0x41) 2 z s''
      = some (some (createEntry (letterName 0x41) (Heap.isDir s''.heap z) (s''.heap z).ca 0),
        s'') := by
    have hfind : ecacheFind (hashName (letterName 0x41)) s''.heap (bound + 1) z = some z := by
      rw [ecacheFind, if_neg hz, hhash, if_neg (UInt32.lt_irrefl _),
        if_neg (UInt32.lt_irrefl _)]
    rw [entrySearch, if_neg hz, hfind]
    simp only [ne_eq, hz, not_false_eq_true, if_true]
  rw [LookupAgrees, hdata, hcache] at hagree
  have hsame' := hagree (bound + 1) (letterName 0x41) _ r' hindexed hr'
  rw [hfound, hfirst] at hsame'
  have hrca : UInt32.ofNat FAT_CLUSTER_BAD = UInt32.ofNat 2 := hsame'.2.2.2
  exact absurd hrca (by decide)

/-- The root directory of the small volume is empty when it is indexed, and a file is created in it
afterwards. -/
theorem indexed_lookup_agrees_small : ∃ s, Shows (smallMount 0) s smallVol ∧
    Throughout (IndexesNothing (smallMount 0) 0) (callState (smallMount 0))
      (LookupAgrees (smallMount 0) 0)
      [.indexContent 0, .openContent 0 (some [0x41]) (CR_MODE ||| FILE_TARGET <<< 4)] s := by
  obtain ⟨s, hs, hk⟩ := smallVol_stored rootTable
  have hopen : getContentEcache 0 s = NO_ECACHE := by
    rw [getContentEcache, hk.contents]
    rfl
  exact ⟨s, hs, indexed_lookup_agrees hopen _⟩

end NiFat32
