import Mathlib.Data.List.Find
import NiFat32.Proofs.Parametric
import NiFat32.Proofs.TreeStore
import NiFat32.Proofs.Truncate

/-!
# `Proofs.TreeCalls`: the calls of the library on the tree

Every call that the tree takes does on a mounted volume what it does on the tree
(`treeCall_simulates`), so whole runs follow the tree (`volume_follows_tree`).

The calls on files are those of the store of files, with the directories among its arrays. A
creation is a search, an entry in the room of its directory, and a new chain. A deletion goes
through the cluster in which the handle found its entry.
-/

set_option autoImplicit false

namespace NiFat32

open Chain Run

variable {m : Mount} {s s' : FS} {v v' : Vol} {ca : Nat} {cs : List Nat} {a : TreeStore}

/-! ### Handles -/

/-- What a slot of the content table is as a handle. -/
def Content.handle (c : Content) : FileHandle where
  start := c.dataCluster
  readable := isReadMode c.mode
  writable := isWriteMode c.mode
  file := c.contentType ≠ .directory

theorem inTable_natCast {i : Nat} (h : i < CONTENT_TABLE_SIZE) : inTable (i : Int) := by
  unfold inTable
  omega

theorem toNat_lt_of_inTable {ci : Int} (h : inTable ci) :
    ci.toNat < CONTENT_TABLE_SIZE ∧ ci = (ci.toNat : Int) := by
  unfold inTable at h
  omega

theorem fileHandle_slot (s : FS) {i : Nat} (hi : i < CONTENT_TABLE_SIZE) :
    fileHandle s (i : Int) = (s.contents i).handle := by
  unfold fileHandle getContentDataCa getContentMode getContentType Content.handle
  simp only [if_pos (inTable_natCast hi), Int.toNat_natCast]

theorem fileHandle_of_inTable (s : FS) {ci : Int} (h : inTable ci) :
    fileHandle s ci = (s.contents ci.toNat).handle := by
  obtain ⟨hlt, heq⟩ := toNat_lt_of_inTable h
  conv_lhs => rw [heq]
  exact fileHandle_slot s hlt

/-- A new slot is a new handle, and the others stay. -/
theorem fileHandle_setContent (s : FS) {i : Nat} (hi : i < CONTENT_TABLE_SIZE) (c : Content) :
    fileHandle (s.setContent i c) = Function.update (fileHandle s) (i : Int) c.handle := by
  funext ci
  by_cases hci : ci = (i : Int)
  · subst hci
    rw [Function.update_self, fileHandle_slot _ hi]
    unfold FS.setContent
    simp only [if_true]
  · rw [Function.update_of_ne hci]
    unfold fileHandle getContentDataCa getContentMode getContentType
    by_cases hin : inTable ci
    · have hne : ci.toNat ≠ i := by
        have hpos := hin.1
        omega
      simp only [if_pos hin, FS.setContent, if_neg hne]
    · simp only [if_neg hin]

theorem setContent_contents_ne {i k : Nat} (c : Content) (hne : k ≠ i) :
    (s.setContent i c).contents k = s.contents k := if_neg hne

theorem setContent_contents_self (s : FS) (i : Nat) (c : Content) :
    (s.setContent i c).contents i = c := if_pos rfl

theorem SlotsOf.setContent {used : Nat → Bool} (h : SlotsOf s used) {i : Nat} {c : Content}
    (hplain : c.indexRoot = NO_ECACHE) :
    SlotsOf (s.setContent i c)
      (Function.update used i (decide (c.contentType ≠ ContentType.empty))) where
  used k hk := by
    unfold FS.setContent
    by_cases hki : k = i
    · subst hki
      simp only [Function.update_self, if_true]
    · simp only [Function.update_of_ne hki, if_neg hki]
      exact h.used k hk
  plain k hk := by
    unfold FS.setContent
    by_cases hki : k = i
    · subst hki
      simp only [if_true]
      exact hplain
    · simp only [if_neg hki]
      exact h.plain k hk

theorem SlotsOf.congr {used : Nat → Bool} (h : SlotsOf s used) (hc : s'.contents = s.contents) :
    SlotsOf s' used where
  used k hk := by
    rw [hc]
    exact h.used k hk
  plain k hk := by
    rw [hc]
    exact h.plain k hk

/-- No handle has an index. -/
theorem SlotsOf.ecache {used : Nat → Bool} (h : SlotsOf s used) (ci : Int) :
    getContentEcache ci s = NO_ECACHE := by
  unfold getContentEcache
  split
  · next hin => exact h.plain _ (toNat_lt_of_inTable hin).1
  · rfl

/-- The search of `alloc_ci` for a slot. -/
theorem emptySlot_find (s : FS) (left i : Nat) : emptySlot s left i =
    (List.range' i left).find? fun k => decide ((s.contents k).contentType = .empty) := by
  induction left generalizing i with
  | zero => rfl
  | succ left ih =>
    rw [emptySlot, ih, List.range'_succ, List.find?_cons]
    by_cases h : (s.contents i).contentType = .empty
    · rw [if_pos h, decide_eq_true h]
    · rw [if_neg h, decide_eq_false h]

theorem HoldsOn.freeSlot_eq (h : HoldsOn m v s a) :
    emptySlot s CONTENT_TABLE_SIZE 0 = a.freeSlot := by
  rw [emptySlot_find, TreeStore.freeSlot, ← List.range_eq_range']
  refine List.find?_congr fun k hk => ?_
  rw [h.slots.used k (List.mem_range.mp hk)]
  simp

/-- The slot that is found lies in the table, is not in use and has no home. -/
theorem HoldsOn.freeSlot_spec (h : HoldsOn m v s a) {i : Nat} (hi : a.freeSlot = some i) :
    i < CONTENT_TABLE_SIZE ∧ a.used i = false ∧ (s.contents i).contentType = .empty ∧
      a.homes (i : Int) = none := by
  have hmem := List.mem_range.mp (List.mem_of_find?_eq_some hi)
  have hfree := List.find?_some hi
  have hused : a.used i = false := by simpa using hfree
  have hslot := h.slots.used i hmem
  rw [hused] at hslot
  refine ⟨hmem, hused, by simpa using hslot.symm, ?_⟩
  -- a home would be that of a slot in use
  cases hhome : a.homes (i : Int) with
  | none => rfl
  | some home =>
    obtain ⟨-, hyes, -⟩ := h.homes i home.1 home.2 hhome
    rw [Int.toNat_natCast, hused] at hyes
    cases hyes

/-- The homes of the other handles stay when a slot changes. -/
theorem HasHomes.slot {b : TreeStore} (h : HasHomes m v s a) {i : Nat}
    (hcontents : ∀ k, k ≠ i → s'.contents k = s.contents k) (hdirs : b.dirs = a.dirs)
    (hused : ∀ k, k ≠ i → b.used k = a.used k)
    (hhomes : ∀ ci, ci ≠ (i : Int) → b.homes ci = a.homes ci)
    (hself : ∀ ca name, b.homes (i : Int) = some (ca, name) → i < CONTENT_TABLE_SIZE ∧
      b.used i = true ∧ (a.dirs ca).isSome ∧ (s'.contents i).At m v ca name) :
    HasHomes m v s' b := by
  intro ci ca name hhome
  rw [hdirs]
  by_cases hci : ci = (i : Int)
  · subst hci
    obtain ⟨hi, hyes, hd, hat⟩ := hself ca name hhome
    rw [Int.toNat_natCast]
    exact ⟨inTable_natCast hi, hyes, hd, hat⟩
  · rw [hhomes ci hci] at hhome
    obtain ⟨hin, hyes, hd, hat⟩ := h ci ca name hhome
    have hne : ci.toNat ≠ i := fun heq => hci (heq ▸ (toNat_lt_of_inTable hin).2)
    rw [hused _ hne, hcontents _ hne]
    exact ⟨hin, hyes, hd, hat⟩

/-- The slot that an open takes. -/
def takenSlot (s : FS) (i : Nat) : Content :=
  { s.contents i with
    contentType := .unknown, parentCluster := FAT_CLUSTER_BAD, indexRoot := NO_ECACHE }

/-- The slot of a handle on the entry. -/
def openedSlot (c : Content) (isDir : Bool) (name83 : List UInt8) (e : DirEntry) (mode : UInt8) :
    Content :=
  let c : Content :=
    if isDir then { c with contentType := .directory, directoryName := strncpy name83 11 }
    else { c with
      contentType := .file
      fileName := strncpy (unpack83Name name83).1 8
      fileExtension := strncpy (unpack83Name name83).2 3 }
  { c with entry := e, parentCluster := e.rca.toNat, dataCluster := e.dca.toNat, mode := mode }

theorem setupContent_eq {i : Nat} (hi : i < CONTENT_TABLE_SIZE) (isDir : Bool)
    (name83 : List UInt8) (e : DirEntry) (mode : UInt8) (s : FS) :
    setupContent i isDir name83 e mode s
      = s.setContent i (openedSlot (s.contents i) isDir name83 e mode) := by
  unfold setupContent openedSlot
  rw [if_pos (inTable_natCast hi), Int.toNat_natCast]

theorem openedSlot_handle (c : Content) (isDir : Bool) (name83 : List UInt8) (e : DirEntry)
    (mode : UInt8) : (openedSlot c isDir name83 e mode).handle
      = ⟨e.dca.toNat, isReadMode mode, isWriteMode mode, !isDir⟩ ∧
    (openedSlot c isDir name83 e mode).indexRoot = c.indexRoot ∧
    (openedSlot c isDir name83 e mode).contentType ≠ .empty := by
  unfold openedSlot Content.handle
  cases isDir <;> simp

/-- The handle on an entry that was found has it. -/
theorem FoundAt.at_ (L : Layout m) {dirs : Directories} {e : DirEntry} {ca : Nat} {name : Name}
    (h : FoundAt m v dirs (some (ca, name)) e) (c : Content) (name83 : List UInt8) (mode : UInt8) :
    (dirs ca).isSome ∧ (openedSlot c e.isDir name83 e mode).At m v ca name := by
  obtain ⟨ca', cs, x, hhome, hd, hc, hx, rfl⟩ := h
  obtain ⟨rfl, rfl⟩ := Prod.mk.inj (Option.some.inj hhome)
  have hrca : (UInt32.ofNat x.1).toNat = x.1 :=
    L.toNat_dca (hc.inVol x.1 (Vol.mem_entries.mp hx).1)
  refine ⟨hd, cs, x, hc, hx, rfl, ?_⟩
  unfold openedSlot foundAs
  by_cases hdir : x.2.isDir = true
  · have hdir' : DirEntry.isDir { x.2 with rca := UInt32.ofNat x.1 } = true := hdir
    rw [if_pos hdir, if_pos hdir']
    exact ⟨rfl, hrca, rfl, rfl⟩
  · have hdir' : ¬ DirEntry.isDir { x.2 with rca := UInt32.ofNat x.1 } = true := hdir
    rw [if_neg hdir, if_neg hdir']
    exact ⟨rfl, hrca, rfl, rfl⟩

/-- The tree with the slot of an open taken, whatever it is going to be. -/
theorem HoldsOn.opened (h : HoldsOn m v s a) {i : Nat} (hi : a.freeSlot = some i)
    (node : TreeNode) {mode : UInt8} {e : DirEntry} (hstart : e.dca.toNat = node.start)
    (name83 : List UInt8) (hcontents : s'.contents = (s.setContent i (takenSlot s i)).contents)
    (hs : Shows m s' v') (htree : v'.HasTree m a) (hkept : DirsKept m v v' a.dirs)
    {home : Option (Nat × Name)} (hhome : ∀ ca name, home = some (ca, name) →
      (a.dirs ca).isSome ∧
      (openedSlot (s'.contents i) node.isDir name83 e mode).At m v' ca name) :
    HoldsOn m v' (setupContent i node.isDir name83 e mode s') (a.openAt i node home mode) := by
  obtain ⟨hlt, -, -, -⟩ := h.freeSlot_spec hi
  have hslot : s'.contents i = takenSlot s i := by
    rw [hcontents]
    exact if_pos rfl
  obtain ⟨hhandle, hindex, htype⟩ := openedSlot_handle (s'.contents i) node.isDir name83 e mode
  have htaken : SlotsOf s' _ := (h.slots.setContent (i := i) (c := takenSlot s i) rfl).congr
    hcontents
  have hother : ∀ k, k ≠ i → s'.contents k = s.contents k := fun k hk => by
    rw [hcontents]
    exact setContent_contents_ne _ hk
  rw [setupContent_eq hlt]
  refine ⟨setContent_shows hs, ?_, ?_, htree.handles rfl rfl rfl, ?_⟩
  · rw [fileHandle_setContent _ hlt, hhandle, hstart, fileHandle_congr hcontents,
      fileHandle_setContent _ hlt, Function.update_idem, ← h.handles]
    rfl
  · have hplain : (openedSlot (s'.contents i) node.isDir name83 e mode).indexRoot = NO_ECACHE := by
      rw [hindex, hslot]
      rfl
    have hopened := htaken.setContent (i := i) hplain
    rw [Function.update_idem, decide_eq_true htype] at hopened
    exact hopened
  · -- the new handle has its home, and the others keep theirs
    refine (hkept.homes h.homes rfl).slot (i := i) (fun k hk => ?_) rfl
      (fun k hk => Function.update_of_ne hk _ _) (fun ci hci => Function.update_of_ne hci _ _)
      fun ca name hyes => ?_
    · rw [setContent_contents_ne _ hk]
      exact hother k hk
    · rw [setContent_contents_self]
      have hself : (a.openAt i node home mode).homes (i : Int) = home := Function.update_self ..
      obtain ⟨hd, hat⟩ := hhome ca name (hself.symm.trans hyes)
      exact ⟨hlt, Function.update_self .., hd, hat⟩

/-- The tree when a slot was taken and given back. -/
theorem HoldsOn.released (h : HoldsOn m v s a) {i : Nat} (hi : a.freeSlot = some i)
    (hcontents : s'.contents = (s.setContent i (takenSlot s i)).contents) (hs : Shows m s' v')
    (htree : v'.HasTree m a) (hkept : DirsKept m v v' a.dirs) (fuel : Nat) :
    ∃ s'', destroyContent fuel i s' = some (true, s'') ∧ HoldsOn m v' s'' a := by
  obtain ⟨hlt, hunused, hempty, hnone⟩ := h.freeSlot_spec hi
  have hslot : s'.contents i = takenSlot s i := by
    rw [hcontents]
    exact if_pos rfl
  have htaken : SlotsOf s' _ := (h.slots.setContent (i := i) (c := takenSlot s i) rfl).congr
    hcontents
  refine ⟨s'.setContent i { takenSlot s i with
    contentType := .empty, indexRoot := NO_ECACHE }, ?_, setContent_shows hs, ?_, ?_, htree, ?_⟩
  · unfold destroyContent
    rw [Int.toNat_natCast, hslot, if_pos ⟨inTable_natCast hlt, fun hc => nomatch hc⟩]
    rfl
  · -- the handle is what it was before the slot was taken
    rw [fileHandle_setContent _ hlt, fileHandle_congr hcontents, fileHandle_setContent _ hlt,
      Function.update_idem, h.handles]
    have hsame : Content.handle { takenSlot s i with
        contentType := .empty, indexRoot := NO_ECACHE } = fileHandle s i := by
      rw [fileHandle_slot s hlt]
      unfold Content.handle
      rw [hempty]
      rfl
    rw [hsame, Function.update_eq_self]
  · have hback := htaken.setContent (i := i)
      (c := { takenSlot s i with contentType := .empty, indexRoot := NO_ECACHE }) rfl
    have hfalse : decide (ContentType.empty ≠ ContentType.empty) = a.used i := by
      rw [hunused]
      rfl
    rw [Function.update_idem] at hback
    simp only [hfalse, Function.update_eq_self] at hback
    exact hback
  · refine (hkept.homes h.homes rfl).slot (i := i) (fun k hk => ?_) rfl (fun _ _ => rfl)
      (fun _ _ => rfl) fun ca name hyes => ?_
    · rw [setContent_contents_ne _ hk, hcontents, setContent_contents_ne _ hk]
    · rw [hnone] at hyes
      cases hyes

/-- The state behind `alloc_ci` sees the same start of a lookup. -/
theorem HoldsOn.lookupFrom_eq (h : HoldsOn m v s a) {i : Nat} (hi : i < CONTENT_TABLE_SIZE)
    (rci : Int) : (if rci = NO_RCI then m.fi.extRootCluster
      else getContentDataCa rci (s.setContent i (takenSlot s i)))
      = a.lookupFrom m.fi.extRootCluster rci := by
  unfold TreeStore.lookupFrom FileStore.start
  split
  · rfl
  · rw [h.handles]
    show (fileHandle (s.setContent i (takenSlot s i)) rci).start = _
    rw [fileHandle_setContent _ hi]
    by_cases hrci : rci = (i : Int)
    · subst hrci
      rw [Function.update_self, fileHandle_slot s hi]
      rfl
    · rw [Function.update_of_ne hrci]

/-- The slot of a handle is given back. -/
theorem HoldsOn.closed (h : HoldsOn m v s a) {ci : Int} (hin : inTable ci) :
    HoldsOn m v (s.setContent ci.toNat
      { s.contents ci.toNat with contentType := .empty, indexRoot := NO_ECACHE })
      (a.closeAt ci) := by
  obtain ⟨hlt, hci⟩ := toNat_lt_of_inTable hin
  refine ⟨setContent_shows h.shows_, ?_, ?_, h.tree.handles rfl rfl rfl, ?_⟩
  · show Function.update a.handles ci _ = fileHandle (s.setContent ci.toNat _)
    rw [fileHandle_setContent _ hlt, h.handles, ← hci, fileHandle_of_inTable s hin]
    rfl
  · exact h.slots.setContent (i := ci.toNat)
      (c := { s.contents ci.toNat with contentType := .empty, indexRoot := NO_ECACHE }) rfl
  · refine h.homes.slot (i := ci.toNat) (fun k hk => setContent_contents_ne _ hk) rfl
      (fun k hk => Function.update_of_ne hk _ _) (fun cj hcj => ?_) fun ca name hyes => ?_
    · rw [← hci] at hcj
      exact Function.update_of_ne hcj _ _
    · rw [← hci] at hyes
      have hnone : (a.closeAt ci).homes ci = none := Function.update_self ..
      rw [hnone] at hyes
      cases hyes

/-! ### The calls -/

/-- A call on the tree, with its answer. -/
def callTree (m : Mount) : TreeCall → FS → (fuel : Nat) → Option (TreeAnswer × FS)
  | .file c, s, fuel => (callFile m c s fuel).map fun r => (.file r.1, r.2)
  | .openPath rci path mode, s, fuel =>
    (openContent m fuel rci path mode s).map fun r => (.handle r.1, r.2)
  | .close ci, s, fuel => (closeContent fuel ci s).map fun r => (.done r.1, r.2)
  | .exist path, s, fuel => (contentExists m fuel path s).map fun r => (.done r.1, r.2)
  | .create ci info reserve, s, fuel =>
    (putContent m fuel ci info reserve s).map fun r => (.made r.1 (allocFailed s r.2), r.2)
  | .delete ci, s, fuel => (deleteContent m fuel ci s).map fun r => (.done r.1, r.2)

/-- What a call did: it answered as the tree does, and left a state that holds the tree behind the
call. -/
def TreeDone (m : Mount) (a : TreeStore) (c : TreeCall) (r : TreeAnswer × FS) : Prop :=
  ∃ a', a.Answers m.fi.clusterSize m.fi.extRootCluster c r.1 a' ∧ HoldsTree m r.2 a'

/-- A call on files changes no directory. -/
theorem TreeStore.Takes.not_changes {b : FileStore} {c : FileCall} {k : Nat}
    (hpre : a.toFileStore.Takes c) (hhandles : b.handles = a.handles) (hk : a.files k = none) :
    ¬ b.Changes c k := by
  have hstart : ∀ ci, b.start ci = a.toFileStore.start ci := fun ci => by
    unfold FileStore.start
    rw [hhandles]
  have hnot : ∀ ci, (a.toFileStore.file ci).isSome → b.start ci ≠ k := by
    intro ci hsome heq
    unfold FileStore.file at hsome
    rw [← hstart, heq, hk] at hsome
    cases hsome
  cases c with
  | read ci offset size => exact fun hc => hc
  | write ci offset data => exact fun hc => hnot ci (hpre (hhandles ▸ hc.1)) hc.2
  | copy src dst => exact fun hc => hnot dst hpre.2.2.1 hc

/-- The calls on files, among the directories. -/
theorem file_call_done (L : Layout m) (h : HoldsOn m v s a) {c : FileCall}
    (hpre : a.toFileStore.Takes c) : Ensures (callTree m (.file c) s) (TreeDone m a (.file c)) := by
  obtain ⟨D, hfiles, hdirless, hdirs⟩ := h.tree.stored
  -- the store with the bytes of the directories as further files
  have hext : a.toFileStore.Extends ⟨a.handles, fun ca => (a.files ca).or (D ca)⟩ := by
    refine ⟨rfl, fun ca hca => ?_⟩
    obtain ⟨xs, hxs⟩ := Option.isSome_iff_exists.mp hca
    simp only [hxs, Option.some_or, Option.isSome_some]
  apply Ensures.map
  refine (fileCall_done (a := ⟨a.handles, fun ca => (a.files ca).or (D ca)⟩) L c h.handles
    h.shows_ hfiles (hext.takes hpre)).imp fun r hr => ?_
  obtain ⟨hcontents, b, v', hans, hs', hf', hframe⟩ := hr
  obtain ⟨b', hans', hhandles, hfiles', hdom⟩ := FileStore.Answers.restrict
    (a := a.toFileStore) (b := ⟨a.handles, fun ca => (a.files ca).or (D ca)⟩) rfl rfl hpre hans
  rw [hfiles'] at hf'
  have hnone : ∀ ca, (a.dirs ca).isSome → b'.files ca = none := by
    intro ca hca
    have hsome := hdom ca
    rw [h.tree.apart ca hca] at hsome
    exact Option.not_isSome_iff_eq_none.mp (by rw [hsome]; exact Bool.false_ne_true)
  -- the directories have the same clusters with the same bytes
  have hsame : ∀ ca ds, (a.dirs ca).isSome → HasChain m v ca ds →
      HasChain m v' ca ds ∧ ∀ d ∈ ds, v'.raw d = v.raw d := by
    intro ca ds hca hds
    obtain ⟨names, hnames⟩ := Option.isSome_iff_exists.mp hca
    obtain ⟨cs, hD, -⟩ := hdirs ca names hnames
    have hknown : ((a.files ca).or (D ca)).isSome := by
      rw [h.tree.apart ca hca, hD]
      rfl
    obtain ⟨hds', hbytes⟩ := hframe ca ds
      (TreeStore.Takes.not_changes hpre rfl (h.tree.apart ca hca)) hknown hds
    exact ⟨hds', List.map_inj_left.mp
      (raws_of_bytesOf h.shows_ hs' hds.inVol hds.inVol L.clusterSize_pos hbytes)⟩
  have hkept : DirsKept m v v' a.dirs := fun ca ds hca hds =>
    ⟨(hsame ca ds hca hds).1, fun d hd =>
      congrArg NiFat32.scan (Vol.slots_congr ((hsame ca ds hca hds).2 d hd))⟩
  refine ⟨{ a with toFileStore := b' }, ⟨r.1, b', rfl, hans', rfl⟩, v', hs', ?_,
    h.slots.congr hcontents, ⟨⟨D, hf', hdirless, fun ca names hca => ?_⟩, hnone⟩,
    hkept.homes h.homes hcontents⟩
  · exact hhandles.symm.trans (hans.elsewhere.1.trans
      (h.handles.trans (fileHandle_congr hcontents).symm))
  · have hsome : (a.dirs ca).isSome := Option.isSome_iff_exists.mpr ⟨names, hca⟩
    obtain ⟨cs, hD, hmap⟩ := hdirs ca names hca
    obtain ⟨hc', hraw⟩ := hsame ca cs hsome hmap.chain
    refine ⟨cs, hD.trans (congrArg some (Vol.bytesOf_congr hraw).symm), ?_⟩
    exact hmap.congr hc' (hmap.sound.congr hraw) (hkept ca cs hsome hmap.chain).2

/-- Whether a path is there. -/
theorem exist_done (L : Layout m) (h : HoldsOn m v s a) {path : List UInt8}
    (hroute : Routed a.dirs (pathComponents path) m.fi.extRootCluster) :
    Ensures (callTree m (.exist path) s) (TreeDone m a (.exist path)) := by
  refine ⟨m.fi.totalClusters, fun fuel hfuel => ?_⟩
  obtain ⟨found, s', v', hrun, hs', htree, hkept, hk, hnode, hat⟩ := h.tree.lookup L
    (by decide : isCreateMode (R_MODE ||| W_MODE) = false) hfuel
    (show getContentEcache NO_RCI s = NO_ECACHE from rfl) h.shows_ hroute
  have hget : getClusterByPath m fuel path (R_MODE ||| W_MODE) NO_RCI s = some (found, s') := hrun
  have hexists : contentExists m fuel path s
      = some (found.any fun e => e.dca.toNat ≠ FAT_CLUSTER_BAD, s') := by
    unfold contentExists
    rw [hget]
    rfl
  refine ⟨_, congrArg (Option.map _) hexists, a, ⟨congrArg TreeAnswer.done ?_, rfl⟩, v',
    h.kept hs' hk.contents hkept htree⟩
  rw [← hnode, Option.isSome_map]
  cases found with
  | none => rfl
  | some e => exact decide_eq_true ((hat e rfl).start_ne htree L)

/-- An open, without creation. -/
theorem open_done (L : Layout m) (h : HoldsOn m v s a) {rci : Int} {path : Option (List UInt8)}
    {mode : UInt8} (hpre : a.Takes m.fi.extRootCluster (.openPath rci path mode)) :
    Ensures (callTree m (.openPath rci path mode) s) (TreeDone m a (.openPath rci path mode)) := by
  obtain ⟨hmode, hroot, hroute⟩ := hpre
  have hslot := h.freeSlot_eq
  refine ⟨m.fi.totalClusters, fun fuel hfuel => ?_⟩
  cases hfree : a.freeSlot with
  | none =>
    rw [hfree] at hslot
    have hfull : openContent m fuel rci path mode s
        = some (-1, NiFat32.registerError m .ctableFullError s) := by
      unfold openContent allocCi
      rw [hslot]
      rfl
    obtain ⟨hs', hk⟩ := registerError_shows L h.shows_ .ctableFullError
    refine ⟨_, congrArg (Option.map _) hfull, a, TreeStore.answers_open ?_, v,
      h.kept hs' hk.contents (.refl m v a.dirs) h.tree⟩
    unfold TreeStore.opened
    rw [hfree]
  | some i =>
    rw [hfree] at hslot
    obtain ⟨hlt, -⟩ := h.freeSlot_spec hfree
    have halloc : allocCi s = ((i : Int), s.setContent i (takenSlot s i)) := by
      unfold allocCi
      rw [hslot]
      rfl
    have hci : ¬ (i : Int) < 0 := by omega
    have htaken : Shows m (s.setContent i (takenSlot s i)) v := setContent_shows h.shows_
    cases path with
    | none =>
      have hrun : openContent m fuel rci none mode s = some ((i : Int),
          setupContent i true rootName (rootEntry m) mode (s.setContent i (takenSlot s i))) := by
        unfold openContent
        rw [halloc]
        simp only
        rw [if_neg hci]
      have hopen : a.opened m.fi.extRootCluster rci none mode
          = ((i : Int), a.openAt i ⟨m.fi.extRootCluster, true⟩ none mode) := by
        unfold TreeStore.opened TreeStore.target
        rw [hfree]
      -- the root is a cluster of the volume, so its number fits
      obtain ⟨names, hd⟩ := Option.isSome_iff_exists.mp (hroot rfl)
      obtain ⟨cs, hmap⟩ := h.tree.dir hd
      exact ⟨_, congrArg (Option.map _) hrun, _, TreeStore.answers_open hopen, v,
        h.opened hfree ⟨m.fi.extRootCluster, true⟩ (L.toNat_dca hmap.chain.head) rootName rfl
          htaken h.tree (.refl m v a.dirs) fun _ _ hno => nomatch hno⟩
    | some p =>
      have hcache := (h.slots.setContent (i := i) (c := takenSlot s i) rfl).ecache rci
      obtain ⟨found, s', v', hloop, hs', htree, hkept, hk, hnode, hat⟩ := h.tree.lookup L hmode
        hfuel hcache htaken (hroute p rfl)
      have hget : getClusterByPath m fuel p mode rci (s.setContent i (takenSlot s i))
          = some (found, s') := by
        unfold getClusterByPath
        rw [h.lookupFrom_eq hlt]
        exact hloop
      cases found with
      | some e =>
        have hnode' : resolve a.dirs (pathComponents p) (a.lookupFrom m.fi.extRootCluster rci)
            = some ⟨e.dca.toNat, e.isDir⟩ := hnode.symm
        have hat := hat e rfl
        have hrun : openContent m fuel rci (some p) mode s = some ((i : Int),
            setupContent i e.isDir e.fileName.toList e mode s') := by
          unfold openContent
          rw [halloc]
          simp only
          rw [if_neg hci, hget]
          simp only [Option.filter, decide_eq_true (hat.start_ne htree L), if_true]
        have hopen : a.opened m.fi.extRootCluster rci (some p) mode
            = ((i : Int), a.openAt i ⟨e.dca.toNat, e.isDir⟩
              (homeOf a.dirs (pathComponents p) (a.lookupFrom m.fi.extRootCluster rci)) mode) := by
          unfold TreeStore.opened TreeStore.target
          simp only [hfree, hnode', Option.map_some]
        refine ⟨_, congrArg (Option.map _) hrun, _, TreeStore.answers_open hopen, v',
          h.opened hfree ⟨e.dca.toNat, e.isDir⟩ rfl _ hk.contents hs' htree hkept
            fun ca name hhome => ?_⟩
        rw [hhome] at hat
        exact hat.at_ L _ _ _
      | none =>
        have hnode' : resolve a.dirs (pathComponents p) (a.lookupFrom m.fi.extRootCluster rci)
            = none := hnode.symm
        obtain ⟨hs₂, hk₂⟩ := registerError_shows L hs' .entryPathNfoundError
        obtain ⟨s'', hdestroy, hheld⟩ := h.released hfree (hk₂.contents.trans hk.contents) hs₂
          htree hkept fuel
        have hrun : openContent m fuel rci (some p) mode s = some (-2, s'') := by
          unfold openContent
          rw [halloc]
          simp only
          rw [if_neg hci, hget]
          simp only [Option.filter, hdestroy]
          rfl
        have hopen : a.opened m.fi.extRootCluster rci (some p) mode = (-2, a) := by
          unfold TreeStore.opened TreeStore.target
          simp only [hfree, hnode', Option.map_none]
        exact ⟨_, congrArg (Option.map _) hrun, a, TreeStore.answers_open hopen, v', hheld⟩

/-- The slot of a handle in use is given back, with whatever fuel. -/
theorem HoldsOn.destroyed (h : HoldsOn m v s a) {ci : Int} (hin : inTable ci)
    (hused : a.used ci.toNat = true) (fuel : Nat) :
    destroyContent fuel ci s = some (true, s.setContent ci.toNat
      { s.contents ci.toNat with contentType := .empty, indexRoot := NO_ECACHE }) := by
  obtain ⟨hlt, -⟩ := toNat_lt_of_inTable hin
  have hne : (s.contents ci.toNat).contentType ≠ .empty := by
    rw [h.slots.used ci.toNat hlt] at hused
    exact of_decide_eq_true hused
  unfold destroyContent
  rw [if_pos ⟨hin, hne⟩]
  simp only [h.slots.plain ci.toNat hlt, if_true]

/-- A close. -/
theorem close_done (h : HoldsOn m v s a) (ci : Int) :
    Ensures (callTree m (.close ci) s) (TreeDone m a (.close ci)) := by
  refine ⟨0, fun fuel _ => ?_⟩
  by_cases hopen : inTable ci ∧ a.used ci.toNat = true
  · have hrun : closeContent fuel ci s = _ := h.destroyed hopen.1 hopen.2 fuel
    refine ⟨_, congrArg (Option.map _) hrun, a.closeAt ci, ?_, v, h.closed hopen.1⟩
    show if inTable ci ∧ a.used ci.toNat = true then _ else _
    rw [if_pos hopen]
    exact ⟨rfl, rfl⟩
  · have hno : ¬ (inTable ci ∧ (s.contents ci.toNat).contentType ≠ .empty) := by
      intro hyes
      refine hopen ⟨hyes.1, ?_⟩
      rw [h.slots.used _ (toNat_lt_of_inTable hyes.1).1]
      exact decide_eq_true hyes.2
    have hrun : closeContent fuel ci s = some (false, s) := by
      unfold closeContent destroyContent
      rw [if_neg hno]
    refine ⟨_, congrArg (Option.map _) hrun, a, ?_, v, h⟩
    show if inTable ci ∧ a.used ci.toNat = true then _ else _
    rw [if_neg hopen]
    exact ⟨rfl, rfl⟩

/-! ### Creating a content -/

/-- The content table is as in `s₀`, and the allocator was asked for the clusters `l`. -/
def Asked (s₀ : FS) (s : FS) : Prop :=
  s.contents = s₀.contents ∧ ∃ l, s.allocs = s₀.allocs ++ l

theorem asked_step (s₀ : FS) : StepInvariant m (Asked s₀) := by
  refine .of_statics (fun h hlogs => ?_) (fun h _ => h) (fun h _ => h) (fun h _ => h)
    (fun h _ => h) (fun h => h) fun h ca => ?_
  · exact ⟨hlogs.contents.trans h.1, by rw [hlogs.allocs]; exact h.2⟩
  · obtain ⟨hcontents, l, hl⟩ := h
    exact ⟨hcontents, l ++ [ca], by rw [hl, List.append_assoc]⟩

theorem Asked.reserveLoop {s₀ : FS} (h : Asked s₀ s) (n lca : Nat) :
    Asked s₀ (reserveLoop m n lca s) :=
  ((asked_step s₀).bisim.reserveLoop n ⟨rfl, h⟩ lca).2

/-- A loop that did not get all of its clusters was refused one. -/
theorem reserveLoop_refused (L : Layout m) (n : Nat) {last : Nat} (h : Shows m s v)
    (hlast : InVol m last) (hno : ¬ Extends m n last s) :
    ∃ l, (reserveLoop m n last s).allocs = s.allocs ++ l ∧ FAT_CLUSTER_BAD ∈ l := by
  induction n generalizing s v last with
  | zero => exact absurd trivial hno
  | succ n ih =>
    obtain ⟨k, s₁, he, hk, hcases⟩ := addClusterToChain_shows L h hlast
    have hpick : (allocNext m s).1 = k := by
      rw [addClusterToChain_alloc L h hlast, he]
    rw [NiFat32.reserveLoop, he]
    cases hcases with
    | inl hbad =>
      obtain ⟨rfl, -⟩ := hbad
      obtain ⟨-, l, hl⟩ := Asked.reserveLoop (m := m) ⟨rfl, [], (List.append_nil s₁.allocs).symm⟩ n
        FAT_CLUSTER_BAD
      refine ⟨FAT_CLUSTER_BAD :: l, ?_, List.mem_cons_self⟩
      rw [hl, hk.allocs, List.append_assoc]
      rfl
    | inr hok =>
      obtain ⟨hin, -, hs₁⟩ := hok
      have hno' : ¬ Extends m n k s₁ := fun hext => hno (by
        rw [Extends, hpick, he]
        exact ⟨L.ne_bad hin, hext⟩)
      obtain ⟨l, hl, hmem⟩ := ih hs₁ hin hno'
      refine ⟨k :: l, ?_, List.mem_cons_of_mem _ hmem⟩
      rw [hl, hk.allocs, List.append_assoc]
      rfl

/-- The allocator was refused a cluster on the way. -/
theorem allocFailed_of_append {l : List Nat} (h : s'.allocs = s.allocs ++ l) :
    allocFailed s s' = l.contains FAT_CLUSTER_BAD := by
  unfold allocFailed
  rw [h, List.drop_left]

section Put

variable {ci : Int} {info : CInfo} {reserve : Int} {fuel : Nat} {s₁ : FS}

/-- The call behind a search that finds nothing, in a directory with a slot to take: there is no
cluster for the content; or it got its first cluster and its entry, and the loop runs. -/
theorem putContent_slot (L : Layout m) (hfuel : cs.length + 1 ≤ fuel)
    (hcache : getContentEcache ci s = NO_ECACHE)
    (hsearch : entrySearch m fuel info.fullName (getContentDataCa ci s) NO_ECACHE s
      = some (none, s₁)) (h : Shows m s₁ v) (hc : HasChain m v (getContentDataCa ci s) cs)
    (hslot : v.addCluster m cs ≠ none) :
    (∃ s', putContent m fuel ci info reserve s = some (false, s') ∧ Shows m s' v ∧
      Keeps [FAT_CLUSTER_BAD] s₁ s') ∨
    ∃ n s₂ v₂ c cs' l, InVol m n ∧ v.fat n = FAT_CLUSTER_FREE ∧
      putContent m fuel ci info reserve s
        = some (true, reserveLoop m (reserve - NO_RESERVE).toNat n s₂) ∧ Shows m s₂ v₂ ∧
      Keeps l s₁ s₂ ∧
      Fills m (v.setFat n FAT_CLUSTER_END) cs (putEntry m info reserve n) c cs' v₂ := by
  unfold putContent
  simp only [hcache]
  cases picked L hc h with
  | inl hbad =>
    obtain ⟨s₂, s₃, he₂, he₃, hs₃, hk₃⟩ := hbad
    obtain ⟨hs₄, hk₄⟩ := registerError_shows L hs₃ .setClusterEndError
    simp only [hsearch, he₂, he₃]
    exact Or.inl ⟨_, rfl, hs₄, hk₃.trans_nil hk₄⟩
  | inr hok =>
    obtain ⟨n, s₂, s₃, he₂, he₃, hn, hfree, hs₃, hk₃, hchain, -⟩ := hok
    have hadd := @entryAdd_runs m s₃ (v.setFat n FAT_CLUSTER_END) (getContentDataCa ci s) cs
      (putEntry m info reserve n) fuel L hfuel hchain hs₃ NO_ECACHE
      fun hnone => absurd hnone hslot
    have hentry : createEntry info.fullName (info.type = STAT_DIR) n
        (reserve * m.fi.clusterSize % 2 ^ 32).toNat = putEntry m info reserve n := rfl
    obtain ⟨-, hstored⟩ := hadd.resolve_left fun hno => hslot (by
      obtain ⟨_, -, -, -, hfull, -⟩ := hno
      exact hfull)
    obtain ⟨c, s₄, v₄, cs', al, he₄, hs₄, hk₄, -, hf⟩ := hstored.resolve_left fun hno => hno.1 rfl
    have hpos : ¬ (1 : Int) < 0 := by decide
    have hdca : (storedIn (putEntry m info reserve n) c).dca.toNat = n := L.toNat_dca hn
    simp only [hsearch, he₂, he₃, hentry, he₄, if_neg hpos, hdca]
    exact Or.inr ⟨n, s₄, v₄, c, cs', _, hn, hfree, rfl, hs₄, hk₃.trans (hk₄ rfl), hf⟩

/-- The node of the entry that is put. -/
theorem putEntry_node (L : Layout m) {n : Nat} (hn : InVol m n) :
    (putEntry m info reserve n).node = ⟨n, info.type = STAT_DIR⟩ := by
  have hdca : (putEntry m info reserve n).dca.toNat = n := L.toNat_dca hn
  have hdir : (putEntry m info reserve n).isDir = decide (info.type = STAT_DIR) := by
    unfold DirEntry.isDir putEntry createEntry
    by_cases h : info.type = STAT_DIR
    · simp [h]
    · simp only [h]
      decide
  rw [DirEntry.node_eq, hdca, hdir]

/-- The entry of a new content was put where there is room, and the content got its clusters: the
tree has its name, and the file. -/
theorem Vol.HasTree.created (L : Layout m) (h : v.HasTree m a) (hs : Shows m s v)
    {names : Name → Option TreeNode} (hd : a.dirs ca = some names)
    (hplain : ∀ b ∈ info.fullName.toList, b ≠ 0) (hfind : info.fullName.Findable)
    (hnew : names info.fullName = none) (hroom : 0 < a.room ca)
    (hmap : v.NameMap m ca cs names (a.room ca)) {n c : Nat} {cs' : List Nat} {s₂ : FS} {v₂ : Vol}
    (hn : InVol m n) (hfree : v.fat n = FAT_CLUSTER_FREE) (hs₂ : Shows m s₂ v₂)
    (hf : Fills m (v.setFat n FAT_CLUSTER_END) cs (putEntry m info reserve n) c cs' v₂) (k : Nat) :
    ∃ v₃, Shows m (reserveLoop m k n s₂) v₃ ∧ ¬ a.Known n ∧
      HasChain m v₃ n (n :: extension m k n s₂) ∧
      v₃.HasTree m (a.created ca names info.fullName n (info.type = STAT_DIR)
        (v₃.bytesOf (n :: extension m k n s₂))) ∧
      ∀ ca' ds, (a.dirs ca').isSome → HasChain m v ca' ds →
        HasChain m v₃ ca' ds ∧ ∀ x ∈ v.entries m ds, x ∈ v₃.entries m ds := by
  have hsome : (a.dirs ca).isSome := Option.isSome_iff_exists.mpr ⟨names, hd⟩
  have hc := hmap.chain
  have hend : FAT_CLUSTER_END ≠ FAT_CLUSTER_FREE := by decide
  have hne : ∀ {j}, v.fat j ≠ FAT_CLUSTER_FREE → j ≠ n := fun hused heq => hused (heq ▸ hfree)
  have hmap₁ : (v.setFat n FAT_CLUSTER_END).NameMap m ca cs names (a.room ca) :=
    hmap.congr (hc.congr fun j hj => v.setFat_fat_ne _ (hne (hc.not_free L hj)))
      (fun c hm => hmap.sound c hm) fun _ _ => rfl
  have hdca : (putEntry m info reserve n).dca.toNat = n := L.toNat_dca hn
  have hlen : ∀ j, InVol m j → ((v.setFat n FAT_CLUSTER_END).raw j).length = m.fi.clusterSize :=
    fun j hj => hs.length_raw hj
  have hstorable : Storable (putEntry m info reserve n) :=
    createEntry_storable hfind.1 hfind.2
  have hstart : (putEntry m info reserve n).dca.toNat ≠ FAT_CLUSTER_BAD := by
    rw [hdca]
    exact L.ne_bad hn
  obtain ⟨hcs, hfat, hraw, hmap₂, hold⟩ := hmap₁.insert L hlen hroom hstorable hplain hstart hnew
    hf
  -- the content gets the rest of its clusters
  have hsingle : HasChain m v₂ n ([] ++ [n]) := .single hn (by
    rw [hfat, Vol.setFat_fat_self])
  obtain ⟨v₃, hs₃, hraw₃, hc₃, hfree₃, hother₃⟩ := reserveLoop_shows L k hs₂ hsingle
  have hfat₃ : ∀ j, v.fat j ≠ FAT_CLUSTER_FREE → v₃.fat j = v.fat j := by
    intro j hused
    have hsame : v₂.fat j = v.fat j := by
      rw [hfat, Vol.setFat_fat_ne _ _ (hne hused)]
    rw [hother₃ j (hne hused) (hsame ▸ hused), hsame]
  have hfrom : ∀ j ∈ n :: extension m k n s₂, v.fat j = FAT_CLUSTER_FREE := by
    intro j hj
    cases List.mem_cons.mp hj with
    | inl heq => exact heq ▸ hfree
    | inr hj =>
      by_contra hused
      have hj' := hfree₃ j hj
      rw [hfat, Vol.setFat_fat_ne _ _ (hne hused)] at hj'
      exact hused hj'
  have hchain₃ : ∀ {ca' ds}, HasChain m v ca' ds → HasChain m v₃ ca' ds := fun hds =>
    hds.congr fun j hj => hfat₃ j (hds.not_free L hj)
  have hkeep : ∀ j, j ∉ cs → v₃.raw j = v.raw j := fun j hj =>
    (congrFun hraw₃ j).trans (hraw j hj)
  have hmap₃ := hmap₂.congr (hchain₃ hc) (hmap₂.sound.congr fun j _ => congrFun hraw₃ j)
    fun j _ => congrArg NiFat32.scan (Vol.slots_congr (congrFun hraw₃ j))
  rw [putEntry_node L hn] at hmap₃
  have hren := h.renamed L hsome hc hmap₃ fun i ds _ hds hdis =>
    ⟨hchain₃ hds, fun d hm => hkeep d fun hm' => hdis hm' hm⟩
  have hunknown : ¬ a.Known n := fun hk => by
    obtain ⟨ds, hds⟩ := h.chain hk
    exact hds.not_free L (hds.head_mem L) hfree
  refine ⟨v₃, hs₃, hunknown, hc₃, ?_, fun ca' ds hd' hds => ⟨hchain₃ hds, fun x hx => ?_⟩⟩
  · by_cases hdir : info.type = STAT_DIR
    · -- the files are the same
      have hsame : a.created ca names info.fullName n (info.type = STAT_DIR)
          (v₃.bytesOf (n :: extension m k n s₂))
          = a.renamed ca (Function.update names info.fullName (some ⟨n, info.type = STAT_DIR⟩))
            (a.room ca - 1) := by
        unfold TreeStore.created
        rw [decide_eq_true hdir, if_pos rfl]
        rfl
      exact hsame ▸ hren
    · have hsame : a.created ca names info.fullName n (info.type = STAT_DIR)
          (v₃.bytesOf (n :: extension m k n s₂))
          = { a.renamed ca (Function.update names info.fullName (some ⟨n, info.type = STAT_DIR⟩))
              (a.room ca - 1) with
            files := Function.update a.files n (some (v₃.bytesOf (n :: extension m k n s₂))) } := by
        unfold TreeStore.created
        rw [decide_eq_false hdir]
        rfl
      rw [hsame]
      refine hren.added L (fun hk => hunknown (TreeStore.known_of_renamed hsome hk)) hc₃
        fun i ds hk hds j hj hj' => ?_
      -- the clusters of the others are not free
      obtain ⟨ds', hds'⟩ := h.chain (TreeStore.known_of_renamed hsome hk)
      rw [hds.unique (hchain₃ hds') L] at hj'
      exact hds'.not_free L hj' (hfrom j hj)
  · by_cases hca : ca' = ca
    · subst hca
      obtain rfl := hds.unique hc L
      rw [Vol.entries_congr fun c _ => congrArg NiFat32.live
        (Vol.slots_congr (congrFun hraw₃ c))]
      exact hold x hx
    · have hdis := h.disjoint (Ne.symm hca) (Or.inl hsome) (Or.inl hd') hc hds
      rw [Vol.entries_congr fun c hm => congrArg NiFat32.live
        (Vol.slots_congr (hkeep c fun hm' => hdis hm' hm))]
      exact hx

/-- A creation. -/
theorem put_done (L : Layout m) (h : HoldsOn m v s a)
    (hpre : a.Takes m.fi.extRootCluster (.create ci info reserve)) :
    Ensures (callTree m (.create ci info reserve) s) (TreeDone m a (.create ci info reserve)) := by
  obtain ⟨names, hd, hplain, hfind, hroom⟩ := hpre
  have hstart : getContentDataCa ci s = a.start ci := by
    unfold FileStore.start
    rw [h.handles]
    rfl
  have hcache := h.slots.ecache ci
  refine ⟨m.fi.totalClusters + 1, fun fuel hfuel => ?_⟩
  obtain ⟨found, s₁, v₁, hsearch, hs₁, htree, hkept, hk₁, hnode, -⟩ :=
    h.tree.search L h.shows_ hd (Nat.le_of_succ_le hfuel) info.fullName
  rw [← hstart] at hsearch
  cases found with
  | some e =>
    obtain ⟨hs₂, hk₂⟩ := registerError_shows L hs₁ .entrySearchError
    have hk := hk₁.nil_trans hk₂
    have hrun : putContent m fuel ci info reserve s
        = some (false, registerError m .entrySearchError s₁) := by
      unfold putContent
      simp only [hcache, hsearch]
    refine ⟨_, congrArg (Option.map _) hrun, a, ⟨names, hd, ?_⟩, v₁,
      h.kept hs₂ hk.contents hkept htree⟩
    rw [if_pos (by rw [← hnode]; rfl)]
    exact ⟨congrArg (TreeAnswer.made false) (allocFailed_of_keeps hk), rfl⟩
  | none =>
    have hnew : names info.fullName = none := hnode.symm
    obtain ⟨cs, hmap⟩ := htree.dir hd
    obtain ⟨ps, d, qs, -, -, hadd, -⟩ :=
      Vol.addCluster_of_room (Nat.lt_of_lt_of_le (hroom hnew) hmap.room)
    have hslot : v₁.addCluster m cs ≠ none := by
      rw [hadd]
      exact Option.some_ne_none d
    have hlen := hmap.chain.length_le L
    have hc := hmap.chain
    rw [← hstart] at hc
    have hno : ¬ (names info.fullName).isSome = true := by
      rw [hnew]
      exact Bool.false_ne_true
    have hfuel' : cs.length + 1 ≤ fuel := by omega
    cases putContent_slot L hfuel' hcache hsearch hs₁ hc hslot with
    | inl hrefused =>
      obtain ⟨s₂, hrun, hs₂, hk₂⟩ := hrefused
      have hk := hk₁.nil_trans hk₂
      refine ⟨_, congrArg (Option.map _) hrun, a, ⟨names, hd, ?_⟩, v₁,
        h.kept hs₂ hk.contents hkept htree⟩
      rw [if_neg hno]
      exact Or.inl ⟨congrArg (TreeAnswer.made false) (allocFailed_of_append hk.allocs), rfl⟩
    | inr hmade =>
      obtain ⟨n, s₂, v₂, c, cs', l, hn, hfree, hrun, hs₂, hk₂, hf⟩ := hmade
      obtain ⟨v₃, hs₃, hunknown, hchain, htree₃, hdirs₃⟩ := htree.created L hs₁ hd hplain hfind
        hnew (hroom hnew) hmap hn hfree hs₂ hf (reserve - NO_RESERVE).toNat
      generalize hloop : reserveLoop m (reserve - NO_RESERVE).toNat n s₂ = s₃ at hrun hs₃
      have hk := hk₁.nil_trans hk₂
      have hasked : Asked s s₃ := hloop ▸ Asked.reserveLoop ⟨hk.contents, l, hk.allocs⟩ _ n
      have hlength := hs₃.length_bytesOf hchain.inVol
      refine ⟨_, congrArg (Option.map _) hrun, _, ⟨names, hd, ?_⟩, v₃, hs₃, ?_, ?_, htree₃, ?_⟩
      · rw [if_neg hno]
        refine Or.inr ⟨n, _, allocFailed s s₃, rfl, ?_, ?_, ?_, ?_, fun hfull => ?_, rfl⟩
        · exact Option.not_isSome_iff_eq_none.mp fun hk => hunknown (Or.inr hk)
        · exact Option.not_isSome_iff_eq_none.mp fun hk => hunknown (Or.inl hk)
        · exact hlength ▸ Nat.dvd_mul_left _ _
        · rw [hlength, List.length_cons]
          exact Nat.le_mul_of_pos_left _ (Nat.succ_pos _)
        · -- no allocation failed, so the loop got all of its clusters
          rw [hlength, List.length_cons, Nat.add_comm, (length_extension m _ n s₂).mpr]
          by_contra hext
          obtain ⟨l', hl', hbad⟩ := reserveLoop_refused L _ hs₂ hn hext
          rw [hloop, hk.allocs, List.append_assoc] at hl'
          rw [allocFailed_of_append hl'] at hfull
          have hmem := List.contains_iff_mem.mpr (List.mem_append_right l hbad)
          rw [hfull] at hmem
          cases hmem
      · exact h.handles.trans (fileHandle_congr hasked.1).symm
      · exact h.slots.congr hasked.1
      · intro cj ca' name hhome
        obtain ⟨hin, hused, hd', hat⟩ := hkept.homes h.homes hasked.1 cj ca' name hhome
        refine ⟨hin, hused, a.renamed_isSome _ (a.room (a.start ci) - 1) hd',
          hat.mono fun ds hds => ?_⟩
        obtain ⟨hds', hmem⟩ := hdirs₃ ca' ds hd' hds
        exact ⟨hds', fun x hx _ => hmem x hx⟩

end Put

/-! ### Deleting a file -/

/-- The entry of a file was taken out and its clusters were given back: the tree has neither the
name nor the file. -/
theorem Vol.HasTree.deleted (L : Layout m) (h : v.HasTree m a) (hd : (a.dirs ca).isSome)
    (hc : HasChain m v ca cs) {n : Nat} {fs : List Nat} (hn : (a.files n).isSome)
    (hfs : HasChain m v n fs) (hfat : v'.fat = (v.freeAll fs).fat)
    (hraw : ∀ j, j ∉ cs → v'.raw j = v.raw j) {names : Name → Option TreeNode} {name : Name}
    (hmap : v'.NameMap m ca cs (Function.update names name none) 0) :
    v'.HasTree m (a.unlinked ca names name n) ∧ ∀ k ds, a.Known k → k ≠ n →
      HasChain m v k ds → HasChain m v' k ds := by
  have hchain : ∀ k ds, a.Known k → k ≠ n → HasChain m v k ds → HasChain m v' k ds := by
    intro k ds hk hne hds
    have hdis := h.disjoint hne hk (Or.inr hn) hds hfs
    refine hds.congr fun c hm => ?_
    rw [hfat]
    exact v.freeAll_fat_ne fun hm' => hdis hm hm'
  have hdir : a.dirs n = none := Option.not_isSome_iff_eq_none.mp fun hsome => by
    rw [h.apart n hsome] at hn
    cases hn
  -- the file itself is no longer known
  have hstill : ∀ k, TreeStore.Known { a with files := Function.update a.files n none } k →
      a.Known k ∧ k ≠ n := by
    intro k hk
    cases hk with
    | inl hk =>
      refine ⟨Or.inl hk, fun heq => ?_⟩
      have hsome : (a.dirs k).isSome := hk
      rw [heq, hdir] at hsome
      cases hsome
    | inr hk =>
      have hsome : (Function.update a.files n none k).isSome := hk
      have hne : k ≠ n := fun heq => by
        rw [heq, Function.update_self] at hsome
        cases hsome
      rw [Function.update_of_ne hne] at hsome
      exact ⟨Or.inr hsome, hne⟩
  refine ⟨?_, hchain⟩
  refine Vol.HasTree.handles ((h.dropped hdir).renamed L hd hc hmap fun k ds hk hds hdis => ?_)
    rfl rfl rfl
  obtain ⟨hk, hne⟩ := hstill k hk
  exact ⟨hchain k ds hk hne hds, fun c hm => hraw c fun hm' => hdis hm' hm⟩

/-- A deletion. -/
theorem delete_done (L : Layout m) (h : HoldsOn m v s a) {ci : Int}
    (hpre : a.Takes m.fi.extRootCluster (.delete ci)) :
    Ensures (callTree m (.delete ci) s) (TreeDone m a (.delete ci)) := by
  obtain ⟨hhome, hfile, hsome⟩ := hpre
  obtain ⟨⟨ca, name⟩, hhome⟩ := Option.isSome_iff_exists.mp hhome
  obtain ⟨hin, hused, hd, cs, x, hc, hx, hname, hentry, hparent, hdata, htype⟩ :=
    h.homes ci ca name hhome
  obtain ⟨names, hnames⟩ := Option.isSome_iff_exists.mp hd
  obtain ⟨cs', hmap⟩ := h.tree.dir hnames
  obtain rfl := hmap.chain.unique hc L
  have hhandle : a.handles ci = (s.contents ci.toNat).handle := by
    rw [h.handles, fileHandle_of_inTable s hin]
  -- the handle is on the file of the entry
  have hnodir : x.2.isDir = false := by
    rw [hhandle] at hfile
    have hne : (s.contents ci.toNat).contentType ≠ .directory := of_decide_eq_true hfile
    rw [htype] at hne
    by_contra hdir
    rw [if_pos (Bool.not_eq_false _ ▸ hdir)] at hne
    exact hne rfl
  have hstart : a.start ci = x.2.dca.toNat := by
    unfold FileStore.start
    rw [hhandle]
    exact hdata
  have hknown : (a.files x.2.dca.toNat).isSome := by
    rw [← hstart]
    exact hsome
  obtain ⟨fs, hfs⟩ := h.tree.chain (Or.inr hknown)
  have hne : ca ≠ x.2.dca.toNat := fun heq => by
    rw [← heq, h.tree.apart ca hd] at hknown
    cases hknown
  have hdis := h.tree.disjoint hne (Or.inl hd) (Or.inr hknown) hc hfs
  refine ⟨2 * m.fi.totalClusters + 2, fun fuel hfuel => ?_⟩
  obtain ⟨s', v', hremove, hs', hk, hfat, hraw, hmap', hold⟩ :=
    hmap.remove L h.shows_ hx hnodir hfs hdis hfuel
  rw [hname] at hremove hmap' hold
  have hrun₁ : removeContent m fuel ci s = some (true, s') := by
    unfold removeContent getContentName getContentRootCa
    rw [if_pos hin, if_pos hin, h.slots.ecache, hentry, hparent]
    exact hremove
  obtain ⟨htree, hchain⟩ := h.tree.deleted L hd hc hknown hfs hfat hraw hmap'
  -- the state behind the removal holds the tree without the file
  have hheld : HoldsOn m v' s' (a.unlinked ca names name (a.start ci)) := by
    refine ⟨hs', h.handles.trans (fileHandle_congr hk.contents).symm, h.slots.congr hk.contents,
      ?_, fun cj ca' name' hcj => ?_⟩
    · rw [hstart]
      exact htree
    · have hcj' : (if a.homes cj = some (ca, name) then none else a.homes cj)
          = some (ca', name') := hcj
      split at hcj'
      · cases hcj'
      · next hother =>
        obtain ⟨hin', hused', hd', hat⟩ := h.homes cj ca' name' hcj'
        rw [hk.contents]
        refine ⟨hin', hused', a.renamed_isSome _ 0 hd', hat.mono fun ds hds => ?_⟩
        have hne' : ca' ≠ x.2.dca.toNat := fun heq => by
          rw [← heq, h.tree.apart ca' hd'] at hknown
          cases hknown
        refine ⟨hchain ca' ds (Or.inl hd') hne' hds, fun y hy hyname => ?_⟩
        by_cases hca : ca' = ca
        · -- another name of the directory
          subst hca
          obtain rfl := hds.unique hc L
          refine hold y hy fun heq => hother ?_
          rw [hcj', ← hyname, heq]
        · have hdis' := h.tree.disjoint (Ne.symm hca) (Or.inl hd) (Or.inl hd') hc hds
          rw [Vol.entries_congr fun c hm => congrArg NiFat32.live
            (Vol.slots_congr (hraw c fun hm' => hdis' hm' hm))]
          exact hy
  have hrun : deleteContent m fuel ci s = some (true, s'.setContent ci.toNat
      { s'.contents ci.toNat with contentType := .empty, indexRoot := NO_ECACHE }) := by
    unfold deleteContent
    rw [hrun₁]
    simp only [hheld.destroyed hin hused fuel, Option.map_some]
  exact ⟨_, congrArg (Option.map _) hrun, a.deleted ca names name ci,
    ⟨ca, name, names, hhome, hnames, rfl, rfl⟩, v', hheld.closed hin⟩

/-! ### The small volume with a file in its root directory -/

/-- The names in its root directory. -/
def letterNames (name : Name) : Option TreeNode :=
  (twoClusterVol.dirMap (smallMount 0) [2] name).map Record.node

/-- Its tree, without open handles. -/
def letterTree (s : FS) : TreeStore where
  handles := fileHandle s
  files := Function.update (fun _ => none) 3 (some (twoClusterVol.bytesOf [3, 4]))
  dirs := Function.update (fun _ => none) 2 (some letterNames)
  room := fun _ => 3
  used := fun _ => false
  homes := fun _ => none

theorem letterTree_dirs_ne (s : FS) (hne : ca ≠ 2) : (letterTree s).dirs ca = none := by
  show Function.update (fun _ => none) 2 (some letterNames) ca = none
  rw [Function.update_of_ne hne]

theorem twoCluster_entries :
    twoClusterVol.entries (smallMount 0) [2] = [(2, storedIn (letterFile 0x41 3) 2)] :=
  oneEntryVol_entries (createEntry_storable (by decide) (by decide))

/-- The directory has room for three entries behind the first one. -/
theorem twoCluster_names : twoClusterVol.NameMap (smallMount 0) 2 [2] letterNames 3 := by
  have he : Storable (letterFile 0x41 3) := createEntry_storable (by decide) (by decide)
  have hdir : DirOf (smallMount 0) (oneEntryVol (letterFile 0x41 3)) 2 [2] := oneEntryVol_dirOf he
  have hscan : twoClusterVol.scan (smallMount 0) 2 = [some (storedIn (letterFile 0x41 3) 2)] := by
    show scan ((oneEntryVol (letterFile 0x41 3)).slots (smallMount 0) 2) = _
    rw [oneEntryVol_slots, scan_cons (he.stored_last 2), slotView_live (he.valid 2)
      (he.stored_free 2)]
    unfold scan
    rw [visible_closeSlots]
    rfl
  refine ⟨⟨.single (by decide) rfl, hdir.sound, hdir.hashed, hdir.distinct⟩, fun x hx => ?_,
    fun x hx => ?_, fun _ => rfl, ?_⟩
  · rw [twoCluster_entries, List.mem_singleton] at hx
    have hall : (letterName 0x41).toList.all (fun b => b ≠ 0) = true := by decide
    rw [hx]
    exact fun b hb => of_decide_eq_true (List.all_eq_true.mp hall b hb)
  · rw [twoCluster_entries, List.mem_singleton] at hx
    rw [hx]
    decide
  · rw [Vol.room, hscan]
    decide

theorem twoCluster_tree (s : FS) : twoClusterVol.HasTree (smallMount 0) (letterTree s) := by
  have L := smallMount_layout (Nat.zero_le 1)
  have hfile : HasChain (smallMount 0) twoClusterVol 3 [3, 4] := twoCluster_file
  have hdir := twoCluster_names.chain
  have hbare : twoClusterVol.HasFiles (smallMount 0) fun _ => none :=
    ⟨(fun _ _ hno => nomatch hno), fun _ _ _ _ _ hno => nomatch hno⟩
  -- the directory alone, and then the file beside it
  have hroot : twoClusterVol.HasTree (smallMount 0)
      { letterTree s with files := fun _ => none } := by
    refine ⟨⟨Function.update (fun _ => none) 2 (some (twoClusterVol.bytesOf [2])),
      hbare.add L hdir (fun _ _ hno => nomatch hno), fun ca hca => ?_, fun ca names hca => ?_⟩,
      fun _ _ => rfl⟩
    · have hne : ca ≠ 2 := fun heq => by
        subst heq
        cases hca
      rw [Function.update_of_ne hne]
    · have heq : ca = 2 := by
        by_contra hne
        cases (letterTree_dirs_ne s hne).symm.trans hca
      subst heq
      obtain rfl : letterNames = names := Option.some.inj hca
      exact ⟨[2], rfl, twoCluster_names⟩
  have hknown : ∀ {ca}, TreeStore.Known { letterTree s with files := fun _ => none } ca →
      ca = 2 := by
    intro ca hk
    by_contra hne
    have hsome : ((letterTree s).dirs ca).isSome = true := hk.resolve_right Bool.false_ne_true
    rw [letterTree_dirs_ne s hne] at hsome
    cases hsome
  refine hroot.added L (fun hk => absurd (hknown hk) (by decide)) hfile fun ca ds hk hds => ?_
  obtain rfl := hknown hk
  rw [hds.unique hdir L]
  simp

/-- A mount of it. -/
theorem twoCluster_holds : ∃ s, HoldsTree (smallMount 0) s (letterTree s) := by
  have L := smallMount_layout (Nat.zero_le 1)
  obtain ⟨s, hs, hk⟩ := (oneEntryVol_stored (letterFile 0x41 3) emptyTable).setFat L
    (by decide : InVol (smallMount 0) 3) (by decide : 4 < 2 ^ 28)
  have hslot : ∀ i, s.contents i = emptyTable i := fun i => congrFun hk.contents i
  refine ⟨s, twoClusterVol, hs, rfl, ⟨fun i _ => ?_, fun i _ => ?_⟩, twoCluster_tree s,
    fun _ _ _ hhome => nomatch hhome⟩
  · rw [hslot]
    exact (decide_eq_false fun hne => hne rfl).symm
  · rw [hslot]
    rfl

/-! ### Runs -/

/-- Each call does on the volume what it does on the tree. -/
theorem treeCall_simulates (L : Layout m) :
    Simulates (TreeStore.spec m.fi.clusterSize m.fi.extRootCluster) (callTree m)
      (HoldsTree m) := by
  intro s a c h hpre
  obtain ⟨v, h⟩ := h
  cases c with
  | file c => exact file_call_done L h hpre
  | openPath rci path mode => exact open_done L h hpre
  | close ci => exact close_done h ci
  | exist path => exact exist_done L h hpre
  | create ci info reserve => exact put_done L h hpre
  | delete ci => exact delete_done L h hpre

end NiFat32
