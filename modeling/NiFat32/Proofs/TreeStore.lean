import NiFat32.Proofs.FileStore
import NiFat32.Proofs.Lookup
import NiFat32.Proofs.NameMap
import NiFat32.Proofs.Reserve

/-!
# `Proofs.TreeStore`: the mounted volume as a tree of names and files

`TreeStore` adds names to the store of files: a directory is a map from 8.3 names to nodes, and a
path is resolved through the maps (`resolve`). Its calls open and close handles, ask for a path,
create contents in a directory, delete files, and read, write and copy them through the handles.

A directory comes with a room: the number of contents that may be created in it. Nothing may be
created in a directory from which something was deleted, since `entry_add` takes the hole and hides
what lies behind it. A handle has a home while the name stands for it that it was opened under.

`HoldsTree` connects a state with a tree. The clusters of a directory are carried along as one more
array of bytes, apart from the files: a call on files leaves them, and a lookup rewrites them to
bytes in which a walk sees the same (`DirsKept`).
-/

set_option autoImplicit false

namespace NiFat32

open ByteStore Chain Run

variable {m : Mount} {s s' : FS} {v v' v'' : Vol} {ca : Nat} {cs : List Nat}

/-! ### The tree -/

/-- The directories, by their first clusters. -/
abbrev Directories : Type := Nat → Option (Name → Option TreeNode)

/-- The node that the components name, from a directory on. A component of 32 bytes or more names
nothing. -/
def resolve (dirs : Directories) : List (List UInt8) → (ca : Nat) → Option TreeNode
  | [], _ => none
  | comp :: comps, ca =>
    if 32 ≤ comp.length then none
    else
      ((dirs ca).bind fun names => names (nameToFatname comp)).bind fun node =>
        if comps = [] then some node else resolve dirs comps node.start

/-- The directory and the name under which the last component is looked up. -/
def homeOf (dirs : Directories) : List (List UInt8) → (ca : Nat) → Option (Nat × Name)
  | [], _ => none
  | comp :: comps, ca =>
    if comps = [] then some (ca, nameToFatname comp)
    else
      ((dirs ca).bind fun names => names (nameToFatname comp)).bind fun node =>
        homeOf dirs comps node.start

/-- The way of the components goes through directories: what a component names is one, when there
are components behind it. -/
def Routed (dirs : Directories) : List (List UInt8) → (ca : Nat) → Prop
  | [], _ => True
  | comp :: comps, ca => ∃ names, dirs ca = some names ∧
      ∀ node, names (nameToFatname comp) = some node → comps ≠ [] → Routed dirs comps node.start

/-- The files and the handles, the directories with their rooms, the slots of handles that are in
use, and the directory and the name that a handle was opened under. -/
structure TreeStore extends FileStore where
  dirs : Directories
  room : Nat → Nat
  used : Nat → Bool
  homes : Int → Option (Nat × Name)

namespace TreeStore

/-- The first slot that is not in use. -/
def freeSlot (a : TreeStore) : Option Nat :=
  (List.range CONTENT_TABLE_SIZE).find? fun i => !a.used i

/-- The slot `i` becomes a handle on the node. -/
def openAt (a : TreeStore) (i : Nat) (node : TreeNode) (home : Option (Nat × Name))
    (mode : UInt8) : TreeStore :=
  { a with
    handles := Function.update a.handles (i : Int)
      ⟨node.start, isReadMode mode, isWriteMode mode, !node.isDir⟩
    used := Function.update a.used i true
    homes := Function.update a.homes (i : Int) home }

/-- The slot of the handle is given back. -/
def closeAt (a : TreeStore) (ci : Int) : TreeStore :=
  { a with
    handles := Function.update a.handles ci { a.handles ci with file := true }
    used := Function.update a.used ci.toNat false
    homes := Function.update a.homes ci none }

/-- The directory that a lookup starts at. -/
def lookupFrom (a : TreeStore) (root : Nat) (rci : Int) : Nat :=
  if rci = NO_RCI then root else a.start rci

/-- The node to open, with its home: the root, when there is no path. -/
def target (a : TreeStore) (root : Nat) (rci : Int) :
    Option (List UInt8) → Option (TreeNode × Option (Nat × Name))
  | none => some (⟨root, true⟩, none)
  | some path => (resolve a.dirs (pathComponents path) (a.lookupFrom root rci)).map fun node =>
      (node, homeOf a.dirs (pathComponents path) (a.lookupFrom root rci))

/-- What an open returns, and the tree behind it. -/
def opened (a : TreeStore) (root : Nat) (rci : Int) (path : Option (List UInt8)) (mode : UInt8) :
    Int × TreeStore :=
  match a.freeSlot, a.target root rci path with
  | none, _ => (-1, a)
  | some _, none => (-2, a)
  | some i, some x => (i, a.openAt i x.1 x.2 mode)

/-- The directory `ca` gets new names, and `room` of its room is left. -/
def renamed (a : TreeStore) (ca : Nat) (names : Name → Option TreeNode) (room : Nat) : TreeStore :=
  { a with
    dirs := Function.update a.dirs ca (some names)
    room := Function.update a.room ca room }

section Renamed

variable (a : TreeStore) {ca n : Nat} (names : Name → Option TreeNode) (k : Nat)

@[simp] theorem renamed_dirs_self : (a.renamed ca names k).dirs ca = some names :=
  Function.update_self ..

@[simp] theorem renamed_room_self : (a.renamed ca names k).room ca = k := Function.update_self ..

theorem renamed_dirs_ne (hne : n ≠ ca) : (a.renamed ca names k).dirs n = a.dirs n :=
  Function.update_of_ne hne ..

theorem renamed_room_ne (hne : n ≠ ca) : (a.renamed ca names k).room n = a.room n :=
  Function.update_of_ne hne ..

/-- No directory is lost. -/
theorem renamed_isSome (h : (a.dirs n).isSome) : ((a.renamed ca names k).dirs n).isSome := by
  by_cases hne : n = ca
  · rw [hne, renamed_dirs_self]
    rfl
  · rwa [renamed_dirs_ne _ _ _ hne]

end Renamed

/-- The content `n` is in the directory `ca` under a name, a file with the bytes `xs`. -/
def created (a : TreeStore) (ca : Nat) (names : Name → Option TreeNode) (name : Name) (n : Nat)
    (isDir : Bool) (xs : List UInt8) : TreeStore :=
  { a.renamed ca (Function.update names name (some ⟨n, isDir⟩)) (a.room ca - 1) with
    files := if isDir then a.files else Function.update a.files n (some xs) }

/-- The file at `n` is gone, with its name in the directory `ca` and the homes of that name. -/
def unlinked (a : TreeStore) (ca : Nat) (names : Name → Option TreeNode) (name : Name) (n : Nat) :
    TreeStore :=
  { a.renamed ca (Function.update names name none) 0 with
    files := Function.update a.files n none
    homes := fun ci => if a.homes ci = some (ca, name) then none else a.homes ci }

/-- The file of the handle is gone, and the handle is closed. -/
def deleted (a : TreeStore) (ca : Nat) (names : Name → Option TreeNode) (name : Name) (ci : Int) :
    TreeStore :=
  (a.unlinked ca names name (a.start ci)).closeAt ci

end TreeStore

/-- The calls on the tree. The path of an open may be missing; it opens the root then. -/
inductive TreeCall where
  | file (c : FileCall)
  | openPath (rci : Int) (path : Option (List UInt8)) (mode : UInt8)
  | close (ci : Int)
  | exist (path : List UInt8)
  | create (ci : Int) (info : CInfo) (reserve : Int)
  | delete (ci : Int)

/-- Their answers. A creation also says whether an allocation failed on the way. -/
inductive TreeAnswer where
  | file (ans : FileAnswer)
  | handle (ci : Int)
  | done (ok : Bool)
  | made (ok full : Bool)

/-- The calls that the tree takes: on files as in the store of files, lookups on their way through
directories without creation, creations in a directory under a name that is new there and while
there is room, deletions of files under the name that they were opened with. -/
def TreeStore.Takes (root : Nat) (a : TreeStore) : TreeCall → Prop
  | .file c => a.toFileStore.Takes c
  | .openPath rci path mode => isCreateMode mode = false ∧ (path = none → (a.dirs root).isSome) ∧
      ∀ p, path = some p → Routed a.dirs (pathComponents p) (a.lookupFrom root rci)
  | .close _ => True
  | .exist path => Routed a.dirs (pathComponents path) root
  | .create ci info _ => ∃ names, a.dirs (a.start ci) = some names ∧
      (∀ b ∈ info.fullName.toList, b ≠ 0) ∧ info.fullName.Findable ∧
      (names info.fullName = none → 0 < a.room (a.start ci))
  | .delete ci => (a.homes ci).isSome ∧ (a.handles ci).file = true ∧ (a.file ci).isSome

/-- How the tree answers a call, and what it is afterwards. -/
def TreeStore.Answers (unit root : Nat) (a : TreeStore) :
    TreeCall → TreeAnswer → TreeStore → Prop
  | .file c, ans, a' => ∃ fans b, ans = .file fans ∧ a.toFileStore.Answers unit c fans b ∧
      a' = { a with toFileStore := b }
  | .openPath rci path mode, ans, a' => ans = .handle (a.opened root rci path mode).1 ∧
      a' = (a.opened root rci path mode).2
  | .close ci, ans, a' =>
    if inTable ci ∧ a.used ci.toNat = true then ans = .done true ∧ a' = a.closeAt ci
    else ans = .done false ∧ a' = a
  | .exist path, ans, a' => ans = .done (resolve a.dirs (pathComponents path) root).isSome ∧ a' = a
  | .create ci info reserve, ans, a' => ∃ names, a.dirs (a.start ci) = some names ∧
      if (names info.fullName).isSome then ans = .made false false ∧ a' = a
      else (ans = .made false true ∧ a' = a) ∨
        ∃ n xs full, ans = .made true full ∧ a.files n = none ∧ a.dirs n = none ∧
          unit ∣ xs.length ∧ unit ≤ xs.length ∧
          (full = false → xs.length = (1 + (reserve - NO_RESERVE).toNat) * unit) ∧
          a' = a.created (a.start ci) names info.fullName n (info.type = STAT_DIR) xs
  | .delete ci, ans, a' => ∃ ca name names, a.homes ci = some (ca, name) ∧
      a.dirs ca = some names ∧ ans = .done true ∧ a' = a.deleted ca names name ci

theorem TreeStore.answers_open {unit root : Nat} {a a' : TreeStore} {rci ci : Int}
    {path : Option (List UInt8)} {mode : UInt8} (h : a.opened root rci path mode = (ci, a')) :
    a.Answers unit root (.openPath rci path mode) (.handle ci) a' := by
  show TreeAnswer.handle ci = .handle (a.opened root rci path mode).1 ∧
    a' = (a.opened root rci path mode).2
  rw [h]
  exact ⟨rfl, rfl⟩

/-- The specification of the tree, for clusters of `unit` bytes and the root directory at `root`. -/
def TreeStore.spec (unit root : Nat) : Spec TreeStore TreeCall TreeAnswer where
  pre := TreeStore.Takes root
  post := TreeStore.Answers unit root

/-- A call on files answers the same in a store with more files. -/
theorem FileStore.Answers.restrict {unit : Nat} {a b b' : FileStore} {c : FileCall}
    {ans : FileAnswer} {D : Nat → Option (List UInt8)} (hhandles : b.handles = a.handles)
    (hfiles : b.files = fun ca => (a.files ca).or (D ca)) (htakes : a.Takes c)
    (h : b.Answers unit c ans b') :
    ∃ a', a.Answers unit c ans a' ∧ b'.handles = a'.handles ∧
      (b'.files = fun ca => (a'.files ca).or (D ca)) ∧
      ∀ ca, (a'.files ca).isSome = (a.files ca).isSome := by
  have hstart : ∀ ci, b.start ci = a.start ci := fun ci => by
    unfold FileStore.start
    rw [hhandles]
  have hfile : ∀ ci xs, (a.file ci).isSome → b.file ci = some xs → a.file ci = some xs := by
    intro ci xs hsome hb
    unfold FileStore.file at hsome hb ⊢
    obtain ⟨ys, hys⟩ := Option.isSome_iff_exists.mp hsome
    rw [hfiles, hstart] at hb
    simp only [hys, Option.some_or] at hb
    rw [hys, hb]
  -- what is put into a file of the smaller store
  have hput : ∀ ci (xs : List UInt8), (a.file ci).isSome →
      (b.put ci xs).handles = (a.put ci xs).handles ∧
      ((b.put ci xs).files = fun ca => ((a.put ci xs).files ca).or (D ca)) ∧
      ∀ ca, ((a.put ci xs).files ca).isSome = (a.files ca).isSome := by
    intro ci xs hsome
    refine ⟨hhandles, ?_, fun ca => ?_⟩
    · funext ca
      unfold FileStore.put
      simp only [hstart]
      by_cases heq : ca = a.start ci
      · subst heq
        simp only [Function.update_self, Option.some_or]
      · simp only [Function.update_of_ne heq]
        rw [hfiles]
    · unfold FileStore.put
      by_cases heq : ca = a.start ci
      · subst heq
        simp only [Function.update_self]
        exact hsome.symm
      · simp only [Function.update_of_ne heq]
  cases c with
  | read ci offset size =>
    obtain ⟨rfl, hans⟩ := h
    refine ⟨a, ⟨rfl, ?_⟩, hhandles, hfiles, fun _ => rfl⟩
    rw [hhandles] at hans
    by_cases hmode : (a.handles ci).readable = true
    · rw [if_pos hmode] at hans ⊢
      obtain ⟨xs, hxs, heq⟩ := hans
      exact ⟨xs, hfile ci xs (htakes hmode) hxs, heq⟩
    · rw [if_neg hmode] at hans ⊢
      exact hans
  | write ci offset data =>
    have hans : if (b.handles ci).writable then _ else _ := h
    rw [hhandles] at hans
    by_cases hmode : (a.handles ci).writable = true
    · rw [if_pos hmode] at hans
      obtain ⟨xs, xs', k, full, hxs, hw, hover, rfl⟩ := hans
      obtain ⟨hh, hf, hdom⟩ := hput ci xs' (htakes hmode)
      refine ⟨a.put ci xs', ?_, hh, hf, hdom⟩
      show if (a.handles ci).writable = true then _ else _
      rw [if_pos hmode]
      exact ⟨xs, xs', k, full, hfile ci xs (htakes hmode) hxs, hw, hover, rfl⟩
    · rw [if_neg hmode] at hans
      obtain ⟨hw, rfl⟩ := hans
      refine ⟨a, ?_, hhandles, hfiles, fun _ => rfl⟩
      show if (a.handles ci).writable = true then _ else _
      rw [if_neg hmode]
      exact ⟨hw, rfl⟩
  | copy src dst =>
    obtain ⟨-, hsome, hsome', -⟩ := htakes
    obtain ⟨xs, ys, ys', n, full, hxs, hys, hw, hcopy, rfl⟩ := h
    obtain ⟨hh, hf, hdom⟩ := hput dst ys' hsome'
    exact ⟨a.put dst ys', ⟨xs, ys, ys', n, full, hfile src xs hsome hxs,
      hfile dst ys hsome' hys, hw, hcopy, rfl⟩, hh, hf, hdom⟩

/-! ### The tree of a volume -/

/-- The volume has the files and the directories, and none of them shares a cluster with another.
`D` are the bytes of the directories. -/
structure Vol.HasTree (m : Mount) (v : Vol) (a : TreeStore) : Prop where
  stored : ∃ D : Nat → Option (List UInt8), v.HasFiles m (fun ca => (a.files ca).or (D ca)) ∧
    (∀ ca, a.dirs ca = none → D ca = none) ∧ ∀ ca names, a.dirs ca = some names →
      ∃ cs, D ca = some (v.bytesOf cs) ∧ v.NameMap m ca cs names (a.room ca)
  apart : ∀ ca, (a.dirs ca).isSome → a.files ca = none

/-- The slot has the entry of the name in the directory `ca`. -/
def Content.At (m : Mount) (v : Vol) (c : Content) (ca : Nat) (name : Name) : Prop :=
  ∃ cs x, HasChain m v ca cs ∧ x ∈ v.entries m cs ∧ x.2.fileName = name ∧
    c.entry.fileName = name ∧ c.parentCluster = x.1 ∧ c.dataCluster = x.2.dca.toNat ∧
    c.contentType = if x.2.isDir then .directory else .file

/-- The entries with the name are still in the directory. -/
theorem Content.At.mono {c : Content} {name : Name} (h : c.At m v ca name)
    (hkeep : ∀ cs, HasChain m v ca cs → HasChain m v' ca cs ∧
      ∀ x ∈ v.entries m cs, x.2.fileName = name → x ∈ v'.entries m cs) : c.At m v' ca name := by
  obtain ⟨cs, x, hc, hx, hname, hrest⟩ := h
  obtain ⟨hc', hmem⟩ := hkeep cs hc
  exact ⟨cs, x, hc', hmem x hx hname, hname, hrest⟩

/-- The handles with a home have the entry of its name. -/
def HasHomes (m : Mount) (v : Vol) (s : FS) (a : TreeStore) : Prop :=
  ∀ ci ca name, a.homes ci = some (ca, name) → inTable ci ∧ a.used ci.toNat = true ∧
    (a.dirs ca).isSome ∧ (s.contents ci.toNat).At m v ca name

/-- Of the slots in use and those that are not: what the content table has of them. -/
structure SlotsOf (s : FS) (used : Nat → Bool) : Prop where
  used : ∀ i, i < CONTENT_TABLE_SIZE →
    used i = decide ((s.contents i).contentType ≠ ContentType.empty)
  plain : ∀ i, i < CONTENT_TABLE_SIZE → (s.contents i).indexRoot = NO_ECACHE

/-- The state holds the tree: its handles, without an index, and on the volume `v` its files and
directories. -/
structure HoldsOn (m : Mount) (v : Vol) (s : FS) (a : TreeStore) : Prop where
  shows_ : Shows m s v
  handles : a.handles = fileHandle s
  slots : SlotsOf s a.used
  tree : v.HasTree m a
  homes : HasHomes m v s a

/-- The state holds the tree. -/
def HoldsTree (m : Mount) (s : FS) (a : TreeStore) : Prop := ∃ v, HoldsOn m v s a

/-! ### Directories that stay -/

/-- Chains with the same bytes have them in the same pieces. -/
theorem raws_of_bytesOf (hs : Shows m s v) (hs' : Shows m s' v') {ds : List Nat}
    (hcs : ∀ c ∈ cs, InVol m c) (hds : ∀ c ∈ ds, InVol m c) (hpos : 0 < m.fi.clusterSize)
    (h : v'.bytesOf ds = v.bytesOf cs) : ds.map v'.raw = cs.map v.raw := by
  induction cs generalizing ds with
  | nil =>
    cases ds with
    | nil => rfl
    | cons d ds =>
      have hlen := congrArg List.length h
      rw [Vol.bytesOf_cons, List.length_append, hs'.length_raw (hds d List.mem_cons_self)] at hlen
      simp only [Vol.bytesOf_nil, List.length_nil] at hlen
      omega
  | cons c cs ih =>
    have hc := hs.length_raw (hcs c List.mem_cons_self)
    cases ds with
    | nil =>
      have hlen := congrArg List.length h
      rw [Vol.bytesOf_cons, List.length_append, hc] at hlen
      simp only [Vol.bytesOf_nil, List.length_nil] at hlen
      omega
    | cons d ds =>
      have hd := hs'.length_raw (hds d List.mem_cons_self)
      rw [Vol.bytesOf_cons, Vol.bytesOf_cons] at h
      obtain ⟨hfirst, hrest⟩ := List.append_inj h (hd.trans hc.symm)
      rw [List.map_cons, List.map_cons, hfirst,
        ih (fun k hk => hcs k (List.mem_cons_of_mem c hk))
          (fun k hk => hds k (List.mem_cons_of_mem d hk)) hrest]

/-- The directories of the tree have the same clusters, and a walk sees the same in them. -/
def DirsKept (m : Mount) (v v' : Vol) (dirs : Directories) : Prop :=
  ∀ ca cs, (dirs ca).isSome → HasChain m v ca cs →
    HasChain m v' ca cs ∧ ∀ c ∈ cs, v'.scan m c = v.scan m c

namespace DirsKept

variable {dirs : Directories}

theorem refl (m : Mount) (v : Vol) (dirs : Directories) : DirsKept m v v dirs :=
  fun _ _ _ hc => ⟨hc, fun _ _ => rfl⟩

theorem trans (h : DirsKept m v v' dirs) (h' : DirsKept m v' v'' dirs) :
    DirsKept m v v'' dirs := by
  intro ca cs hd hc
  obtain ⟨hc', hscan⟩ := h ca cs hd hc
  obtain ⟨hc'', hscan'⟩ := h' ca cs hd hc'
  exact ⟨hc'', fun c hm => (hscan' c hm).trans (hscan c hm)⟩

theorem entries (h : DirsKept m v v' dirs) (hd : (dirs ca).isSome) (hc : HasChain m v ca cs) :
    v'.entries m cs = v.entries m cs :=
  Vol.entries_congr fun c hm => Vol.live_of_scan ((h ca cs hd hc).2 c hm)

/-- A slot has its entry as before. -/
theorem at_ (h : DirsKept m v v' dirs) (hd : (dirs ca).isSome) {c : Content} {name : Name}
    (hat : c.At m v ca name) : c.At m v' ca name :=
  hat.mono fun _ hc => ⟨(h ca _ hd hc).1, fun _ hx _ => (h.entries hd hc).symm ▸ hx⟩

theorem homes {a : TreeStore} (h : DirsKept m v v' a.dirs) (hh : HasHomes m v s a)
    (hcontents : s'.contents = s.contents) : HasHomes m v' s' a := by
  intro ci ca name hhome
  obtain ⟨hin, hused, hd, hat⟩ := hh ci ca name hhome
  rw [hcontents]
  exact ⟨hin, hused, hd, h.at_ hd hat⟩

end DirsKept

/-- The state behind a call that leaves the content table and the directories. -/
theorem HoldsOn.kept {a : TreeStore} (h : HoldsOn m v s a) (hs : Shows m s' v')
    (hcontents : s'.contents = s.contents) (hk : DirsKept m v v' a.dirs)
    (htree : v'.HasTree m a) : HoldsOn m v' s' a where
  shows_ := hs
  handles := h.handles.trans (fileHandle_congr hcontents).symm
  slots := by
    refine ⟨fun i hi => ?_, fun i hi => ?_⟩
    · rw [hcontents]
      exact h.slots.used i hi
    · rw [hcontents]
      exact h.slots.plain i hi
  tree := htree
  homes := hk.homes h.homes hcontents

/-! ### Lookups -/

section Lookup

variable {a : TreeStore} {names : Name → Option TreeNode} {comp : List UInt8}
  {comps : List (List UInt8)}

/-- The chain of a directory. -/
theorem Vol.HasTree.dir (h : v.HasTree m a) (hd : a.dirs ca = some names) :
    ∃ cs, v.NameMap m ca cs names (a.room ca) := by
  obtain ⟨D, -, -, hdirs⟩ := h.stored
  obtain ⟨cs, -, hmap⟩ := hdirs ca names hd
  exact ⟨cs, hmap⟩

/-- A file or a directory of the tree starts at the cluster. -/
def TreeStore.Known (a : TreeStore) (ca : Nat) : Prop := (a.dirs ca).isSome ∨ (a.files ca).isSome

theorem TreeStore.known_of_renamed {n k : Nat} (hd : (a.dirs ca).isSome)
    (h : (a.renamed ca names k).Known n) : a.Known n := by
  by_cases hne : n = ca
  · exact Or.inl (hne ▸ hd)
  · unfold TreeStore.Known at h ⊢
    rwa [a.renamed_dirs_ne names k hne] at h

/-- The arrays of a tree are those of its files and directories. -/
theorem Vol.HasTree.known_iff {D : Nat → Option (List UInt8)}
    (hnone : ∀ ca, a.dirs ca = none → D ca = none)
    (hdirs : ∀ ca names, a.dirs ca = some names →
      ∃ cs, D ca = some (v.bytesOf cs) ∧ v.NameMap m ca cs names (a.room ca)) (ca : Nat) :
    ((a.files ca).or (D ca)).isSome ↔ a.Known ca := by
  unfold TreeStore.Known
  cases hd : a.dirs ca with
  | none => simp [hnone ca hd]
  | some names =>
    obtain ⟨cs, hD, -⟩ := hdirs ca names hd
    simp [hD]

/-- What the tree knows has a chain. -/
theorem Vol.HasTree.chain (h : v.HasTree m a) (hk : a.Known ca) : ∃ cs, HasChain m v ca cs := by
  obtain ⟨D, hfiles, hnone, hdirs⟩ := h.stored
  obtain ⟨xs, hxs⟩ := Option.isSome_iff_exists.mp ((known_iff hnone hdirs ca).mpr hk)
  obtain ⟨cs, hc, -⟩ := hfiles.chain ca xs hxs
  exact ⟨cs, hc⟩

/-- Chains of the tree have no cluster in common. -/
theorem Vol.HasTree.disjoint (h : v.HasTree m a) {ca' : Nat} {ds : List Nat} (hne : ca ≠ ca')
    (hk : a.Known ca) (hk' : a.Known ca') (hc : HasChain m v ca cs) (hds : HasChain m v ca' ds) :
    List.Disjoint cs ds := by
  obtain ⟨D, hfiles, hnone, hdirs⟩ := h.stored
  exact hfiles.apart ca ca' cs ds hne ((known_iff hnone hdirs ca).mpr hk)
    ((known_iff hnone hdirs ca').mpr hk') hc hds

/-- A directory has other names now, in the same clusters, and the rest of the tree is as it was. -/
theorem Vol.HasTree.renamed (L : Layout m) (h : v.HasTree m a) (hd : (a.dirs ca).isSome)
    (hc : HasChain m v ca cs) {k : Nat} (hmap : v'.NameMap m ca cs names k)
    (hothers : ∀ n ds, a.Known n → HasChain m v n ds → List.Disjoint cs ds →
      HasChain m v' n ds ∧ ∀ d ∈ ds, v'.raw d = v.raw d) : v'.HasTree m (a.renamed ca names k) := by
  obtain ⟨D, hfiles, hnone, hdirs⟩ := h.stored
  refine ⟨⟨Function.update D ca (some (v'.bytesOf cs)), ?_, fun n hn => ?_, fun n names' hn => ?_⟩,
    fun n hn => ?_⟩
  · have hput := hfiles.put L ((known_iff hnone hdirs ca).mpr (Or.inl hd)) hc hmap.chain
      (fun c hm => Or.inl hm) fun n ds hn hds hdis => by
        obtain ⟨hds', hraw⟩ := hothers n ds ((known_iff hnone hdirs n).mp hn) hds hdis
        exact ⟨hds', Vol.bytesOf_congr hraw⟩
    have heq : (fun n => (a.files n).or (Function.update D ca (some (v'.bytesOf cs)) n))
        = Function.update (fun n => (a.files n).or (D n)) ca (some (v'.bytesOf cs)) := by
      funext n
      by_cases hn : n = ca
      · subst hn
        rw [Function.update_self, Function.update_self, h.apart n hd, Option.none_or]
      · rw [Function.update_of_ne hn, Function.update_of_ne hn]
    exact heq ▸ hput
  · have hne : n ≠ ca := fun heq => by
      rw [heq, a.renamed_dirs_self] at hn
      cases hn
    rw [a.renamed_dirs_ne names k hne] at hn
    rw [Function.update_of_ne hne]
    exact hnone n hn
  · by_cases hne : n = ca
    · subst hne
      rw [a.renamed_dirs_self] at hn
      obtain rfl := Option.some.inj hn
      rw [a.renamed_room_self]
      exact ⟨cs, Function.update_self .., hmap⟩
    · rw [a.renamed_dirs_ne names k hne] at hn
      have hsome : (a.dirs n).isSome := Option.isSome_iff_exists.mpr ⟨names', hn⟩
      obtain ⟨ds, hD, hds⟩ := hdirs n names' hn
      obtain ⟨hds', hraw⟩ := hothers n ds (Or.inl hsome) hds.chain
        (h.disjoint (Ne.symm hne) (Or.inl hd) (Or.inl hsome) hc hds.chain)
      refine ⟨ds, ?_, ?_⟩
      · rw [Function.update_of_ne hne, hD, Vol.bytesOf_congr hraw]
      · rw [a.renamed_room_ne names k hne]
        exact hds.congr hds' (hds.sound.congr hraw) fun d hm =>
          congrArg NiFat32.scan (Vol.slots_congr (hraw d hm))
  · by_cases hne : n = ca
    · exact hne ▸ h.apart ca hd
    · rw [a.renamed_dirs_ne names k hne] at hn
      exact h.apart n hn

/-- The tree of a volume does not depend on the handles. -/
theorem Vol.HasTree.handles {b : TreeStore} (h : v.HasTree m a) (hfiles : b.files = a.files)
    (hdirs : b.dirs = a.dirs) (hroom : b.room = a.room) : v.HasTree m b := by
  obtain ⟨hstored, hapart⟩ := h
  refine ⟨?_, ?_⟩
  · rw [hfiles, hdirs, hroom]
    exact hstored
  · rw [hfiles, hdirs]
    exact hapart

/-- A file more, in clusters of its own. -/
theorem Vol.HasTree.added (L : Layout m) (h : v.HasTree m a) {n : Nat} (hnew : ¬ a.Known n)
    (hc : HasChain m v n cs)
    (hdis : ∀ k ds, a.Known k → HasChain m v k ds → List.Disjoint cs ds) :
    v.HasTree m { a with files := Function.update a.files n (some (v.bytesOf cs)) } := by
  obtain ⟨D, hfiles, hnone, hdirs⟩ := h.stored
  refine ⟨⟨D, ?_, hnone, hdirs⟩, fun k hk => ?_⟩
  · have hadd := hfiles.add L hc fun k ds hk => hdis k ds ((known_iff hnone hdirs k).mp hk)
    have heq : (fun k => (Function.update a.files n (some (v.bytesOf cs)) k).or (D k))
        = Function.update (fun k => (a.files k).or (D k)) n (some (v.bytesOf cs)) := by
      funext k
      by_cases hk : k = n
      · subst hk
        rw [Function.update_self, Function.update_self, Option.some_or]
      · rw [Function.update_of_ne hk, Function.update_of_ne hk]
    exact heq ▸ hadd
  · have hne : k ≠ n := fun heq => hnew (Or.inl (heq ▸ hk))
    exact (Function.update_of_ne hne ..).trans (h.apart k hk)

/-- A file less. -/
theorem Vol.HasTree.dropped (h : v.HasTree m a) {n : Nat} (hn : a.dirs n = none) :
    v.HasTree m { a with files := Function.update a.files n none } := by
  obtain ⟨D, hfiles, hnone, hdirs⟩ := h.stored
  refine ⟨⟨D, hfiles.mono fun k xs hk => ?_, hnone, hdirs⟩, fun k hk => ?_⟩
  · have hold : (Function.update a.files n none k).or (D k) = some xs := hk
    by_cases hkn : k = n
    · subst hkn
      rw [Function.update_self, Option.none_or, hnone k hn] at hold
      cases hold
    · rwa [Function.update_of_ne hkn] at hold
  · have hne : k ≠ n := fun heq => by
      rw [heq, hn] at hk
      cases hk
    exact (Function.update_of_ne hne ..).trans (h.apart k hk)

/-- The walks over a directory rewrite it, and keep the tree. -/
theorem Vol.HasTree.walked (L : Layout m) (h : v.HasTree m a) (hd : (a.dirs ca).isSome)
    (hc : HasChain m v ca cs) (hview : SameView m v v' cs) :
    v'.HasTree m a ∧ DirsKept m v v' a.dirs := by
  refine ⟨?_, fun k ds _ hds => ⟨hview.chain hds, fun c _ => hview.scan c⟩⟩
  obtain ⟨names, hd'⟩ := Option.isSome_iff_exists.mp hd
  obtain ⟨ds, hmap⟩ := h.dir hd'
  obtain rfl := hmap.chain.unique hc L
  have hren : v'.HasTree m (a.renamed ca names (a.room ca)) :=
    h.renamed L hd hc (hmap.congr (hview.chain hc)
        (fun c hm => hview.sound c (hmap.sound c hm)) fun c _ => hview.scan c)
      fun n es _ hes hdis =>
        ⟨hview.chain hes, fun c hm => hview.raw c fun hm' => hdis hm' hm⟩
  have hsame : a.renamed ca names (a.room ca) = a := by
    unfold TreeStore.renamed
    rw [← hd', Function.update_eq_self, Function.update_eq_self]
  exact hsame ▸ hren

/-- An entry as `entry_search` hands it out, in the directory and under the name of a home. -/
def FoundAt (m : Mount) (v : Vol) (dirs : Directories) (home : Option (Nat × Name))
    (e : DirEntry) : Prop :=
  ∃ ca cs x, home = some (ca, x.2.fileName) ∧ (dirs ca).isSome ∧ HasChain m v ca cs ∧
    x ∈ v.entries m cs ∧ e = foundAs x

theorem FoundAt.kept {dirs : Directories} {home : Option (Nat × Name)} {e : DirEntry}
    (h : FoundAt m v dirs home e) (hk : DirsKept m v v' dirs) : FoundAt m v' dirs home e := by
  obtain ⟨ca, cs, x, hhome, hd, hc, hx, rfl⟩ := h
  exact ⟨ca, cs, x, hhome, hd, (hk ca cs hd hc).1, (hk.entries hd hc).symm ▸ hx, rfl⟩

/-- One component: the entry that `entry_search` finds is that of the node. -/
theorem Vol.HasTree.search (L : Layout m) (hs : Shows m s v) (h : v.HasTree m a)
    (hd : a.dirs ca = some names) {fuel : Nat} (hfuel : m.fi.totalClusters ≤ fuel) (name : Name) :
    ∃ found s' v', entrySearch m fuel name ca NO_ECACHE s = some (found, s') ∧ Shows m s' v' ∧
      v'.HasTree m a ∧ DirsKept m v v' a.dirs ∧ Keeps [] s s' ∧
      found.map DirEntry.node = names name ∧
      ∀ e, found = some e → FoundAt m v' a.dirs (some (ca, name)) e := by
  have hsome : (a.dirs ca).isSome := Option.isSome_iff_exists.mpr ⟨names, hd⟩
  obtain ⟨cs, hmap⟩ := h.dir hd
  obtain ⟨s', v', he, hs', hk, hview⟩ := entrySearch_view L
    (Nat.le_trans (hmap.chain.length_le L) hfuel) hmap.chain hs hmap.sound name
  obtain ⟨htree, hkept⟩ := h.walked L hsome hmap.chain hview
  refine ⟨_, s', v', he, hs', htree, hkept, hk, ?_, fun e hfound => ?_⟩
  · rw [Option.map_map, ← hmap.first_node]
    rfl
  · obtain ⟨x, hx, rfl⟩ := Option.map_eq_some_iff.mp hfound
    rw [hmap.first_matches] at hx
    obtain ⟨hmem, hname⟩ := Assoc.lookup_mem hx
    have hat : FoundAt m v a.dirs (some (ca, name)) (foundAs x) :=
      ⟨ca, cs, x, by rw [← hname]; rfl, hsome, hmap.chain, hmem, rfl⟩
    exact hat.kept hkept

/-- The walk over the components ends at the entry of the node that they name. -/
theorem Vol.HasTree.lookup (L : Layout m) {mode : UInt8} (hmode : isCreateMode mode = false)
    {fuel : Nat} (hfuel : m.fi.totalClusters ≤ fuel) {ci : Int}
    (hcache : getContentEcache ci s = NO_ECACHE) (hs : Shows m s v) (h : v.HasTree m a)
    (hroute : Routed a.dirs comps ca) :
    ∃ found s' v', pathLoop m fuel mode comps ci ca s = some (found, s') ∧ Shows m s' v' ∧
      v'.HasTree m a ∧ DirsKept m v v' a.dirs ∧ Keeps [] s s' ∧
      found.map DirEntry.node = resolve a.dirs comps ca ∧
      ∀ e, found = some e → FoundAt m v' a.dirs (homeOf a.dirs comps ca) e := by
  induction comps generalizing ca ci s v with
  | nil =>
    exact ⟨none, s, v, rfl, hs, h, .refl m v a.dirs, Keeps.refl s, rfl, fun e he => nomatch he⟩
  | cons comp comps ih =>
    obtain ⟨names, hd, hrest⟩ := hroute
    by_cases hlen : 32 ≤ comp.length
    · -- the path is invalid
      have hstep : pathStep m fuel mode comp (comps ≠ []) ci ca s = some (none, s) := by
        unfold pathStep
        rw [if_pos hlen]
      rw [pathLoop_stop hstep, resolve, if_pos hlen]
      exact ⟨none, s, v, rfl, hs, h, .refl m v a.dirs, Keeps.refl s, rfl, fun e he => nomatch he⟩
    · obtain ⟨found, s₁, v₁, he, hs₁, h₁, hkept, hk₁, hnode, hat⟩ :=
        h.search L hs hd hfuel (nameToFatname comp)
      have hstep : pathStep m fuel mode comp (comps ≠ []) ci ca s = some (found, s₁) := by
        unfold pathStep
        rw [if_neg hlen]
        simp only [hcache, he, hmode]
        cases found <;> rfl
      rw [resolve, if_neg hlen, hd, Option.bind_some, ← hnode]
      cases found with
      | none =>
        rw [pathLoop_stop hstep]
        exact ⟨none, s₁, v₁, rfl, hs₁, h₁, hkept, hk₁, rfl, fun e he => nomatch he⟩
      | some e =>
        rw [pathLoop_go hstep, Option.map_some, Option.bind_some, homeOf]
        by_cases hlast : comps = []
        · rw [if_pos hlast, if_pos hlast, if_pos hlast]
          exact ⟨some e, s₁, v₁, rfl, hs₁, h₁, hkept, hk₁, rfl, hat⟩
        · rw [if_neg hlast, if_neg hlast, if_neg hlast, hd, Option.bind_some, ← hnode,
            Option.map_some, Option.bind_some]
          obtain ⟨found, s₂, v₂, hrun, hs₂, h₂, hkept₂, hk₂, heq, hat₂⟩ := ih
            (show getContentEcache NO_RCI s₁ = NO_ECACHE from rfl) hs₁ h₁
            (hrest _ hnode.symm hlast)
          exact ⟨found, s₂, v₂, hrun, hs₂, h₂, hkept.trans hkept₂, hk₁.nil_trans hk₂, heq, hat₂⟩

/-- What a path names has a first cluster. -/
theorem FoundAt.start_ne {home : Option (Nat × Name)} {e : DirEntry} (h : v.HasTree m a)
    (L : Layout m) (hat : FoundAt m v a.dirs home e) : e.dca.toNat ≠ FAT_CLUSTER_BAD := by
  obtain ⟨ca, cs, x, -, hd, hc, hx, rfl⟩ := hat
  obtain ⟨names, hd⟩ := Option.isSome_iff_exists.mp hd
  obtain ⟨ds, hmap⟩ := h.dir hd
  obtain rfl := hmap.chain.unique hc L
  exact hmap.started x hx

end Lookup

end NiFat32
