import NiFat32.Lib.Refine
import NiFat32.Proofs.Calls
import NiFat32.Proofs.CopyChain
import NiFat32.Proofs.Logs

/-!
# `Proofs.FileStore`: the files of a volume as a store of byte arrays

`FileStore` is what the handles and the files are for: every file is a byte array, named by its
first cluster, and a handle is open on one of them. `FileStore.spec` says what reading, writing and
copying do there. It leaves open what a write across the end finds between the old end and its
offset, and how far a write or a copy gets once an allocation failed.

`StoresFiles` connects a state with a store: each file has a chain with its bytes, and no two of
them share a cluster. Every call follows the specification and keeps that (`fileCall_simulates`),
so whole runs do (`files_follow_store`).
-/

set_option autoImplicit false

namespace NiFat32

open ByteStore Chain Relational Run

variable {m : Mount} {s s' t : FS} {v v' : Vol} {ca : Nat} {cs es : List Nat}

/-! ### The store -/

/-- What a handle is open on, and for what. -/
structure FileHandle where
  start : Nat
  readable : Bool
  writable : Bool
  file : Bool

/-- The handles, and the bytes of the files by their first clusters. -/
structure FileStore where
  handles : Int → FileHandle
  files : Nat → Option (List UInt8)

namespace FileStore

/-- The first cluster of the file that a handle is open on. -/
def start (a : FileStore) (ci : Int) : Nat := (a.handles ci).start

/-- The bytes of the file that a handle is open on. -/
def file (a : FileStore) (ci : Int) : Option (List UInt8) := a.files (a.start ci)

/-- The file behind a handle gets new bytes. -/
def put (a : FileStore) (ci : Int) (xs : List UInt8) : FileStore :=
  { a with files := Function.update a.files (a.start ci) (some xs) }

end FileStore

/-- The calls on files. -/
inductive FileCall where
  | read (ci : Int) (offset size : Nat)
  | write (ci : Int) (offset : Nat) (data : List UInt8)
  | copy (src dst : Int)

/-- Their answers. A write and a copy also say whether an allocation failed on the way. -/
inductive FileAnswer where
  | bytes (n : Nat) (bs : List UInt8)
  | wrote (n : Nat) (full : Bool)
  | copied (ok full : Bool)

/-- The calls that the store takes: through a handle on one of its files, a copy of a file over
another one. -/
def FileStore.Takes (a : FileStore) : FileCall → Prop
  | .read ci _ _ => (a.handles ci).readable = true → (a.file ci).isSome
  | .write ci _ _ => (a.handles ci).writable = true → (a.file ci).isSome
  | .copy src dst => (a.handles src).file = true ∧ (a.file src).isSome ∧ (a.file dst).isSome ∧
      a.start src ≠ a.start dst

/-- A write of `data` at `offset`: the first `k` bytes get into the array, which grew by `fresh`
where it had to. -/
structure Overwrites (unit : Nat) (xs : List UInt8) (offset : Nat) (data : List UInt8) (k : Nat)
    (full : Bool) (xs' : List UInt8) : Prop where
  le : k ≤ data.length
  short : k < data.length → full = true
  grown : ∃ fresh, unit ∣ fresh.length ∧ xs' = splice (xs ++ fresh) offset (data.take k)
  size : k = data.length → 0 < k →
    xs'.length = max xs.length (ceilDiv (offset + data.length) unit * unit)

/-- A copy of the array `xs` over `ys`: its first `n` bytes, whole clusters, come over. Only a
single cluster leaves what `ys` has behind it. -/
structure CopiesOver (unit : Nat) (xs ys : List UInt8) (full : Bool) (ys' : List UInt8) (n : Nat) :
    Prop where
  whole : unit ∣ n ∧ unit ≤ n ∧ n ≤ xs.length
  short : n < xs.length → full = true
  bytes : ys' = xs.take n ++ if n = unit then ys.drop unit else []

/-- How the store answers a call, and what it holds afterwards. -/
def FileStore.Answers (unit : Nat) (a : FileStore) : FileCall → FileAnswer → FileStore → Prop
  | .read ci offset size, ans, a' => a' = a ∧
      if (a.handles ci).readable then ∃ xs, a.file ci = some xs ∧
        ans = .bytes (min size (xs.length - offset)) ((xs.drop offset).take size)
      else ans = .bytes 0 []
  | .write ci offset data, ans, a' =>
      if (a.handles ci).writable then ∃ xs xs' k full, a.file ci = some xs ∧
        ans = .wrote k full ∧ Overwrites unit xs offset data k full xs' ∧ a' = a.put ci xs'
      else ans = .wrote 0 false ∧ a' = a
  | .copy src dst, ans, a' => ∃ xs ys ys' n full, a.file src = some xs ∧ a.file dst = some ys ∧
      ans = .copied true full ∧ CopiesOver unit xs ys full ys' n ∧ a' = a.put dst ys'

/-- The specification of the calls on files, for clusters of `unit` bytes. -/
def FileStore.spec (unit : Nat) : Spec FileStore FileCall FileAnswer where
  pre := FileStore.Takes
  post := FileStore.Answers unit

namespace FileStore

variable {unit : Nat} {a a' : FileStore} {c : FileCall} {ans : FileAnswer}

/-- The file that a call changes. -/
def target (a : FileStore) : FileCall → Option Nat
  | .read _ _ _ => none
  | .write ci _ _ => some (a.start ci)
  | .copy _ dst => some (a.start dst)

/-- The call may change the file. -/
def Changes (a : FileStore) : FileCall → Nat → Prop
  | .read _ _ _, _ => False
  | .write ci _ _, ca => (a.handles ci).writable = true ∧ a.start ci = ca
  | .copy _ dst, ca => a.start dst = ca

theorem put_files_ne (a : FileStore) {ci : Int} (xs : List UInt8) (hne : ca ≠ a.start ci) :
    (a.put ci xs).files ca = a.files ca := Function.update_of_ne hne _ _

/-- A call leaves the handles, and every file that it is not about. -/
theorem Answers.elsewhere (h : a.Answers unit c ans a') :
    a'.handles = a.handles ∧ ∀ ca, a.target c ≠ some ca → a'.files ca = a.files ca := by
  cases c with
  | read ci offset size => exact ⟨by rw [h.1], fun ca _ => by rw [h.1]⟩
  | write ci offset data =>
    have h' : if (a.handles ci).writable then _ else _ := h
    split at h'
    · obtain ⟨xs, xs', k, full, -, -, -, rfl⟩ := h'
      refine ⟨rfl, fun ca hne => a.put_files_ne xs' fun heq => hne ?_⟩
      rw [heq]
      rfl
    · rw [h'.2]
      exact ⟨rfl, fun _ _ => rfl⟩
  | copy src dst =>
    obtain ⟨xs, ys, ys', n, full, -, -, -, -, rfl⟩ := h
    refine ⟨rfl, fun ca hne => a.put_files_ne ys' fun heq => hne ?_⟩
    rw [heq]
    rfl

/-- The same handles, and no file less. -/
structure Extends (a b : FileStore) : Prop where
  handles : b.handles = a.handles
  known : ∀ ca, (a.files ca).isSome → (b.files ca).isSome

theorem Extends.start {b : FileStore} (h : Extends a b) (ci : Int) : b.start ci = a.start ci := by
  unfold FileStore.start
  rw [h.handles]

theorem Extends.trans {b d : FileStore} (h : Extends a b) (h' : Extends b d) : Extends a d where
  handles := h'.handles.trans h.handles
  known ca hca := h'.known ca (h.known ca hca)

theorem Extends.target {b : FileStore} (h : Extends a b) (c : FileCall) :
    b.target c = a.target c := by
  cases c with
  | read ci offset size => rfl
  | write ci offset data => exact congrArg some (h.start ci)
  | copy src dst => exact congrArg some (h.start dst)

theorem Extends.takes {b : FileStore} (h : Extends a b) (hc : a.Takes c) : b.Takes c := by
  have hfile : ∀ ci, (a.file ci).isSome → (b.file ci).isSome := fun ci hsome => by
    unfold file
    rw [h.start]
    exact h.known _ hsome
  cases c with
  | read ci offset size => exact fun hmode => hfile ci (hc (h.handles ▸ hmode))
  | write ci offset data => exact fun hmode => hfile ci (hc (h.handles ▸ hmode))
  | copy src dst =>
    obtain ⟨htype, hsrc, hdst, hne⟩ := hc
    exact ⟨h.handles ▸ htype, hfile src hsrc, hfile dst hdst, by rwa [h.start, h.start]⟩

theorem put_known (a : FileStore) (ci : Int) (xs : List UInt8) (h : (a.files ca).isSome) :
    ((a.put ci xs).files ca).isSome := by
  by_cases heq : ca = a.start ci
  · rw [heq]
    exact Option.isSome_iff_exists.mpr ⟨xs, Function.update_self _ _ _⟩
  · rwa [a.put_files_ne xs heq]

/-- No call closes a handle or loses a file. -/
theorem Answers.extends (h : a.Answers unit c ans a') : Extends a a' := by
  refine ⟨h.elsewhere.1, fun ca hca => ?_⟩
  cases c with
  | read ci offset size => rwa [h.1]
  | write ci offset data =>
    have h' : if (a.handles ci).writable then _ else _ := h
    split at h'
    · obtain ⟨xs, xs', k, full, -, -, -, rfl⟩ := h'
      exact a.put_known ci xs' hca
    · rwa [h'.2]
  | copy src dst =>
    obtain ⟨xs, ys, ys', n, full, -, -, -, -, rfl⟩ := h
    exact a.put_known dst ys' hca

end FileStore

theorem le_ceilDiv_mul {unit : Nat} (n : Nat) (hpos : 0 < unit) :
    n ≤ ceilDiv n unit * unit := by
  have hdiv := Nat.div_add_mod (n + unit - 1) unit
  have hmod := Nat.mod_lt (n + unit - 1) hpos
  unfold ceilDiv
  rw [Nat.mul_comm]
  omega

/-- A write that got all of its data into the array is read back from it. -/
theorem Overwrites.reads_back {unit offset : Nat} {xs xs' data : List UInt8} {full : Bool}
    (hpos : 0 < unit) (h : Overwrites unit xs offset data data.length full xs') :
    (xs'.drop offset).take data.length = data ∧ data.length ≤ xs'.length - offset := by
  by_cases hdata : 0 < data.length
  · obtain ⟨fresh, -, hxs⟩ := h.grown
    have hsize := h.size rfl hdata
    have hceil := le_ceilDiv_mul (offset + data.length) hpos
    rw [List.take_length] at hxs
    -- the array reaches up to the offset, so the data stands there
    have hoff : offset ≤ (xs ++ fresh).length := by
      by_contra hlt
      have hlen : xs'.length = (xs ++ fresh).length + data.length := by
        rw [hxs]
        unfold splice
        rw [List.take_of_length_le (by omega), List.drop_of_length_le (by omega), List.append_nil,
          List.length_append]
      omega
    refine ⟨?_, by omega⟩
    rw [hxs]
    unfold splice
    have htake : ((xs ++ fresh).take offset).length = offset := by
      rw [List.length_take, Nat.min_eq_left hoff]
    rw [List.append_assoc, List.drop_left' htake, List.take_left]
  · have hnil : data = [] := List.length_eq_zero_iff.mp (by omega)
    rw [hnil]
    exact ⟨rfl, Nat.zero_le _⟩

/-! ### The calls of the library -/

/-- Whether one of the allocations between two states failed. -/
def allocFailed (s s' : FS) : Bool := (s'.allocs.drop s.allocs.length).contains FAT_CLUSTER_BAD

/-- A call on files, with its answer. -/
def callFile (m : Mount) : FileCall → FS → (fuel : Nat) → Option (FileAnswer × FS)
  | .read ci offset size, s, fuel =>
    (readContent2buffer m fuel ci offset size s).map fun r => (.bytes r.1 r.2.1, r.2.2)
  | .write ci offset data, s, fuel =>
    (writeBuffer2content m fuel ci offset data s).map fun r => (.wrote r.1 (allocFailed s r.2), r.2)
  | .copy src dst, s, fuel =>
    (copyContent m fuel src dst DEEP_COPY s).map fun r => (.copied r.1 (allocFailed s r.2), r.2)

/-! ### The files of a volume -/

/-- Each file has a chain with its bytes, and no two of them share a cluster. -/
structure Vol.HasFiles (m : Mount) (v : Vol) (files : Nat → Option (List UInt8)) : Prop where
  chain : ∀ ca xs, files ca = some xs → ∃ cs, HasChain m v ca cs ∧ v.bytesOf cs = xs
  apart : ∀ ca ca' cs cs', ca ≠ ca' → (files ca).isSome → (files ca').isSome →
    HasChain m v ca cs → HasChain m v ca' cs' → cs.Disjoint cs'

/-- One file changed: its clusters are its old ones or were free, and the other files are the
same. -/
theorem Vol.HasFiles.put (L : Layout m) {files : Nat → Option (List UInt8)}
    (h : v.HasFiles m files) (hknown : (files ca).isSome) (hc : HasChain m v ca cs)
    (hc' : HasChain m v' ca es) (hfrom : ∀ c ∈ es, c ∈ cs ∨ v.fat c = FAT_CLUSTER_FREE)
    (hothers : ∀ a ds, (files a).isSome → HasChain m v a ds → List.Disjoint cs ds →
      HasChain m v' a ds ∧ v'.bytesOf ds = v.bytesOf ds) :
    v'.HasFiles m (Function.update files ca (some (v'.bytesOf es))) := by
  -- the chains of the other files
  have hold : ∀ a, a ≠ ca → (files a).isSome → ∃ ds, HasChain m v a ds ∧ HasChain m v' a ds ∧
      v'.bytesOf ds = v.bytesOf ds ∧ List.Disjoint es ds := by
    intro a hne hfile
    obtain ⟨xs, hxs⟩ := Option.isSome_iff_exists.mp hfile
    obtain ⟨ds, hds, -⟩ := h.chain a xs hxs
    have hdis := h.apart ca a cs ds (Ne.symm hne) hknown hfile hc hds
    obtain ⟨hds', hbytes⟩ := hothers a ds hfile hds hdis
    refine ⟨ds, hds, hds', hbytes, fun c hce hcd => ?_⟩
    cases hfrom c hce with
    | inl hcs => exact hdis hcs hcd
    | inr hfree => exact hds.not_free L hcd hfree
  have hknown' : ∀ {a}, a ≠ ca → (Function.update files ca (some (v'.bytesOf es)) a).isSome →
      (files a).isSome := by
    intro a hne hsome
    rwa [Function.update_of_ne hne] at hsome
  constructor
  · intro a xs hxs
    by_cases hne : a = ca
    · subst hne
      rw [Function.update_self] at hxs
      exact ⟨es, hc', Option.some.inj hxs⟩
    · rw [Function.update_of_ne hne] at hxs
      obtain ⟨ds, hds, hds', hbytes, -⟩ := hold a hne (by rw [hxs]; rfl)
      obtain ⟨ds₀, hds₀, hxs₀⟩ := h.chain a xs hxs
      obtain rfl := hds.unique hds₀ L
      exact ⟨ds, hds', hbytes.trans hxs₀⟩
  · intro a b ds ds' hne ha hb hda hdb
    by_cases hac : a = ca
    · subst hac
      obtain rfl := hda.unique hc' L
      obtain ⟨es', -, hes', -, hdis⟩ := hold b (Ne.symm hne) (hknown' (Ne.symm hne) hb)
      obtain rfl := hdb.unique hes' L
      exact hdis
    by_cases hbc : b = ca
    · subst hbc
      obtain rfl := hdb.unique hc' L
      obtain ⟨es', -, hes', -, hdis⟩ := hold a hne (hknown' hne ha)
      obtain rfl := hda.unique hes' L
      exact fun c hc hc' => hdis hc' hc
    · obtain ⟨es₁, hv₁, hv₁', -, -⟩ := hold a hac (hknown' hac ha)
      obtain ⟨es₂, hv₂, hv₂', -, -⟩ := hold b hbc (hknown' hbc hb)
      obtain rfl := hda.unique hv₁' L
      obtain rfl := hdb.unique hv₂' L
      exact h.apart a b ds ds' hne (hknown' hac ha) (hknown' hbc hb) hv₁ hv₂

/-- A file more: no file has a cluster of it. -/
theorem Vol.HasFiles.add (L : Layout m) {files : Nat → Option (List UInt8)} (h : v.HasFiles m files)
    (hc : HasChain m v ca es)
    (hdis : ∀ a ds, (files a).isSome → HasChain m v a ds → List.Disjoint es ds) :
    v.HasFiles m (Function.update files ca (some (v.bytesOf es))) := by
  have hknown : ∀ {a}, a ≠ ca → (Function.update files ca (some (v.bytesOf es)) a).isSome →
      (files a).isSome := by
    intro a hne hsome
    rwa [Function.update_of_ne hne] at hsome
  constructor
  · intro a xs hxs
    by_cases hne : a = ca
    · subst hne
      rw [Function.update_self] at hxs
      exact ⟨es, hc, Option.some.inj hxs⟩
    · rw [Function.update_of_ne hne] at hxs
      exact h.chain a xs hxs
  · intro a b ds ds' hne ha hb hda hdb
    by_cases hac : a = ca
    · subst hac
      obtain rfl := hda.unique hc L
      exact hdis b ds' (hknown (Ne.symm hne) hb) hdb
    by_cases hbc : b = ca
    · subst hbc
      obtain rfl := hdb.unique hc L
      exact fun c hcd hce => hdis a ds (hknown hne ha) hda hce hcd
    · exact h.apart a b ds ds' hne (hknown hac ha) (hknown hbc hb) hda hdb

/-- Files less. -/
theorem Vol.HasFiles.mono {files files' : Nat → Option (List UInt8)} (h : v.HasFiles m files)
    (hsub : ∀ ca xs, files' ca = some xs → files ca = some xs) : v.HasFiles m files' := by
  have hknown : ∀ {a}, (files' a).isSome → (files a).isSome := by
    intro a hsome
    obtain ⟨xs, hxs⟩ := Option.isSome_iff_exists.mp hsome
    exact Option.isSome_iff_exists.mpr ⟨xs, hsub a xs hxs⟩
  exact ⟨fun ca xs hxs => h.chain ca xs (hsub ca xs hxs), fun a b cs ds hne ha hb =>
    h.apart a b cs ds hne (hknown ha) (hknown hb)⟩

/-- What the content table says of a handle. -/
def fileHandle (s : FS) (ci : Int) : FileHandle where
  start := getContentDataCa ci s
  readable := isReadMode (getContentMode ci s)
  writable := isWriteMode (getContentMode ci s)
  file := getContentType ci s ≠ .directory

/-- The state holds the handles and the files of the store. -/
structure StoresFiles (m : Mount) (s : FS) (a : FileStore) : Prop where
  handles : a.handles = fileHandle s
  files : ∃ v, Shows m s v ∧ v.HasFiles m a.files

theorem fileHandle_congr (h : s'.contents = s.contents) : fileHandle s' = fileHandle s := by
  funext ci
  unfold fileHandle getContentDataCa getContentMode getContentType
  rw [h]

theorem allocFailed_of_keeps (h : Keeps [] s s') : allocFailed s s' = false := by
  unfold allocFailed
  rw [h.allocs, List.drop_left]
  rfl

/-! ### A write through a handle without read access -/

/-- The states differ in the content table alone. -/
structure SameBelow (s t : FS) : Prop where
  medium : s.medium = t.medium
  fat : s.fat = t.fat
  bitmap : s.bitmap = t.bitmap
  lastAllocated : s.lastAllocatedCluster = t.lastAllocatedCluster
  journalIndex : s.journalIndex = t.journalIndex
  errors : s.errors = t.errors
  heap : s.heap = t.heap
  mallocs : s.mallocs = t.mallocs
  allocs : s.allocs = t.allocs

theorem sameBelow_logs : LogBisim m SameBelow where
  medium h := h.medium
  setMedium h _ := { h with medium := rfl }
  errors h := Or.inl h.errors
  setErrors h _ := { h with errors := rfl }
  journalIndex h := Or.inr h.journalIndex
  setJournalIndex h _ := { h with journalIndex := rfl }
  setAdded h _ := { h with }
  setSolving h _ := { h with }

theorem sameBelow_bisim : Bisim m SameBelow where
  medium h := h.medium
  setMedium h _ := { h with medium := rfl }
  error h c := sameBelow_logs.error h c
  cached h ca _ := by rw [cachedFat, cachedFat, h.fat]
  cache {s t} h ca _ x :=
    { h with fat := congrArg (Option.map fun (f : Nat → Nat) k => if k = ca then x else f k) h.fat }
  mapSet {s t} h ca _ :=
    { h with bitmap :=
        congrArg (Option.map fun (f : Nat → Bool) k => if k = ca then false else f k) h.bitmap }
  mapUnset {s t} h ca _ :=
    { h with bitmap :=
        congrArg (Option.map fun (f : Nat → Bool) k => if k = ca then true else f k) h.bitmap }
  findFree h offset size := by rw [fatmapFindFree, fatmapFindFree, h.bitmap]
  lastAllocated h := h.lastAllocated
  offset {s t} h := by
    rw [getClusterOffset, getClusterOffset, h.lastAllocated]
    split
    · exact Pairs.mk _ h
    · exact Pairs.mk _ { h with lastAllocated := rfl }
  moved h _ x := by
    rw [moveOffset, moveOffset]
    split
    · exact { h with lastAllocated := rfl }
    · exact h
  allocated h ca := { h with allocs := congrArg (· ++ [ca]) h.allocs }
  heap h := h.heap
  mallocs h := h.mallocs
  setHeap h _ := { h with heap := rfl }
  malloced h := { h with mallocs := congrArg (· + 1) h.mallocs }
  journalAdd := sameBelow_logs.journalAdd
  journalSolve := sameBelow_logs.journalSolve

/-- The state with every handle open for reading and writing. -/
def bothModes (s : FS) : FS :=
  { s with contents := fun i => { s.contents i with mode := R_MODE ||| W_MODE } }

theorem bothModes_mode {ci : Int} (hw : isWriteMode (getContentMode ci s) = true) :
    getContentMode ci (bothModes s) = R_MODE ||| W_MODE := by
  unfold getContentMode at hw ⊢
  by_cases hin : inTable ci
  · rw [if_pos hin]
    rfl
  · rw [if_neg hin] at hw
    exact absurd hw (by decide)

theorem bothModes_dataCa (ci : Int) :
    getContentDataCa ci (bothModes s) = getContentDataCa ci s := by
  unfold getContentDataCa
  rfl

/-- A write does the same whether or not its handle may read. -/
theorem writeBuffer2content_bothModes {ci : Int} (hw : isWriteMode (getContentMode ci s) = true)
    (fuel offset : Nat) (data : List UInt8) :
    Ends (fun u t => SameBelow u t ∧ u.contents = s.contents ∧
        t.contents = (bothModes s).contents) Prod.mk
      (writeBuffer2content m fuel ci offset data s)
      (writeBuffer2content m fuel ci offset data (bothModes s)) := by
  have hb := (sameBelow_bisim (m := m)).withTable s.contents (bothModes s).contents
  have h₀ : SameBelow s (bothModes s) := ⟨rfl, rfl, rfl, rfl, rfl, rfl, rfl, rfl, rfl⟩
  have hw' : isWriteMode (getContentMode ci (bothModes s)) = true := by
    rw [bothModes_mode hw]
    decide
  unfold writeBuffer2content
  rw [if_pos hw, if_pos hw', bothModes_dataCa]
  rcases hb.writeLoop fuel ⟨h₀, rfl, rfl⟩ (getContentDataCa ci s) offset data 0 with
    ⟨hs, ht⟩ | ⟨written, s', t', hs, ht, h'⟩
  · rw [hs, ht]
    exact Ends.none
  simp only [hs, ht]
  cases written with
  | none => exact Ends.some _ h'
  | some r =>
    apply hb.appendLoop _ fuel h'
    intro u t hu
    rw [dataCa_of_table hu.2.1, dataCa_of_table hu.2.2, bothModes_dataCa]

/-- The write of the open file, for a handle that may only write. -/
theorem writeBuffer2content_spliced (L : Layout m) {ci : Int} (h : Shows m s v)
    (hw : isWriteMode (getContentMode ci s) = true) (hc : HasChain m v (getContentDataCa ci s) cs)
    (offset : Nat) (data : List UInt8) :
    Ensures (fun fuel => writeBuffer2content m fuel ci offset data s) fun r =>
      ∃ t' v' added, Spliced m (bothModes s) t' v v' ci cs added offset data r.1 ∧
        SameBelow r.2 t' ∧ r.2.contents = s.contents ∧ t'.contents = (bothModes s).contents := by
  have hopen : OpenFile m (bothModes s) v ci cs := by
    refine ⟨?_, ?_, by rwa [bothModes_dataCa]⟩
    · rw [bothModes_mode hw]
      decide
    · rw [bothModes_mode hw]
      decide
  have ht : Shows m (bothModes s) v := h.congr rfl rfl
  obtain ⟨bound, hb⟩ := writeBuffer2content_shows L ht hopen offset data
  refine ⟨bound, fun fuel hfuel => ?_⟩
  obtain ⟨r, hr, v', added, hsp⟩ := hb fuel hfuel
  beta_reduce at hr ⊢
  rcases writeBuffer2content_bothModes (m := m) hw fuel offset data with
    ⟨-, hnone⟩ | ⟨k, s', t', hs, hr', hsame⟩
  · rw [hnone] at hr
    cases hr
  · rw [hr'] at hr
    obtain rfl := Option.some.inj hr
    exact ⟨(k, s'), hs, t', v', added, hsp, hsame⟩

/-! ### One call -/

section Step

variable {a : FileStore} {ci : Int}

/-- A handle of the store, on the volume. -/
theorem StoresFiles.start_eq (h : StoresFiles m s a) (ci : Int) :
    a.start ci = getContentDataCa ci s := by
  unfold FileStore.start
  rw [h.handles]
  rfl

theorem StoresFiles.readable_eq (h : StoresFiles m s a) (ci : Int) :
    (a.handles ci).readable = isReadMode (getContentMode ci s) := by
  rw [h.handles]
  rfl

theorem StoresFiles.writable_eq (h : StoresFiles m s a) (ci : Int) :
    (a.handles ci).writable = isWriteMode (getContentMode ci s) := by
  rw [h.handles]
  rfl

/-- What a call did: it leaves the content table, answers as the store does, and leaves a volume
with the new files, in which the clusters and the bytes of every other file are the same. -/
def FileDone (m : Mount) (s : FS) (v : Vol) (a : FileStore) (c : FileCall) (r : FileAnswer × FS) :
    Prop :=
  r.2.contents = s.contents ∧ ∃ a' v', a.Answers m.fi.clusterSize c r.1 a' ∧ Shows m r.2 v' ∧
    v'.HasFiles m a'.files ∧ ∀ k ds, ¬ a.Changes c k → (a.files k).isSome → HasChain m v k ds →
      HasChain m v' k ds ∧ v'.bytesOf ds = v.bytesOf ds

/-- The call left the volume. -/
theorem FileDone.same {c : FileCall} {r : FileAnswer × FS} (hcontents : r.2.contents = s.contents)
    (hans : a.Answers m.fi.clusterSize c r.1 a) (hs : Shows m r.2 v) (hf : v.HasFiles m a.files) :
    FileDone m s v a c r :=
  ⟨hcontents, a, v, hans, hs, hf, fun _ _ _ _ hc => ⟨hc, rfl⟩⟩

/-- A read answers from the array, and changes nothing. -/
theorem read_done (L : Layout m) (hh : a.handles = fileHandle s) (hs : Shows m s v)
    (hf : v.HasFiles m a.files) (offset size : Nat) (hpre : a.Takes (.read ci offset size)) :
    Ensures (callFile m (.read ci offset size) s)
      (FileDone m s v a (.read ci offset size)) := by
  have h : StoresFiles m s a := ⟨hh, v, hs, hf⟩
  apply Ensures.map (f := fun fuel => readContent2buffer m fuel ci offset size s)
  by_cases hread : isReadMode (getContentMode ci s) = true
  · -- the array is that of the chain of the handle
    have hmode : (a.handles ci).readable = true := (h.readable_eq ci).trans hread
    obtain ⟨xs, hxs⟩ := Option.isSome_iff_exists.mp (hpre hmode)
    obtain ⟨cs, hc, rfl⟩ := hf.chain _ _ hxs
    rw [h.start_eq] at hc
    refine ⟨cs.length, fun fuel hfuel => ?_⟩
    obtain ⟨s', he, hs', hk⟩ := readLoop_shows L hfuel hc offset size 0 [] hs
    rw [Nat.zero_add, List.nil_append] at he
    refine ⟨_, (if_pos hread).trans he, .same hk.contents ⟨rfl, ?_⟩ hs' hf⟩
    rw [if_pos hmode]
    exact ⟨_, hxs, rfl⟩
  · obtain ⟨hs', hk⟩ := registerError_shows L hs .noReadAccessError
    have hmode : ¬ (a.handles ci).readable = true := by
      rwa [h.readable_eq]
    refine ⟨0, fun fuel _ => ⟨_, if_neg hread, .same hk.contents ⟨rfl, ?_⟩ hs' hf⟩⟩
    rw [if_neg hmode]

/-- A write splices into the array. -/
theorem write_done (L : Layout m) (hh : a.handles = fileHandle s) (hs : Shows m s v)
    (hf : v.HasFiles m a.files) (offset : Nat) (data : List UInt8)
    (hpre : a.Takes (.write ci offset data)) :
    Ensures (callFile m (.write ci offset data) s)
      (FileDone m s v a (.write ci offset data)) := by
  have h : StoresFiles m s a := ⟨hh, v, hs, hf⟩
  apply Ensures.map (f := fun fuel => writeBuffer2content m fuel ci offset data s)
  by_cases hwrite : isWriteMode (getContentMode ci s) = true
  · have hmode : (a.handles ci).writable = true := (h.writable_eq ci).trans hwrite
    have hknown := hpre hmode
    obtain ⟨xs, hxs⟩ := Option.isSome_iff_exists.mp hknown
    obtain ⟨cs, hc, rfl⟩ := hf.chain _ _ hxs
    have hc₀ := hc
    rw [h.start_eq] at hc₀
    refine (writeBuffer2content_spliced L hs hwrite hc₀ offset data).imp fun r hr => ?_
    obtain ⟨t, v', added, hsp, hbelow, hcontents, hboth⟩ := hr
    have hfailed : allocFailed s r.2 = allocFailed (bothModes s) t := by
      unfold allocFailed
      rw [hbelow.allocs]
      rfl
    have hchain := hsp.file.chain
    rw [dataCa_of_table hboth, bothModes_dataCa, ← h.start_eq] at hchain
    have hs' : Shows m r.2 v' := hsp.shows_after.congr (congrArg Medium.bytes hbelow.medium)
      hbelow.fat
    have hadded : ∀ c ∈ added, InVol m c := fun c hm =>
      hchain.inVol c (List.mem_append_right _ hm)
    have hfrom : ∀ c ∈ cs ++ added, c ∈ cs ∨ v.fat c = FAT_CLUSTER_FREE := fun c hm =>
      (List.mem_append.mp hm).imp id (hsp.free c)
    refine ⟨hcontents, a.put ci (v'.bytesOf (cs ++ added)), v', ?_, hs',
      hf.put L hknown hc hchain hfrom fun a ds _ => hsp.others a ds, fun k ds hsame hk hds => ?_⟩
    · show if (a.handles ci).writable = true then _ else _
      rw [if_pos hmode]
      refine ⟨_, _, r.1, _, hxs, rfl, ?_, rfl⟩
      exact {
        le := hsp.le
        short := fun hlt => by
          rw [hfailed]
          exact List.contains_iff_mem.mpr (hsp.short hlt)
        grown := by
          refine ⟨v.bytesOf added, ?_, ?_⟩
          · rw [hs.length_bytesOf hadded]
            exact Nat.dvd_mul_left _ _
          · rw [hsp.bytes, Vol.bytesOf_append]
        size := fun hall hpos => by
          rw [hs'.length_bytesOf hchain.inVol, hsp.count hall hpos, hs.length_bytesOf hc.inVol,
            Nat.mul_max_mul_right] }
    · have hne : a.start ci ≠ k := fun heq => hsame ⟨hmode, heq⟩
      exact hsp.others k ds hds (hf.apart _ _ _ _ hne hknown hk hc hds)
  · obtain ⟨hs', hk⟩ := registerError_shows L hs .noWriteAccessError
    have hmode : ¬ (a.handles ci).writable = true := by
      rwa [h.writable_eq]
    refine ⟨0, fun fuel _ => ⟨_, if_neg hwrite, .same hk.contents ?_ hs' hf⟩⟩
    show if (a.handles ci).writable = true then _ else _
    rw [if_neg hmode, allocFailed_of_keeps hk]
    exact ⟨rfl, rfl⟩

/-- The clusters of a chain are the pieces of its bytes. -/
theorem bytesOf_take (h : Shows m s v) (hin : ∀ c ∈ cs, InVol m c) (n : Nat) :
    v.bytesOf (cs.take n) = (v.bytesOf cs).take (n * m.fi.clusterSize) := by
  have hsplit : v.bytesOf cs = v.bytesOf (cs.take n) ++ v.bytesOf (cs.drop n) := by
    rw [← Vol.bytesOf_append, List.take_append_drop]
  have hlen := h.length_bytesOf fun c hm => hin c (List.mem_of_mem_take (i := n) hm)
  by_cases hn : n ≤ cs.length
  · rw [List.length_take, Nat.min_eq_left hn] at hlen
    rw [hsplit, ← hlen, List.take_left]
  · have hall := h.length_bytesOf hin
    rw [List.take_of_length_le (by omega), List.take_of_length_le]
    rw [hall]
    exact Nat.mul_le_mul_right _ (by omega)

/-- A deep copy of a file copies the array, or whole clusters of it. -/
theorem copy_done (L : Layout m) {src dst : Int} (hh : a.handles = fileHandle s)
    (hs : Shows m s v) (hf : v.HasFiles m a.files) (hpre : a.Takes (.copy src dst)) :
    Ensures (callFile m (.copy src dst) s) (FileDone m s v a (.copy src dst)) := by
  obtain ⟨hfile, hsome, hsome', hne⟩ := hpre
  have h : StoresFiles m s a := ⟨hh, v, hs, hf⟩
  obtain ⟨xs, hxs⟩ := Option.isSome_iff_exists.mp hsome
  obtain ⟨ys, hys⟩ := Option.isSome_iff_exists.mp hsome'
  obtain ⟨ss, hsrc, rfl⟩ := hf.chain _ _ hxs
  obtain ⟨ds, hdst, rfl⟩ := hf.chain _ _ hys
  have hdis := hf.apart _ _ _ _ hne hsome hsome' hsrc hdst
  obtain ⟨tail, rfl, -⟩ := hdst.path.exists_cons (L.ne_end hdst.head)
  have hnew : a.start dst ∉ ss := fun hm => hdis hm List.mem_cons_self
  have htype : getContentType src s ≠ .directory := by
    rw [congrFun hh src] at hfile
    exact of_decide_eq_true hfile
  apply Ensures.map (f := fun fuel => copyContent m fuel src dst DEEP_COPY s)
  have hdst₀ := hdst
  rw [h.start_eq] at hsrc hdst₀ hnew
  refine (deepCopyContent_shows L hs htype hsrc hdst₀ hnew).imp fun r hr => ?_
  obtain ⟨hok, v', n, es, hc⟩ := hr
  rw [← h.start_eq] at hc
  obtain ⟨hone, hle⟩ := hc.copied
  have hpos := L.clusterSize_pos
  have hlen := hs.length_bytesOf hsrc.inVol
  have hunit : n * m.fi.clusterSize = m.fi.clusterSize ↔ n = 1 := by
    rw [Nat.mul_eq_right (Nat.ne_of_gt hpos)]
  refine ⟨hc.contents, a.put dst (v'.bytesOf (a.start dst :: es)), v', ?_, hc.shows_after,
    hf.put L hsome' hdst hc.chain ?_ fun a ds _ => hc.others a ds, fun k ds hsame hk hds => ?_⟩
  · refine ⟨_, _, _, n * m.fi.clusterSize, allocFailed s r.2, hxs, hys, by rw [hok], ?_, rfl⟩
    exact {
      whole := by
        refine ⟨Nat.dvd_mul_left _ _, Nat.le_mul_of_pos_left _ hone, ?_⟩
        rw [hlen]
        exact Nat.mul_le_mul_right _ hle
      short := fun hlt => by
        rw [hlen] at hlt
        exact List.contains_iff_mem.mpr (hc.short (Nat.lt_of_mul_lt_mul_right hlt))
      bytes := by
        have hraw := hs.length_raw hdst.head
        rw [hc.bytes, bytesOf_take hs hsrc.inVol, Vol.bytesOf_cons, ← hraw, List.drop_left, hraw]
        simp only [hunit] }
  · intro c hm
    cases hc.rest with
    | inl hkept =>
      obtain ⟨-, rfl⟩ := hkept
      exact Or.inl hm
    | inr hnews =>
      cases List.mem_cons.mp hm with
      | inl heq => exact Or.inl (heq ▸ List.mem_cons_self)
      | inr hm => exact Or.inr (hnews.2.2.1 c hm)
  · exact hc.others k ds hds (hf.apart _ _ _ _ hsame hsome' hk hdst hds)

end Step

/-- Each call on files does what the store does. -/
theorem fileCall_done (L : Layout m) {a : FileStore} (c : FileCall) (hh : a.handles = fileHandle s)
    (hs : Shows m s v) (hf : v.HasFiles m a.files) (hpre : a.Takes c) :
    Ensures (callFile m c s) (FileDone m s v a c) := by
  cases c with
  | read ci offset size => exact read_done L hh hs hf offset size hpre
  | write ci offset data => exact write_done L hh hs hf offset data hpre
  | copy src dst => exact copy_done L hh hs hf hpre

theorem fileCall_answers (L : Layout m) {a : FileStore} (c : FileCall) (h : StoresFiles m s a)
    (hpre : a.Takes c) : Ensures (callFile m c s) fun r =>
      ∃ a', a.Answers m.fi.clusterSize c r.1 a' ∧ StoresFiles m r.2 a' := by
  obtain ⟨v, hs, hf⟩ := h.files
  refine (fileCall_done L c h.handles hs hf hpre).imp fun r hr => ?_
  obtain ⟨hcontents, a', v', hans, hs', hf', -⟩ := hr
  refine ⟨a', hans, ?_, v', hs', hf'⟩
  rw [hans.elsewhere.1, h.handles, fileHandle_congr hcontents]

theorem fileCall_simulates (L : Layout m) :
    Simulates (FileStore.spec m.fi.clusterSize) (callFile m) (StoresFiles m) :=
  fun _ _ c h hpre => fileCall_answers L c h hpre

/-- The files of the small volume, as a store. -/
def twoFiles : Nat → Option (List UInt8) := fun ca =>
  if ca = 3 then some (twoFilesVol.bytesOf [3, 4])
  else if ca = 5 then some (twoFilesVol.bytesOf [5, 6]) else none

theorem twoFiles_cases (h : (twoFiles ca).isSome) : ca = 3 ∨ ca = 5 := by
  unfold twoFiles at h
  split at h
  · next h3 => exact Or.inl h3
  split at h
  · next h5 => exact Or.inr h5
  · cases h

theorem twoFiles_stores : ∃ s a, StoresFiles (smallMount 0) s a ∧ (a.file 0).isSome = true ∧
    (a.file 1).isSome = true ∧ (a.handles 0).writable = true := by
  have L := smallMount_layout (Nat.zero_le 1)
  obtain ⟨s, hs, hk⟩ := twoFiles_stored
  have hstart : ∀ ci, getContentDataCa ci s = getContentDataCa ci (zeroFS twoHandles) :=
    fun ci => hk.getContentDataCa ci
  obtain ⟨h3, h5⟩ := twoFiles_chains
  have hdis : List.Disjoint [3, 4] [5, 6] := by simp
  refine ⟨s, ⟨fileHandle s, twoFiles⟩, ⟨rfl, twoFilesVol, hs, ?_, ?_⟩, ?_, ?_, ?_⟩
  · intro ca xs hxs
    have hsome : (twoFiles ca).isSome := Option.isSome_iff_exists.mpr ⟨xs, hxs⟩
    cases twoFiles_cases hsome with
    | inl heq => subst heq; exact ⟨[3, 4], h3, Option.some.inj hxs⟩
    | inr heq => subst heq; exact ⟨[5, 6], h5, Option.some.inj hxs⟩
  · intro ca ca' cs cs' hne hca hca' hc hc'
    rcases twoFiles_cases hca with rfl | rfl <;> rcases twoFiles_cases hca' with rfl | rfl
    · exact absurd rfl hne
    · rw [hc.unique h3 L, hc'.unique h5 L]
      exact hdis
    · rw [hc.unique h5 L, hc'.unique h3 L]
      exact fun c hc hc' => hdis hc' hc
    · exact absurd rfl hne
  · show (twoFiles (getContentDataCa 0 s)).isSome = true
    rw [hstart]
    rfl
  · show (twoFiles (getContentDataCa 1 s)).isSome = true
    rw [hstart]
    rfl
  · show isWriteMode (getContentMode 0 s) = true
    rw [hk.getContentMode]
    decide

/-- A read through `ci` finds `data` at `offset`. -/
def ReadsBack (m : Mount) (ci : Int) (offset : Nat) (data : List UInt8) (s : FS) : Prop :=
  Ensures (fun fuel => readContent2buffer m fuel ci offset data.length s) fun r =>
    r.1 = data.length ∧ r.2.1 = data

/-- What stands in the array of a file is what a read finds. -/
theorem StoresFiles.reads_back (L : Layout m) {a : FileStore} {ci : Int} {offset : Nat}
    {data xs : List UInt8} (h : StoresFiles m s a) (hmode : (a.handles ci).readable = true)
    (hxs : a.file ci = some xs) (hdata : (xs.drop offset).take data.length = data)
    (hlen : data.length ≤ xs.length - offset) : ReadsBack m ci offset data s := by
  have hsome : (a.file ci).isSome := Option.isSome_iff_exists.mpr ⟨xs, hxs⟩
  obtain ⟨bound, hb⟩ := fileCall_answers L (.read ci offset data.length) h fun _ => hsome
  refine ⟨bound, fun fuel hfuel => ?_⟩
  obtain ⟨q, hq, a', ⟨-, hans⟩, -⟩ := hb fuel hfuel
  obtain ⟨r, hr, rfl⟩ := Option.map_eq_some_iff.mp hq
  rw [if_pos hmode] at hans
  obtain ⟨ys, hys, heq⟩ := hans
  obtain rfl := Option.some.inj (hxs.symm.trans hys)
  obtain ⟨hn, hbs⟩ := FileAnswer.bytes.inj heq
  exact ⟨r, hr, hn.trans (Nat.min_eq_left hlen), hbs.trans hdata⟩

end NiFat32
