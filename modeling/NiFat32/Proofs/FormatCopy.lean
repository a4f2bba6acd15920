import NiFat32.Core.FormatCopy
import NiFat32.Lib.Chain
import NiFat32.Proofs.FormatFat

/-!
# `Proofs.FormatCopy`: where the formatter puts the files

The search for a free cluster never goes back, so that what is taken later lies behind what was
taken before. `Grown` says what a stretch of the run did: it took free clusters, in order, and wrote
nothing but them. Stretches compose (`Grown.trans`).

`copyFile_placed` gives a file its chain and its bytes, `copyFilesLoop_placed` carries the files
that were placed along the loop over the names, and `copied_files_placed` adds the root directory.
-/

set_option autoImplicit false

namespace NiFat32.Formatter

open ByteStore Chain

variable {sz : Sizes} {st st' st'' : CopyState} {prev : Option Nat} {cs ds : List Nat} {c k : Nat}

/-! ### Places in the image -/

/-- The clusters have offsets of their own: the volume is no larger than an `int` product and an
`unsigned int` sum reach. -/
structure Sizes.Room (sz : Sizes) : Prop where
  clusters : sz.totalClusters ≤ 2 ^ 19
  bytes : sz.dataStart + sz.totalClusters * CLUSTER_SIZE ≤ 2 ^ 32

theorem clusterOff_eq (hroom : sz.Room) (hlow : 2 ≤ c) (hc : c < sz.totalClusters) :
    clusterOff sz.dataStart c = sz.dataStart + (c - 2) * CLUSTER_SIZE := by
  have hclusters := hroom.clusters
  have hbytes := hroom.bytes
  unfold CLUSTER_SIZE at hbytes ⊢
  have hint : ((c : Int) - 2) * 4096 = ((c - 2) * 4096 : Nat) := by omega
  unfold clusterOff
  rw [hint, asU32, Int.emod_eq_of_lt (by omega) (by omega), Int.toNat_natCast, u32_of_lt (by omega)]

/-- Two clusters have no byte in common. -/
theorem clusterOff_apart (hroom : sz.Room) {d : Nat} (hlow : 2 ≤ c) (hlt : c < d)
    (hd : d < sz.totalClusters) :
    clusterOff sz.dataStart c + CLUSTER_SIZE ≤ clusterOff sz.dataStart d := by
  rw [clusterOff_eq hroom hlow (by omega), clusterOff_eq hroom (by omega) hd]
  unfold CLUSTER_SIZE
  omega

/-- The chunk stands at the start of the cluster. -/
def ChunkAt (sz : Sizes) (image : Nat → UInt8) (c : Nat) (chunk : List UInt8) : Prop :=
  read image (clusterOff sz.dataStart c) chunk.length = chunk

/-! ### The search for a free cluster -/

theorem findFree_some {table : Nat → Nat} {left i : Nat} (h : findFree table left i = some c) :
    i ≤ c ∧ c < i + left ∧ table c = FAT_CLUSTER_FREE := by
  induction left generalizing i with
  | zero => cases h
  | succ left ih =>
    unfold findFree at h
    split at h
    · next hfree =>
      obtain rfl := Option.some.inj h
      exact ⟨Nat.le_refl _, by omega, hfree⟩
    · obtain ⟨hle, hlt, hfree⟩ := ih h
      exact ⟨by omega, by omega, hfree⟩

theorem findFree_none {table : Nat → Nat} {left i : Nat} (h : findFree table left i = none) :
    ∀ c, i ≤ c → c < i + left → table c ≠ FAT_CLUSTER_FREE := by
  induction left generalizing i with
  | zero =>
    intro c hle hlt
    omega
  | succ left ih =>
    unfold findFree at h
    split at h
    · cases h
    · next hne =>
      intro c hle hlt
      by_cases heq : c = i
      · rwa [heq]
      · exact ih h c (by omega) (by omega)

/-- No cluster is left for the search. -/
def Full (sz : Sizes) (st : CopyState) : Prop :=
  ∀ c, st.lastAlloc ≤ c → c < sz.totalClusters → st.table c ≠ FAT_CLUSTER_FREE

theorem full_of_findFree
    (h : findFree st.table (sz.totalClusters - st.lastAlloc) st.lastAlloc = none) : Full sz st :=
  fun c hle hlt => findFree_none h c hle (by omega)

/-! ### What a stretch of the run takes -/

/-- From `st` to `st'` the free clusters `cs` were taken, in order. The table changed there and at
the cluster `prev` in front of them, the image only inside them. -/
structure Grown (sz : Sizes) (prev : Option Nat) (st st' : CopyState) (cs : List Nat) : Prop where
  sorted : cs.Pairwise (· < ·)
  range : ∀ c ∈ cs, st.lastAlloc ≤ c ∧ c < st'.lastAlloc ∧ c < sz.totalClusters
  free : ∀ c ∈ cs, st.table c = FAT_CLUSTER_FREE
  forth : st.lastAlloc ≤ st'.lastAlloc
  table : ∀ k, k ∉ cs → prev ≠ some k → st'.table k = st.table k
  image : ∀ k, (∀ c ∈ cs, k < clusterOff sz.dataStart c ∨
    clusterOff sz.dataStart c + CLUSTER_SIZE ≤ k) → st'.image k = st.image k

theorem Grown.refl (sz : Sizes) (prev : Option Nat) (st : CopyState) : Grown sz prev st st [] where
  sorted := List.Pairwise.nil
  range _ hc := absurd hc List.not_mem_nil
  free _ hc := absurd hc List.not_mem_nil
  forth := Nat.le_refl _
  table _ _ _ := rfl
  image _ _ := rfl

/-- Stretches compose: the cluster in front of the second one is of the first. -/
theorem Grown.trans {prev' : Option Nat} (h : Grown sz prev st st' cs)
    (h' : Grown sz prev' st' st'' ds) (hprev : ∀ k, prev = some k → k < st.lastAlloc)
    (hprev' : ∀ k, prev' = some k → k ∈ cs ∨ prev = some k) :
    Grown sz prev st st'' (cs ++ ds) where
  sorted := by
    rw [List.pairwise_append]
    refine ⟨h.sorted, h'.sorted, fun c hc d hd => ?_⟩
    have hlt := (h.range c hc).2.1
    have hle := (h'.range d hd).1
    omega
  range c hc := by
    have hforth := h.forth
    have hforth' := h'.forth
    cases List.mem_append.mp hc with
    | inl hm =>
      have hr := h.range c hm
      omega
    | inr hm =>
      have hr := h'.range c hm
      omega
  free c hc := by
    cases List.mem_append.mp hc with
    | inl hm => exact h.free c hm
    | inr hm =>
      -- the second stretch begins behind the first one
      have hle := (h'.range c hm).1
      have hout : c ∉ cs := fun hcs => by
        have hlt := (h.range c hcs).2.1
        omega
      have hne : prev ≠ some c := fun heq => by
        have hlt := hprev c heq
        have hforth := h.forth
        omega
      rw [← h.table c hout hne]
      exact h'.free c hm
  forth := Nat.le_trans h.forth h'.forth
  table k hk hne := by
    rw [List.mem_append, not_or] at hk
    have hne' : prev' ≠ some k := fun heq => (hprev' k heq).elim hk.1 hne
    rw [h'.table k hk.2 hne', h.table k hk.1 hne]
  image k hk := by
    rw [h'.image k fun c hc => hk c (List.mem_append_right _ hc),
      h.image k fun c hc => hk c (List.mem_append_left _ hc)]

/-- When no cluster is left none is taken. -/
theorem Grown.full (h : Grown sz none st st' cs) (hfull : Full sz st) : Full sz st' := by
  intro c hle hc
  have hforth := h.forth
  have hne := hfull c (by omega) hc
  rw [h.table c (fun hm => hne (h.free c hm)) (by simp)]
  exact hne

/-- A chunk that stood before a stretch, in a cluster that it did not take. -/
theorem Grown.chunkAt (hroom : sz.Room) (h : Grown sz prev st st' cs) {chunk : List UInt8}
    (hchunk : ChunkAt sz st.image c chunk) (hlen : chunk.length ≤ CLUSTER_SIZE) (hlow : 2 ≤ c)
    (hc : c < st.lastAlloc) : ChunkAt sz st'.image c chunk := by
  unfold ChunkAt at hchunk ⊢
  rw [← hchunk, length_read]
  apply read_congr
  intro k hle hlt
  apply h.image
  intro d hd
  have hr := h.range d hd
  have hapart := clusterOff_apart hroom hlow (Nat.lt_of_lt_of_le hc hr.1) hr.2.2
  omega

/-- The clusters of a list are linked in order, up to the end. -/
def Linked (table : Nat → Nat) (cs : List Nat) : Prop :=
  ∀ a, cs.head? = some a → Path table a cs FAT_ENTRY_END

theorem Linked.congr {table table' : Nat → Nat} (h : Linked table cs)
    (htable : ∀ c ∈ cs, table' c = table c) : Linked table' cs :=
  fun a ha => (h a ha).congr htable

/-- A cluster in front of a chain. -/
theorem Linked.cons {table : Nat → Nat} {d : Nat} (h : Linked table (d :: cs))
    (hlink : table c = d) : Linked table (c :: d :: cs) := by
  intro a ha
  obtain rfl := Option.some.inj ha
  exact ⟨rfl, hlink ▸ h d rfl⟩

/-- The chunks stand in the clusters. -/
def Holds (sz : Sizes) (image : Nat → UInt8) (cs : List Nat) (chunks : List (List UInt8)) : Prop :=
  List.Forall₂ (fun c chunk => ChunkAt sz image c chunk) cs chunks

theorem Holds.grown (hroom : sz.Room) (h : Grown sz prev st st' ds) {chunks : List (List UInt8)}
    (hholds : Holds sz st.image cs chunks) (hlen : ∀ chunk ∈ chunks, chunk.length ≤ CLUSTER_SIZE)
    (hcs : ∀ c ∈ cs, 2 ≤ c ∧ c < st.lastAlloc) : Holds sz st'.image cs chunks := by
  unfold Holds at hholds ⊢
  induction hholds with
  | nil => exact List.Forall₂.nil
  | cons hchunk hrest ih =>
    have hc := hcs _ List.mem_cons_self
    refine List.Forall₂.cons (h.chunkAt hroom hchunk (hlen _ List.mem_cons_self) hc.1 hc.2) ?_
    exact ih (fun chunk hm => hlen chunk (List.mem_cons_of_mem _ hm))
      fun c hm => hcs c (List.mem_cons_of_mem _ hm)

/-! ### One file -/

/-- One pass of the loop of `_copy_file`: the next free cluster gets the chunk. -/
theorem grown_one (prev : Option Nat) (table : Nat → Nat) {chunk : List UInt8}
    (hlen : chunk.length ≤ CLUSTER_SIZE)
    (hfind : findFree st.table (sz.totalClusters - st.lastAlloc) st.lastAlloc = some c)
    (htable : ∀ k, k ≠ c → prev ≠ some k → table k = st.table k) :
    Grown sz prev st ⟨pwrite st.image chunk (clusterOff sz.dataStart c), table, c + 1⟩ [c] ∧
      ChunkAt sz (pwrite st.image chunk (clusterOff sz.dataStart c)) c chunk := by
  obtain ⟨hle, hlt, hfree⟩ := findFree_some hfind
  refine ⟨?_, read_write_self _ _ _⟩
  exact {
    sorted := List.pairwise_singleton _ c
    range := fun d hd => by
      rw [List.mem_singleton.mp hd]
      exact ⟨hle, Nat.lt_succ_self c, by omega⟩
    free := fun d hd => by
      rw [List.mem_singleton.mp hd]
      exact hfree
    forth := Nat.le_succ_of_le hle
    table := fun k hk hne => htable k (by simpa using hk) hne
    image := fun k hk => by
      have hout := hk c (List.mem_singleton.mpr rfl)
      exact write_of_outside _ _ _ _ (by omega) }

/-- A cluster with its chunk, and the stretch behind it. -/
theorem Grown.first (hroom : sz.Room) (hone : Grown sz prev st st' [c]) {chunk : List UInt8}
    (hat : ChunkAt sz st'.image c chunk) (hlen : chunk.length ≤ CLUSTER_SIZE)
    (hlow : 2 ≤ st.lastAlloc) (hprev : ∀ k, prev = some k → k < st.lastAlloc)
    (h : Grown sz (some c) st' st'' cs) :
    Grown sz prev st st'' (c :: cs) ∧ ∀ {chunks : List (List UInt8)},
      Holds sz st''.image cs chunks → Holds sz st''.image (c :: cs) (chunk :: chunks) := by
  have hc := hone.range c (List.mem_singleton.mpr rfl)
  refine ⟨hone.trans h hprev fun k hk => ?_, fun hholds => List.Forall₂.cons ?_ hholds⟩
  · exact Or.inl (List.mem_singleton.mpr (Option.some.inj hk).symm)
  · exact h.chunkAt hroom hat hlen (Nat.le_trans hlow hc.1) hc.2.1

/-- The loop of `_copy_file`: the chunks go into a chain behind the cluster `prev`. -/
theorem copyFileLoop_placed (hroom : sz.Room) {chunks : List (List UInt8)}
    (hlen : ∀ chunk ∈ chunks, chunk.length ≤ CLUSTER_SIZE) {start size : Nat}
    (hlow : 2 ≤ st.lastAlloc)
    (hprev : ∀ p, prev = some p → p < st.lastAlloc ∧ st.table p = FAT_ENTRY_END)
    {ok : Bool} {start' size' : Nat} (h : copyFileLoop sz chunks prev start size st
      = (ok, start', size', st')) :
    ∃ cs, Grown sz prev st st' cs ∧ Linked st'.table (prev.toList ++ cs) ∧
      start' = (if prev = none then cs.headD start else start) ∧
      (ok = true → Holds sz st'.image cs chunks ∧ size' = size + chunks.flatten.length) ∧
      (ok = false → Full sz st') := by
  induction chunks generalizing prev start size st with
  | nil =>
    obtain ⟨rfl, rfl, rfl, rfl⟩ := h
    refine ⟨[], Grown.refl sz prev _, ?_, ?_, fun _ => ⟨List.Forall₂.nil, rfl⟩,
      fun hok => absurd hok.symm Bool.false_ne_true⟩
    · cases prev with
      | none => exact fun a ha => by cases ha
      | some p =>
        intro a ha
        obtain rfl := Option.some.inj ha
        exact ⟨rfl, (hprev p rfl).2⟩
    · split <;> rfl
  | cons chunk chunks ih =>
    have hchunk := hlen chunk List.mem_cons_self
    have hrest : ∀ chunk' ∈ chunks, chunk'.length ≤ CLUSTER_SIZE := fun chunk' hm =>
      hlen chunk' (List.mem_cons_of_mem _ hm)
    unfold copyFileLoop at h
    cases hfind : findFree st.table (sz.totalClusters - st.lastAlloc) st.lastAlloc with
    | none =>
      -- no cluster is left for the chunk
      rw [hfind] at h
      obtain ⟨rfl, rfl, rfl, rfl⟩ := h
      refine ⟨[], Grown.refl sz prev _, ?_, ?_, fun hok => absurd hok Bool.false_ne_true,
        fun _ => full_of_findFree hfind⟩
      · cases prev with
        | none => exact fun a ha => by cases ha
        | some p =>
          intro a ha
          obtain rfl := Option.some.inj ha
          exact ⟨rfl, (hprev p rfl).2⟩
      · split <;> rfl
    | some c =>
      rw [hfind] at h
      have hc := (findFree_some hfind).1
      have hlow' : 2 ≤ c + 1 := by omega
      have hprev' : ∀ k, prev = some k → k < st.lastAlloc := fun k hk => (hprev k hk).1
      cases prev with
      | none =>
        obtain ⟨hone, hat⟩ := grown_one none (setEntry st.table c FAT_ENTRY_END) hchunk hfind
          fun k hk _ => if_neg hk
        obtain ⟨cs, hgrown, hlinked, hstart, hall, hfull⟩ := ih hrest hlow' (fun p hp => by
          obtain rfl := Option.some.inj hp
          exact ⟨Nat.lt_succ_self _, if_pos rfl⟩) h
        have hfirst := hone.first hroom hat hchunk hlow hprev' hgrown
        refine ⟨c :: cs, hfirst.1, hlinked, hstart, fun hok => ⟨hfirst.2 (hall hok).1, ?_⟩, hfull⟩
        rw [(hall hok).2, List.flatten_cons, List.length_append, Nat.add_assoc]
      | some p =>
        have hplt := hprev' p rfl
        have hpc : p ≠ c := by omega
        obtain ⟨hone, hat⟩ := grown_one (some p)
          (setEntry (setEntry st.table c FAT_ENTRY_END) p c) hchunk hfind
          fun k hk hne => (if_neg fun heq => hne (congrArg some heq.symm)).trans (if_neg hk)
        obtain ⟨cs, hgrown, hlinked, hstart, hall, hfull⟩ := ih hrest hlow' (fun q hq => by
          obtain rfl := Option.some.inj hq
          exact ⟨Nat.lt_succ_self _, (if_neg hpc.symm).trans (if_pos rfl)⟩) h
        have hfirst := hone.first hroom hat hchunk hlow hprev' hgrown
        refine ⟨c :: cs, hfirst.1, hlinked.cons ?_, hstart,
          fun hok => ⟨hfirst.2 (hall hok).1, ?_⟩, hfull⟩
        · -- the link of `p` is not written again
          have hout : p ∉ cs := fun hm => by
            have hr : c + 1 ≤ p := (hgrown.range p hm).1
            omega
          rw [hgrown.table p hout fun heq => hpc (Option.some.inj heq).symm]
          exact if_pos rfl
        · rw [(hall hok).2, List.flatten_cons, List.length_append, Nat.add_assoc]

/-- The first chunks make up the front of the file. -/
theorem flatten_chunks (data : List UInt8) (n : Nat) :
    ((List.range n).map fun i => (data.drop (i * CLUSTER_SIZE)).take CLUSTER_SIZE).flatten
      = data.take (n * CLUSTER_SIZE) := by
  induction n with
  | zero => simp
  | succ n ih =>
    rw [List.range_succ, List.map_append, List.flatten_append, ih, Nat.succ_mul, List.take_add]
    simp

theorem flatten_freadChunks (data : List UInt8) : (freadChunks data).flatten = data := by
  unfold freadChunks
  rw [flatten_chunks]
  apply List.take_of_length_le
  unfold CLUSTER_SIZE
  omega

theorem length_freadChunk {data chunk : List UInt8} (h : chunk ∈ freadChunks data) :
    chunk.length ≤ CLUSTER_SIZE := by
  obtain ⟨i, -, rfl⟩ := List.mem_map.mp h
  exact List.length_take_le _ _

/-- `_copy_file` makes a chain of clusters that were free; when it succeeds they hold the file, and
when it fails none is left. -/
theorem copyFile_placed (hroom : sz.Room) {data : List UInt8} (hlow : 2 ≤ st.lastAlloc) {ok : Bool}
    {start size : Nat} (h : copyFile sz data st = (ok, start, size, st')) :
    ∃ cs, Grown sz none st st' cs ∧ Linked st'.table cs ∧ start = cs.headD 0 ∧
      (ok = true → Holds sz st'.image cs (freadChunks data) ∧ size = data.length) ∧
      (ok = false → Full sz st') := by
  obtain ⟨cs, hgrown, hlinked, hstart, hall, hfull⟩ := copyFileLoop_placed hroom
    (fun chunk hm => length_freadChunk hm) hlow (fun p hp => by cases hp) h
  refine ⟨cs, hgrown, hlinked, hstart, fun hok => ⟨(hall hok).1, ?_⟩, hfull⟩
  rw [(hall hok).2, flatten_freadChunks, Nat.zero_add]

@[simp] theorem length_to83Name (name : List UInt8) : (to83Name name).length = 11 := by
  simp [to83Name]

theorem FormatterEntry.length_bytes {e : FormatterEntry} (h : e.fileName.length = 11) :
    e.bytes.length = FORMATTER_ENTRY_SIZE := by
  simp [FormatterEntry.bytes, h]

@[simp] theorem FormatterEntry.summed_fileName (e : FormatterEntry) :
    e.summed.fileName = e.fileName := rfl

theorem length_newDirEntries (ca : Nat) :
    ((newDirEntries ca).flatMap FormatterEntry.bytes).length = 84 := by
  simp [newDirEntries, FormatterEntry.bytes]

/-- `_create_directory` takes one free cluster and writes the entries of an empty directory. -/
theorem createDirectory_placed {ca : Nat} (h : createDirectory sz st = (some ca, st')) :
    Grown sz none st st' [ca] ∧ st'.table ca = FAT_ENTRY_END ∧
      ChunkAt sz st'.image ca (packMemory ((newDirEntries ca).flatMap FormatterEntry.bytes)) := by
  unfold createDirectory at h
  cases hfind : findFree st.table (sz.totalClusters - st.lastAlloc) st.lastAlloc with
  | none =>
    rw [hfind] at h
    cases h
  | some c =>
    rw [hfind] at h
    obtain ⟨hca, rfl⟩ := Prod.mk.inj h
    obtain rfl := Option.some.inj hca
    have hlen : (packMemory ((newDirEntries c).flatMap FormatterEntry.bytes)).length
        ≤ CLUSTER_SIZE := by
      rw [length_packMemory, length_newDirEntries]
      decide
    have hone := grown_one none (setEntry st.table c FAT_ENTRY_END) hlen hfind
      fun k hk _ => if_neg hk
    exact ⟨hone.1, if_pos rfl, hone.2⟩

theorem createDirectory_none (h : createDirectory sz st = (none, st')) :
    st' = st ∧ Full sz st := by
  unfold createDirectory at h
  cases hfind : findFree st.table (sz.totalClusters - st.lastAlloc) st.lastAlloc with
  | none =>
    rw [hfind] at h
    exact ⟨(Prod.mk.inj h).2.symm, full_of_findFree hfind⟩
  | some c =>
    rw [hfind] at h
    cases (Prod.mk.inj h).1

/-! ### All files -/

/-- What the clusters of a name hold; `ca` is the first one. -/
def SourceNode.chunks (ca : Nat) : SourceNode → List (List UInt8)
  | .directory => [packMemory ((newDirEntries ca).flatMap FormatterEntry.bytes)]
  | .file data => freadChunks data
  | .other => []

/-- The attributes of its entry. -/
def SourceNode.attributes : SourceNode → UInt8
  | .directory => DIR_ATTRIBUTE
  | _ => FILE_ATTRIBUTE

/-- The size in its entry. -/
def SourceNode.size : SourceNode → Nat
  | .file data => data.length
  | _ => 0

/-- A name of the source that got an entry, with the clusters that it took. -/
structure Placed where
  name : List UInt8
  node : SourceNode
  clusters : List Nat
  entry : FormatterEntry

/-- The entry describes the clusters, and these are a chain that holds the contents. -/
structure Placed.Ok (sz : Sizes) (st : CopyState) (f : Placed) : Prop where
  fileName : f.entry.fileName = to83Name f.name
  nameHash : 0 ∉ to83Name f.name → f.entry.nameHash = murmur3 (to83Name f.name) 0
  attributes : f.entry.attributes = f.node.attributes
  cluster : f.entry.cluster = UInt32.ofNat (f.clusters.headD 0)
  fileSize : f.entry.fileSize = UInt32.ofNat f.node.size
  checksum : f.entry = { f.entry with checksum := 0 : FormatterEntry }.summed
  linked : Linked st.table f.clusters
  holds : Holds sz st.image f.clusters (f.node.chunks (f.clusters.headD 0))

/-- The buffer of the root directory with the entries of what was placed, and zeros behind them. -/
def rootWith (placed : List Placed) : List UInt8 :=
  placed.flatMap (fun f => f.entry.bytes)
    ++ List.replicate (CLUSTER_SIZE - placed.length * FORMATTER_ENTRY_SIZE) 0

/-- How far the loop over the names came: the clusters of what was placed are some of those that
were taken, in order, and the buffer has its entries. -/
structure Progress (sz : Sizes) (st₀ st : CopyState) (placed : List Placed) (buf : List UInt8) :
    Prop where
  taken : ∃ cs, Grown sz none st₀ st cs ∧ (placed.flatMap Placed.clusters).Sublist cs
  ok : ∀ f ∈ placed, f.Ok sz st
  root : buf = rootWith placed
  room : placed.length * FORMATTER_ENTRY_SIZE ≤ CLUSTER_SIZE

theorem SourceNode.length_chunk {ca : Nat} {node : SourceNode} {chunk : List UInt8}
    (h : chunk ∈ node.chunks ca) : chunk.length ≤ CLUSTER_SIZE := by
  cases node with
  | directory =>
    rw [List.mem_singleton.mp h, length_packMemory, length_newDirEntries]
    decide
  | file data => exact length_freadChunk h
  | other => exact absurd h List.not_mem_nil

/-- What is placed stays as it is while more is taken. -/
theorem Placed.Ok.grown (hroom : sz.Room) {f : Placed} (hok : f.Ok sz st)
    (h : Grown sz none st st' cs) (hf : ∀ c ∈ f.clusters, 2 ≤ c ∧ c < st.lastAlloc) :
    f.Ok sz st' :=
  { hok with
    linked := hok.linked.congr fun c hc => h.table c (fun hcs => by
      have hlt := (hf c hc).2
      have hle := (h.range c hcs).1
      omega) (by simp)
    holds := hok.holds.grown hroom h (fun chunk hm => SourceNode.length_chunk hm) hf }

section Root

variable {placed : List Placed} {f : Placed} {st₀ : CopyState} {buf : List UInt8}

theorem length_entries (h : ∀ f ∈ placed, f.Ok sz st) :
    (placed.flatMap fun f => f.entry.bytes).length = placed.length * FORMATTER_ENTRY_SIZE := by
  induction placed with
  | nil => rfl
  | cons f placed ih =>
    have hf := h f List.mem_cons_self
    have hname : f.entry.fileName.length = 11 := by rw [hf.fileName, length_to83Name]
    rw [List.flatMap_cons, List.length_append, FormatterEntry.length_bytes hname,
      ih fun g hg => h g (List.mem_cons_of_mem f hg), List.length_cons, Nat.succ_mul,
      Nat.add_comm]

/-- Behind the entries the buffer is zero. -/
theorem rootField_last (h : Progress sz st₀ st placed buf) (off : Nat) :
    rootField buf placed.length off
      = List.replicate (CLUSTER_SIZE - placed.length * FORMATTER_ENTRY_SIZE - off) 0 := by
  unfold rootField
  rw [h.root, rootWith, ← length_entries h.ok, List.drop_length_add_append, List.drop_replicate]

theorem staleChecksum_last (h : Progress sz st₀ st placed buf) :
    staleChecksum buf placed.length = 0 := by
  unfold staleChecksum
  rw [rootField_last h]
  simp [u32OfBytes]

/-- An entry goes behind the others. -/
theorem putRoot_last (h : Progress sz st₀ st placed buf) {e : FormatterEntry}
    (hname : e.fileName.length = 11) {buf' : List UInt8}
    (hput : putRoot buf placed.length e = some buf') :
    (placed.length + 1) * FORMATTER_ENTRY_SIZE ≤ CLUSTER_SIZE ∧
      buf' = placed.flatMap (fun f => f.entry.bytes) ++ e.bytes ++
        List.replicate (CLUSTER_SIZE - (placed.length + 1) * FORMATTER_ENTRY_SIZE) 0 := by
  unfold putRoot at hput
  split at hput
  · next hroom =>
    refine ⟨hroom, ?_⟩
    rw [← Option.some.inj hput]
    unfold splice
    rw [h.root, rootWith, ← length_entries h.ok, List.take_left, List.drop_length_add_append,
      FormatterEntry.length_bytes hname, List.drop_replicate, length_entries h.ok, Nat.succ_mul,
      Nat.sub_sub]
  · cases hput

/-- One more name was placed. -/
theorem Progress.snoc (hroom : sz.Room) (hlow : 2 ≤ st₀.lastAlloc)
    (h : Progress sz st₀ st placed buf) (hgrown : Grown sz none st st' f.clusters)
    (hf : f.Ok sz st') {buf' : List UInt8}
    (hput : putRoot buf placed.length f.entry = some buf') :
    Progress sz st₀ st' (placed ++ [f]) buf' := by
  obtain ⟨cs, hcs, hsub⟩ := h.taken
  have hname : f.entry.fileName.length = 11 := by rw [hf.fileName, length_to83Name]
  obtain ⟨hfit, hbuf⟩ := putRoot_last h hname hput
  refine ⟨⟨cs ++ f.clusters, hcs.trans hgrown (by simp) (by simp), ?_⟩, ?_, ?_, ?_⟩
  · rw [List.flatMap_append, List.flatMap_singleton]
    exact hsub.append (List.Sublist.refl _)
  · intro g hg
    cases List.mem_append.mp hg with
    | inr hnew =>
      rw [List.mem_singleton.mp hnew]
      exact hf
    | inl hold =>
      refine (h.ok g hold).grown hroom hgrown fun c hc => ?_
      have hr := hcs.range c (hsub.subset (List.mem_flatMap.mpr ⟨g, hold, hc⟩))
      omega
  · rw [hbuf, rootWith, List.flatMap_append, List.flatMap_singleton, List.length_append]
    rfl
  · rw [List.length_append]
    exact hfit

/-- Clusters that were taken in vain: a file that did not fit. -/
theorem Progress.skip (hroom : sz.Room) (hlow : 2 ≤ st₀.lastAlloc)
    (h : Progress sz st₀ st placed buf) (hgrown : Grown sz none st st' ds) :
    Progress sz st₀ st' placed buf := by
  obtain ⟨cs, hcs, hsub⟩ := h.taken
  have hsub' := hsub.trans (List.sublist_append_left cs ds)
  refine ⟨⟨cs ++ ds, hcs.trans hgrown (by simp) (by simp), hsub'⟩, fun g hg => ?_, h.root, h.room⟩
  refine (h.ok g hg).grown hroom hgrown fun c hc => ?_
  have hr := hcs.range c (hsub.subset (List.mem_flatMap.mpr ⟨g, hg, hc⟩))
  omega

/-- The entry of a new directory. -/
theorem directoryEntry_ok (h : Progress sz st₀ st placed buf) {ca : Nat} (name : List UInt8)
    (hdir : createDirectory sz st = (some ca, st')) :
    Placed.Ok sz st' ⟨name, .directory, [ca], directoryEntry buf placed.length name ca⟩ := by
  obtain ⟨hgrown, hend, hat⟩ := createDirectory_placed hdir
  have hstale := staleChecksum_last h
  exact {
    fileName := rfl
    nameHash := fun _ => rfl
    attributes := rfl
    cluster := rfl
    fileSize := rfl
    checksum := by
      unfold directoryEntry
      rw [hstale]
      rfl
    linked := fun a ha => by
      obtain rfl := Option.some.inj ha
      exact ⟨rfl, hend⟩
    holds := List.Forall₂.cons hat List.Forall₂.nil }

/-- The entry of a copied file. -/
theorem fileEntry_ok (h : Progress sz st₀ st placed buf) {data : List UInt8} (name : List UInt8)
    (hlinked : Linked st'.table cs) (hholds : Holds sz st'.image cs (freadChunks data)) :
    Placed.Ok sz st' ⟨name, .file data, cs,
      fileEntry buf placed.length name (cs.headD 0) data.length⟩ := by
  exact {
    fileName := rfl
    nameHash := fun hzero => by
      have hall : ∀ c ∈ to83Name name, decide (c ≠ 0) = true := fun c hc =>
        decide_eq_true fun heq => hzero (heq ▸ hc)
      show murmur3 ((to83Name name ++ rootField buf placed.length 11).takeWhile (· ≠ 0)) 0 = _
      rw [rootField_last h, List.takeWhile_append_of_pos hall, List.takeWhile_replicate]
      simp
    attributes := rfl
    cluster := rfl
    fileSize := rfl
    checksum := rfl
    linked := hlinked
    holds := hholds }

/-- The name and the kind of what was placed. -/
def Placed.item (f : Placed) : List UInt8 × SourceNode := (f.name, f.node)

/-- What gets an entry: a file or a directory that is neither `.` nor `..`. -/
def wanted : List UInt8 × SourceNode → Bool
  | (_, .other) => false
  | (name, _) => !(name = dotName ∨ name = dotDotName)

/-- What the loop over `source` placed from `st` to `st'`: what is wanted, in its order, as long as
a cluster was left. -/
structure Ran (sz : Sizes) (source : List (List UInt8 × SourceNode)) (st st' : CopyState)
    (more : List Placed) : Prop where
  sub : (more.map Placed.item).Sublist (source.filter wanted)
  full : Full sz st → Full sz st'
  complete : more.map Placed.item = source.filter wanted ∨ Full sz st'

section Ran

variable {source : List (List UInt8 × SourceNode)} {item : List UInt8 × SourceNode}
  {more : List Placed} {st₁ : CopyState}

theorem Ran.unwanted (hitem : wanted item = false) (h : Ran sz source st st' more) :
    Ran sz (item :: source) st st' more := by
  have hfilter : (item :: source).filter wanted = source.filter wanted :=
    List.filter_cons_of_neg (by simp [hitem])
  exact {
    sub := hfilter ▸ h.sub
    full := h.full
    complete := hfilter ▸ h.complete }

/-- A file or a directory for which no cluster was left. -/
theorem Ran.missed (hfull : Full sz st₁) (h : Ran sz source st₁ st' more) :
    Ran sz (item :: source) st st' more := by
  refine ⟨?_, fun _ => h.full hfull, Or.inr (h.full hfull)⟩
  rw [List.filter_cons]
  split
  · exact h.sub.cons item
  · exact h.sub

theorem Ran.put (hitem : wanted item = true) (hf : f.item = item)
    (hgrown : Grown sz none st st₁ f.clusters) (h : Ran sz source st₁ st' more) :
    Ran sz (item :: source) st st' (f :: more) := by
  have hfilter : (item :: source).filter wanted = item :: source.filter wanted :=
    List.filter_cons_of_pos hitem
  refine ⟨?_, fun hfull => h.full (hgrown.full hfull), h.complete.imp_left fun heq => ?_⟩
  · rw [hfilter, List.map_cons, hf]
    exact h.sub.cons_cons item
  · rw [hfilter, List.map_cons, hf, heq]

end Ran

/-- The loop over the names places what is wanted, as long as clusters are left. -/
theorem copyFilesLoop_placed (hroom : sz.Room) (hlow : 2 ≤ st₀.lastAlloc)
    {source : List (List UInt8 × SourceNode)} (h : Progress sz st₀ st placed buf) {count : Nat}
    {buf' : List UInt8}
    (hrun : copyFilesLoop sz source placed.length buf st = some (count, buf', st')) :
    ∃ more, Progress sz st₀ st' (placed ++ more) buf' ∧ count = (placed ++ more).length ∧
      Ran sz source st st' more := by
  induction source generalizing st placed buf with
  | nil =>
    cases hrun
    exact ⟨[], by rwa [List.append_nil], by rw [List.append_nil], List.Sublist.refl _, id,
      Or.inl rfl⟩
  | cons item source ih =>
    obtain ⟨name, node⟩ := item
    -- a name that is left out
    have hskip : wanted (name, node) = false →
        copyFilesLoop sz source placed.length buf st = some (count, buf', st') →
        ∃ more, Progress sz st₀ st' (placed ++ more) buf' ∧ count = (placed ++ more).length ∧
          Ran sz ((name, node) :: source) st st' more := by
      intro hitem hrun₁
      obtain ⟨more, hp, hcount, hran⟩ := ih h hrun₁
      exact ⟨more, hp, hcount, hran.unwanted hitem⟩
    -- a name for which no cluster is left
    have hmiss : ∀ {st₁ : CopyState}, Progress sz st₀ st₁ placed buf → Full sz st₁ →
        copyFilesLoop sz source placed.length buf st₁ = some (count, buf', st') →
        ∃ more, Progress sz st₀ st' (placed ++ more) buf' ∧ count = (placed ++ more).length ∧
          Ran sz ((name, node) :: source) st st' more := by
      intro st₁ h₁ hfull hrun₁
      obtain ⟨more, hp, hcount, hran⟩ := ih h₁ hrun₁
      exact ⟨more, hp, hcount, hran.missed hfull⟩
    -- a name with the entry of `f`
    have hput : ∀ {st₁ : CopyState} {f : Placed} {buf₁ : List UInt8}, f.item = (name, node) →
        wanted (name, node) = true → Grown sz none st st₁ f.clusters → f.Ok sz st₁ →
        putRoot buf placed.length f.entry = some buf₁ →
        copyFilesLoop sz source (placed.length + 1) buf₁ st₁ = some (count, buf', st') →
        ∃ more, Progress sz st₀ st' (placed ++ more) buf' ∧ count = (placed ++ more).length ∧
          Ran sz ((name, node) :: source) st st' more := by
      intro st₁ f buf₁ hf hitem hgrown hok hroot hrun₁
      have hp₁ := h.snoc hroom hlow hgrown hok hroot
      obtain ⟨more, hp, hcount, hran⟩ := ih hp₁ (by rwa [List.length_append])
      rw [List.append_assoc] at hp hcount
      exact ⟨f :: more, hp, hcount, hran.put hitem hf hgrown⟩
    obtain ⟨cs₀, hcs₀, -⟩ := h.taken
    have hlow' : 2 ≤ st.lastAlloc := Nat.le_trans hlow hcs₀.forth
    unfold copyFilesLoop at hrun
    split at hrun
    · next hdots =>
      refine hskip ?_ hrun
      cases node <;> simp [wanted, hdots]
    next hdots =>
    cases node with
    | other => exact hskip rfl hrun
    | directory =>
      have hitem : wanted (name, .directory) = true := by simp [wanted, hdots]
      cases hdir : createDirectory sz st with
      | mk found st₁ =>
        simp only [hdir] at hrun
        cases found with
        | none =>
          obtain ⟨rfl, hfull⟩ := createDirectory_none hdir
          exact hmiss h hfull hrun
        | some ca =>
          simp only at hrun
          cases hroot : putRoot buf placed.length (directoryEntry buf placed.length name ca) with
          | none =>
            rw [hroot] at hrun
            cases hrun
          | some buf₁ =>
            rw [hroot] at hrun
            have hok := directoryEntry_ok h name hdir
            exact hput rfl hitem (createDirectory_placed hdir).1 hok hroot hrun
    | file data =>
      have hitem : wanted (name, .file data) = true := by simp [wanted, hdots]
      cases hcopy : copyFile sz data st with
      | mk ok rest =>
        obtain ⟨start, size, st₁⟩ := rest
        obtain ⟨cs, hgrown, hlinked, hstart, hall, hfull⟩ := copyFile_placed hroom hlow' hcopy
        simp only [hcopy] at hrun
        cases ok with
        | false => exact hmiss (h.skip hroom hlow hgrown) (hfull rfl) hrun
        | true =>
          obtain ⟨hholds, hsize⟩ := hall rfl
          simp only at hrun
          rw [hstart, hsize] at hrun
          cases hroot : putRoot buf placed.length
            (fileEntry buf placed.length name (cs.headD 0) data.length) with
          | none =>
            rw [hroot] at hrun
            cases hrun
          | some buf₁ =>
            rw [hroot] at hrun
            exact hput rfl hitem hgrown (fileEntry_ok h name hlinked hholds) hroot hrun

end Root

/-! ### The root directory -/

/-- The first bytes of an encoded buffer are the code of its first bytes. -/
theorem take_packMemory (xs : List UInt8) {n : Nat} (hn : n ≤ xs.length) :
    (packMemory xs).take (2 * n) = packMemory (xs.take n) := by
  have hsplit : packMemory xs = packMemory (xs.take n) ++ packMemory (xs.drop n) := by
    unfold packMemory
    rw [← List.flatMap_append, List.take_append_drop]
  rw [hsplit, List.take_left']
  rw [length_packMemory, List.length_take, Nat.min_eq_left hn]

/-- The chunks stay where the image is the same. -/
theorem Holds.congr_image {image image' : Nat → UInt8} {chunks : List (List UInt8)}
    (h : Holds sz image cs chunks) (hlen : ∀ chunk ∈ chunks, chunk.length ≤ CLUSTER_SIZE)
    (himage : ∀ c ∈ cs, ∀ k, clusterOff sz.dataStart c ≤ k →
      k < clusterOff sz.dataStart c + CLUSTER_SIZE → image' k = image k) :
    Holds sz image' cs chunks := by
  unfold Holds at h ⊢
  induction h with
  | nil => exact List.Forall₂.nil
  | cons hchunk hrest ih =>
    have hle := hlen _ List.mem_cons_self
    refine List.Forall₂.cons ?_ (ih (fun chunk hm => hlen chunk (List.mem_cons_of_mem _ hm))
      fun c hc => himage c (List.mem_cons_of_mem _ hc))
    unfold ChunkAt at hchunk ⊢
    rw [← hchunk, length_read]
    exact read_congr _ _ _ _ fun k hlo hhi => himage _ List.mem_cons_self k hlo (by omega)

/-- The name of the last entry is one of zeros. -/
theorem length_lastEntry {st₀ : CopyState} {placed : List Placed} {buf buf' : List UInt8}
    (h : Progress sz st₀ st placed buf) {e : FormatterEntry}
    (hput : putRoot buf placed.length e = some buf') :
    (lastEntry buf placed.length).fileName.length = 11 := by
  unfold putRoot at hput
  split at hput
  · next hroom =>
    rw [lastEntry, FormatterEntry.summed_fileName, rootField_last h]
    unfold CLUSTER_SIZE at hroom ⊢
    unfold FORMATTER_ENTRY_SIZE at hroom ⊢
    simp only [List.length_cons, List.length_take, List.length_replicate]
    omega
  · cases hput

/-- What `_copy_files_to_fs` leaves. What was placed is the wanted part of the source, in its order,
unless the clusters ran out. Their clusters were free and differ. The root directory is cut off
behind its first half, as its code takes two bytes for one. Nothing else of the image changes than
the root directory and free clusters that the search came by. -/
structure FilesPlaced (sz : Sizes) (source : List (List UInt8 × SourceNode)) (st st' : CopyState)
    (placed : List Placed) : Prop where
  names : (placed.map Placed.item).Sublist (source.filter wanted)
  complete : placed.map Placed.item = source.filter wanted ∨ Full sz st'
  apart : (placed.flatMap Placed.clusters).Pairwise (· < ·)
  free : ∀ f ∈ placed, ∀ c ∈ f.clusters, 3 ≤ c ∧ c < sz.totalClusters ∧
    st.table c = FAT_CLUSTER_FREE
  ok : ∀ f ∈ placed, f.Ok sz st'
  root : ∃ last, unpackMemory (read st'.image sz.dataStart CLUSTER_SIZE) (CLUSTER_SIZE / 2)
    = (placed.flatMap (fun f : Placed => f.entry.bytes) ++ FormatterEntry.bytes last ++
      List.replicate (CLUSTER_SIZE - (placed.length + 1) * FORMATTER_ENTRY_SIZE) 0).take
        (CLUSTER_SIZE / 2)
  table : ∀ c, st'.table c = st.table c ∨ st.table c = FAT_CLUSTER_FREE
  image : ∀ k, (k < sz.dataStart ∨ sz.dataStart + CLUSTER_SIZE ≤ k) →
    (∀ c, st.lastAlloc ≤ c → c < st'.lastAlloc → st.table c = FAT_CLUSTER_FREE →
      k < clusterOff sz.dataStart c ∨ clusterOff sz.dataStart c + CLUSTER_SIZE ≤ k) →
    st'.image k = st.image k

theorem copyFilesToFs_placed (hroom : sz.Room) {source : List (List UInt8 × SourceNode)}
    (hlow : 3 ≤ st.lastAlloc)
    (hzero : read st.image sz.dataStart CLUSTER_SIZE = List.replicate CLUSTER_SIZE 0)
    (h : copyFilesToFs sz source st = some st') :
    ∃ placed, FilesPlaced sz source st st' placed := by
  have hstart : Progress sz st st [] (read st.image sz.dataStart CLUSTER_SIZE) := by
    refine ⟨⟨[], Grown.refl sz none st, List.Sublist.refl _⟩, ?_, hzero, Nat.zero_le _⟩
    exact fun f hf => absurd hf List.not_mem_nil
  unfold copyFilesToFs at h
  cases hloop : copyFilesLoop sz source 0 (read st.image sz.dataStart CLUSTER_SIZE) st with
  | none =>
    rw [hloop] at h
    cases h
  | some r =>
    obtain ⟨count, buf, st₁⟩ := r
    rw [hloop] at h
    obtain ⟨placed, hp, hcount, hran⟩ := copyFilesLoop_placed hroom (Nat.le_of_succ_le hlow) hstart
      hloop
    rw [List.nil_append] at hp hcount
    obtain ⟨buf', hput, rfl⟩ := Option.map_eq_some_iff.mp h
    rw [hcount] at hput
    obtain ⟨cs, hgrown, hsubcs⟩ := hp.taken
    have hlast : (lastEntry buf placed.length).fileName.length = 11 := length_lastEntry hp hput
    obtain ⟨hfit, hbuf⟩ := putRoot_last hp hlast hput
    have hlen : buf'.length = CLUSTER_SIZE := by
      rw [hbuf, List.length_append, List.length_append, List.length_replicate,
        FormatterEntry.length_bytes hlast, length_entries hp.ok]
      rw [Nat.succ_mul] at hfit ⊢
      omega
    have hhalf : (packMemory buf').take CLUSTER_SIZE = packMemory (buf'.take (CLUSTER_SIZE / 2)) :=
      take_packMemory buf' (n := CLUSTER_SIZE / 2) (by rw [hlen]; decide)
    have hhalflen : (buf'.take (CLUSTER_SIZE / 2)).length = CLUSTER_SIZE / 2 := by
      rw [List.length_take, hlen]
      decide
    have hwritten : ((packMemory buf').take CLUSTER_SIZE).length = CLUSTER_SIZE := by
      rw [hhalf, length_packMemory, hhalflen]
      decide
    have hfree : ∀ f ∈ placed, ∀ c ∈ f.clusters, 3 ≤ c ∧ c < sz.totalClusters ∧
        st.table c = FAT_CLUSTER_FREE := by
      intro f hf c hc
      have hmem := hsubcs.subset (List.mem_flatMap.mpr ⟨f, hf, hc⟩)
      have hr := hgrown.range c hmem
      exact ⟨by omega, hr.2.2, hgrown.free c hmem⟩
    refine ⟨placed, ?_⟩
    exact {
      names := hran.sub
      complete := hran.complete
      apart := hgrown.sorted.sublist hsubcs
      free := hfree
      ok := fun f hf => { hp.ok f hf with
        holds := (hp.ok f hf).holds.congr_image (fun chunk hm => SourceNode.length_chunk hm)
          fun c hc k hle _ => write_of_outside _ _ _ _ (by
            obtain ⟨hthree, htc, -⟩ := hfree f hf c hc
            rw [clusterOff_eq hroom (by omega) htc] at hle
            rw [hwritten]
            unfold CLUSTER_SIZE at hle ⊢
            omega) }
      root := by
        refine ⟨lastEntry buf placed.length, ?_⟩
        rw [← hbuf]
        have hread := read_write_self st₁.image sz.dataStart ((packMemory buf').take CLUSTER_SIZE)
        rw [hwritten] at hread
        show unpackMemory (read (write st₁.image sz.dataStart _) _ _) _ = _
        rw [hread, hhalf]
        have hround := unpackMemory_packMemory (buf'.take (CLUSTER_SIZE / 2))
        rwa [hhalflen] at hround
      table := fun c => by
        by_cases hc : c ∈ cs
        · exact Or.inr (hgrown.free c hc)
        · exact Or.inl (hgrown.table c hc (by simp))
      image := fun k hroot hk => by
        have hout : k < sz.dataStart ∨
            sz.dataStart + ((packMemory buf').take CLUSTER_SIZE).length ≤ k := by rwa [hwritten]
        refine (write_of_outside _ _ _ _ hout).trans (hgrown.image k fun c hc => ?_)
        have hr := hgrown.range c hc
        exact hk c hr.1 hr.2.1 (hgrown.free c hc) }

/-- The formatter wrote the root directory last, so that the copy starts on zeros. -/
theorem formatAreas_root (o : Opt) (sz : Sizes) (d : Nat → UInt8) :
    read (formatAreas o sz d) sz.dataStart CLUSTER_SIZE = List.replicate CLUSTER_SIZE 0 := by
  unfold formatAreas writeRootDirectory pwrite
  have hread := read_write_self (writeErrors o sz.totalSectors (writeJournals o sz.totalSectors
    (writeBs o sz.totalSectors sz.fatSize d))) sz.dataStart (List.replicate CLUSTER_SIZE 0)
  rwa [List.length_replicate] at hread

/-- An entry is stored as long as the buffer has room for it. -/
theorem putRoot_some {i : Nat} (h : (i + 1) * FORMATTER_ENTRY_SIZE ≤ CLUSTER_SIZE)
    (root : List UInt8) (e : FormatterEntry) :
    ∃ root', putRoot root i e = some root' :=
  ⟨_, if_pos h⟩

/-- The loop comes to its end when the buffer has room for all names. -/
theorem copyFilesLoop_some (sz : Sizes) {source : List (List UInt8 × SourceNode)} {count : Nat}
    (h : (count + source.length) * FORMATTER_ENTRY_SIZE ≤ CLUSTER_SIZE) (root : List UInt8)
    (st : CopyState) :
    ∃ r : Nat × List UInt8 × CopyState, copyFilesLoop sz source count root st = some r ∧
      r.1 ≤ count + source.length := by
  induction source generalizing count root st with
  | nil => exact ⟨_, rfl, Nat.le_refl _⟩
  | cons item source ih =>
    obtain ⟨name, node⟩ := item
    unfold FORMATTER_ENTRY_SIZE CLUSTER_SIZE at h
    rw [List.length_cons] at h ⊢
    have hone : (count + 1) * FORMATTER_ENTRY_SIZE ≤ CLUSTER_SIZE := by
      unfold FORMATTER_ENTRY_SIZE CLUSTER_SIZE
      omega
    -- without an entry, and with one
    have hskip : ∀ (root : List UInt8) (st : CopyState), ∃ r : Nat × List UInt8 × CopyState,
        copyFilesLoop sz source count root st = some r ∧ r.1 ≤ count + (source.length + 1) := by
      intro root st
      obtain ⟨r, hr, hle⟩ := ih (show (count + source.length) * FORMATTER_ENTRY_SIZE ≤ CLUSTER_SIZE
        by unfold FORMATTER_ENTRY_SIZE CLUSTER_SIZE; omega) root st
      exact ⟨r, hr, by omega⟩
    have hput : ∀ (root : List UInt8) (st : CopyState), ∃ r : Nat × List UInt8 × CopyState,
        copyFilesLoop sz source (count + 1) root st = some r ∧
          r.1 ≤ count + (source.length + 1) := by
      intro root st
      obtain ⟨r, hr, hle⟩ := ih
        (show (count + 1 + source.length) * FORMATTER_ENTRY_SIZE ≤ CLUSTER_SIZE
          by unfold FORMATTER_ENTRY_SIZE CLUSTER_SIZE; omega) root st
      exact ⟨r, hr, by omega⟩
    unfold copyFilesLoop
    split
    · exact hskip root st
    cases node with
    | other => exact hskip root st
    | directory =>
      cases hdir : createDirectory sz st with
      | mk found st₁ =>
        cases found with
        | none => exact hskip root st₁
        | some ca =>
          obtain ⟨root₁, hroot⟩ := putRoot_some hone root (directoryEntry root count name ca)
          simp only [hroot]
          exact hput root₁ st₁
    | file data =>
      cases hcopy : copyFile sz data st with
      | mk ok rest =>
        obtain ⟨start, size, st₁⟩ := rest
        cases ok with
        | false =>
          simp only [hcopy]
          exact hskip root st₁
        | true =>
          obtain ⟨root₁, hroot⟩ := putRoot_some hone root
            (fileEntry root count name start size)
          simp only [hcopy, hroot]
          exact hput root₁ st₁

/-- The copy succeeds for up to 145 names: the root directory has 146 entries, one of them the
end. -/
theorem copyFilesToFs_some (sz : Sizes) {source : List (List UInt8 × SourceNode)}
    (h : (source.length + 1) * FORMATTER_ENTRY_SIZE ≤ CLUSTER_SIZE) (st : CopyState) :
    ∃ st', copyFilesToFs sz source st = some st' := by
  unfold FORMATTER_ENTRY_SIZE CLUSTER_SIZE at h
  obtain ⟨r, hr, hle⟩ := copyFilesLoop_some sz (show (0 + source.length) * FORMATTER_ENTRY_SIZE
    ≤ CLUSTER_SIZE by unfold FORMATTER_ENTRY_SIZE CLUSTER_SIZE; omega)
    (read st.image sz.dataStart CLUSTER_SIZE) st
  obtain ⟨count, root, st₁⟩ := r
  obtain ⟨root', hroot⟩ := putRoot_some (i := count)
    (by unfold FORMATTER_ENTRY_SIZE CLUSTER_SIZE; simp only at hle; omega) root
    (lastEntry root count)
  unfold copyFilesToFs
  rw [hr]
  simp only [hroot]
  exact ⟨_, rfl⟩

/-- On a fresh volume what is wanted of the source is placed, in its order, until the clusters run
out. Each gets clusters of its own that were free, linked in order up to the end mark, with the
bytes of the file in them, and an entry with the name, the size, the first cluster and a checksum
that validates. -/
theorem copied_files_placed (o : Opt) (heap : Nat → Nat)
    (source : List (List UInt8 × SourceNode)) (hroom : sz.Room)
    (h : copyFilesToFs sz source ⟨formatAreas o sz fun _ => 0, freshTable o sz heap, 3⟩
      = some st') :
    ∃ placed, FilesPlaced sz source ⟨formatAreas o sz fun _ => 0, freshTable o sz heap, 3⟩ st'
      placed :=
  copyFilesToFs_placed hroom (Nat.le_refl 3) (formatAreas_root o sz _) h

/-- A source with a file and a directory. -/
def twoSources : List (List UInt8 × SourceNode) := [([65], .file [1, 2, 3]), ([66], .directory)]

/-- Both on the large volume. -/
theorem copied_files_placed_two : ∃ st' placed, FilesPlaced largeSizes twoSources
    ⟨formatAreas largeOptions largeSizes fun _ => 0, freshTable largeOptions largeSizes fun _ => 0,
      3⟩ st' placed := by
  have hlen : (twoSources.length + 1) * FORMATTER_ENTRY_SIZE ≤ CLUSTER_SIZE := by decide
  have hroom : largeSizes.Room := ⟨by decide, by decide⟩
  obtain ⟨st', hst'⟩ := copyFilesToFs_some largeSizes hlen
    ⟨formatAreas largeOptions largeSizes fun _ => 0, freshTable largeOptions largeSizes fun _ => 0,
      3⟩
  exact ⟨st', copied_files_placed largeOptions (fun _ => 0) twoSources hroom hst'⟩

end NiFat32.Formatter
