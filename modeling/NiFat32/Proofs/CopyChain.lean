import NiFat32.Proofs.FileBytes

/-!
# `Proofs.CopyChain`: the deep copy of a file

`DEEP_COPY` walks the chain of the source and copies it cluster by cluster. The first cluster goes
over the first cluster of the destination, each further one into a cluster that
`_add_cluster_to_chain` links behind the last. Whatever followed the first cluster of the
destination is cut off there, and nothing gives it back.

`copyChain_shows` is the loop. It ends early where an allocation fails, and the call answers `1`
all the same (`deepCopyContent_shows`). `deepCopy_file` says when the copy is exact, and when it
loses clusters.
-/

set_option autoImplicit false

namespace NiFat32

open ByteStore Chain Run

variable {m : Mount} {s : FS} {v v' : Vol} {src dst ca : Nat} {ss : List Nat}

/-! ### One cluster -/

/-- Between two areas that lie apart, `DSK_copy_sectors` is one read and one write. -/
theorem copyLoop_eq (hw : m.Works) (sc src dst : Nat) (d : Medium)
    (h : src + sc ≤ dst ∨ dst + sc ≤ src) :
    (copyLoop m m.sectorSize sc src dst d).1 = true ∧
    (copyLoop m m.sectorSize sc src dst d).2.bytes
      = write d.bytes (dst * m.sectorSize)
          (read d.bytes (src * m.sectorSize) (sc * m.sectorSize)) := by
  induction sc generalizing src dst d with
  | zero => simp [copyLoop, ByteStore.read]
  | succ sc ih =>
    have hsrc : (src + 1) * m.sectorSize = src * m.sectorSize + m.sectorSize := Nat.succ_mul _ _
    have hdst : (dst + 1) * m.sectorSize = dst * m.sectorSize + m.sectorSize := Nat.succ_mul _ _
    have hsc : (sc + 1) * m.sectorSize = m.sectorSize + sc * m.sectorSize := by
      rw [Nat.succ_mul, Nat.add_comm]
    unfold copyLoop
    simp only [readSector_eq hw, writeSector_eq hw, Nat.add_zero]
    have hih := ih (src + 1) (dst + 1) ⟨write d.bytes (dst * m.sectorSize)
        (read d.bytes (src * m.sectorSize) m.sectorSize), d.writes + 1,
        d.log ++ [(dst * m.sectorSize, read d.bytes (src * m.sectorSize) m.sectorSize)]⟩ (by omega)
    refine ⟨hih.1, ?_⟩
    -- the sector just written is none of the source that is left
    have hleft : read (write d.bytes (dst * m.sectorSize)
          (read d.bytes (src * m.sectorSize) m.sectorSize)) ((src + 1) * m.sectorSize)
          (sc * m.sectorSize)
        = read d.bytes ((src + 1) * m.sectorSize) (sc * m.sectorSize) := by
      apply read_write_of_disjoint
      rw [length_read]
      cases h with
      | inl hle =>
        left
        rw [← Nat.add_mul]
        exact Nat.mul_le_mul_right _ (by omega)
      | inr hle =>
        right
        rw [← hdst]
        exact Nat.mul_le_mul_right _ (by omega)
    have hmeet := write_append d.bytes (dst * m.sectorSize)
      (read d.bytes (src * m.sectorSize) m.sectorSize)
      (read d.bytes ((src + 1) * m.sectorSize) (sc * m.sectorSize))
    rw [length_read] at hmeet
    rw [hih.2, hleft, hdst, hmeet, hsrc, ← read_add, hsc]

/-- The sectors of a cluster have numbers of 32 bits. -/
theorem clusterSector_end (L : Layout m) (h : InVol m ca) :
    clusterSector m ca + m.fi.sectorsPerCluster < 2 ^ 32 := by
  have hle := L.sectors_le
  have hnext : (ca - m.fi.extRootCluster + 1) * m.fi.sectorsPerCluster
      ≤ m.fi.totalClusters * m.fi.sectorsPerCluster := by
    apply Nat.mul_le_mul_right
    have hlt := h.2
    have hroot := L.root_pos
    omega
  rw [Nat.succ_mul] at hnext
  rw [L.clusterSector_eq h]
  omega

/-- `copy_cluster` between two clusters of the volume. -/
theorem copyCluster_shows (L : Layout m) (h : Shows m s v) (hsrc : InVol m src)
    (hdst : InVol m dst) (hne : src ≠ dst) :
    ∃ n s', copyCluster m src dst m.fi.bytesPerSector s = (n, s') ∧ n ≠ 0 ∧
      Shows m s' (v.setRaw dst (v.raw src)) ∧ Keeps [] s s' := by
  have hpos : 0 < m.fi.sectorsPerCluster := by
    have hcs := L.clusterSize_pos
    rw [L.clusterSize_sectors] at hcs
    exact Nat.pos_of_mul_pos_right hcs
  have hapart : clusterSector m src + m.fi.sectorsPerCluster ≤ clusterSector m dst ∨
      clusterSector m dst + m.fi.sectorsPerCluster ≤ clusterSector m src := by
    have hclusters := L.clusters_apart hsrc hdst hne
    unfold Apart clusterAddr at hclusters
    rw [L.clusterSize_sectors, ← Nat.add_mul, ← Nat.add_mul] at hclusters
    have hss : 0 < m.sectorSize := L.sectorSize_eq ▸ L.sector_pos
    exact hclusters.imp (fun hle => Nat.le_of_mul_le_mul_right hle hss)
      fun hle => Nat.le_of_mul_le_mul_right hle hss
  -- the locks do not refuse areas that lie apart
  have hlocks : ¬ (clusterSector m src < u32 (clusterSector m dst + m.fi.sectorsPerCluster) ∧
      clusterSector m dst < u32 (clusterSector m src + m.fi.sectorsPerCluster)) := by
    rw [u32_of_lt (clusterSector_end L hdst), u32_of_lt (clusterSector_end L hsrc)]
    omega
  have hcopied := copyLoop_eq L.works m.fi.sectorsPerCluster (clusterSector m src)
    (clusterSector m dst) s.medium hapart
  rw [← L.clusterSize_sectors, ← clusterAddr, ← clusterAddr, h.raw_eq hsrc, L.sectorSize_eq]
    at hcopied
  -- the bytes afterwards are those of a write of the whole cluster
  obtain ⟨s₁, he₁, hs₁, hk₁⟩ := writeCluster_shows L h hdst (h.length_raw hsrc)
  have hwritten := writeoffLoop_eq L.works m.fi.sectorsPerCluster (clusterSector m dst) 0
    (v.raw src) s.medium (by rw [h.length_raw hsrc, L.clusterSize_sectors, Nat.zero_add])
  rw [← clusterAddr, Nat.add_zero] at hwritten
  unfold writeCluster writeoffCluster dskWriteoffSectors at he₁
  unfold copyCluster dskCopySectors
  rw [if_neg hlocks]
  cases hc : copyLoop m m.fi.bytesPerSector m.fi.sectorsPerCluster (clusterSector m src)
    (clusterSector m dst) s.medium with
  | mk ok d =>
    rw [hc] at hcopied
    obtain ⟨rfl, hd⟩ := hcopied
    refine ⟨2 * m.fi.sectorsPerCluster, { s with medium := d }, rfl, by omega, ?_,
      rfl, rfl, rfl, (List.append_nil _).symm⟩
    have hs₁' : s₁ = { s with medium := (writeoffLoop m m.fi.sectorsPerCluster
        (clusterSector m dst) 0 (v.raw src) s.medium).2 } := (congrArg Prod.snd he₁).symm
    refine hs₁.congr ?_ ?_
    · rw [hs₁']
      exact hd.trans hwritten.2.symm
    · rw [hs₁']

/-! ### The chain -/

/-- What the loop leaves. The first `1 + added.length` clusters of the source were copied, over
the last cluster of the destination and into free clusters behind it. -/
structure Copied (m : Mount) (v v' : Vol) (ss : List Nat) (dst : Nat) (added : List Nat) :
    Prop where
  le : 1 + added.length ≤ ss.length
  path : Path v'.fat dst (dst :: added) (if added = [] then v.fat dst else FAT_CLUSTER_END)
  free : ∀ c ∈ added, InVol m c ∧ v.fat c = FAT_CLUSTER_FREE
  bytes : v'.bytesOf (dst :: added) = v.bytesOf (ss.take (1 + added.length))
  fat : ∀ c, c ≠ dst → c ∉ added → v'.fat c = v.fat c
  raw : ∀ c, c ≠ dst → c ∉ added → v'.raw c = v.raw c

/-- The last cluster of a copy that stops there. -/
theorem Copied.last (hss : ss ≠ []) (hhead : ss.head? = some src) :
    Copied m v (v.setRaw dst (v.raw src)) ss dst [] where
  le := by
    rw [List.length_nil]
    exact List.length_pos_of_ne_nil hss
  path := ⟨rfl, rfl⟩
  free c hc := absurd hc List.not_mem_nil
  bytes := by
    obtain ⟨rest, rfl⟩ := List.head?_eq_some_iff.mp hhead
    simp [Vol.setRaw_raw_self]
  fat c _ _ := rfl
  raw c hc _ := Vol.setRaw_raw_ne v _ hc

/-- One more cluster in front of a copy: `src` went over `dst`, and `n` was linked behind it. -/
theorem Copied.cons (L : Layout m) {n : Nat} {added : List Nat} (hn : InVol m n)
    (hfree : v.fat n = FAT_CLUSTER_FREE) (hne : n ≠ dst) (hnew : dst ∉ ss)
    (h : Copied m ((v.setRaw dst (v.raw src)).link dst n) v' ss n added) :
    Copied m v v' (src :: ss) dst (n :: added) := by
  have hlast := (v.setRaw dst (v.raw src)).link_fat_last dst n
  have hend := (v.setRaw dst (v.raw src)).link_fat_new hne
  -- neither `dst` nor `n` is free any more
  have hapart : ∀ c ∈ added, c ≠ n ∧ c ≠ dst := by
    intro c hc
    have hcf := (h.free c hc).2
    refine ⟨fun hcn => ?_, fun hcd => ?_⟩
    · rw [hcn, hend] at hcf
      exact absurd hcf (by decide)
    · rw [hcd, hlast] at hcf
      exact L.ne_free hn hcf
  have hdn : dst ∉ added := fun hm => (hapart dst hm).2 rfl
  have hnss : n ∉ added := fun hm => (hapart n hm).1 rfl
  exact {
    le := by
      have hle := h.le
      simp only [List.length_cons]
      omega
    path := by
      rw [if_neg (List.cons_ne_nil n added)]
      refine ⟨rfl, ?_⟩
      rw [h.fat dst (Ne.symm hne) hdn, hlast]
      have hpath := h.path
      rwa [hend, ite_self] at hpath
    free := fun c hc => by
      cases List.mem_cons.mp hc with
      | inl hcn => rw [hcn]; exact ⟨hn, hfree⟩
      | inr hc =>
        obtain ⟨hcn, hcd⟩ := hapart c hc
        have hcf := h.free c hc
        rw [Vol.link_fat_ne _ hcd hcn] at hcf
        exact hcf
    bytes := by
      have hraw : v'.raw dst = v.raw src := by
        rw [h.raw dst (Ne.symm hne) hdn, Vol.link_raw, Vol.setRaw_raw_self]
      have hrest : ((v.setRaw dst (v.raw src)).link dst n).bytesOf (ss.take (1 + added.length))
          = v.bytesOf (ss.take (1 + added.length)) := Vol.bytesOf_congr fun c hc =>
        Vol.setRaw_raw_ne v _ fun hcd => hnew (hcd ▸ List.mem_of_mem_take hc)
      rw [Vol.bytesOf_cons, h.bytes, hrest, hraw, List.length_cons, Nat.add_comm added.length 1,
        Nat.add_comm 1 (1 + added.length), List.take_succ_cons, Vol.bytesOf_cons]
    fat := fun c hcd hc => by
      rw [List.mem_cons, not_or] at hc
      rw [h.fat c hc.1 hc.2, Vol.link_fat_ne _ hcd hc.1]
      rfl
    raw := fun c hcd hc => by
      rw [List.mem_cons, not_or] at hc
      rw [h.raw c hc.1 hc.2, Vol.link_raw, Vol.setRaw_raw_ne v _ hcd] }

/-- The loop of `DEEP_COPY`: it copies the chain of the source, or the part of it for which the
allocator has clusters. -/
theorem copyChain_shows (L : Layout m) {fuel : Nat} (hfuel : ss.length ≤ fuel)
    (hc : HasChain m v src ss) (hdst : InVol m dst) (hused : v.fat dst ≠ FAT_CLUSTER_FREE)
    (hnew : dst ∉ ss) (h : Shows m s v) :
    ∃ s' v' added al, copyChain m fuel src dst s = some (true, s') ∧ Shows m s' v' ∧
      Keeps al s s' ∧ Copied m v v' ss dst added ∧
      (1 + added.length < ss.length → FAT_CLUSTER_BAD ∈ al) := by
  induction fuel generalizing src dst ss s v with
  | zero => exact absurd (List.length_eq_zero_iff.mp (Nat.le_zero.mp hfuel)) (hc.ne_nil L)
  | succ fuel ih =>
    have hmem := hc.head_mem L
    have hne : src ≠ dst := fun heq => hnew (heq ▸ hmem)
    obtain ⟨n, s₁, he₁, hn, hs₁, hk₁⟩ := copyCluster_shows L h hc.head hdst hne
    obtain ⟨s₂, he₂, hs₂, hk₂⟩ := readFat_shows L hs₁ src
    rw [Vol.setRaw_fat] at he₂
    have hk := hk₁.nil_trans hk₂
    unfold copyChain
    simp only [he₁, if_neg hn, he₂]
    cases hc.cases_head L with
    | inl hlast =>
      -- the source ends here
      obtain ⟨rfl, hend⟩ := hlast
      refine ⟨s₂, _, [], [], ?_, hs₂, hk, Copied.last (List.cons_ne_nil _ _) rfl, ?_⟩
      · simp only [hend, ne_eq, not_true_eq_false, if_false, false_and]
      · exact fun hlt => absurd hlt (by simp)
    | inr hrest =>
      obtain ⟨rest, rfl, hrest⟩ := hrest
      have hgo := L.ne_end hrest.head
      have hbad := L.ne_bad hrest.head
      have hnewr : dst ∉ rest := fun hm => hnew (List.mem_cons_of_mem _ hm)
      rw [if_pos hgo]
      obtain ⟨nca, s₃, he₃, hk₃, hgrow⟩ := addClusterToChain_shows L hs₂ hdst
      simp only [he₃]
      cases hgrow with
      | inl hfail =>
        -- the volume is full: the copy ends with the cluster at hand
        obtain ⟨rfl, hs₃⟩ := hfail
        refine ⟨s₃, _, [], _, ?_, hs₃, hk.nil_trans hk₃, Copied.last (List.cons_ne_nil _ _) rfl,
          fun _ => List.mem_singleton.mpr rfl⟩
        rw [if_neg fun hcond => hcond.2.2 rfl]
      | inr hok =>
        obtain ⟨hnin, hnfree, hs₃⟩ := hok
        rw [Vol.setRaw_fat] at hnfree
        have hnrest : nca ∉ rest := fun hm => hrest.not_free L hm hnfree
        have hnd : nca ≠ dst := fun heq => hused (heq ▸ hnfree)
        have hnused : ((v.setRaw dst (v.raw src)).link dst nca).fat nca ≠ FAT_CLUSTER_FREE := by
          rw [Vol.link_fat_new _ hnd]
          decide
        have hrest₃ : HasChain m ((v.setRaw dst (v.raw src)).link dst nca) (v.fat src) rest :=
          hrest.congr fun c hcm => by
            have hcd : c ≠ dst := fun heq => hnewr (heq ▸ hcm)
            have hcn : c ≠ nca := fun heq => hnrest (heq ▸ hcm)
            rw [Vol.link_fat_ne _ hcd hcn]
            rfl
        have hlen : rest.length ≤ fuel := by
          rw [List.length_cons] at hfuel
          omega
        obtain ⟨s₄, v₄, added, al, he₄, hs₄, hk₄, hcp, hshort⟩ :=
          ih hlen hrest₃ hnin hnused hnrest hs₃
        rw [if_pos ⟨hgo, hbad, L.ne_bad hnin⟩]
        refine ⟨s₄, v₄, nca :: added, [nca] ++ al, he₄, hs₄, (hk.nil_trans hk₃).trans hk₄,
          hcp.cons L hnin hnfree hnd hnewr, ?_⟩
        intro hlt
        simp only [List.length_cons] at hlt
        exact List.mem_append_right _ (hshort (by omega))

/-! ### The call -/

/-- What the deep copy of the file with the clusters `ss` makes of the file that starts at `dca`
and goes on with the clusters `tail`. It copies the first `n` clusters: all of them, unless an
allocation failed. -/
structure FileCopied (m : Mount) (s s' : FS) (v v' : Vol) (ss : List Nat) (dca : Nat)
    (tail : List Nat) (n : Nat) (es : List Nat) : Prop where
  shows_after : Shows m s' v'
  contents : s'.contents = s.contents
  copied : 1 ≤ n ∧ n ≤ ss.length
  short : n < ss.length → FAT_CLUSTER_BAD ∈ s'.allocs.drop s.allocs.length
  chain : HasChain m v' dca (dca :: es)
  /-- Behind a single cluster the destination stays, else it is what was allocated. -/
  rest : (n = 1 ∧ es = tail) ∨
    (1 < n ∧ es.length + 1 = n ∧ (∀ c ∈ es, v.fat c = FAT_CLUSTER_FREE) ∧
      ∀ c ∈ tail, v'.fat c = v.fat c)
  bytes : v'.bytesOf (dca :: es)
    = v.bytesOf (ss.take n) ++ if n = 1 then v.bytesOf tail else []
  others : ∀ ca cs, HasChain m v ca cs → List.Disjoint (dca :: tail) cs →
    HasChain m v' ca cs ∧ v'.bytesOf cs = v.bytesOf cs

/-- The copy, seen from the file that it goes over. -/
theorem Copied.file (L : Layout m) {s' : FS} {al added tail : List Nat}
    (hdst : HasChain m v dst (dst :: tail)) (hs : Shows m s' v') (hk : Keeps al s s')
    (h : Copied m v v' ss dst added)
    (hshort : 1 + added.length < ss.length → FAT_CLUSTER_BAD ∈ al) :
    ∃ n es, FileCopied m s s' v v' ss dst tail n es := by
  have hdt : dst ∉ tail := (List.nodup_cons.mp (hdst.nodup L)).1
  have hnew : ∀ {ca : Nat} {cs : List Nat}, HasChain m v ca cs → ∀ c ∈ cs, c ∉ added :=
    fun hc c hm hadd => hc.not_free L hm (h.free c hadd).2
  have hothers : ∀ ca cs, HasChain m v ca cs → List.Disjoint (dst :: tail) cs →
      HasChain m v' ca cs ∧ v'.bytesOf cs = v.bytesOf cs := by
    intro ca cs hc hdis
    have hcd : ∀ c ∈ cs, c ≠ dst := fun c hm heq => hdis List.mem_cons_self (heq ▸ hm)
    exact ⟨hc.congr fun c hm => h.fat c (hcd c hm) (hnew hc c hm),
      Vol.bytesOf_congr fun c hm => h.raw c (hcd c hm) (hnew hc c hm)⟩
  have hout : ∀ c ∈ tail, c ≠ dst ∧ c ∉ added := fun c hm =>
    ⟨fun heq => hdt (heq ▸ hm), hnew hdst c (List.mem_cons_of_mem _ hm)⟩
  have hpath := h.path
  have hbytes := h.bytes
  have hle := h.le
  by_cases hadd : added = []
  · -- one cluster was copied, and the table is the same
    subst hadd
    rw [if_pos rfl] at hpath
    have hfat : ∀ c ∈ dst :: tail, v'.fat c = v.fat c := by
      intro c hm
      cases List.mem_cons.mp hm with
      | inl heq => rw [heq]; exact hpath.2
      | inr hm => exact h.fat c (hout c hm).1 List.not_mem_nil
    refine ⟨1, tail, ?_⟩
    exact {
      shows_after := hs
      contents := hk.contents
      copied := ⟨Nat.le_refl 1, hle⟩
      short := fun hlt => by
        rw [hk.allocs, List.drop_left]
        exact hshort hlt
      chain := hdst.congr hfat
      rest := Or.inl ⟨rfl, rfl⟩
      bytes := by
        have htail : v'.bytesOf tail = v.bytesOf tail := Vol.bytesOf_congr fun c hm =>
          h.raw c (hout c hm).1 List.not_mem_nil
        rw [Vol.bytesOf_cons, Vol.bytesOf_nil, List.append_nil] at hbytes
        rw [Vol.bytesOf_cons, hbytes, htail, if_pos rfl]
        rfl
      others := hothers }
  · have hpos : 0 < added.length := List.length_pos_of_ne_nil hadd
    rw [if_neg hadd] at hpath
    refine ⟨1 + added.length, added, ?_⟩
    exact {
      shows_after := hs
      contents := hk.contents
      copied := ⟨by omega, hle⟩
      short := fun hlt => by
        rw [hk.allocs, List.drop_left]
        exact hshort hlt
      chain := ⟨hpath, fun c hm => by
        cases List.mem_cons.mp hm with
        | inl heq => rw [heq]; exact hdst.head
        | inr hm => exact (h.free c hm).1, hdst.head⟩
      rest := Or.inr ⟨by omega, by omega, fun c hm => (h.free c hm).2,
        fun c hm => h.fat c (hout c hm).1 (hout c hm).2⟩
      bytes := by rw [hbytes, if_neg (by omega), List.append_nil]
      others := hothers }

/-- `DEEP_COPY` of a file over a file with clusters of its own. -/
theorem deepCopyContent_shows (L : Layout m) {sci dci : Int} {tail : List Nat} (h : Shows m s v)
    (hfile : getContentType sci s ≠ .directory) (hsrc : HasChain m v (getContentDataCa sci s) ss)
    (hdst : HasChain m v (getContentDataCa dci s) (getContentDataCa dci s :: tail))
    (hnew : getContentDataCa dci s ∉ ss) :
    Ensures (fun fuel => copyContent m fuel sci dci DEEP_COPY s) fun r => r.1 = true ∧
      ∃ v' n es, FileCopied m s r.2 v v' ss (getContentDataCa dci s) tail n es := by
  refine ⟨ss.length, fun fuel hfuel => ?_⟩
  have hused := hdst.not_free L List.mem_cons_self
  obtain ⟨s', v', added, al, he, hs, hk, hcp, hshort⟩ :=
    copyChain_shows L hfuel hsrc hdst.head hused hnew h
  have htype : getContentType sci s' ≠ .directory := by
    unfold getContentType at hfile ⊢
    rwa [hk.contents]
  obtain ⟨n, es, hcopied⟩ := hcp.file L hdst hs hk hshort
  unfold copyContent deepCopyContent
  beta_reduce
  rw [if_pos rfl]
  simp only [he, if_neg htype]
  exact ⟨(true, s'), rfl, rfl, v', n, es, hcopied⟩

section Effects

variable {s' : FS} {dca n : Nat} {tail es : List Nat}

/-- The copy reads back like the source when all of it was copied, and a source of one cluster
met no further ones; otherwise by accident. -/
theorem FileCopied.bytes_eq_iff (L : Layout m) (h : Shows m s v) (hsrc : HasChain m v src ss)
    (hc : FileCopied m s s' v v' ss dca tail n es) :
    v'.bytesOf (dca :: es) = v.bytesOf ss ↔
      (n = 1 ∧ v.bytesOf tail = v.bytesOf (ss.drop 1)) ∨ (1 < n ∧ n = ss.length) := by
  obtain ⟨hpos, hle⟩ := hc.copied
  have hsplit : v.bytesOf ss = v.bytesOf (ss.take n) ++ v.bytesOf (ss.drop n) := by
    rw [← Vol.bytesOf_append, List.take_append_drop]
  rw [hc.bytes, hsplit, List.append_cancel_left_eq]
  by_cases h1 : n = 1
  · subst h1
    simp
  · rw [if_neg h1]
    have hlen := h.length_bytesOf fun c hm => hsrc.inVol c (List.mem_of_mem_drop (i := n) hm)
    rw [List.length_drop] at hlen
    refine ⟨fun heq => Or.inr ⟨by omega, ?_⟩, fun hor => ?_⟩
    · -- nothing of the source is left over
      rw [← heq, List.length_nil] at hlen
      have hzero := (Nat.mul_eq_zero.mp hlen.symm).resolve_right (Nat.ne_of_gt L.clusterSize_pos)
      omega
    · have hall : ss.length ≤ n := by omega
      rw [List.drop_of_length_le hall, Vol.bytesOf_nil]

/-- The clusters behind the first one of the destination are still used, and no longer reached,
once a second cluster was copied. -/
theorem FileCopied.no_leak_iff (L : Layout m) (hdst : HasChain m v dca (dca :: tail))
    (hc : FileCopied m s s' v v' ss dca tail n es) :
    (∀ c ∈ tail, c ∈ dca :: es ∨ v'.fat c = FAT_CLUSTER_FREE) ↔ n = 1 ∨ tail = [] := by
  have hdt : dca ∉ tail := (List.nodup_cons.mp (hdst.nodup L)).1
  cases hc.rest with
  | inl hone =>
    obtain ⟨hn, rfl⟩ := hone
    exact ⟨fun _ => Or.inl hn, fun _ c hm => Or.inl (List.mem_cons_of_mem _ hm)⟩
  | inr hmore =>
    obtain ⟨hn, _, hfree, hkept⟩ := hmore
    refine ⟨fun hall => Or.inr (List.eq_nil_iff_forall_not_mem.mpr fun c hm => ?_), fun hor => ?_⟩
    · have hused := hdst.not_free L (List.mem_cons_of_mem _ hm)
      cases hall c hm with
      | inr hf => exact hused (hkept c hm ▸ hf)
      | inl hmem =>
        cases List.mem_cons.mp hmem with
        | inl heq => exact hdt (heq ▸ hm)
        | inr he => exact hused (hfree c he)
    · rw [hor.resolve_left (by omega)]
      exact fun c hm => absurd hm List.not_mem_nil

end Effects

/-! ### Two files on the small volume -/

/-- Handle `0` is open on the file at `3`, every other one on the file at `5`. -/
def twoHandles : Nat → Content := fun i => oneFile (if i = 0 then 3 else 5) (R_MODE ||| W_MODE) i

/-- Two files of two clusters. -/
def twoFilesVol : Vol :=
  ((((emptyVol (smallMount 0)).setFat 3 4).setFat 4 FAT_CLUSTER_END).setFat 5 6).setFat 6
    FAT_CLUSTER_END

theorem twoFiles_stored : Stored (smallMount 0) twoHandles twoFilesVol := by
  have L := smallMount_layout (Nat.zero_le 1)
  exact ((((Stored.zero L twoHandles).setFat L (by decide) (by decide)).setFat L (by decide)
    (by decide)).setFat L (by decide) (by decide)).setFat L (by decide) (by decide)

theorem twoFiles_chains : HasChain (smallMount 0) twoFilesVol 3 [3, 4] ∧
    HasChain (smallMount 0) twoFilesVol 5 [5, 6] := by
  refine ⟨⟨⟨rfl, rfl, rfl⟩, ?_, by decide⟩, ⟨⟨rfl, rfl, rfl⟩, ?_, by decide⟩⟩
  all_goals decide

end NiFat32
