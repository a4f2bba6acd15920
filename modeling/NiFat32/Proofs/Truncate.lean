import NiFat32.Proofs.Rename

/-!
# `Proofs.Truncate`: cutting a file

The loop of `NIFAT32_truncate_content` walks the chain of a file with an offset and a size that
it counts down. With an offset inside the first cluster it keeps the first `size / cs + 1`
clusters (`truncateLoop_keep`), and it gives none back. With an offset behind the first cluster it
frees that one, and loses the rest (`truncateLoop_skip`).

`Truncated` says what the call should do, and `truncate_keeps_clusters_iff` when it does so.
-/

set_option autoImplicit false

namespace NiFat32

open Run

variable {m : Mount} {s s' : FS} {v v' : Vol} {ca : Nat} {fs : List Nat}

/-! ### The loop -/

/-- The volume with the end mark in the cluster `k` of a chain, if there is one. -/
def Vol.cutAt (v : Vol) (fs : List Nat) (k : Nat) : Vol :=
  match fs[k]? with
  | some c => v.setFat c FAT_CLUSTER_END
  | none => v

@[simp] theorem Vol.cutAt_raw (v : Vol) (fs : List Nat) (k : Nat) : (v.cutAt fs k).raw = v.raw := by
  unfold cutAt
  split <;> rfl

/-- Small differences of a size and a cluster size do not wrap. -/
theorem subSize_eq {size clusterSize : Nat} (hs : size < 2 ^ 31) (hc : clusterSize < 2 ^ 24) :
    subSize size clusterSize = (size : Int) - clusterSize := by
  unfold subSize
  rw [Int.bmod_def]
  omega

/-- The end of a pass of the loop: it goes on unless the link ends the chain or is bad. -/
def truncateNext (m : Mount) (fuel ca offset : Nat) (size : Int) (startCa endCa : Nat) (s : FS) :
    Option (Nat × FS) :=
  match readFat m ca s with
  | (next, s) =>
    if next ≠ FAT_CLUSTER_END ∧ next ≠ FAT_CLUSTER_BAD then
      truncateLoop m fuel next offset size startCa endCa s
    else some (startCa, s)

section Pass

variable {fuel offset start : Nat} {size : Int}

/-- A pass in front of the offset frees the cluster. -/
theorem truncateLoop_drop (ho : m.fi.clusterSize < offset) :
    truncateLoop m (fuel + 1) ca offset size start FAT_CLUSTER_BAD s =
      truncateNext m fuel ca (offset - m.fi.clusterSize) size start FAT_CLUSTER_BAD
        (deallocCluster m ca s).2 := by
  have hbad : ¬ FAT_CLUSTER_BAD ≠ FAT_CLUSTER_BAD := fun h => h rfl
  rw [truncateLoop, if_neg hbad, if_pos ho]
  rfl

/-- A pass that keeps the cluster, with size left. -/
theorem truncateLoop_pass (ho : ¬ m.fi.clusterSize < offset)
    (hsize : ¬ subSize size m.fi.clusterSize < 0) :
    truncateLoop m (fuel + 1) ca offset size start FAT_CLUSTER_BAD s =
      truncateNext m fuel ca offset (subSize size m.fi.clusterSize)
        (if start = FAT_CLUSTER_BAD then ca else start) FAT_CLUSTER_BAD s := by
  have hbad : ¬ FAT_CLUSTER_BAD ≠ FAT_CLUSTER_BAD := fun h => h rfl
  rw [truncateLoop, if_neg hbad, if_neg ho]
  simp only [if_neg hsize]
  rfl

/-- The pass that uses the size up marks the cluster as the last one. -/
theorem truncateLoop_last (ho : ¬ m.fi.clusterSize < offset)
    (hsize : subSize size m.fi.clusterSize < 0) {ok : Bool} {s₁ : FS}
    (he : setClusterEnd m ca s = (ok, s₁)) :
    truncateLoop m (fuel + 1) ca offset size start FAT_CLUSTER_BAD s =
      truncateNext m fuel ca offset (subSize size m.fi.clusterSize)
        (if start = FAT_CLUSTER_BAD then ca else start)
          (if ok then ca else FAT_CLUSTER_BAD) s₁ := by
  have hbad : ¬ FAT_CLUSTER_BAD ≠ FAT_CLUSTER_BAD := fun h => h rfl
  rw [truncateLoop, if_neg hbad, if_neg ho]
  simp only [if_pos hsize, he]
  cases ok with
  | false => rfl
  | true => rfl

/-- Where the link stops the loop. -/
theorem truncateNext_stop {endCa : Nat} (L : Layout m) (h : Shows m s v)
    (hstop : v.fat ca = FAT_CLUSTER_END ∨ v.fat ca = FAT_CLUSTER_BAD) :
    ∃ s', truncateNext m fuel ca offset size start endCa s = some (start, s') ∧ Shows m s' v ∧
      Keeps [] s s' := by
  obtain ⟨s', he, hs, hk⟩ := readFat_shows L h ca
  refine ⟨s', ?_, hs, hk⟩
  unfold truncateNext
  rw [he]
  simp only
  rw [if_neg fun hgo => hstop.elim hgo.1 hgo.2]

/-- Where the link leads on. -/
theorem truncateNext_go {endCa : Nat} (L : Layout m) (h : Shows m s v)
    (hgo : v.fat ca ≠ FAT_CLUSTER_END ∧ v.fat ca ≠ FAT_CLUSTER_BAD) :
    ∃ s₁, truncateNext m fuel ca offset size start endCa s =
        truncateLoop m fuel (v.fat ca) offset size start endCa s₁ ∧ Shows m s₁ v ∧
      Keeps [] s s₁ := by
  obtain ⟨s₁, he, hs, hk⟩ := readFat_shows L h ca
  refine ⟨s₁, ?_, hs, hk⟩
  unfold truncateNext
  rw [he]
  simp only
  rw [if_pos hgo]

end Pass

/-- From a cluster at which the file starts to be kept, the loop keeps clusters until the size is
used up. -/
theorem truncateLoop_keep (L : Layout m) {fuel : Nat} (hfuel : fs.length ≤ fuel)
    (hc : HasChain m v ca fs) (h : Shows m s v) {offset : Nat} (ho : offset ≤ m.fi.clusterSize)
    {size : Nat} (hsize : size < 2 ^ 31) (start : Nat) :
    ∃ s', truncateLoop m fuel ca offset size start FAT_CLUSTER_BAD s
        = some (if start = FAT_CLUSTER_BAD then ca else start, s') ∧
      Shows m s' (v.cutAt fs (size / m.fi.clusterSize)) ∧ Keeps [] s s' := by
  induction fuel generalizing ca fs s size start with
  | zero => exact absurd (List.length_eq_zero_iff.mp (Nat.le_zero.mp hfuel)) (hc.ne_nil L)
  | succ fuel ih =>
    have hpos := L.clusterSize_pos
    have hsub := subSize_eq hsize L.clusterSize_lt
    have ho' : ¬ m.fi.clusterSize < offset := Nat.not_lt.mpr ho
    by_cases hlt : size < m.fi.clusterSize
    · -- the last cluster that is kept
      have hneg : subSize size m.fi.clusterSize < 0 := by rw [hsub]; omega
      have hk : size / m.fi.clusterSize = 0 := Nat.div_eq_of_lt hlt
      have hcut : v.cutAt fs 0 = v.setFat ca FAT_CLUSTER_END := by
        cases hc.cases_head L with
        | inl hlast => rw [hlast.1]; rfl
        | inr hrest => rw [hrest.choose_spec.1]; rfl
      obtain ⟨s₁, he₁, hs₁, hk₁⟩ := setClusterEnd_shows L h hc.head
      rw [truncateLoop_last ho' hneg he₁, hk, hcut]
      obtain ⟨s₂, he₂, hs₂, hk₂⟩ := truncateNext_stop L hs₁
        (Or.inl (Vol.setFat_fat_self v ca FAT_CLUSTER_END))
      exact ⟨s₂, he₂, hs₂, hk₁.nil_trans hk₂⟩
    · have hneg : ¬ subSize size m.fi.clusterSize < 0 := by rw [hsub]; omega
      have hcast : subSize size m.fi.clusterSize = ((size - m.fi.clusterSize : Nat) : Int) := by
        rw [hsub]
        omega
      have hk : size / m.fi.clusterSize = (size - m.fi.clusterSize) / m.fi.clusterSize + 1 :=
        Nat.div_eq_sub_div hpos (Nat.not_lt.mp hlt)
      rw [truncateLoop_pass ho' hneg, hcast, hk]
      cases hc.cases_head L with
      | inl hlast =>
        -- the chain ends before the size does
        obtain ⟨rfl, hend⟩ := hlast
        exact truncateNext_stop L h (Or.inl hend)
      | inr hrest =>
        obtain ⟨rest, rfl, hrest⟩ := hrest
        have hin := hrest.head
        obtain ⟨s₁, he₁, hs₁, hk₁⟩ := truncateNext_go L h ⟨L.ne_end hin, L.ne_bad hin⟩
        obtain ⟨s₂, he₂, hs₂, hk₂⟩ := ih (by simp at hfuel; omega) hrest hs₁
          (show size - m.fi.clusterSize < 2 ^ 31 by omega)
          (if start = FAT_CLUSTER_BAD then ca else start)
        have hstart : (if start = FAT_CLUSTER_BAD then ca else start) ≠ FAT_CLUSTER_BAD := by
          by_cases hb : start = FAT_CLUSTER_BAD
          · rw [if_pos hb]
            exact L.ne_bad hc.head
          · rw [if_neg hb]
            exact hb
        rw [he₁, he₂, if_neg hstart]
        exact ⟨s₂, rfl, hs₂, hk₁.nil_trans hk₂⟩

/-- With an offset behind the first cluster, the loop frees that cluster and then follows its
link, which is free by now: it never gets to a cluster that it keeps. -/
theorem truncateLoop_skip (L : Layout m) (fuel : Nat) (hc : InVol m ca) (h : Shows m s v)
    {offset : Nat} (ho : m.fi.clusterSize < offset) (size : Int) :
    ∃ start s', truncateLoop m (fuel + 2) ca offset size FAT_CLUSTER_BAD FAT_CLUSTER_BAD s
        = some (start, s') ∧ (start = FAT_CLUSTER_FREE ∨ start = FAT_CLUSTER_BAD) ∧
      Shows m s' (v.setFat ca FAT_CLUSTER_FREE) ∧ Keeps [] s s' := by
  have hout : ¬ InVol m FAT_CLUSTER_FREE := L.not_inVol_free
  have hne : FAT_CLUSTER_FREE ≠ FAT_CLUSTER_END ∧ FAT_CLUSTER_FREE ≠ FAT_CLUSTER_BAD := by decide
  obtain ⟨s₁, he₁, hs₁, hk₁⟩ := deallocCluster_shows L h hc
  have hlink : (v.setFat ca FAT_CLUSTER_FREE).fat ca = FAT_CLUSTER_FREE :=
      Vol.setFat_fat_self v ca _
  obtain ⟨s₂, he₂, hs₂, hk₂⟩ := truncateNext_go L hs₁ (hlink ▸ hne)
  have hk := hk₁.nil_trans hk₂
  have hbad := hs₂.fat_outside hout
  rw [truncateLoop_drop ho, he₁, he₂, hlink]
  by_cases hlt : m.fi.clusterSize < offset - m.fi.clusterSize
  · obtain ⟨s₃, he₃, hs₃, hk₃⟩ := deallocCluster_outside L hs₂ hout
    obtain ⟨s₄, he₄, hs₄, hk₄⟩ := truncateNext_stop L hs₃ (Or.inr hbad)
    rw [truncateLoop_drop hlt, he₃]
    exact ⟨_, s₄, he₄, Or.inr rfl, hs₄, (hk.nil_trans hk₃).nil_trans hk₄⟩
  · by_cases hneg : subSize size m.fi.clusterSize < 0
    · obtain ⟨s₃, he₃, hs₃, hk₃⟩ := writeFat_outside L hs₂ hout FAT_CLUSTER_END
      obtain ⟨s₄, he₄, hs₄, hk₄⟩ := truncateNext_stop L hs₃ (Or.inr hbad)
      rw [truncateLoop_last hlt hneg he₃]
      exact ⟨_, s₄, he₄, Or.inl rfl, hs₄, (hk.nil_trans hk₃).nil_trans hk₄⟩
    · obtain ⟨s₄, he₄, hs₄, hk₄⟩ := truncateNext_stop L hs₂ (Or.inr hbad)
      rw [truncateLoop_pass hlt hneg]
      exact ⟨_, s₄, he₄, Or.inl rfl, hs₄, hk.nil_trans hk₄⟩

/-! ### The volume after the loop -/

theorem Vol.cutAt_of_le {k : Nat} (hk : fs.length ≤ k) : v.cutAt fs k = v := by
  unfold cutAt
  rw [List.getElem?_eq_none hk]

theorem Vol.cutAt_fat_ne {k c : Nat} (hc : fs[k]? ≠ some c) : (v.cutAt fs k).fat c = v.fat c := by
  unfold cutAt
  cases hk : fs[k]? with
  | none => rfl
  | some d =>
    have hne : c ≠ d := fun heq => hc (heq ▸ hk)
    exact Vol.setFat_fat_ne v FAT_CLUSTER_END hne

/-- A chain that is cut at a cluster keeps the clusters up to it. -/
theorem HasChain.cutAt {k : Nat} (hc : HasChain m v ca fs) (L : Layout m) :
    HasChain m (v.cutAt fs k) ca (fs.take (k + 1)) := by
  by_cases hk : k < fs.length
  · have hget : fs[k]? = some fs[k] := List.getElem?_eq_getElem hk
    have hnodup := hc.nodup L
    have hsplit : fs.take k ++ fs[k] :: fs.drop (k + 1) = fs := by
      rw [← List.drop_eq_getElem_cons hk, List.take_append_drop]
    have htake : fs.take (k + 1) = fs.take k ++ [fs[k]] := List.take_succ_eq_append_getElem hk
    have hpath := hc.path
    rw [← hsplit] at hpath
    obtain ⟨last, hfront, hlast, _⟩ := Chain.Path.append_iff.mp hpath
    refine ⟨?_, fun c hcm => hc.inVol c (List.mem_of_mem_take hcm), hc.head⟩
    rw [htake]
    refine Chain.Path.append_iff.mpr ⟨last, hfront.congr fun c hcm => ?_, hlast, ?_⟩
    · -- a cluster in front of the cut is a different one
      refine Vol.cutAt_fat_ne fun heq => ?_
      rw [← hsplit, List.nodup_append] at hnodup
      have hck : fs[k] = c := Option.some.inj (hget.symm.trans heq)
      exact hnodup.2.2 c hcm fs[k] List.mem_cons_self hck.symm
    · show (v.cutAt fs k).fat fs[k] = FAT_CLUSTER_END
      unfold Vol.cutAt
      rw [hget]
      exact Vol.setFat_fat_self v _ _
  · have hle : fs.length ≤ k := Nat.not_lt.mp hk
    rw [Vol.cutAt_of_le hle, List.take_of_length_le (by omega)]
    exact hc

/-- A cut at the last cluster or behind it changes nothing. -/
theorem HasChain.cutAt_fat {k : Nat} (hc : HasChain m v ca fs) (L : Layout m)
    (hk : fs.length - 1 ≤ k) (c : Nat) : (v.cutAt fs k).fat c = v.fat c := by
  by_cases hlast : fs[k]? = some c
  · obtain ⟨hlt, hget⟩ := List.getElem?_eq_some_iff.mp hlast
    have hne : fs ≠ [] := hc.ne_nil L
    have hc' : fs.getLast hne = c := by
      rw [List.getLast_eq_getElem, ← hget]
      congr 1
      omega
    have hpath : HasChain m v ca (fs.dropLast ++ [c]) := by
      rw [← hc', List.dropLast_append_getLast hne]
      exact hc
    unfold Vol.cutAt
    rw [hlast]
    exact (Vol.setFat_fat_self v c _).trans hpath.fat_last.symm
  · exact Vol.cutAt_fat_ne hlast

/-- What the loop leaves: with an offset up to the first cluster it starts to keep there, and with
a larger one it gives the first cluster back and finds no other. -/
def LoopLeaves (m : Mount) (v : Vol) (ca : Nat) (fs : List Nat) (offset size start : Nat)
    (v₁ : Vol) : Prop :=
  (offset ≤ m.fi.clusterSize ∧ start = ca ∧ v₁ = v.cutAt fs (size / m.fi.clusterSize)) ∨
  (m.fi.clusterSize < offset ∧ (start = FAT_CLUSTER_FREE ∨ start = FAT_CLUSTER_BAD) ∧
    v₁ = v.setFat ca FAT_CLUSTER_FREE)

namespace LoopLeaves

variable {offset size start : Nat} {v₁ : Vol}

/-- The loop changes links of the chain only. -/
theorem frame (h : LoopLeaves m v ca fs offset size start v₁) (hca : ca ∈ fs) :
    v₁.raw = v.raw ∧ ∀ c, c ∉ fs → v₁.fat c = v.fat c := by
  cases h with
  | inl hkeep =>
    obtain ⟨_, _, rfl⟩ := hkeep
    refine ⟨Vol.cutAt_raw v fs _, ?_⟩
    intro c hc
    exact Vol.cutAt_fat_ne fun heq => hc (List.mem_of_getElem? heq)
  | inr hskip =>
    obtain ⟨_, _, rfl⟩ := hskip
    refine ⟨rfl, ?_⟩
    intro c hc
    exact Vol.setFat_fat_ne v _ fun heq => hc (heq ▸ hca)

end LoopLeaves

theorem truncateLoop_leaves (L : Layout m) {fuel : Nat} (hfuel : fs.length + 2 ≤ fuel)
    (hc : HasChain m v ca fs) (h : Shows m s v) (offset : Nat) {size : Nat}
    (hsize : size < 2 ^ 31) :
    ∃ start s₁ v₁, truncateLoop m fuel ca offset size FAT_CLUSTER_BAD FAT_CLUSTER_BAD s
        = some (start, s₁) ∧ LoopLeaves m v ca fs offset size start v₁ ∧ Shows m s₁ v₁ ∧
      Keeps [] s s₁ := by
  by_cases ho : offset ≤ m.fi.clusterSize
  · have hle : fs.length ≤ fuel := by omega
    obtain ⟨s₁, he, hs, hk⟩ := truncateLoop_keep L hle hc h ho hsize FAT_CLUSTER_BAD
    exact ⟨ca, s₁, _, he, Or.inl ⟨ho, rfl, rfl⟩, hs, hk⟩
  · have hlt : m.fi.clusterSize < offset := Nat.not_le.mp ho
    obtain ⟨fuel, rfl⟩ : ∃ n, fuel = n + 2 := ⟨fuel - 2, by omega⟩
    obtain ⟨start, s₁, he, hstart, hs, hk⟩ := truncateLoop_skip L fuel hc.head h hlt size
    exact ⟨start, s₁, _, he, Or.inr ⟨hlt, hstart, rfl⟩, hs, hk⟩

/-! ### The call -/

/-- The clusters that hold the `size` bytes from `offset` on. -/
def keptClusters (m : Mount) (fs : List Nat) (offset size : Nat) : List Nat :=
  (fs.take ((offset + size - 1) / m.fi.clusterSize + 1)).drop (offset / m.fi.clusterSize)

/-- What a truncation of the file `x` with the clusters `fs` should leave. -/
structure Truncated (m : Mount) (s s' : FS) (dir : Nat) (x : Nat × DirEntry) (fs : List Nat)
    (offset size : Nat) : Prop where
  found : ∀ c, fs[offset / m.fi.clusterSize]? = some c →
    Ensures (fun fuel => entrySearch m fuel x.2.fileName dir NO_ECACHE s') fun r =>
      ∃ e, r.1 = some e ∧ e.fileName = x.2.fileName ∧ e.fileSize.toNat = size ∧ e.dca.toNat = c
  chain : ∀ c, fs[offset / m.fi.clusterSize]? = some c →
    HasChain m (view m s') c (keptClusters m fs offset size)
  freed : ∀ c ∈ fs, c ∉ keptClusters m fs offset size → (view m s').fat c = FAT_CLUSTER_FREE
  bytes : ∀ c, (∀ cs, HasChain m (view m s) dir cs → c ∉ cs) →
    (view m s').raw c = (view m s).raw c
  others : ∀ cs, HasChain m (view m s) dir cs →
    ((view m s').entries m cs).filter (fun y => y.2.fileName ≠ x.2.fileName)
      = ((view m s).entries m cs).filter fun y => y.2.fileName ≠ x.2.fileName
  otherChains : ∀ ca cs, HasChain m (view m s) ca cs → cs.Disjoint fs →
    HasChain m (view m s') ca cs

/-- When a truncation does what it should: it starts in the first cluster, the size is used up in
the last cluster or behind it, and so is the part that is kept; and the checksum of the new entry
is the zero that the call stores. -/
def TruncateOk (m : Mount) (x : Nat × DirEntry) (fs : List Nat) (offset size : Nat) : Prop :=
  offset < m.fi.clusterSize ∧ (fs.length - 1) * m.fi.clusterSize ≤ size ∧
    (fs.length - 1) * m.fi.clusterSize < offset + size ∧
    (createEntry x.2.fileName false x.2.dca.toNat size).computedChecksum = 0

section Call

variable {ci : Int} {dir : Nat} {pre cs ds : List Nat} {x : Nat × DirEntry} {offset size : Nat}

/-- The state after a truncation: the loop, and then the edit of the entry. -/
theorem truncateContent_shows (offset : Nat) (L : Layout m) (h : Shows m s v)
    (hh : HandleOf m s v ci dir (pre ++ ds) ds x)
    (hmode : isWriteMode (getContentMode ci s) = true) (hc : HasChain m v x.2.dca.toNat fs)
    (hdisj : (pre ++ ds).Disjoint fs) (hsize : size < 2 ^ 31) {fuel : Nat}
    (hfuel : fs.length + 2 + ds.length ≤ fuel) :
    ∃ start s₁ v₁ s' v' t, truncateContent m fuel ci offset size s = some (true, s') ∧
      LoopLeaves m v x.2.dca.toNat fs offset size start v₁ ∧
      AfterEdit m s₁ s' v₁ v' ci dir pre ds x (createEntry x.2.fileName false start size) t := by
  obtain ⟨start, s₁, v₁, he₁, hl, hs₁, hk₁⟩ := truncateLoop_leaves L
    (show fs.length + 2 ≤ fuel by omega) hc h offset hsize
  obtain ⟨hraw, hfat⟩ := hl.frame (hc.head_mem L)
  -- the loop leaves the directory alone
  have hag : Agree m v v₁ (pre ++ ds) :=
    Agree.of_raw fun c hcm => ⟨hfat c fun hcf => hdisj hcm hcf, by rw [hraw]⟩
  have hh₁ := hh.congr hk₁.contents hag
  have hcast : ((size : Int) % 2 ^ 32).toNat = size := by omega
  obtain ⟨s', v', t, he', hafter⟩ := (hh₁.edit L hs₁ NO_ECACHE
    (createEntry x.2.fileName false start size) rfl rfl (by omega : ds.length ≤ fuel)).resolve_left
      fun hstuck => hstuck.1 rfl
  refine ⟨start, s₁, v₁, s', v', t, ?_, hl, hafter⟩
  unfold truncateContent
  rw [if_pos hmode, hh.data, he₁]
  simp only
  rw [hh₁.name, hh₁.root, hcast]
  simp only
  rw [he']
  rfl

/-- The condition is necessary. -/
theorem truncateOk_of_truncated (L : Layout m) {s₁ : FS} {v₁ : Vol} {start : Nat} {t : Slot}
    (hc : HasChain m v x.2.dca.toNat fs) (hl : LoopLeaves m v x.2.dca.toNat fs offset size start v₁)
    (hafter : AfterEdit m s₁ s' v₁ v' ci dir pre ds x (createEntry x.2.fileName false start size) t)
    (hsize : 0 < size) (hle : offset + size ≤ fs.length * m.fi.clusterSize)
    (ht : Truncated m s s' dir x fs offset size) : TruncateOk m x fs offset size := by
  have hpos := L.clusterSize_pos
  have hnodup := hc.nodup L
  have ha : offset / m.fi.clusterSize < fs.length := by
    rw [Nat.div_lt_iff_lt_mul hpos]
    omega
  have hget := List.getElem?_eq_getElem ha
  -- the entry that is found is the new one
  obtain ⟨r, ⟨e, hr, hename, _, hdca⟩, hfirst⟩ :=
    ((ht.found _ hget).and (hafter.search L x.2.fileName)).result
  rw [hr] at hfirst
  obtain ⟨y, hy, rfl⟩ := Option.map_eq_some_iff.mp hfirst.symm
  obtain ⟨hvalid, rfl⟩ := hafter.valid_of_found L rfl (List.mem_of_find?_eq_some hy) hename
  have hstart : start % 2 ^ 32 = fs[offset / m.fi.clusterSize] := by
    rw [← hdca]
    exact (UInt32.toNat_ofNat' (n := start)).symm
  have hin := hc.inVol _ (List.getElem_mem ha)
  obtain ⟨ho, rfl, rfl⟩ : offset ≤ m.fi.clusterSize ∧ start = x.2.dca.toNat ∧
      v₁ = v.cutAt fs (size / m.fi.clusterSize) := by
    refine hl.resolve_right ?_
    rintro ⟨_, hfree | hbad, _⟩
    · rw [hfree] at hstart
      exact L.ne_free hin hstart.symm
    · rw [hbad] at hstart
      exact L.ne_bad hin hstart.symm
  obtain ⟨rest, hrest, _⟩ := hc.path.exists_cons (L.ne_end hc.head)
  have h0 : fs[0]? = some x.2.dca.toNat := by rw [hrest]; rfl
  have hzero : offset / m.fi.clusterSize = 0 := by
    rw [Nat.mod_eq_of_lt (UInt32.toNat_lt _)] at hstart
    rw [hstart, ← hget] at h0
    exact (List.getElem?_inj ha hnodup).mp h0.symm
  have hlt : offset < m.fi.clusterSize := by
    rcases Nat.div_eq_zero_iff.mp hzero with hcs | hlt
    · omega
    · exact hlt
  -- the chain from the first cluster on is cut where the loop cuts it
  have hb : (offset + size - 1) / m.fi.clusterSize < fs.length := by
    rw [Nat.div_lt_iff_lt_mul hpos]
    omega
  have hkept : keptClusters m fs offset size
      = fs.take ((offset + size - 1) / m.fi.clusterSize + 1) := by
    unfold keptClusters
    rw [hzero, List.drop_zero]
  have hchain := ht.chain _ hget
  have hfreed := ht.freed
  rw [hafter.after.view_eq, hkept] at hchain
  rw [hafter.after.view_eq, hkept, hafter.fat] at hfreed
  rw [Nat.mod_eq_of_lt (UInt32.toNat_lt _)] at hstart
  rw [← hstart] at hchain
  have hcut : HasChain m v' x.2.dca.toNat (fs.take (size / m.fi.clusterSize + 1)) :=
    (hc.cutAt L).congr fun c _ => by rw [hafter.fat]
  have hlen := congrArg List.length (hchain.unique hcut L)
  rw [List.length_take, List.length_take] at hlen
  -- a cluster behind the cut would not be free
  have hk : fs.length ≤ size / m.fi.clusterSize + 1 := by
    by_contra hgt
    have hlast : fs.length - 1 < fs.length := by omega
    have hmem : fs[fs.length - 1] ∈ fs := List.getElem_mem hlast
    have hnot : fs[fs.length - 1] ∉ fs.take ((offset + size - 1) / m.fi.clusterSize + 1) := by
      intro hin
      obtain ⟨i, hi, heq⟩ := List.mem_take_iff_getElem.mp hin
      have := (List.Nodup.getElem_inj_iff hnodup).mp heq
      omega
    have hne : fs[size / m.fi.clusterSize]? ≠ some fs[fs.length - 1] := by
      intro heq
      rw [← List.getElem?_eq_getElem hlast] at heq
      have := (List.getElem?_inj (by omega) hnodup).mp heq
      omega
    have hfree := hfreed _ hmem hnot
    rw [Vol.cutAt_fat_ne hne] at hfree
    exact hc.not_free L hmem hfree
  have hbn : fs.length - 1 ≤ (offset + size - 1) / m.fi.clusterSize := by omega
  have hkn : fs.length - 1 ≤ size / m.fi.clusterSize := by omega
  rw [Nat.le_div_iff_mul_le hpos] at hbn hkn
  exact ⟨hlt, hkn, by omega, hafter.valid_iff.mp hvalid⟩

/-- The condition is enough. -/
theorem truncated_of_truncateOk (L : Layout m) (h : Shows m s v) {s₁ : FS} {v₁ : Vol}
    {start : Nat} {t : Slot} (hc : HasChain m v x.2.dca.toNat fs)
    (hl : LoopLeaves m v x.2.dca.toNat fs offset size start v₁)
    (hafter : AfterEdit m s₁ s' v₁ v' ci dir pre ds x (createEntry x.2.fileName false start size) t)
    (hchain : HasChain m v dir (pre ++ ds)) (hsize : size < 2 ^ 31)
    (hle : offset + size ≤ fs.length * m.fi.clusterSize) (hok : TruncateOk m x fs offset size) :
    Truncated m s s' dir x fs offset size := by
  obtain ⟨hlt, hkn, hbn, hsum⟩ := hok
  have hpos := L.clusterSize_pos
  obtain ⟨rest, hrest, _⟩ := hc.path.exists_cons (L.ne_end hc.head)
  obtain ⟨_, rfl, rfl⟩ : offset ≤ m.fi.clusterSize ∧ start = x.2.dca.toNat ∧
      v₁ = v.cutAt fs (size / m.fi.clusterSize) := by
    refine hl.resolve_right ?_
    rintro ⟨hgt, _⟩
    omega
  have hn : 0 < fs.length := by rw [hrest]; simp
  have hk : fs.length - 1 ≤ size / m.fi.clusterSize := (Nat.le_div_iff_mul_le hpos).mpr hkn
  have hb : (offset + size - 1) / m.fi.clusterSize = fs.length - 1 := by
    rw [Nat.div_eq_iff hpos]
    have hmul : fs.length * m.fi.clusterSize
        = (fs.length - 1) * m.fi.clusterSize + m.fi.clusterSize := by
      rw [← Nat.succ_mul, Nat.succ_eq_add_one, Nat.sub_add_cancel hn]
    omega
  have hzero : offset / m.fi.clusterSize = 0 := Nat.div_eq_of_lt hlt
  have hkept : keptClusters m fs offset size = fs := by
    unfold keptClusters
    rw [hzero, hb, List.drop_zero, List.take_of_length_le (by omega)]
  have h0 : ∀ c, fs[offset / m.fi.clusterSize]? = some c → c = x.2.dca.toNat := by
    intro c hget
    rw [hzero, hrest] at hget
    exact (Option.some.inj hget).symm
  have hvalid := hafter.valid_iff.mpr hsum
  -- the links are as before, so are the bytes outside the directory
  have hfat : ∀ c, v'.fat c = v.fat c := by
    intro c
    rw [hafter.fat]
    exact hc.cutAt_fat L hk c
  have hentries : v.entries m (pre ++ ds) = (v.cutAt fs (size / m.fi.clusterSize)).entries m
      (pre ++ ds) := by
    refine (Vol.entries_congr fun c _ => ?_).symm
    exact congrArg live (Vol.slots_congr (by rw [Vol.cutAt_raw]))
  refine ⟨?_, ?_, ?_, ?_, ?_, ?_⟩
  · intro c hget
    obtain rfl := h0 c hget
    refine (hafter.search L x.2.fileName).imp ?_
    intro r hr
    rw [hafter.found L rfl hvalid] at hr
    have hsize' : (UInt32.ofNat size).toNat = size :=
      UInt32.toNat_ofNat_of_lt' (show size < 2 ^ 32 by omega)
    exact ⟨_, hr, rfl, hsize', congrArg UInt32.toNat UInt32.ofNat_toNat⟩
  · intro c hget
    obtain rfl := h0 c hget
    rw [hafter.after.view_eq, hkept]
    exact hc.congr fun c _ => hfat c
  · intro c hmem hnot
    rw [hkept] at hnot
    exact absurd hmem hnot
  · intro c hout
    have hnot : c ∉ ds := by
      intro hmem
      refine hout (pre ++ ds) ?_ (List.mem_append_right pre hmem)
      rw [h.view_eq]
      exact hchain
    rw [hafter.after.view_eq, h.view_eq, hafter.replaced.raw c hnot, Vol.cutAt_raw]
  · intro cs hcs
    rw [h.view_eq] at hcs
    obtain rfl := hcs.unique hchain L
    rw [hafter.after.view_eq, h.view_eq, hentries, hafter.entries_old, hafter.entries_new L hvalid
      (hafter.first_ne rfl).1 (hafter.first_ne rfl).2]
    -- the filter drops the entry of the file
    have hdrop : ∀ (A B : List (Nat × DirEntry)) (y : Nat × DirEntry),
        y.2.fileName = x.2.fileName → (A ++ y :: B).filter (fun y => y.2.fileName ≠ x.2.fileName)
          = (A ++ B).filter fun y => y.2.fileName ≠ x.2.fileName := by
      intro A B y hy
      rw [List.filter_append, List.filter_append, List.filter_cons_of_neg (by simp [hy])]
    rw [hdrop _ _ (x.1, createEntry x.2.fileName false x.2.dca.toNat size) rfl, hdrop _ _ x rfl]
  · intro ca cs hcs _
    rw [h.view_eq] at hcs
    rw [hafter.after.view_eq]
    exact hcs.congr fun c _ => hfat c

end Call

/-! ### A file of two clusters -/

/-- The small volume with the file `A` of two clusters in its root directory. -/
def twoClusterVol : Vol := (oneEntryVol (letterFile 0x41 3)).setFat 3 4

/-- The file in it. -/
def twoClusterFile : Nat × DirEntry := (2, storedIn (letterFile 0x41 3) 2)

theorem twoCluster_file : HasChain (smallMount 0) twoClusterVol 3 [3, 4] := by
  refine ⟨⟨rfl, rfl, rfl⟩, ?_, by decide⟩
  decide

/-- A state with an open handle of the file. -/
theorem twoCluster_stored : ∃ s, Shows (smallMount 0) s twoClusterVol ∧
    HandleOf (smallMount 0) s twoClusterVol 0 2 [2] [2] twoClusterFile ∧
    isWriteMode (getContentMode 0 s) = true := by
  have L := smallMount_layout (Nat.zero_le 1)
  have he : Storable (letterFile 0x41 3) := createEntry_storable (by decide) (by decide)
  obtain ⟨s, hs, hk⟩ := (oneEntryVol_stored (letterFile 0x41 3)
    (handleTable (storedIn (letterFile 0x41 3) 2))).setFat L (by decide : InVol (smallMount 0) 3)
      (by decide : 4 < 2 ^ 28)
  have hag : Agree (smallMount 0) (oneEntryVol (letterFile 0x41 3)) twoClusterVol [2] := by
    refine Agree.of_raw ?_
    intro c hc
    have hne : c ≠ 3 := by
      rw [List.mem_singleton.mp hc]
      decide
    exact ⟨Vol.setFat_fat_ne _ _ hne, rfl⟩
  refine ⟨s, hs, (oneEntry_handle he hk.contents).congr rfl hag, ?_⟩
  unfold getContentMode
  rw [hk.contents]
  decide

end NiFat32
