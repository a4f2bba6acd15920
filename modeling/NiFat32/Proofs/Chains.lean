import Mathlib.Data.List.Perm.Subperm
import NiFat32.Proofs.Fat

/-!
# `Proofs.Chains`: cluster chains

`HasChain m v ca cs` says that the FAT links the clusters `cs`, starting with `ca`, into a
chain that ends in `FAT_CLUSTER_END`. Such a chain is acyclic (`HasChain.nodup`), owns no free
cluster (`HasChain.not_free`), and depends on the FAT values of its own clusters only
(`HasChain.congr`). `addClusterToChain_shows` is the step by which every chain grows.
-/

set_option autoImplicit false

namespace NiFat32

open ByteStore Chain

variable {m : Mount} {s : FS} {v v' : Vol} {ca : Nat} {cs ds : List Nat}

/-- The clusters `cs`, from `ca` on, form a chain that ends in `FAT_CLUSTER_END`. -/
structure HasChain (m : Mount) (v : Vol) (ca : Nat) (cs : List Nat) : Prop where
  path : Path v.fat ca cs FAT_CLUSTER_END
  inVol : ∀ c ∈ cs, InVol m c
  head : InVol m ca

/-- The bytes of a chain, in order. -/
def Vol.bytesOf (v : Vol) (cs : List Nat) : List UInt8 := cs.flatMap v.raw

namespace Vol

@[simp] theorem bytesOf_nil (v : Vol) : v.bytesOf [] = [] := rfl

@[simp] theorem bytesOf_cons (v : Vol) (c : Nat) (cs : List Nat) :
    v.bytesOf (c :: cs) = v.raw c ++ v.bytesOf cs := rfl

theorem bytesOf_append (v : Vol) (cs ds : List Nat) :
    v.bytesOf (cs ++ ds) = v.bytesOf cs ++ v.bytesOf ds := List.flatMap_append

theorem bytesOf_congr {v v' : Vol} {cs : List Nat} (h : ∀ c ∈ cs, v'.raw c = v.raw c) :
    v'.bytesOf cs = v.bytesOf cs := by
  induction cs with
  | nil => rfl
  | cons c cs ih =>
    rw [bytesOf_cons, bytesOf_cons, h c List.mem_cons_self,
      ih fun d hd => h d (List.mem_cons_of_mem c hd)]

theorem setFat_setFat (v : Vol) (ca x y : Nat) : (v.setFat ca x).setFat ca y = v.setFat ca y := by
  unfold setFat
  congr 1
  funext k
  by_cases hk : k = ca
  · simp only [if_pos hk]
  · simp only [if_neg hk]

/-- A free cluster that was taken and given back. -/
theorem setFat_back {v : Vol} {n x : Nat} (hfree : v.fat n = FAT_CLUSTER_FREE) :
    (v.setFat n x).setFat n FAT_CLUSTER_FREE = v := by
  rw [setFat_setFat]
  unfold setFat
  congr 1
  funext k
  split
  · rename_i hk
    rw [hk, hfree]
  · rfl

end Vol

/-- The number of a cluster fits the `dca` of an entry. -/
theorem Layout.toNat_dca {m : Mount} (L : Layout m) {c : Nat} (hc : InVol m c) :
    (UInt32.ofNat c).toNat = c :=
  UInt32.toNat_ofNat_of_lt' (Nat.lt_trans (L.lt_value hc) (by decide))

/-- The length of the bytes of a chain. -/
theorem Shows.length_bytesOf (h : Shows m s v) (hin : ∀ c ∈ cs, InVol m c) :
    (v.bytesOf cs).length = cs.length * m.fi.clusterSize := by
  induction cs with
  | nil => simp
  | cons c cs ih =>
    rw [Vol.bytesOf_cons, List.length_append, h.length_raw (hin c List.mem_cons_self),
      ih fun d hd => hin d (List.mem_cons_of_mem c hd), List.length_cons, Nat.succ_mul,
        Nat.add_comm]

namespace HasChain

/-- A chain, taken apart at its head: it ends there, or the rest is a chain. -/
theorem cases_head (h : HasChain m v ca cs) (L : Layout m) :
    (cs = [ca] ∧ v.fat ca = FAT_CLUSTER_END) ∨
    ∃ rest, cs = ca :: rest ∧ HasChain m v (v.fat ca) rest := by
  obtain ⟨rest, hcs, hrest⟩ := h.path.exists_cons (L.ne_end h.head)
  cases rest with
  | nil => exact Or.inl ⟨hcs, hrest⟩
  | cons d rest =>
    right
    refine ⟨d :: rest, hcs, hrest, ?_, ?_⟩
    · intro c hc
      exact h.inVol c (by rw [hcs]; exact List.mem_cons_of_mem _ hc)
    · rw [hrest.1]
      exact h.inVol d (by rw [hcs]; exact List.mem_cons_of_mem _ List.mem_cons_self)

theorem ne_nil (h : HasChain m v ca cs) (L : Layout m) : cs ≠ [] :=
  h.path.ne_nil (L.ne_end h.head)

theorem head_mem (h : HasChain m v ca cs) (L : Layout m) : ca ∈ cs := by
  obtain ⟨rest, hcs, _⟩ := h.path.exists_cons (L.ne_end h.head)
  rw [hcs]
  exact List.mem_cons_self

theorem end_not_mem (h : HasChain m v ca cs) (L : Layout m) : FAT_CLUSTER_END ∉ cs :=
  fun hm => L.not_inVol_end (h.inVol _ hm)

/-- A terminated chain is acyclic. -/
theorem nodup (h : HasChain m v ca cs) (L : Layout m) : cs.Nodup := h.path.nodup (h.end_not_mem L)

/-- The chain of a cluster is determined by the FAT. -/
theorem unique (h : HasChain m v ca cs) (h' : HasChain m v ca ds) (L : Layout m) : cs = ds :=
  h.path.unique h'.path (h.end_not_mem L) (h'.end_not_mem L)

/-- A chain depends on the FAT values of its own clusters only. -/
theorem congr (h : HasChain m v ca cs) (hfat : ∀ c ∈ cs, v'.fat c = v.fat c) :
    HasChain m v' ca cs := ⟨h.path.congr hfat, h.inVol, h.head⟩

/-- The link of a cluster of the chain: it ends the chain or leads to a cluster of it. -/
theorem fat_mem {c : Nat} (h : HasChain m v ca cs) (hc : c ∈ cs) :
    v.fat c = FAT_CLUSTER_END ∨ v.fat c ∈ cs := by
  obtain ⟨xs, ys, hsplit, _, hys⟩ := h.path.of_mem hc
  cases ys with
  | nil => exact Or.inl hys
  | cons y ys =>
    right
    rw [hsplit, hys.1]
    simp

/-- No cluster of a chain carries one of the marks of a cluster without data. -/
theorem fat_ne {c : Nat} (h : HasChain m v ca cs) (L : Layout m) (hc : c ∈ cs) :
    v.fat c ≠ FAT_CLUSTER_FREE ∧ v.fat c ≠ FAT_CLUSTER_RESERVED ∧ v.fat c ≠ FAT_CLUSTER_BAD := by
  cases h.fat_mem hc with
  | inl hend =>
    rw [hend]
    exact ⟨by decide, by decide, by decide⟩
  | inr hmem =>
    have hin := h.inVol _ hmem
    exact ⟨L.ne_free hin, L.ne_reserved hin, L.ne_bad hin⟩

/-- A chain owns no free cluster. -/
theorem not_free {c : Nat} (h : HasChain m v ca cs) (L : Layout m) (hc : c ∈ cs) :
    v.fat c ≠ FAT_CLUSTER_FREE := (h.fat_ne L hc).1

/-- A chain has at most as many clusters as the volume. -/
theorem length_le (h : HasChain m v ca cs) (L : Layout m) : cs.length ≤ m.fi.totalClusters := by
  have hsub : cs ⊆ List.range m.fi.totalClusters := fun c hc =>
    List.mem_range.mpr (h.inVol c hc).2
  have hle := (List.Nodup.subperm (h.nodup L) hsub).length_le
  rwa [List.length_range] at hle

/-- The chain from one of its clusters on. -/
theorem of_mem {c : Nat} (h : HasChain m v ca cs) (hc : c ∈ cs) :
    ∃ xs ys, cs = xs ++ c :: ys ∧ HasChain m v c (c :: ys) := by
  obtain ⟨xs, ys, hsplit, _, hys⟩ := h.path.of_mem hc
  refine ⟨xs, ys, hsplit, ⟨rfl, hys⟩, ?_, h.inVol c hc⟩
  intro d hd
  exact h.inVol d (by rw [hsplit]; exact List.mem_append_right xs hd)

/-- The last cluster of a chain carries the end mark. -/
theorem fat_last {last : Nat} (h : HasChain m v ca (cs ++ [last])) :
    v.fat last = FAT_CLUSTER_END := by
  obtain ⟨x, _, hx, hend⟩ := Path.append_iff.mp h.path
  exact hend

/-- A chain of one cluster. -/
theorem single {c : Nat} (hc : InVol m c) (hend : v.fat c = FAT_CLUSTER_END) :
    HasChain m v c [c] :=
  ⟨⟨rfl, hend⟩, fun d hd => by rw [List.mem_singleton.mp hd]; exact hc, hc⟩

end HasChain

/-! ### Growing a chain -/

/-- The volume after the cluster `n` was linked behind the cluster `last`. -/
def Vol.link (v : Vol) (last n : Nat) : Vol := (v.setFat n FAT_CLUSTER_END).setFat last n

@[simp] theorem Vol.link_raw (v : Vol) (last n : Nat) : (v.link last n).raw = v.raw := rfl

theorem Vol.link_fat_last (v : Vol) (last n : Nat) : (v.link last n).fat last = n := if_pos rfl

theorem Vol.link_fat_new (v : Vol) {last n : Nat} (h : n ≠ last) :
    (v.link last n).fat n = FAT_CLUSTER_END := by
  unfold Vol.link
  rw [Vol.setFat_fat_ne _ _ h, Vol.setFat_fat_self]

theorem Vol.link_fat_ne (v : Vol) {last n k : Nat} (h : k ≠ last) (h' : k ≠ n) :
    (v.link last n).fat k = v.fat k := by
  unfold Vol.link
  rw [Vol.setFat_fat_ne _ _ h, Vol.setFat_fat_ne _ _ h']

/-- A free cluster behind the last one makes the chain one cluster longer. -/
theorem HasChain.link {last n : Nat} (h : HasChain m v ca (cs ++ [last])) (L : Layout m)
    (hn : InVol m n) (hfree : v.fat n = FAT_CLUSTER_FREE) :
    HasChain m (v.link last n) ca (cs ++ [last] ++ [n]) := by
  have hnew : n ∉ cs ++ [last] := fun hm => h.not_free L hm hfree
  have hnl : n ≠ last := fun he => hnew (by rw [he]; simp)
  refine ⟨h.path.snoc ?_ (v.link_fat_last last n) (v.link_fat_new hnl), ?_, h.head⟩
  · intro c hc
    apply v.link_fat_ne
    · intro he
      have hnodup := h.nodup L
      rw [List.nodup_append] at hnodup
      exact hnodup.2.2 c hc last (List.mem_singleton.mpr rfl) he
    · intro he
      exact hnew (by rw [← he]; exact List.mem_append_left _ hc)
  · intro c hc
    cases List.mem_append.mp hc with
    | inl hc => exact h.inVol c hc
    | inr hc => rw [List.mem_singleton.mp hc]; exact hn

/-- `_add_cluster_to_chain` links a free cluster behind a cluster of the volume, or the
allocation fails and the volume stays as it is. -/
theorem addClusterToChain_shows (L : Layout m) (h : Shows m s v) {last : Nat}
    (hlast : InVol m last) :
    ∃ n s', addClusterToChain m last s = (n, s') ∧ Keeps [n] s s' ∧
      ((n = FAT_CLUSTER_BAD ∧ Shows m s' v) ∨
        (InVol m n ∧ v.fat n = FAT_CLUSTER_FREE ∧ Shows m s' (v.link last n))) := by
  obtain ⟨n, s₁, he, ha, hk⟩ := allocNext_shows L h
  unfold addClusterToChain
  rw [he]
  cases ha with
  | inl hbad =>
    obtain ⟨rfl, hs⟩ := hbad
    have hr := registerError_shows L hs .allocatedClusterBadError
    exact ⟨FAT_CLUSTER_BAD, _, rfl, hk.trans_nil hr.2, Or.inl ⟨rfl, hr.1⟩⟩
  | inr hok =>
    obtain ⟨hn, hfree, hs⟩ := hok
    obtain ⟨s₂, he₂, hs₂, hk₂⟩ := setClusterEnd_shows L hs hn
    obtain ⟨s₃, he₃, hs₃, hk₃⟩ := writeFat_shows L hs₂ (x := n) hlast (L.lt_value hn)
    rw [Vol.setFat_setFat] at hs₃
    simp only [if_neg (L.ne_bad hn), he₂, he₃]
    exact ⟨n, s₃, rfl, (hk.trans_nil hk₂).trans_nil hk₃, Or.inr ⟨hn, hfree, hs₃⟩⟩

end NiFat32
