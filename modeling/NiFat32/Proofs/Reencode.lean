import NiFat32.Proofs.Walk

/-!
# `Proofs.Reencode`: clusters that are decoded and encoded again

A walk writes back every cluster that it visits. When no handler changes an entry, the cluster
becomes `reencode` of its bytes: the clean codewords of what it decodes to. `Vol.reencoded` is the
volume with some of its clusters treated so. `DirCluster` and `FileCluster` are the clusters of the
directories and of the regular files of a tree.
-/

set_option autoImplicit false

namespace NiFat32

variable {m : Mount} {s s' : FS} {v : Vol} {ca : Nat}

/-! ### One cluster -/

/-- The decoded bytes of a cluster. -/
def decoded (m : Mount) (raw : List UInt8) : List UInt8 := unpackMemory raw (decodedLen m)

/-- The bytes of a cluster after a walk that changed no entry. -/
def reencode (m : Mount) (raw : List UInt8) : List UInt8 :=
  packMemory (decoded m raw) ++ raw.drop (2 * decodedLen m)

/-- Every word of the cluster is the codeword of its decoded byte. -/
def CleanWords (m : Mount) (raw : List UInt8) : Prop := packMemory (decoded m raw) = raw

/-- The bytes of the slots of a buffer are the first bytes of the buffer. -/
theorem bytesOfSlots_slotsOf (n : Nat) (dec : List UInt8) (h : ENTRY_SIZE * n ≤ dec.length) :
    bytesOfSlots (slotsOf n dec) = dec.take (ENTRY_SIZE * n) := by
  induction n generalizing dec with
  | zero => simp [slotsOf, bytesOfSlots]
  | succ n ih =>
    rw [Nat.mul_succ] at h
    have htake : (dec.take ENTRY_SIZE).length = ENTRY_SIZE := by
      rw [List.length_take]
      omega
    have hrest := ih (dec.drop ENTRY_SIZE) (by rw [List.length_drop]; omega)
    rw [slotsOf_succ]
    show (DirEntry.ofBytes (dec.take ENTRY_SIZE)).bytes ++
      bytesOfSlots (slotsOf n (dec.drop ENTRY_SIZE)) = _
    rw [DirEntry.bytes_ofBytes _ htake, hrest, Nat.mul_succ, Nat.add_comm, List.take_add]

section Cluster

variable {raw : List UInt8}

theorem length_decoded (h : raw.length = m.fi.clusterSize) :
    (decoded m raw).length = decodedLen m :=
  length_unpackMemory _ _ (by rw [h]; exact two_decodedLen_le)

/-- A walk that leaves the slots alone writes back the clean codewords. -/
theorem repackCluster_slotsIn (h : raw.length = m.fi.clusterSize) :
    repackCluster m raw (unpackMemory raw (decodedLen m)) (slotsIn m raw) = reencode m raw := by
  have hlen : ENTRY_SIZE * entriesPerCluster m ≤ (decoded m raw).length := by
    rw [length_decoded h]
    exact slots_le_decodedLen
  have hslots : bytesOfSlots (slotsIn m raw)
      = (decoded m raw).take (ENTRY_SIZE * entriesPerCluster m) :=
    bytesOfSlots_slotsOf _ _ hlen
  unfold repackCluster
  rw [hslots]
  show packMemory ((decoded m raw).take (ENTRY_SIZE * entriesPerCluster m) ++
    (decoded m raw).drop (ENTRY_SIZE * entriesPerCluster m)) ++ _ = _
  rw [List.take_append_drop]
  rfl

theorem length_reencode (h : raw.length = m.fi.clusterSize) :
    (reencode m raw).length = m.fi.clusterSize := by
  have hle : 2 * decodedLen m ≤ m.fi.clusterSize := two_decodedLen_le
  unfold reencode
  rw [List.length_append, length_packMemory, length_decoded h, List.length_drop, h]
  omega

/-- The decoded bytes stay. -/
theorem decoded_reencode (h : raw.length = m.fi.clusterSize) :
    decoded m (reencode m raw) = decoded m raw := by
  have hround := unpackMemory_packMemory_append (decoded m raw) (raw.drop (2 * decodedLen m))
  rw [length_decoded h] at hround
  exact hround

theorem slotsIn_of_decoded {raw' : List UInt8} (h : decoded m raw' = decoded m raw) :
    slotsIn m raw' = slotsIn m raw := congrArg (slotsOf (entriesPerCluster m)) h

/-- A cluster has an even number of bytes. -/
theorem Layout.two_decodedLen (L : Layout m) : 2 * decodedLen m = m.fi.clusterSize := by
  have heven : 2 ∣ m.fi.clusterSize := by
    rw [L.clusterSize_eq]
    exact Nat.dvd_mul_right_of_dvd (Nat.dvd_trans (by decide : 2 ∣ 8) L.sector_cells) _
  exact Nat.mul_div_cancel' heven

theorem reencode_eq (L : Layout m) (h : raw.length = m.fi.clusterSize) :
    reencode m raw = packMemory (decoded m raw) := by
  unfold reencode
  rw [List.drop_of_length_le (by rw [h, L.two_decodedLen]), List.append_nil]

/-- The cluster is clean after the walk. -/
theorem cleanWords_reencode (L : Layout m) (h : raw.length = m.fi.clusterSize) :
    CleanWords m (reencode m raw) := by
  unfold CleanWords
  rw [decoded_reencode h, reencode_eq L h]

/-- A walk leaves exactly the clean clusters as they are. -/
theorem reencode_eq_self_iff (L : Layout m) (h : raw.length = m.fi.clusterSize) :
    reencode m raw = raw ↔ CleanWords m raw := by
  rw [reencode_eq L h]
  rfl

end Cluster

/-! ### The volume -/

open Classical in
/-- The volume whose clusters in `P` were decoded and encoded again. -/
noncomputable def Vol.reencoded (v : Vol) (m : Mount) (P : Nat → Prop) : Vol where
  fat := v.fat
  raw c := if P c then reencode m (v.raw c) else v.raw c

section Volume

variable {P Q : Nat → Prop}

@[simp] theorem Vol.reencoded_fat : (v.reencoded m P).fat = v.fat := rfl

theorem Vol.reencoded_raw_of {c : Nat} (h : P c) :
    (v.reencoded m P).raw c = reencode m (v.raw c) := if_pos h

theorem Vol.reencoded_raw_of_not {c : Nat} (h : ¬ P c) : (v.reencoded m P).raw c = v.raw c :=
  if_neg h

/-- Nothing was encoded again. -/
theorem Vol.reencoded_none (h : ∀ c, ¬ P c) : v.reencoded m P = v := by
  have hraw : (v.reencoded m P).raw = v.raw := by
    funext c
    exact Vol.reencoded_raw_of_not (h c)
  show (⟨v.fat, (v.reencoded m P).raw⟩ : Vol) = v
  rw [hraw]

/-- One more cluster is written back by a walk. -/
theorem Vol.setRaw_reencoded (c : Nat) :
    (v.reencoded m P).setRaw c (reencode m (v.raw c)) = v.reencoded m fun k => P k ∨ k = c := by
  have hraw : ((v.reencoded m P).setRaw c (reencode m (v.raw c))).raw
      = (v.reencoded m fun k => P k ∨ k = c).raw := by
    funext k
    by_cases hk : k = c
    · rw [hk, Vol.setRaw_raw_self, Vol.reencoded_raw_of (Or.inr rfl)]
    · rw [Vol.setRaw_raw_ne _ _ hk]
      by_cases hp : P k
      · rw [Vol.reencoded_raw_of hp, Vol.reencoded_raw_of (Or.inl hp)]
      · rw [Vol.reencoded_raw_of_not hp, Vol.reencoded_raw_of_not (not_or.mpr ⟨hp, hk⟩)]
  show (⟨v.fat, ((v.reencoded m P).setRaw c (reencode m (v.raw c))).raw⟩ : Vol) = _
  rw [hraw]
  rfl

variable (hs : Shows m s v)

include hs

/-- The lengths of the clusters. -/
theorem Shows.raw_cases (c : Nat) : v.raw c = [] ∨ (v.raw c).length = m.fi.clusterSize := by
  by_cases hc : InVol m c
  · exact Or.inr (hs.length_raw hc)
  · exact Or.inl (hs.raw_outside hc)

/-- An empty cluster, outside the volume, stays as it is. -/
theorem Vol.reencoded_outside {c : Nat} (hc : ¬ InVol m c) :
    (v.reencoded m fun k => P k ∨ k = c) = v.reencoded m P := by
  have hnil : reencode m (v.raw c) = v.raw c := by
    rw [hs.raw_outside hc]
    simp [reencode, decoded, unpackMemory]
  have hraw : ((v.reencoded m P).setRaw c (v.raw c)).raw = (v.reencoded m P).raw := by
    funext k
    by_cases hk : k = c
    · rw [hk, Vol.setRaw_raw_self]
      by_cases hp : P c
      · rw [Vol.reencoded_raw_of hp, hnil]
      · rw [Vol.reencoded_raw_of_not hp]
    · rw [Vol.setRaw_raw_ne _ _ hk]
  rw [← Vol.setRaw_reencoded, hnil]
  show (⟨v.fat, ((v.reencoded m P).setRaw c (v.raw c)).raw⟩ : Vol) = _
  rw [hraw]
  rfl

/-- Every cluster decodes as before. -/
theorem Vol.decoded_reencoded (c : Nat) :
    decoded m ((v.reencoded m P).raw c) = decoded m (v.raw c) := by
  by_cases hc : P c
  · rw [Vol.reencoded_raw_of hc]
    cases hs.raw_cases c with
    | inl hnil =>
      rw [hnil]
      simp [reencode, decoded, unpackMemory]
    | inr hlen => exact decoded_reencode hlen
  · rw [Vol.reencoded_raw_of_not hc]

/-- Every cluster has the slots it had. -/
theorem Vol.slots_reencoded (c : Nat) : (v.reencoded m P).slots m c = v.slots m c :=
  slotsIn_of_decoded (Vol.decoded_reencoded hs c)

/-- Encoding a cluster again twice is encoding it again once. -/
theorem Vol.reencode_reencoded (c : Nat) :
    reencode m ((v.reencoded m P).raw c) = reencode m (v.raw c) := by
  by_cases hc : P c
  · rw [Vol.reencoded_raw_of hc]
    cases hs.raw_cases c with
    | inl hnil =>
      rw [hnil]
      simp [reencode, decoded, unpackMemory]
    | inr hlen =>
      have hdec := decoded_reencode hlen
      have hwords : (packMemory (decoded m (v.raw c))).length = 2 * decodedLen m := by
        rw [length_packMemory, length_decoded hlen]
      have htail : (reencode m (v.raw c)).drop (2 * decodedLen m)
          = (v.raw c).drop (2 * decodedLen m) := List.drop_left' hwords
      show packMemory (decoded m (reencode m (v.raw c))) ++
        (reencode m (v.raw c)).drop (2 * decodedLen m) = _
      rw [hdec, htail]
      rfl
  · rw [Vol.reencoded_raw_of_not hc]

end Volume

/-! ### The clusters of a tree -/

/-- The clusters of the directories of the tree with the root `root`. -/
inductive DirCluster (m : Mount) (v : Vol) (root : Nat) : Nat → Prop
  | root : DirCluster m v root root
  | link {c : Nat} (h : DirCluster m v root c) (hend : v.fat c ≠ FAT_CLUSTER_END) :
      DirCluster m v root (v.fat c)
  | entry {c : Nat} {e : DirEntry} (h : DirCluster m v root c) (he : e ∈ v.live m c)
      (hdir : e.isDir = true) : DirCluster m v root e.dca.toNat

/-- The clusters of the regular files of the tree with the root `root`. -/
inductive FileCluster (m : Mount) (v : Vol) (root : Nat) : Nat → Prop
  | entry {c : Nat} {e : DirEntry} (h : DirCluster m v root c) (he : e ∈ v.live m c)
      (hdir : e.isDir = false) : FileCluster m v root e.dca.toNat
  | link {c : Nat} (h : FileCluster m v root c) (hend : v.fat c ≠ FAT_CLUSTER_END) :
      FileCluster m v root (v.fat c)

end NiFat32
