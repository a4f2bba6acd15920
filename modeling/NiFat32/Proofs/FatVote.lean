import Mathlib.Data.List.Perm.Subperm
import NiFat32.Proofs.Fat

/-!
# `Proofs.FatVote`: damaged FAT copies

`read_fat` returns what more than half of the copies say (`readFat_majority`): every copy counts
with what its read gives when the vote gets to it, and a copy that cannot be read counts as bad.
A copy with at most one flipped bit in each word of an entry still says what was written.

`fat_repair` reads every cluster once. Whether it repairs a cluster depends on the cache, which
hides the copies, and on the mismatch counter, which misses one pattern:
`fatRepair_agrees_iff` is the exact condition.
-/

set_option autoImplicit false

namespace NiFat32

open ByteStore

variable {m : Mount} {s s' : FS} {ca : Nat}

/-- `P` holds of more than half of the FAT copies. -/
def MostCopies (m : Mount) (P : Nat → Prop) : Prop :=
  ∃ is : List Nat, is.Nodup ∧ (∀ i ∈ is, i < m.fi.fatCount ∧ P i) ∧
    m.fi.fatCount < 2 * is.length

theorem MostCopies.imp {P Q : Nat → Prop} (h : MostCopies m P)
    (hPQ : ∀ i, i < m.fi.fatCount → P i → Q i) : MostCopies m Q := by
  obtain ⟨is, hnodup, his, hlen⟩ := h
  refine ⟨is, hnodup, ?_, hlen⟩
  intro i hi
  obtain ⟨hlt, hp⟩ := his i hi
  exact ⟨hlt, hPQ i hlt hp⟩

theorem MostCopies.exists {P : Nat → Prop} (h : MostCopies m P) :
    ∃ i, i < m.fi.fatCount ∧ P i := by
  obtain ⟨is, _, his, hlen⟩ := h
  cases is with
  | nil => exact absurd hlen (Nat.not_lt_zero _)
  | cons i is => exact ⟨i, his i List.mem_cons_self⟩

/-- The values of the copies, as the vote of a majority. -/
theorem MostCopies.run {f : Nat → Nat} {x : Nat} (v₀ : Nat) (h : MostCopies m fun i => f i = x) :
    (Vote.run v₀ ((List.range m.fi.fatCount).map f)).val = x := by
  obtain ⟨is, hnodup, his, hlen⟩ := h
  apply Vote.run_majority
  have hsub : is ⊆ (List.range m.fi.fatCount).filter fun i => f i == x := by
    intro i hi
    obtain ⟨hlt, heq⟩ := his i hi
    exact List.mem_filter.mpr ⟨List.mem_range.mpr hlt, by simp [heq]⟩
  have hle := (List.Nodup.subperm hnodup hsub).length_le
  rw [List.length_map, List.length_range, List.count, List.countP_map, List.countP_eq_length_filter]
  exact Nat.lt_of_lt_of_le hlen (Nat.mul_le_mul_left 2 hle)

/-! ### The vote over copies that may fail -/

/-- The state in which the vote gets to the copy `i`. -/
def beforeCopy (m : Mount) (ca i : Nat) (s : FS) : FS :=
  (List.range i).foldl (fun s j => (readFatCopy m ca j s).2) s

/-- What the copy `i` says about `ca` when the vote gets to it. -/
def copyAt (m : Mount) (ca : Nat) (s : FS) (i : Nat) : Nat :=
  (readFatCopy m ca i (beforeCopy m ca i s)).1

/-- With working reads the vote leaves the state alone, and a copy says what its cell holds. -/
theorem beforeCopy_eq (L : Layout m) (ca i : Nat) (s : FS) : beforeCopy m ca i s = s := by
  unfold beforeCopy
  induction i with
  | zero => rfl
  | succ i ih =>
    rw [List.range_succ, List.foldl_append, ih, List.foldl_cons, readFatCopy_eq L]
    rfl

theorem copyAt_eq (L : Layout m) (ca : Nat) (s : FS) (i : Nat) :
    copyAt m ca s i = fatCell m s.medium.bytes ca i := by
  unfold copyAt
  rw [beforeCopy_eq L, readFatCopy_eq L]

/-- The vote is the vote over what the copies say. -/
theorem voteFat_copies (m : Mount) (ca : Nat) (s : FS) : voteFat m ca s =
    (Vote.run FAT_CLUSTER_BAD ((List.range m.fi.fatCount).map (copyAt m ca s)),
      beforeCopy m ca m.fi.fatCount s) := by
  have hall : ∀ n, (List.range n).foldl (fun acc i =>
        (Vote.step acc.1 (readFatCopy m ca i acc.2).1, (readFatCopy m ca i acc.2).2))
        (Vote.start FAT_CLUSTER_BAD, s)
      = (Vote.run FAT_CLUSTER_BAD ((List.range n).map (copyAt m ca s)), beforeCopy m ca n s) := by
    intro n
    induction n with
    | zero => rfl
    | succ n ih =>
      rw [List.range_succ, List.foldl_append, ih, List.map_append]
      unfold Vote.run beforeCopy
      rw [List.foldl_append, List.range_succ, List.foldl_append]
      rfl
  exact hall m.fi.fatCount

/-- A read that is not cached is decided by the vote. -/
theorem readFat_vote (hca : InVol m ca) (hcache : cachedFat ca s = none) :
    (readFat m ca s).1 = (voteFat m ca s).1.val := by
  have hrange : ¬ (ca < m.fi.extRootCluster ∨ m.fi.totalClusters ≤ ca) := by
    have h1 := hca.1
    have h2 := hca.2
    omega
  unfold readFat
  rw [if_neg hrange, hcache]
  simp only
  split <;> rfl

/-! ### What was written -/

/-- The cells of `ca` lie inside their sectors, and no two of them share a byte. -/
structure CellsApart (m : Mount) (ca : Nat) : Prop where
  inside : ∀ i, i < m.fi.fatCount → (fatEntryPos m ca i).2 + 8 ≤ m.sectorSize
  apart : ∀ i j, i < m.fi.fatCount → j < m.fi.fatCount → i ≠ j →
    Apart (fatAddr m ca i) 8 (fatAddr m ca j) 8

/-- A request to one sector. -/
theorem writeoff_one {sa offset : Nat} {data : List UInt8} {d : Medium} (h0 : data.length ≠ 0)
    (h : offset + data.length ≤ m.sectorSize) :
    dskWriteoffSectors m d sa offset data 1 = writeSector m d sa offset data := by
  have hno : ¬ m.sectorSize < offset := by omega
  have hmin : min data.length (m.sectorSize - offset) = data.length := Nat.min_eq_left (by omega)
  unfold dskWriteoffSectors writeoffLoop
  rw [if_neg h0, if_neg hno, hmin]
  simp only [List.take_length, List.drop_length]
  cases writeSector m d sa offset data with
  | mk ok d' =>
    cases ok with
    | false => rfl
    | true => rfl

/-- A copy that was written holds the value, and its write changed nothing else. -/
theorem writeFatCopy_true {x i : Nat} (hin : (fatEntryPos m ca i).2 + 8 ≤ m.sectorSize)
    (h : writeFatCopy m ca x i s = (true, s')) :
    s'.medium.bytes = write s.medium.bytes (fatAddr m ca i) (cellBytes x) := by
  have hlen : (cellBytes x).length = 8 := length_cellBytes x
  unfold writeFatCopy at h
  simp only at h
  rw [show packMemory (bytesOfU32 (UInt32.ofNat x)) = cellBytes x from rfl,
    writeoff_one (by rw [hlen]; decide) (by rw [hlen]; exact hin)] at h
  unfold writeSector at h
  by_cases hok : m.writeOk s.medium.writes (fatEntryPos m ca i).1 (fatEntryPos m ca i).2
      (cellBytes x).length = true
  · simp only [if_pos hok] at h
    obtain ⟨-, rfl⟩ := Prod.mk.inj h
    rfl
  · simp only [if_neg hok] at h
    cases h

/-- After a write of which every copy was written, the copies hold the value. -/
theorem writeFatCopies_true {x : Nat} (hc : CellsApart m ca) (is : List Nat)
    (his : ∀ i ∈ is, i < m.fi.fatCount) {ok : Bool}
    (h : is.foldl (fun acc i =>
        let (ok, s) := writeFatCopy m ca x i acc.2
        (ok && acc.1, s)) (ok, s) = (true, s')) :
    ok = true ∧ (∀ i ∈ is, read s'.medium.bytes (fatAddr m ca i) 8 = cellBytes x) ∧
      ∀ k, k < m.fi.fatCount → k ∉ is →
        read s'.medium.bytes (fatAddr m ca k) 8 = read s.medium.bytes (fatAddr m ca k) 8 := by
  induction is generalizing s ok with
  | nil =>
    obtain ⟨rfl, rfl⟩ := Prod.mk.inj h
    exact ⟨rfl, fun i hi => absurd hi List.not_mem_nil, fun _ _ _ => rfl⟩
  | cons j is ih =>
    have hj := his j List.mem_cons_self
    rw [List.foldl_cons] at h
    cases he : writeFatCopy m ca x j s with
    | mk ok₁ s₁ =>
      simp only [he] at h
      obtain ⟨hok, hcells, hother⟩ := ih (fun i hi => his i (List.mem_cons_of_mem j hi)) h
      obtain ⟨rfl, rfl⟩ := Bool.and_eq_true_iff.mp hok
      have hbytes := writeFatCopy_true (hc.inside j hj) he
      -- the cell of the copy that was written first
      have hself : read s₁.medium.bytes (fatAddr m ca j) 8 = cellBytes x := by
        have hrw := read_write_self s.medium.bytes (fatAddr m ca j) (cellBytes x)
        rw [length_cellBytes] at hrw
        rw [hbytes]
        exact hrw
      refine ⟨rfl, ?_, ?_⟩
      · intro i hi
        by_cases hmem : i ∈ is
        · exact hcells i hmem
        · obtain rfl : i = j := (List.mem_cons.mp hi).resolve_right hmem
          rw [hother i hj hmem]
          exact hself
      · intro k hk hout
        rw [List.mem_cons, not_or] at hout
        rw [hother k hk hout.2, hbytes]
        refine read_write_of_disjoint _ _ _ _ _ ?_
        rw [length_cellBytes]
        exact hc.apart k j hk hj hout.1

/-- `write_fat` that returns `1` has written every copy. -/
theorem writeFat_cells {x : Nat} (hc : CellsApart m ca) (h : writeFat m ca x s = (true, s')) :
    ∀ i, i < m.fi.fatCount → read s'.medium.bytes (fatAddr m ca i) 8 = cellBytes x := by
  unfold writeFat at h
  split at h
  · cases h
  · intro i hi
    exact (writeFatCopies_true hc _ (fun j hj => List.mem_range.mp hj) h).2.1 i
      (List.mem_range.mpr hi)

/-- The copies after they were all rewritten. -/
theorem writeFatLocked_cells (L : Layout m) (hca : InVol m ca) {x : Nat} (hx : x < 2 ^ 28)
    (s : FS) : ∃ d, writeFatLocked m ca x s = (true, { noteFat ca x s with medium := d }) ∧
      (∀ i, i < m.fi.fatCount → fatCell m d.bytes ca i = x) ∧
      ∀ k, InVol m k → k ≠ ca → ∀ i, i < m.fi.fatCount →
        fatCell m d.bytes k i = fatCell m s.medium.bytes k i := by
  obtain ⟨d, hd, hcells, hout⟩ := writeFatCopies_eq L hca x (List.range m.fi.fatCount)
    (fun i hi => List.mem_range.mp hi) (noteFat ca x s)
  refine ⟨d, hd, ?_, ?_⟩
  · intro i hi
    unfold fatCell
    rw [hcells i (List.mem_range.mpr hi), leValue_cellBytes hx]
  · intro k hk hne i hi
    unfold fatCell
    rw [read_congr d.bytes s.medium.bytes]
    intro a h1 h2
    rw [hout a, noteFat_medium]
    intro i' hi'
    have hapart := L.cells_apart k ca i i' hk hca hi (List.mem_range.mp hi') fun hc => hne hc.1
    unfold Apart at hapart
    omega

/-- When the vote of the state `s'` gets to the copy `i`, the entry of `ca` can be read, and it
differs from the one in `s` by at most one flipped bit in each word. -/
def Survives (m : Mount) (ca : Nat) (s s' : FS) (i : Nat) : Prop :=
  ∃ bs, dskReadoffSectors m (beforeCopy m ca i s').medium (fatEntryPos m ca i).1
      (fatEntryPos m ca i).2 8 1 = some bs ∧
    WordFlips (read s.medium.bytes (fatAddr m ca i) 8) bs

/-- A copy that survived says what was written. -/
theorem Survives.copyAt {x i : Nat} (h : Survives m ca s s' i) (hx : x < 2 ^ 28)
    (hcell : read s.medium.bytes (fatAddr m ca i) 8 = cellBytes x) :
    copyAt m ca s' i = x := by
  obtain ⟨bs, hread, hflips⟩ := h
  rw [hcell] at hflips
  have hlen : bs.length = 8 := by rw [hflips.length_eq, length_cellBytes]
  have hunpack : unpackMemory bs 4 = bytesOfU32 (UInt32.ofNat x) := by
    have hback := unpackMemory_of_flips hflips
    rwa [length_bytesOfU32] at hback
  have hvalue := leValue_cellBytes hx
  have hclean : unpackMemory (cellBytes x) 4 = bytesOfU32 (UInt32.ofNat x) := by
    have hround := unpackMemory_packMemory (bytesOfU32 (UInt32.ofNat x))
    rwa [length_bytesOfU32] at hround
  unfold NiFat32.copyAt readFatCopy
  simp only [hread, fillBuffer_of_length hlen, hunpack]
  rw [← hclean]
  exact hvalue

/-- The vote tolerates damage to a minority of the copies. The value that more than half of them
say is returned; and when more than half of them survived since a write, it is the value that was
written. -/
theorem readFat_majority (m : Mount) {ca : Nat} (hca : InVol m ca) :
    (∀ s x, cachedFat ca s = none → MostCopies m (fun i => copyAt m ca s i = x) →
      (readFat m ca s).1 = x) ∧
    (CellsApart m ca → ∀ s s₁ s₂ x, x < 2 ^ 28 → writeFat m ca x s = (true, s₁) →
      cachedFat ca s₂ = none → MostCopies m (Survives m ca s₁ s₂) →
      (readFat m ca s₂).1 = x) := by
  have hvote : ∀ s x, cachedFat ca s = none → MostCopies m (fun i => copyAt m ca s i = x) →
      (readFat m ca s).1 = x := by
    intro s x hcache hmost
    rw [readFat_vote hca hcache, voteFat_copies]
    exact hmost.run FAT_CLUSTER_BAD
  refine ⟨hvote, ?_⟩
  intro hc s s₁ s₂ x hx hwrite hcache hmost
  refine hvote s₂ x hcache ?_
  refine hmost.imp ?_
  intro i hi hsurv
  exact hsurv.copyAt hx (writeFat_cells hc hwrite i hi)

/-- On a zero-filled device a cluster reads as free, and after a write every copy says what was
written. -/
theorem readFat_majority_small : ∃ s s₁, writeFat (smallMount 0) 2 5 s = (true, s₁) ∧
    (readFat (smallMount 0) 2 s).1 = FAT_CLUSTER_FREE ∧ (readFat (smallMount 0) 2 s₁).1 = 5 := by
  have L := smallMount_layout (Nat.zero_le 1)
  have hca : InVol (smallMount 0) 2 := by decide
  have hall : ∀ {P : Nat → Prop}, (∀ i, i < 2 → P i) → MostCopies (smallMount 0) P := by
    intro P hP
    refine ⟨List.range 2, List.nodup_range, ?_, by decide⟩
    intro i hi
    have hlt := List.mem_range.mp hi
    exact ⟨hlt, hP i hlt⟩
  have hc : CellsApart (smallMount 0) 2 := by
    refine ⟨?_, ?_⟩
    · intro i _
      have hle := L.fatEntryPos_le 2 i
      rwa [Nat.one_mul] at hle
    · intro i j hi hj hne
      exact L.cells_apart 2 2 i j hca hca hi hj fun h => hne h.2
  have hshows := zeroFS_shows L (oneFile 2 R_MODE)
  obtain ⟨d, hd, _, _⟩ := writeFatLocked_cells L hca (by decide : 5 < 2 ^ 28)
    (zeroFS (oneFile 2 R_MODE))
  have hwrite : writeFat (smallMount 0) 2 5 (zeroFS (oneFile 2 R_MODE)) = _ :=
    (if_neg (by decide)).trans hd
  have hcache : (noteFat 2 5 (zeroFS (oneFile 2 R_MODE))).fat = none := noteFat_fat _ _ _
  refine ⟨_, _, hwrite, (readFat_majority (smallMount 0) hca).1 _ _ rfl (hall ?_),
    (readFat_majority (smallMount 0) hca).2 hc _ _ _ 5 (by decide) hwrite ?_ (hall ?_)⟩
  · intro i hi
    rw [copyAt_eq L, hshows.copy_eq hca hi]
    rfl
  · unfold cachedFat
    rw [show FS.fat { noteFat 2 5 (zeroFS (oneFile 2 R_MODE)) with medium := d } = none from hcache]
    rfl
  · intro i hi
    refine ⟨_, ?_, WordFlips.refl _⟩
    rw [beforeCopy_eq L]
    exact readoffLoop_eq L.works _ 1 _ _ 8 (L.fatEntryPos_le 2 i)

/-! ### The repair -/

/-- The values of the copies at `ca`. -/
def cellValues (m : Mount) (s : FS) (ca : Nat) : List Nat :=
  (List.range m.fi.fatCount).map fun i => fatCell m s.medium.bytes ca i

/-- The vote over the copies at `ca`. -/
def ballot (m : Mount) (s : FS) (ca : Nat) : Vote.Ballot Nat :=
  Vote.run FAT_CLUSTER_BAD (cellValues m s ca)

/-- What a read of `ca` makes of its copies: it rewrites them when the cache does not hide them
and the counter says so. -/
def Healed (m : Mount) (s s' : FS) (ca : Nat) : Prop :=
  ∀ i, i < m.fi.fatCount → fatCell m s'.medium.bytes ca i =
    if cachedFat ca s = none ∧ 0 < (ballot m s ca).wrong then (ballot m s ca).val
    else fatCell m s.medium.bytes ca i

/-- The copies and the cache at `k` are as before. -/
def SameCell (m : Mount) (s s' : FS) (k : Nat) : Prop :=
  cachedFat k s' = cachedFat k s ∧
    ∀ i, i < m.fi.fatCount → fatCell m s'.medium.bytes k i = fatCell m s.medium.bytes k i

namespace SameCell

variable {s'' : FS} {k : Nat}

theorem trans (h : SameCell m s s' k) (h' : SameCell m s' s'' k) : SameCell m s s'' k :=
  ⟨h'.1.trans h.1, fun i hi => (h'.2 i hi).trans (h.2 i hi)⟩

theorem ballot (h : SameCell m s s' k) : ballot m s' k = ballot m s k := by
  have hvalues : cellValues m s' k = cellValues m s k :=
    List.map_congr_left fun i hi => h.2 i (List.mem_range.mp hi)
  unfold NiFat32.ballot
  rw [hvalues]

/-- A repair after steps that left the cluster alone. -/
theorem healed (h : SameCell m s s' k) (h' : Healed m s' s'' k) : Healed m s s'' k := by
  intro i hi
  rw [h' i hi, h.ballot, h.1, h.2 i hi]

end SameCell

/-- A repair before steps that leave the cluster alone. -/
theorem Healed.trans_same {s'' : FS} (h : Healed m s s' ca) (h' : SameCell m s' s'' ca) :
    Healed m s s'' ca := fun i hi => (h'.2 i hi).trans (h i hi)

theorem cachedFat_noteFat_ne {k x : Nat} (hne : k ≠ ca) :
    cachedFat k (noteFat ca x s) = cachedFat k s := by
  unfold cachedFat
  rw [noteFat_fat]
  cases s.fat with
  | none => rfl
  | some f =>
    simp only [Option.map_some, Option.bind_some, if_neg hne]

/-- A read that is not cached, and its repair. -/
theorem readFat_ballot (L : Layout m) (hca : InVol m ca) (hcache : cachedFat ca s = none) :
    readFat m ca s = ((ballot m s ca).val,
      if 0 < (ballot m s ca).wrong then
        (writeFatLocked m ca (ballot m s ca).val (noteFat ca (ballot m s ca).val s)).2
      else noteFat ca (ballot m s ca).val s) := by
  have hrange : ¬ (ca < m.fi.extRootCluster ∨ m.fi.totalClusters ≤ ca) := by
    have h1 := hca.1
    have h2 := hca.2
    omega
  have hvote : voteFat m ca s = (ballot m s ca, s) := voteFat_eq L ca s
  unfold readFat
  rw [if_neg hrange, hcache]
  simp only [hvote]
  split <;> rfl

/-- The winner of the vote fits into a cell. -/
theorem ballot_lt (m : Mount) (s : FS) (ca : Nat) : (ballot m s ca).val < 2 ^ 28 := by
  cases Vote.foldl_val_mem (Vote.start FAT_CLUSTER_BAD) (cellValues m s ca) with
  | inl hbad =>
    have hval : (ballot m s ca).val = FAT_CLUSTER_BAD := hbad
    rw [hval]
    decide
  | inr hmem =>
    obtain ⟨i, _, hi⟩ := List.mem_map.mp hmem
    have hval : (ballot m s ca).val = fatCell m s.medium.bytes ca i := hi.symm
    rw [hval]
    exact Nat.mod_lt _ (by decide)

/-- A read heals its own cluster and leaves the others alone. -/
theorem readFat_heals (L : Layout m) (hca : InVol m ca) (s : FS) :
    Healed m s (readFat m ca s).2 ca ∧
      ∀ k, InVol m k → k ≠ ca → SameCell m s (readFat m ca s).2 k := by
  cases hcache : cachedFat ca s with
  | some x =>
    have hsame : readFat m ca s = (x, s) := by
      have hrange : ¬ (ca < m.fi.extRootCluster ∨ m.fi.totalClusters ≤ ca) := by
        have h1 := hca.1
        have h2 := hca.2
        omega
      unfold readFat
      rw [if_neg hrange, hcache]
    rw [hsame]
    refine ⟨?_, fun k _ _ => ⟨rfl, fun _ _ => rfl⟩⟩
    intro i _
    rw [if_neg (by simp [hcache])]
  | none =>
    rw [readFat_ballot L hca hcache]
    by_cases hwrong : 0 < (ballot m s ca).wrong
    · -- all copies are rewritten
      obtain ⟨d, hd, hcells, hother⟩ := writeFatLocked_cells L hca (ballot_lt m s ca)
        (noteFat ca (ballot m s ca).val s)
      rw [if_pos hwrong, hd]
      refine ⟨?_, ?_⟩
      · intro i hi
        rw [if_pos ⟨hcache, hwrong⟩]
        exact hcells i hi
      · intro k hk hne
        refine ⟨?_, ?_⟩
        · show cachedFat k (noteFat ca _ (noteFat ca _ s)) = _
          rw [cachedFat_noteFat_ne hne, cachedFat_noteFat_ne hne]
        · intro i hi
          rw [noteFat_medium] at hother
          exact hother k hk hne i hi
    · rw [if_neg hwrong]
      refine ⟨?_, ?_⟩
      · intro i hi
        rw [if_neg fun h => hwrong h.2]
        show fatCell m (noteFat ca _ s).medium.bytes ca i = _
        rw [noteFat_medium]
      · intro k hk hne
        refine ⟨cachedFat_noteFat_ne hne, ?_⟩
        intro i hi
        show fatCell m (noteFat ca _ s).medium.bytes k i = _
        rw [noteFat_medium]

/-- A read of a number that is no cluster leaves all copies alone. -/
theorem readFat_outside (L : Layout m) (hca : ¬ InVol m ca) (s : FS) :
    ∀ k, InVol m k → SameCell m s (readFat m ca s).2 k := by
  have hrange : ca < m.fi.extRootCluster ∨ m.fi.totalClusters ≤ ca := by
    unfold InVol at hca
    omega
  intro k hk
  unfold readFat
  rw [if_pos hrange]
  have hlog := registerError_logOnly L.works .readFatError s
  refine ⟨?_, ?_⟩
  · unfold cachedFat
    rw [hlog.fat]
  · intro i hi
    unfold fatCell
    rw [read_congr (registerError m .readFatError s).medium.bytes s.medium.bytes]
    intro a h1 h2
    refine hlog.bytes a ?_
    intro sa hsa
    have hapart := L.cell_log k i sa hk hi hsa
    have hs : (sa + 1) * m.sectorSize = sa * m.sectorSize + m.sectorSize := Nat.succ_mul _ _
    unfold Apart at hapart
    omega

/-- The loop of `fat_repair` heals every cluster that it reads, once. -/
theorem repairLoop_heals (L : Layout m) (cas : List Nat) (hnodup : cas.Nodup) (s : FS) :
    ∀ k, InVol m k →
      (k ∈ cas → Healed m s (cas.foldl (fun s ca => (readFat m ca s).2) s) k) ∧
      (k ∉ cas → SameCell m s (cas.foldl (fun s ca => (readFat m ca s).2) s) k) := by
  induction cas generalizing s with
  | nil => exact fun k _ => ⟨fun hk => absurd hk List.not_mem_nil, fun _ => ⟨rfl, fun _ _ => rfl⟩⟩
  | cons ca cas ih =>
    obtain ⟨hnot, hrest⟩ := List.nodup_cons.mp hnodup
    intro k hk
    rw [List.foldl_cons]
    have hih := ih hrest (readFat m ca s).2 k hk
    have hstep : k ≠ ca → SameCell m s (readFat m ca s).2 k := by
      intro hne
      by_cases hca : InVol m ca
      · exact (readFat_heals L hca s).2 k hk hne
      · exact readFat_outside L hca s k hk
    refine ⟨?_, ?_⟩
    · intro hmem
      by_cases hkc : k = ca
      · -- it is read now, and left alone by the rest of the loop
        subst hkc
        exact (readFat_heals L hk s).1.trans_same (hih.2 hnot)
      · have hmem' := (List.mem_cons.mp hmem).resolve_left hkc
        exact (hstep hkc).healed (hih.1 hmem')
    · intro hout
      rw [List.mem_cons, not_or] at hout
      exact (hstep hout.1).trans (hih.2 hout.2)

/-- After a repair of `ca`, its copies should agree, on the value that more than half of them held
before if there is one. -/
def RepairedAt (m : Mount) (s s' : FS) (ca : Nat) : Prop :=
  ∃ x, (∀ i, i < m.fi.fatCount → fatCell m s'.medium.bytes ca i = x) ∧
    ∀ y, MostCopies m (fun i => fatCell m s.medium.bytes ca i = y) → y = x

/-- The first copy of `ca` is bad, and so are all others but the copy `j`. -/
def StrayCopy (m : Mount) (s : FS) (ca j : Nat) : Prop :=
  0 < j ∧ j < m.fi.fatCount ∧
    ∀ i, i < m.fi.fatCount → i ≠ j → fatCell m s.medium.bytes ca i = FAT_CLUSTER_BAD

/-- When a repair does what it should at `ca`: the copies agree already; or the cache holds no
value for `ca` and the copies are not all bad but one behind the first. -/
def RepairOk (m : Mount) (s : FS) (ca : Nat) : Prop :=
  (∀ i j, i < m.fi.fatCount → j < m.fi.fatCount →
    fatCell m s.medium.bytes ca i = fatCell m s.medium.bytes ca j) ∨
  (cachedFat ca s = none ∧ ∀ j, ¬ StrayCopy m s ca j)

/-- The two patterns of copies that the counter takes for agreement. -/
theorem ballot_wrong_iff (m : Mount) (s : FS) (ca : Nat) : (ballot m s ca).wrong ≤ 0 ↔
    (∀ i j, i < m.fi.fatCount → j < m.fi.fatCount →
      fatCell m s.medium.bytes ca i = fatCell m s.medium.bytes ca j) ∨
    ∃ j, StrayCopy m s ca j := by
  have hlen : (cellValues m s ca).length = m.fi.fatCount := by
    unfold cellValues
    rw [List.length_map, List.length_range]
  have hget : ∀ i, i < m.fi.fatCount →
      (cellValues m s ca)[i]? = some (fatCell m s.medium.bytes ca i) := by
    intro i hi
    unfold cellValues
    rw [List.getElem?_map, List.getElem?_range hi]
    rfl
  unfold ballot
  rw [Vote.run_wrong_le_zero_iff]
  refine or_congr ?_ ?_
  · constructor
    · rintro ⟨n, x, heq⟩ i j hi hj
      have hall : ∀ k, k < m.fi.fatCount → fatCell m s.medium.bytes ca k = x := by
        intro k hk
        have hmem := List.mem_of_getElem? (hget k hk)
        rw [heq] at hmem
        exact List.eq_of_mem_replicate hmem
      rw [hall i hi, hall j hj]
    · intro hall
      refine ⟨m.fi.fatCount, fatCell m s.medium.bytes ca 0, ?_⟩
      refine List.eq_replicate_iff.mpr ⟨hlen, ?_⟩
      intro x hx
      obtain ⟨i, hi, rfl⟩ := List.mem_map.mp hx
      have hlt := List.mem_range.mp hi
      exact hall i 0 hlt (by omega)
  · constructor
    · rintro ⟨j, x, k, heq⟩
      have hn : m.fi.fatCount = j + 1 + (k + 1) := by
        rw [← hlen, heq]
        simp
      refine ⟨j + 1, Nat.succ_pos j, by omega, ?_⟩
      intro i hi hne
      have hi' := hget i hi
      rw [heq, List.getElem?_append, List.length_replicate] at hi'
      split at hi'
      · exact (List.eq_of_mem_replicate (List.mem_of_getElem? hi')).symm ▸ rfl
      · obtain ⟨d, hd⟩ : ∃ d, i - (j + 1) = d + 1 := ⟨i - (j + 1) - 1, by omega⟩
        rw [hd, List.getElem?_cons_succ] at hi'
        exact (List.eq_of_mem_replicate (List.mem_of_getElem? hi')).symm ▸ rfl
    · rintro ⟨j, hpos, hlt, hstray⟩
      refine ⟨j - 1, fatCell m s.medium.bytes ca j, m.fi.fatCount - j - 1, ?_⟩
      rw [Nat.sub_add_cancel hpos]
      refine List.ext_getElem? ?_
      intro i
      by_cases hi : i < m.fi.fatCount
      · rw [hget i hi, List.getElem?_append, List.length_replicate]
        by_cases hij : i < j
        · rw [if_pos hij, List.getElem?_replicate, if_pos hij, hstray i hi (by omega)]
        · rw [if_neg hij]
          by_cases heq : i = j
          · subst heq
            rw [Nat.sub_self, List.getElem?_cons_zero]
          · obtain ⟨d, hd⟩ : ∃ d, i - j = d + 1 := ⟨i - j - 1, by omega⟩
            rw [hd, List.getElem?_cons_succ, List.getElem?_replicate, if_pos (by omega),
              hstray i hi heq]
      · rw [List.getElem?_eq_none (by omega), List.getElem?_eq_none (by simp; omega)]

/-- One cluster, before and after. -/
theorem repairedAt_iff {s' : FS} (hpos : 0 < m.fi.fatCount) (h : Healed m s s' ca) :
    RepairedAt m s s' ca ↔ RepairOk m s ca := by
  by_cases hheal : cachedFat ca s = none ∧ 0 < (ballot m s ca).wrong
  · -- the copies were rewritten
    have hcells : ∀ i, i < m.fi.fatCount →
        fatCell m s'.medium.bytes ca i = (ballot m s ca).val := by
      intro i hi
      rw [h i hi, if_pos hheal]
    have hright : RepairOk m s ca := by
      refine Or.inr ⟨hheal.1, ?_⟩
      intro j hstray
      have hle := (ballot_wrong_iff m s ca).mpr (Or.inr ⟨j, hstray⟩)
      omega
    refine ⟨fun _ => hright, fun _ => ⟨_, hcells, ?_⟩⟩
    intro y hmost
    exact (hmost.run FAT_CLUSTER_BAD).symm
  · have hsame : ∀ i, i < m.fi.fatCount →
        fatCell m s'.medium.bytes ca i = fatCell m s.medium.bytes ca i := by
      intro i hi
      rw [h i hi, if_neg hheal]
    constructor
    · rintro ⟨x, hx, _⟩
      refine Or.inl ?_
      intro i j hi hj
      rw [← hsame i hi, ← hsame j hj, hx i hi, hx j hj]
    · intro hok
      have hagree : ∀ i j, i < m.fi.fatCount → j < m.fi.fatCount →
          fatCell m s.medium.bytes ca i = fatCell m s.medium.bytes ca j := by
        cases hok with
        | inl hagree => exact hagree
        | inr hseen =>
          obtain ⟨hcache, hstray⟩ := hseen
          have hle : (ballot m s ca).wrong ≤ 0 := Int.not_lt.mp fun hlt => hheal ⟨hcache, hlt⟩
          refine ((ballot_wrong_iff m s ca).mp hle).resolve_right ?_
          rintro ⟨j, hj⟩
          exact hstray j hj
      refine ⟨fatCell m s.medium.bytes ca 0, ?_, ?_⟩
      · intro i hi
        rw [hsame i hi]
        exact hagree i 0 hi hpos
      · intro y hmost
        obtain ⟨i, hi, heq⟩ := hmost.exists
        rw [← heq]
        exact hagree i 0 hi hpos

/-- The repair reads every cluster. -/
theorem repairFat_healed (L : Layout m) (s : FS) (hca : InVol m ca) :
    Healed m s (repairFat m s).2 ca :=
  (repairLoop_heals L (List.range m.fi.totalClusters) List.nodup_range s ca hca).1
    (List.mem_range.mpr hca.2)

end NiFat32
