import Mathlib.Order.Bounds.Basic
import NiFat32.Core.Process
import NiFat32.Lib.BitWords
import NiFat32.Proofs.Volume

/-!
# `Proofs.FreeRuns`: the search for a run of free clusters

`fatmap_find_free` moves its start behind the occupied bit that stopped a run. No run can start at
or before that bit, so the search skips none: `fatmapScan_leftmost` is the induction over its
passes. `fatmapFindFreeBits` lists the bits that the search looks at, in order.
-/

set_option autoImplicit false

namespace NiFat32

open BitWords

variable {m : Mount} {s : FS} {b : Nat → Bool} {i j k left limit offset passes size : Nat}

/-- `size` clear bits from `i` on. -/
def ClearRun (b : Nat → Bool) (size i : Nat) : Prop := ∀ j < size, b (i + j) = false

/-- The places at or behind `offset` for `size` free clusters. -/
def FreeRuns (m : Mount) (b : Nat → Bool) (offset size : Nat) : Set Nat :=
  {i | offset ≤ i ∧ i + size ≤ m.fi.totalClusters ∧ ClearRun b size i}

/-! ### The bits that are looked at -/

/-- The bits that `fatmapRun` looks at. -/
def fatmapRunBits (b : Nat → Bool) (i : Nat) : (left j : Nat) → List Nat
  | 0, _ => []
  | left + 1, j => (i + j) :: if b (i + j) then [] else fatmapRunBits b i left (j + 1)

/-- The bits that `fatmapScan` looks at. -/
def fatmapScanBits (b : Nat → Bool) (size limit : Nat) : (passes i : Nat) → List Nat
  | 0, _ => []
  | passes + 1, i =>
    if limit < i then []
    else
      fatmapRunBits b i size 0 ++
        match fatmapRun b i size 0 with
        | none => []
        | some bit => fatmapScanBits b size limit passes (bit + 1)

/-- The bits that `fatmap_find_free` looks at. -/
def fatmapFindFreeBits (m : Mount) (offset size : Nat) (s : FS) : List Nat :=
  match s.bitmap with
  | none => []
  | some b =>
    if size = 0 ∨ m.fi.totalClusters ≤ offset ∨ m.fi.totalClusters - offset < size then []
    else
      let limit := m.fi.totalClusters - size
      fatmapScanBits b size limit (limit + 1) offset

/-- A run looks at its own bits only. -/
theorem fatmapRunBits_lt (h : k ∈ fatmapRunBits b i left j) : k < i + j + left := by
  induction left generalizing j with
  | zero => cases h
  | succ left ih =>
    rw [fatmapRunBits, List.mem_cons] at h
    rcases h with heq | hrest
    · omega
    · split at hrest
      · cases hrest
      · have := ih hrest
        omega

/-- Every run of the search starts at the limit at the latest. -/
theorem fatmapScanBits_lt (h : k ∈ fatmapScanBits b size limit passes i) : k < limit + size := by
  induction passes generalizing i with
  | zero => cases h
  | succ passes ih =>
    rw [fatmapScanBits] at h
    split at h
    · cases h
    · rw [List.mem_append] at h
      rcases h with hrun | hrest
      · have := fatmapRunBits_lt hrun
        omega
      · split at hrest
        · cases hrest
        · exact ih hrest

/-! ### The inner loop -/

/-- The inner loop ends without a set bit exactly on clear bits. -/
theorem fatmapRun_none :
    fatmapRun b i left j = none ↔ ∀ k, j ≤ k → k < j + left → b (i + k) = false := by
  induction left generalizing j with
  | zero => exact ⟨fun _ k hk hlt => absurd hlt (by omega), fun _ => rfl⟩
  | succ left ih =>
    rw [fatmapRun]
    cases hbit : b (i + j) with
    | true =>
      simp only [if_true, reduceCtorEq, false_iff]
      intro hclear
      rw [hclear j (Nat.le_refl j) (by omega)] at hbit
      cases hbit
    | false =>
      simp only [Bool.false_eq_true, if_false]
      rw [ih]
      constructor
      · intro hrest k hk hlt
        by_cases heq : k = j
        · rw [heq]
          exact hbit
        · exact hrest k (by omega) (by omega)
      · intro hall k hk hlt
        exact hall k (by omega) (by omega)

/-- The bit that stops a run is a set bit of it. -/
theorem fatmapRun_some (h : fatmapRun b i left j = some k) :
    i + j ≤ k ∧ k < i + j + left ∧ b k = true := by
  induction left generalizing j with
  | zero => cases h
  | succ left ih =>
    rw [fatmapRun] at h
    split at h
    · cases h
      exact ⟨Nat.le_refl _, by omega, ‹_›⟩
    · obtain ⟨hle, hlt, hbit⟩ := ih h
      exact ⟨by omega, by omega, hbit⟩

theorem fatmapRun_clear : fatmapRun b i size 0 = none ↔ ClearRun b size i := by
  rw [fatmapRun_none, ClearRun]
  constructor
  · intro h j hj
    exact h j (Nat.zero_le j) (by omega)
  · intro h k _ hk
    exact h k (by omega)

/-- A set bit in the run from `i` lies in every run that starts between `i` and it. -/
theorem not_clearRun (hset : b k = true) (hlt : k < i + size) (hij : i ≤ j) (hjk : j ≤ k) :
    ¬ ClearRun b size j := by
  intro hclear
  have hbit := hclear (k - j) (by omega)
  rw [Nat.add_sub_cancel' hjk, hset] at hbit
  cases hbit

/-! ### The outer loop -/

/-- The first run from `i` on that starts at the limit at the latest, or `0`. -/
theorem fatmapScan_leftmost (hpasses : limit < i + passes) :
    (∃ r, fatmapScan b size limit passes i = r ∧ i ≤ r ∧ r ≤ limit ∧ ClearRun b size r ∧
      ∀ k, i ≤ k → k < r → ¬ ClearRun b size k) ∨
    (fatmapScan b size limit passes i = 0 ∧ ∀ k, i ≤ k → k ≤ limit → ¬ ClearRun b size k) := by
  induction passes generalizing i with
  | zero => exact Or.inr ⟨rfl, fun k hk hle => absurd hle (by omega)⟩
  | succ passes ih =>
    rw [fatmapScan]
    by_cases hend : limit < i
    · rw [if_pos hend]
      exact Or.inr ⟨rfl, fun k hk hle => absurd hle (by omega)⟩
    · rw [if_neg hend]
      cases hrun : fatmapRun b i size 0 with
      | none =>
        exact Or.inl ⟨i, rfl, Nat.le_refl i, by omega, fatmapRun_clear.mp hrun,
          fun k hk hlt => absurd hlt (by omega)⟩
      | some bit =>
        obtain ⟨hle, hlt, hset⟩ := fatmapRun_some hrun
        -- no run starts at or before the bit that stopped this one
        have hskip : ∀ k, i ≤ k → (bit + 1 ≤ k → ¬ ClearRun b size k) → ¬ ClearRun b size k := by
          intro k hk hnext
          by_cases hbit : k ≤ bit
          · exact not_clearRun hset hlt hk hbit
          · exact hnext (by omega)
        rcases @ih (bit + 1) (by omega) with ⟨r, hr, hir, hlimit, hclear, hbefore⟩ | ⟨hr, hall⟩
        · exact Or.inl ⟨r, hr, by omega, hlimit, hclear,
            fun k hk hkr => hskip k hk fun hnext => hbefore k hnext hkr⟩
        · exact Or.inr ⟨hr, fun k hk hkl => hskip k hk fun hnext => hall k hnext hkl⟩

/-- The search returns the least place for the run and `0` when there is none, and it looks at the
bits of clusters only. -/
theorem fatmapFindFree_leftmost {words : Nat → BitVec BITS_PER_WORD}
    (hwords : s.bitmap = some (bit words)) (hoffset : 1 ≤ offset) (hsize : 1 ≤ size) :
    (fatmapFindFree m offset size s ≠ 0 →
      IsLeast (FreeRuns m (bit words) offset size) (fatmapFindFree m offset size s)) ∧
    (fatmapFindFree m offset size s = 0 ↔ FreeRuns m (bit words) offset size = ∅) ∧
    ∀ k ∈ fatmapFindFreeBits m offset size s, k < m.fi.totalClusters := by
  rw [fatmapFindFree, fatmapFindFreeBits, hwords]
  simp only
  by_cases hrange : size = 0 ∨ m.fi.totalClusters ≤ offset ∨ m.fi.totalClusters - offset < size
  · -- no run fits behind the offset
    have hempty : FreeRuns m (bit words) offset size = ∅ := by
      apply Set.eq_empty_of_forall_notMem
      rintro i ⟨hle, hfits, -⟩
      omega
    rw [if_pos hrange, if_pos hrange]
    exact ⟨fun h => absurd rfl h, ⟨fun _ => hempty, fun _ => rfl⟩, fun k hk => by cases hk⟩
  · rw [if_neg hrange, if_neg hrange]
    have hbits : ∀ k ∈ fatmapScanBits (bit words) size (m.fi.totalClusters - size)
        (m.fi.totalClusters - size + 1) offset, k < m.fi.totalClusters := by
      intro k hk
      have := fatmapScanBits_lt hk
      omega
    have hpasses : m.fi.totalClusters - size < offset + (m.fi.totalClusters - size + 1) := by omega
    rcases @fatmapScan_leftmost (bit words) _ _ _ size hpasses with
      ⟨r, hr, hle, hlimit, hclear, hbefore⟩ | ⟨hr, hall⟩
    · have hleast : IsLeast (FreeRuns m (bit words) offset size) r := by
        refine ⟨⟨hle, by omega, hclear⟩, ?_⟩
        rintro i ⟨hi, -, hrun⟩
        by_contra hlt
        exact hbefore i hi (by omega) hrun
      have hne : FreeRuns m (bit words) offset size ≠ ∅ := by
        intro hempty
        have hmem := hleast.1
        rw [hempty] at hmem
        exact hmem
      rw [hr]
      exact ⟨fun _ => hleast, ⟨fun h => absurd h (by omega), fun h => absurd h hne⟩, hbits⟩
    · have hempty : FreeRuns m (bit words) offset size = ∅ := by
        apply Set.eq_empty_of_forall_notMem
        rintro i ⟨hi, hfits, hrun⟩
        exact hall i hi (by omega) hrun
      rw [hr]
      exact ⟨fun h => absurd rfl h, ⟨fun _ => hempty, fun _ => rfl⟩, hbits⟩

/-- With the bits `2`, `3` and `5` of eight set, the first two free clusters in a row are `6` and
`7`. -/
theorem fatmapFindFree_leftmost_small :
    let words : Nat → BitVec BITS_PER_WORD := fun _ => 0x2C#32
    let s : FS := { zeroFS (oneFile 2 R_MODE) with bitmap := some (bit words) }
    fatmapFindFree (smallMount 0) 1 2 s = 6 ∧
    (fatmapFindFree (smallMount 0) 1 2 s ≠ 0 →
      IsLeast (FreeRuns (smallMount 0) (bit words) 1 2) (fatmapFindFree (smallMount 0) 1 2 s)) ∧
    (fatmapFindFree (smallMount 0) 1 2 s = 0 ↔ FreeRuns (smallMount 0) (bit words) 1 2 = ∅) ∧
    ∀ k ∈ fatmapFindFreeBits (smallMount 0) 1 2 s, k < (smallMount 0).fi.totalClusters :=
  ⟨by decide, fatmapFindFree_leftmost rfl (by decide) (by decide)⟩

end NiFat32
