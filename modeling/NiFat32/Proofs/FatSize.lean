import Mathlib.Tactic.Ring
import NiFat32.Lib.Alternate
import NiFat32.Proofs.Placement

/-!
# `Proofs.FatSize`: the loop of `_calculate_fat_size`

A larger FAT leaves fewer clusters, and they need a smaller FAT: the pass is antitone, and the loop
swings between sizes that are too small and sizes that are too large. It ends when no two sizes keep
it from landing between them. For a size `a` and one that is `j + 1` larger, this is a condition on
the sectors of the volume, in steps of `128 * spc + fc` sectors: that many are taken by one more FAT
sector in each copy and the clusters it describes.
-/

set_option autoImplicit false

namespace NiFat32.Formatter

open Alternate

variable {o : Opt} {ts fc spc sectors a j f : Nat}

/-- `data_sectors` -/
def dataSectors (ts : Nat) : Nat := sub32 ts RESERVED_SECTORS

/-- The FAT sectors for the clusters that `fc` copies of `f` sectors leave. -/
def fatSizeFor (sectors fc spc f : Nat) : Nat := (4 * ((sectors - fc * f) / spc) + 511) / 512

theorem fatSizeFor_antitone (sectors fc spc : Nat) : Antitone (fatSizeFor sectors fc spc) := by
  intro f f' hle
  have hfc : fc * f ≤ fc * f' := Nat.mul_le_mul_left fc hle
  have hdiv : (sectors - fc * f') / spc ≤ (sectors - fc * f) / spc :=
    Nat.div_le_div_right (by omega)
  rw [fatSizeFor, fatSizeFor]
  omega

/-- A FAT of more than `a` sectors is asked for when more than `128 * a` clusters are left. -/
theorem lt_fatSizeFor : a < fatSizeFor sectors fc spc f ↔ 128 * a < (sectors - fc * f) / spc := by
  rw [fatSizeFor]
  omega

/-- More than `n` clusters are left when their sectors fit behind the copies. -/
theorem lt_clusters (hspc : 0 < spc) (n : Nat) :
    n < (sectors - fc * f) / spc ↔ fc * f + spc * n + spc ≤ sectors := by
  rw [Nat.lt_iff_add_one_le, Nat.le_div_iff_mul_le hspc]
  have hprod : (n + 1) * spc = spc * n + spc := by rw [Nat.add_mul, Nat.one_mul, Nat.mul_comm]
  rw [hprod]
  omega

/-- The sizes that the loop cannot land between. -/
theorem swing_iff (hspc : 0 < spc) :
    Swing (fatSizeFor sectors fc spc) a (a + j + 1) ↔
      (128 * spc + fc) * a + 128 * spc * j + spc ≤ sectors ∧
      sectors < (128 * spc + fc) * a + fc * (j + 1) + spc := by
  have hlow : a + j + 1 ≤ fatSizeFor sectors fc spc a ↔
      (128 * spc + fc) * a + 128 * spc * j + spc ≤ sectors := by
    rw [Nat.add_one_le_iff, lt_fatSizeFor, lt_clusters hspc]
    have hprod : fc * a + spc * (128 * (a + j)) = (128 * spc + fc) * a + 128 * spc * j := by ring
    rw [hprod]
  have hhigh : fatSizeFor sectors fc spc (a + j + 1) ≤ a ↔
      sectors < (128 * spc + fc) * a + fc * (j + 1) + spc := by
    rw [← Nat.not_lt, lt_fatSizeFor, lt_clusters hspc, Nat.not_le]
    have hprod : fc * (a + j + 1) + spc * (128 * a) = (128 * spc + fc) * a + fc * (j + 1) := by ring
    rw [hprod]
  constructor
  · intro h
    exact ⟨hlow.mp h.low, hhigh.mp h.high⟩
  · intro h
    exact ⟨by omega, hlow.mpr h.1, hhigh.mpr h.2⟩

/-! ### The loop -/

/-- The copies of the first size that the loop tries fit into the volume; it is the largest. -/
def FatsFit (o : Opt) (ts : Nat) : Prop := asU32 o.fc * fatSizePass o ts 0 ≤ dataSectors ts

instance (o : Opt) (ts : Nat) : Decidable (FatsFit o ts) := inferInstanceAs (Decidable (_ ≤ _))

theorem fatSizePass_zero (o : Opt) (ts : Nat) :
    fatSizePass o ts 0 = fatSizeFor (dataSectors ts) (asU32 o.fc) (asU32 o.spc) 0 := by
  have hlt : dataSectors ts < 2 ^ 32 := Nat.mod_lt _ (by decide)
  have hnone : sub32 (sub32 ts RESERVED_SECTORS) 0 = dataSectors ts := by
    rw [← dataSectors, sub32_of_le (Nat.zero_le _) hlt, Nat.sub_zero]
  rw [fatSizePass_eq, clustersFor, Nat.mul_zero, show u32 0 = 0 from rfl, hnone, fatSizeFor,
    Nat.mul_zero, Nat.sub_zero, Nat.mul_comm 4]

/-- No subtraction of the loop wraps. -/
theorem fatSizePass_exact (hfit : FatsFit o ts) (hf : f ≤ fatSizePass o ts 0) :
    clustersFor o ts f = (dataSectors ts - asU32 o.fc * f) / asU32 o.spc ∧
    fatSizePass o ts f = fatSizeFor (dataSectors ts) (asU32 o.fc) (asU32 o.spc) f := by
  have hlt : dataSectors ts < 2 ^ 32 := Nat.mod_lt _ (by decide)
  have hle : asU32 o.fc * f ≤ dataSectors ts := Nat.le_trans (Nat.mul_le_mul_left _ hf) hfit
  have hclusters : clustersFor o ts f = (dataSectors ts - asU32 o.fc * f) / asU32 o.spc := by
    rw [clustersFor, u32_of_lt (Nat.lt_of_le_of_lt hle hlt)]
    exact congrArg (· / asU32 o.spc) (sub32_of_le hle hlt)
  rw [fatSizePass_eq, hclusters, fatSizeFor, Nat.mul_comm 4]
  exact ⟨rfl, rfl⟩

/-- The sizes that the loop tries. -/
theorem iterate_exact (hfit : FatsFit o ts) (n : Nat) :
    (fatSizePass o ts)^[n] 0 =
        (fatSizeFor (dataSectors ts) (asU32 o.fc) (asU32 o.spc))^[n] 0 ∧
      (fatSizePass o ts)^[n] 0 ≤ fatSizePass o ts 0 := by
  induction n with
  | zero =>
    rw [Function.iterate_zero_apply, Function.iterate_zero_apply]
    exact ⟨rfl, Nat.zero_le _⟩
  | succ n ih =>
    rw [Function.iterate_succ_apply', Function.iterate_succ_apply', ← ih.1,
      (fatSizePass_exact hfit ih.2).2]
    refine ⟨rfl, ?_⟩
    rw [fatSizePass_zero]
    exact fatSizeFor_antitone _ _ _ (Nat.zero_le _)

/-- The loop ends with the first size that a pass keeps. -/
theorem calculateFatSize_ends (prev : Nat) :
    (∃ passes f, calculateFatSize o ts passes prev = some f) ↔
      ∃ n, fatSizePass o ts ((fatSizePass o ts)^[n] prev) = (fatSizePass o ts)^[n] prev := by
  constructor
  · rintro ⟨passes, f, h⟩
    induction passes generalizing prev with
    | zero => cases h
    | succ passes ih =>
      rw [calculateFatSize] at h
      split at h
      · refine ⟨0, ?_⟩
        rw [Function.iterate_zero_apply]
        assumption
      · obtain ⟨n, hn⟩ := ih _ h
        rw [← Function.iterate_succ_apply] at hn
        exact ⟨n + 1, hn⟩
  · rintro ⟨n, hn⟩
    induction n generalizing prev with
    | zero =>
      rw [Function.iterate_zero_apply] at hn
      exact ⟨1, prev, by rw [calculateFatSize, if_pos hn]⟩
    | succ n ih =>
      rw [Function.iterate_succ_apply] at hn
      obtain ⟨passes, f, hf⟩ := ih (fatSizePass o ts prev) hn
      by_cases hfix : fatSizePass o ts prev = prev
      · exact ⟨1, prev, by rw [calculateFatSize, if_pos hfix]⟩
      · exact ⟨passes + 1, f, by rw [calculateFatSize, if_neg hfix, hf]⟩

/-- It ends exactly when it can land between all sizes. -/
theorem calculateFatSize_ends_swing (hfit : FatsFit o ts) :
    (∃ passes f, calculateFatSize o ts passes 0 = some f) ↔
      ¬ ∃ a b, Swing (fatSizeFor (dataSectors ts) (asU32 o.fc) (asU32 o.spc)) a b := by
  rw [calculateFatSize_ends, ← exists_fixed_iff (fatSizeFor_antitone _ _ _)]
  apply exists_congr
  intro n
  rw [(fatSizePass_exact hfit (iterate_exact hfit n).2).2, (iterate_exact hfit n).1]

/-- The size that the loop ends with is one that it tried. -/
theorem calculateFatSize_le (hfit : FatsFit o ts) {passes prev : Nat}
    (hprev : ∃ n, prev = (fatSizePass o ts)^[n] 0)
    (h : calculateFatSize o ts passes prev = some f) :
    f ≤ fatSizePass o ts 0 := by
  induction passes generalizing prev with
  | zero => cases h
  | succ passes ih =>
    obtain ⟨n, hn⟩ := hprev
    rw [calculateFatSize] at h
    split at h
    · cases h
      rw [hn]
      exact (iterate_exact hfit n).2
    · refine ih ⟨n + 1, ?_⟩ h
      rw [Function.iterate_succ_apply', hn]

/-- Two sizes that the loop swings between, `j + 1` sectors apart. -/
def Swings (o : Opt) (ts : Nat) : Prop :=
  ∃ a j, (128 * asU32 o.spc + asU32 o.fc) * a + 128 * asU32 o.spc * j + asU32 o.spc
      ≤ dataSectors ts ∧
    dataSectors ts <
      (128 * asU32 o.spc + asU32 o.fc) * a + asU32 o.fc * (j + 1) + asU32 o.spc

theorem swings_iff (hspc : 0 < asU32 o.spc) : Swings o ts ↔
    ∃ a b, Swing (fatSizeFor (dataSectors ts) (asU32 o.fc) (asU32 o.spc)) a b := by
  constructor
  · rintro ⟨a, j, h⟩
    exact ⟨a, a + j + 1, (swing_iff hspc).mpr h⟩
  · rintro ⟨a, b, h⟩
    obtain ⟨j, rfl⟩ := Nat.exists_eq_add_of_lt h.lt
    exact ⟨a, j, (swing_iff hspc).mp h⟩

/-- The loop ends, with a table that covers the clusters which its copies leave, exactly when there
are no two sizes that it swings between. -/
theorem calculateFatSize_ends_iff (hspc : 0 < asU32 o.spc) (hfit : FatsFit o (totalSectors o)) :
    (∃ passes f, calculateFatSize o (totalSectors o) passes 0 = some f ∧
      asU32 o.fc * f ≤ dataSectors (totalSectors o) ∧
      f = (4 * ((dataSectors (totalSectors o) - asU32 o.fc * f) / asU32 o.spc) + 511) / 512 ∧
      clustersFor o (totalSectors o) f ≤ 128 * f) ↔
    ¬ ∃ a j, (128 * asU32 o.spc + asU32 o.fc) * a + 128 * asU32 o.spc * j + asU32 o.spc
        ≤ dataSectors (totalSectors o) ∧
      dataSectors (totalSectors o) <
        (128 * asU32 o.spc + asU32 o.fc) * a + asU32 o.fc * (j + 1) + asU32 o.spc := by
  have hends := calculateFatSize_ends_swing hfit
  rw [← swings_iff hspc] at hends
  rw [← Swings, ← hends]
  constructor
  · rintro ⟨passes, f, h, -⟩
    exact ⟨passes, f, h⟩
  · rintro ⟨passes, f, h⟩
    have hle := calculateFatSize_le hfit ⟨0, rfl⟩ h
    have hfix := calculateFatSize_fixed h
    obtain ⟨hclusters, hexact⟩ := fatSizePass_exact hfit hle
    rw [hexact, fatSizeFor] at hfix
    refine ⟨passes, f, h, Nat.le_trans (Nat.mul_le_mul_left _ hle) hfit, hfix.symm, ?_⟩
    rw [hclusters]
    omega

/-- The sizes of the default volume of 64 MB. -/
theorem calculateFatSize_ends_default :
    (∃ passes f, calculateFatSize Opt.default (totalSectors Opt.default) passes 0 = some f ∧
      asU32 Opt.default.fc * f ≤ dataSectors (totalSectors Opt.default) ∧
      f = (4 * ((dataSectors (totalSectors Opt.default) - asU32 Opt.default.fc * f)
        / asU32 Opt.default.spc) + 511) / 512 ∧
      clustersFor Opt.default (totalSectors Opt.default) f ≤ 128 * f) ↔
    ¬ ∃ a j, (128 * asU32 Opt.default.spc + asU32 Opt.default.fc) * a
          + 128 * asU32 Opt.default.spc * j + asU32 Opt.default.spc
        ≤ dataSectors (totalSectors Opt.default) ∧
      dataSectors (totalSectors Opt.default) <
        (128 * asU32 Opt.default.spc + asU32 Opt.default.fc) * a
          + asU32 Opt.default.fc * (j + 1) + asU32 Opt.default.spc :=
  calculateFatSize_ends_iff (by decide) (by decide)

/-- On a volume of 252 MB with the other options as they are, the FAT size alternates between 502
and 503 sectors, and the formatter does not end. -/
theorem not_calculateFatSize_ends :
    let o := { Opt.default with vSize := 252 }
    FatsFit o (totalSectors o) ∧
    (∃ n, (fatSizePass o (totalSectors o))^[n] 0 = 502 ∧
      (fatSizePass o (totalSectors o))^[n + 1] 0 = 503) ∧
    fatSizePass o (totalSectors o) 503 = 502 ∧
    ∀ passes, calculateFatSize o (totalSectors o) passes 0 = none := by
  have hfit : FatsFit { Opt.default with vSize := 252 }
      (totalSectors { Opt.default with vSize := 252 }) := by decide
  refine ⟨hfit, ⟨2, by decide, by decide⟩, by decide, ?_⟩
  intro passes
  by_contra hsome
  obtain ⟨f, hf⟩ := Option.ne_none_iff_exists'.mp hsome
  refine (calculateFatSize_ends_swing hfit).mp ⟨passes, f, hf⟩ ?_
  exact (swings_iff (by decide)).mp ⟨502, 0, by decide, by decide⟩

end NiFat32.Formatter
