import Mathlib.Data.List.Sort

/-!
# `Lib.Extent`: ranges that are to be disjoint

A range is the numbers from `start` on, `len` of them. That the ranges of a list are disjoint and
lie below a bound is a question about all pairs; `Stacked` walks the list once and compares each
range with the end of the one before. `separate_iff` says that for the nonempty ranges in the order
of their starts the walk answers the question.
-/

set_option autoImplicit false

/-- The numbers `start, start + 1, …`, `len` of them. -/
structure Extent where
  start : Nat
  len : Nat
  deriving DecidableEq, Repr

namespace Extent

/-- The number lies in the range. -/
def Has (r : Extent) (s : Nat) : Prop := r.start ≤ s ∧ s < r.start + r.len

instance (r : Extent) (s : Nat) : Decidable (r.Has s) := inferInstanceAs (Decidable (_ ∧ _))

/-- No number lies in both ranges. -/
def Apart (r r' : Extent) : Prop := ∀ s, ¬ (r.Has s ∧ r'.Has s)

/-- Any two ranges of the list are apart, and all lie below the bound. -/
def Separate (bound : Nat) (rs : List Extent) : Prop :=
  rs.Pairwise Apart ∧ ∀ r ∈ rs, ∀ s, r.Has s → s < bound

/-- Each range begins where the one before has ended, and the last ends below the bound. -/
def Stacked (bound : Nat) : (ended : Nat) → List Extent → Prop
  | ended, [] => ended ≤ bound
  | ended, r :: rs => ended ≤ r.start ∧ Stacked bound (r.start + r.len) rs

instance decidableStacked (bound : Nat) : (ended : Nat) → (rs : List Extent) →
    Decidable (Stacked bound ended rs)
  | ended, [] => inferInstanceAs (Decidable (ended ≤ bound))
  | ended, r :: rs =>
    have := decidableStacked bound (r.start + r.len) rs
    inferInstanceAs (Decidable (ended ≤ r.start ∧ Stacked bound (r.start + r.len) rs))

/-- The order by starts. -/
def Before (r r' : Extent) : Prop := r.start ≤ r'.start

instance : DecidableRel Before := fun r r' => inferInstanceAs (Decidable (r.start ≤ r'.start))

instance : Std.Total Before := ⟨fun r r' => Nat.le_total r.start r'.start⟩

instance : IsTrans Extent Before := ⟨fun _ _ _ h h' => Nat.le_trans h h'⟩

/-- The nonempty ranges in the order of their starts. -/
def sorted (rs : List Extent) : List Extent :=
  (rs.filter fun r => 0 < r.len).insertionSort Before

variable {r r' : Extent} {rs rs' : List Extent} {bound ended : Nat}

theorem Apart.symm (h : r.Apart r') : r'.Apart r := fun s hs => h s ⟨hs.2, hs.1⟩

theorem not_has_of_empty (h : ¬ 0 < r.len) (s : Nat) : ¬ r.Has s := by
  rw [Has]
  omega

/-- Of two ranges that are apart the one that starts first ends before the other starts. -/
theorem apart_iff (hr' : 0 < r'.len) (hle : r.start ≤ r'.start) :
    r.Apart r' ↔ r.start + r.len ≤ r'.start := by
  constructor
  · intro h
    have hno := h r'.start
    rw [Has, Has] at hno
    omega
  · intro h s hs
    rw [Has, Has] at hs
    omega

theorem Stacked.le (h : Stacked bound ended rs) : ended ≤ bound := by
  induction rs generalizing ended with
  | nil => exact h
  | cons r rs ih => exact Nat.le_trans h.1 (Nat.le_trans (Nat.le_add_right _ _) (ih h.2))

/-- In a stack every range lies between the end before it and the bound. -/
theorem Stacked.bounds (h : Stacked bound ended rs) (hr : r ∈ rs) :
    ended ≤ r.start ∧ r.start + r.len ≤ bound := by
  induction rs generalizing ended with
  | nil => cases hr
  | cons b rs ih =>
    cases List.mem_cons.mp hr with
    | inl heq =>
      subst heq
      exact ⟨h.1, h.2.le⟩
    | inr hmem =>
      have hrest := ih h.2 hmem
      exact ⟨Nat.le_trans h.1 (Nat.le_trans (Nat.le_add_right _ _) hrest.1), hrest.2⟩

theorem Stacked.separate (h : Stacked bound ended rs) : Separate bound rs := by
  constructor
  · induction rs generalizing ended with
    | nil => exact List.Pairwise.nil
    | cons b rs ih =>
      rw [List.pairwise_cons]
      refine ⟨fun r hr s hs => ?_, ih h.2⟩
      have hbounds := h.2.bounds hr
      rw [Has, Has] at hs
      omega
  · intro r hr s hs
    have hbounds := h.bounds hr
    rw [Has] at hs
    omega

/-- Sorted nonempty ranges that are separate make a stack. -/
theorem stacked_of_separate (hsorted : rs.Pairwise Before) (hpos : ∀ r ∈ rs, 0 < r.len)
    (hended : ended ≤ bound) (hfirst : ∀ r ∈ rs, ended ≤ r.start) (h : Separate bound rs) :
    Stacked bound ended rs := by
  induction rs generalizing ended with
  | nil => exact hended
  | cons b rs ih =>
    rw [List.pairwise_cons] at hsorted
    have hb := hpos b List.mem_cons_self
    have hapart := List.pairwise_cons.mp h.1
    refine ⟨hfirst b List.mem_cons_self, ih hsorted.2 ?_ ?_ ?_ ?_⟩
    · exact fun r hr => hpos r (List.mem_cons_of_mem b hr)
    · -- the last number of the range lies below the bound
      have hlast := h.2 b List.mem_cons_self (b.start + b.len - 1)
      rw [Has] at hlast
      omega
    · intro r hr
      exact (apart_iff (hpos r (List.mem_cons_of_mem b hr)) (hsorted.1 r hr)).mp (hapart.1 r hr)
    · exact ⟨hapart.2, fun r hr => h.2 r (List.mem_cons_of_mem b hr)⟩

theorem Separate.perm (h : rs.Perm rs') : Separate bound rs ↔ Separate bound rs' := by
  rw [Separate, Separate, h.pairwise_iff Apart.symm]
  simp only [h.mem_iff]

/-- Empty ranges do not matter. -/
theorem separate_filter : Separate bound (rs.filter fun r => 0 < r.len) ↔ Separate bound rs := by
  constructor
  · intro h
    constructor
    · have hpair := List.pairwise_filter.mp h.1
      apply hpair.imp
      intro r r' hboth s hs
      by_cases hr : 0 < r.len
      · by_cases hr' : 0 < r'.len
        · exact hboth (by simpa using hr) (by simpa using hr') s hs
        · exact not_has_of_empty hr' s hs.2
      · exact not_has_of_empty hr s hs.1
    · intro r hr s hs
      by_cases hpos : 0 < r.len
      · exact h.2 r (List.mem_filter.mpr ⟨hr, by simpa using hpos⟩) s hs
      · exact absurd hs (not_has_of_empty hpos s)
  · intro h
    exact ⟨h.1.filter _, fun r hr => h.2 r (List.mem_of_mem_filter hr)⟩

/-- The walk over the sorted nonempty ranges decides whether ranges are separate. -/
theorem separate_iff : Separate bound rs ↔ Stacked bound 0 (sorted rs) := by
  rw [← separate_filter, ← Separate.perm (List.perm_insertionSort Before _)]
  constructor
  · intro h
    apply stacked_of_separate (List.pairwise_insertionSort Before _) _ (Nat.zero_le _)
      (fun r _ => Nat.zero_le r.start) h
    intro r hr
    rw [List.mem_insertionSort] at hr
    simpa using (List.mem_filter.mp hr).2
  · exact Stacked.separate

end Extent
