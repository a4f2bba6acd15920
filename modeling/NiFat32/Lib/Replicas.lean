import Mathlib.Data.Finset.Card
import Mathlib.Data.Finset.Insert
import NiFat32.Lib.Vote

/-!
# `Lib.Replicas`: registers that are kept in several copies

Each register is stored in `n` copies. Now and then a copy of one is struck, and says anything from
then on. `Replicas` is the ghost state of such a store: the values that were written, and for each
register the copies that were struck since they were last rewritten. `Replicas.Kept` connects it
with what the copies say: a copy that was not struck says the value, and the struck ones are the
minority.

A vote then returns the value (`Kept.vote`). What its count of disagreements is good for is
`Kept.mend`: the copies are rewritten when the count asks for it, and behind that no copy is struck,
unless the value is the one that the vote starts from.
-/

set_option autoImplicit false

/-- The values of the registers, and their copies that were struck since they were rewritten. -/
structure Replicas (κ ν : Type) where
  value : κ → ν
  struck : κ → Finset Nat

namespace Replicas

variable {κ ν : Type} [DecidableEq κ]

/-- The register is written to all its copies. -/
def write (a : Replicas κ ν) (k : κ) (x : ν) : Replicas κ ν :=
  ⟨Function.update a.value k x, Function.update a.struck k ∅⟩

/-- The copy `i` of the register is struck. -/
def strike (a : Replicas κ ν) (k : κ) (i : Nat) : Replicas κ ν :=
  { a with struck := Function.update a.struck k (insert i (a.struck k)) }

/-- The copies of the register are voted on, from the start value `v`, and mended. -/
def mend [DecidableEq ν] (v : ν) (a : Replicas κ ν) (k : κ) : Replicas κ ν :=
  if a.value k = v then a else { a with struck := Function.update a.struck k ∅ }

/-- Of the registers in `D` a copy that was not struck says the value, and less than half of the
copies are struck. -/
structure Kept (n : Nat) (D : κ → Prop) (cells : κ → Nat → ν) (a : Replicas κ ν) : Prop where
  cell_eq : ∀ k, D k → ∀ i, i < n → i ∉ a.struck k → cells k i = a.value k
  minority : ∀ k, D k → 2 * (a.struck k).card < n

variable {n : Nat} {D : κ → Prop} {cells cells' : κ → Nat → ν} {a b : Replicas κ ν} {k : κ}

omit [DecidableEq κ] in
/-- More than half of the copies say the value. -/
theorem Kept.count_lt [DecidableEq ν] (h : Kept n D cells a) (hk : D k) :
    ((List.range n).map (cells k)).length
      < 2 * ((List.range n).map (cells k)).count (a.value k) := by
  have hsub : Finset.range n \ a.struck k
      ⊆ ((List.range n).filter fun i => cells k i == a.value k).toFinset := by
    intro i hi
    obtain ⟨hlt, hnot⟩ := Finset.mem_sdiff.mp hi
    rw [List.mem_toFinset, List.mem_filter, List.mem_range]
    exact ⟨Finset.mem_range.mp hlt, by simp [h.cell_eq k hk i (Finset.mem_range.mp hlt) hnot]⟩
  have hle := Finset.card_le_card hsub
  have hfew := Finset.le_card_sdiff (a.struck k) (Finset.range n)
  rw [Finset.card_range] at hfew
  have hlist := List.toFinset_card_le ((List.range n).filter fun i => cells k i == a.value k)
  have hhalf := h.minority k hk
  rw [List.length_map, List.length_range, List.count, List.countP_map,
    List.countP_eq_length_filter]
  show n < 2 * ((List.range n).filter fun i => cells k i == a.value k).length
  omega

omit [DecidableEq κ] in
/-- The vote returns the value. -/
theorem Kept.vote [DecidableEq ν] (h : Kept n D cells a) (hk : D k) (v : ν) :
    (Vote.run v ((List.range n).map (cells k))).val = a.value k :=
  Vote.run_majority v (h.count_lt hk)

omit [DecidableEq κ] in
/-- Less is known when more copies may have been struck. -/
theorem Kept.weaken (h : Kept n D cells a) (hvalue : ∀ k, D k → b.value k = a.value k)
    (hstruck : ∀ k, D k → a.struck k ⊆ b.struck k) (hhalf : ∀ k, D k → 2 * (b.struck k).card < n) :
    Kept n D cells b where
  cell_eq k hk i hi hnot := by
    rw [hvalue k hk]
    exact h.cell_eq k hk i hi fun hmem => hnot (hstruck k hk hmem)
  minority := hhalf

omit [DecidableEq κ] in
/-- Only what the copies of the registers say matters. -/
theorem Kept.congr (h : Kept n D cells a) (heq : ∀ k, D k → ∀ i, i < n → cells' k i = cells k i) :
    Kept n D cells' a where
  cell_eq k hk i hi hnot := by
    rw [heq k hk i hi]
    exact h.cell_eq k hk i hi hnot
  minority := h.minority

theorem Kept.write (h : Kept n D cells a) (hk : D k) {x : ν}
    (hself : ∀ i, i < n → cells' k i = x)
    (hother : ∀ k', D k' → k' ≠ k → ∀ i, i < n → cells' k' i = cells k' i) :
    Kept n D cells' (a.write k x) where
  cell_eq k' hk' i hi hnot := by
    unfold Replicas.write at hnot ⊢
    by_cases heq : k' = k
    · subst heq
      simp only [Function.update_self]
      exact hself i hi
    · simp only [Function.update_of_ne heq] at hnot ⊢
      rw [hother k' hk' heq i hi]
      exact h.cell_eq k' hk' i hi hnot
  minority k' hk' := by
    unfold Replicas.write
    by_cases heq : k' = k
    · subst heq
      simp only [Function.update_self, Finset.card_empty]
      have hhalf := h.minority k' hk
      omega
    · simp only [Function.update_of_ne heq]
      exact h.minority k' hk'

theorem Kept.strike (h : Kept n D cells a) {i : Nat}
    (hhalf : 2 * (insert i (a.struck k)).card < n)
    (hother : ∀ k', D k' → ∀ j, j < n → ¬ (k' = k ∧ j = i) → cells' k' j = cells k' j) :
    Kept n D cells' (a.strike k i) where
  cell_eq k' hk' j hj hnot := by
    unfold Replicas.strike at hnot ⊢
    by_cases heq : k' = k
    · subst heq
      simp only [Function.update_self, Finset.mem_insert, not_or] at hnot
      rw [hother k' hk' j hj fun hc => hnot.1 hc.2]
      exact h.cell_eq k' hk' j hj hnot.2
    · simp only [Function.update_of_ne heq] at hnot
      rw [hother k' hk' j hj fun hc => heq hc.1]
      exact h.cell_eq k' hk' j hj hnot
  minority k' hk' := by
    unfold Replicas.strike
    by_cases heq : k' = k
    · subst heq
      simp only [Function.update_self]
      exact hhalf
    · simp only [Function.update_of_ne heq]
      exact h.minority k' hk'

omit [DecidableEq κ] in
/-- When the count asks for no mending, all copies say the value, unless the vote started from
it. -/
theorem Kept.agree [DecidableEq ν] (h : Kept n D cells a) (hk : D k) {v : ν}
    (hwrong : (Vote.run v ((List.range n).map (cells k))).wrong ≤ 0) (hv : a.value k ≠ v) :
    ∀ i, i < n → cells k i = a.value k := by
  have hval := h.vote hk v
  rw [Vote.run_val_seated] at hval
  cases hp : Vote.seated v (cells k) n with
  | none =>
    rw [hp] at hval
    exact absurd hval.symm hv
  | some p =>
    rw [hp] at hval
    intro i hi
    rw [← hval]
    exact Vote.agree_of_seated hp hwrong i hi

/-- A vote whose winner is written back when the count asks for it. -/
theorem Kept.mend [DecidableEq ν] (h : Kept n D cells a) (hk : D k) (v : ν)
    (hself : ∀ i, i < n → cells' k i =
      if 0 < (Vote.run v ((List.range n).map (cells k))).wrong
      then (Vote.run v ((List.range n).map (cells k))).val else cells k i)
    (hother : ∀ k', D k' → k' ≠ k → ∀ i, i < n → cells' k' i = cells k' i) :
    Kept n D cells' (a.mend v k) := by
  have hval := h.vote hk v
  rw [hval] at hself
  -- no copy is worse off than before
  have hbetter : ∀ i, i < n → cells k i = a.value k → cells' k i = a.value k := by
    intro i hi hcell
    rw [hself i hi]
    split
    · rfl
    · exact hcell
  unfold Replicas.mend
  by_cases hv : a.value k = v
  · rw [if_pos hv]
    refine ⟨fun k' hk' i hi hnot => ?_, h.minority⟩
    by_cases heq : k' = k
    · subst heq
      exact hbetter i hi (h.cell_eq k' hk i hi hnot)
    · rw [hother k' hk' heq i hi]
      exact h.cell_eq k' hk' i hi hnot
  · rw [if_neg hv]
    have hall : ∀ i, i < n → cells' k i = a.value k := by
      intro i hi
      rw [hself i hi]
      split
      · rfl
      · next hwrong => exact h.agree hk (Int.not_lt.mp hwrong) hv i hi
    have hwritten := h.write hk hall hother
    unfold Replicas.write at hwritten
    rwa [Function.update_eq_self] at hwritten

/-- Mending keeps the values and strikes no copy. -/
@[simp] theorem mend_value [DecidableEq ν] (v : ν) (a : Replicas κ ν) (k : κ) :
    (a.mend v k).value = a.value := by
  unfold mend
  split <;> rfl

theorem mend_struck_subset [DecidableEq ν] (v : ν) (a : Replicas κ ν) (k k' : κ) :
    (a.mend v k).struck k' ⊆ a.struck k' := by
  unfold mend
  split
  · exact Finset.Subset.refl _
  · by_cases heq : k' = k
    · subst heq
      simp only [Function.update_self]
      exact Finset.empty_subset _
    · simp only [Function.update_of_ne heq]
      exact Finset.Subset.refl _

end Replicas
