import Mathlib.Order.Iterate
import Mathlib.Order.WellFounded

/-!
# `Alternate`: iterating an antitone function on the naturals

From `0` the iterates of an antitone function swing around every fixed point, each second one
closer from below. They come to rest exactly when no two values `a < b` are swapped or moved further
apart: `exists_fixed_iff`.
-/

set_option autoImplicit false

namespace Alternate

variable {g : ℕ → ℕ} {a b n x : ℕ}

/-- The values `a` and `b` keep apart what lies at or below `a` from what lies at or above `b`. -/
structure Swing (g : ℕ → ℕ) (a b : ℕ) : Prop where
  lt : a < b
  low : b ≤ g a
  high : g b ≤ a

/-- An iterate never lands between the two values. -/
theorem Swing.outside (h : Swing g a b) (hg : Antitone g) (n : ℕ) :
    g^[n] 0 ≤ a ∨ b ≤ g^[n] 0 := by
  induction n with
  | zero => exact Or.inl (Nat.zero_le a)
  | succ n ih =>
    rw [Function.iterate_succ_apply']
    cases ih with
    | inl hlow => exact Or.inr (Nat.le_trans h.low (hg hlow))
    | inr hhigh => exact Or.inl (Nat.le_trans (hg hhigh) h.high)

/-- So no iterate is a fixed point. -/
theorem Swing.not_fixed (h : Swing g a b) (hg : Antitone g) (n : ℕ) : g (g^[n] 0) ≠ g^[n] 0 := by
  intro hfix
  have hlt := h.lt
  cases h.outside hg n with
  | inl hlow =>
    have hnext := Nat.le_trans h.low (hg hlow)
    omega
  | inr hhigh =>
    have hnext := Nat.le_trans (hg hhigh) h.high
    omega

/-- Two steps keep the order. -/
theorem monotone_twice (hg : Antitone g) : Monotone (g ∘ g) := hg.comp hg

/-- Each second iterate is at least the one before it, and none exceeds the first step. -/
theorem even_le_succ (hg : Antitone g) (n : ℕ) : (g ∘ g)^[n] 0 ≤ (g ∘ g)^[n + 1] 0 := by
  induction n with
  | zero => exact Nat.zero_le _
  | succ n ih =>
    rw [Function.iterate_succ_apply', Function.iterate_succ_apply']
    exact monotone_twice hg ih

theorem even_le (hg : Antitone g) (n : ℕ) : (g ∘ g)^[n] 0 ≤ g 0 := by
  cases n with
  | zero => exact Nat.zero_le _
  | succ n =>
    rw [Function.iterate_succ_apply']
    exact hg (Nat.zero_le _)

/-- Some iterate comes back after two steps. -/
theorem exists_period_two (hg : Antitone g) : ∃ n, g (g ((g ∘ g)^[n] 0)) = (g ∘ g)^[n] 0 := by
  by_contra hnone
  have hstrict : StrictMono fun n => (g ∘ g)^[n] 0 := by
    apply strictMono_nat_of_lt_succ
    intro n
    apply Nat.lt_of_le_of_ne (even_le_succ hg n)
    intro heq
    rw [Function.iterate_succ_apply'] at heq
    exact hnone ⟨n, heq.symm⟩
  have hfar := hstrict.le_apply (x := g 0 + 1)
  have hbound := even_le hg (g 0 + 1)
  exact absurd (Nat.le_trans hfar hbound) (by omega)

/-- The iterates from `0` reach a fixed point exactly when no two values are swung. -/
theorem exists_fixed_iff (hg : Antitone g) :
    (∃ n, g (g^[n] 0) = g^[n] 0) ↔ ¬ ∃ a b, Swing g a b := by
  constructor
  · rintro ⟨n, hfix⟩ ⟨a, b, h⟩
    exact h.not_fixed hg n hfix
  · intro hnone
    obtain ⟨n, hperiod⟩ := exists_period_two hg
    refine ⟨2 * n, ?_⟩
    have heven : g^[2 * n] 0 = (g ∘ g)^[n] 0 := by
      rw [Function.iterate_mul]
      rfl
    rw [heven]
    generalize (g ∘ g)^[n] 0 = a at hperiod
    -- a value and its image that come back are swung, unless they are one
    rcases Nat.lt_trichotomy a (g a) with hlt | heq | hgt
    · exact absurd ⟨a, g a, hlt, Nat.le_refl _, Nat.le_of_eq hperiod⟩ hnone
    · exact heq.symm
    · exact absurd ⟨g a, a, hgt, Nat.le_of_eq hperiod.symm, Nat.le_refl _⟩ hnone

end Alternate
