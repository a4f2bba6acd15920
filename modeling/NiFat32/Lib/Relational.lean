import Mathlib.Logic.Basic

/-!
# `Lib.Relational`: the same operation in two runs

An operation on a state returns a value with the next state. Two runs of it are compared by a
relation on the states: the runs agree when they return the same value and leave related states
(`Same`, for a tuple that the function `k` builds, and `Pairs`). An operation whose loops take a
bound may also not complete, and then it does so in both runs (`Ends`).
-/

set_option autoImplicit false

namespace Relational

variable {σ ρ τ α : Type}

/-- Both runs return the same value and leave related states. -/
def Same (R : σ → σ → Prop) (k : ρ → σ → τ) (x y : τ) : Prop :=
  ∃ a s t, x = k a s ∧ y = k a t ∧ R s t

/-- The same value and related states, as a pair. -/
def Pairs (R : σ → σ → Prop) (x y : ρ × σ) : Prop := Same R Prod.mk x y

/-- Neither run completes, or both do with the same value and related states. -/
def Ends (R : σ → σ → Prop) (k : ρ → σ → τ) (x y : Option τ) : Prop :=
  (x = none ∧ y = none) ∨ Same R (fun a s => some (k a s)) x y

variable {R : σ → σ → Prop}

theorem Pairs.mk (a : ρ) {s t : σ} (h : R s t) : Pairs R (a, s) (a, t) := ⟨a, s, t, rfl, rfl, h⟩

theorem Pairs.fst {x y : ρ × σ} (h : Pairs R x y) : x.1 = y.1 := by
  obtain ⟨a, s, t, rfl, rfl, _⟩ := h
  rfl

theorem Pairs.snd {x y : ρ × σ} (h : Pairs R x y) : R x.2 y.2 := by
  obtain ⟨a, s, t, rfl, rfl, hR⟩ := h
  exact hR

/-- A loop that returns a value and a state at each step. -/
theorem Pairs.foldl {f : ρ × σ → α → ρ × σ} (xs : List α)
    (hf : ∀ x y a, Pairs R x y → Pairs R (f x a) (f y a)) {x y : ρ × σ} (h : Pairs R x y) :
    Pairs R (xs.foldl f x) (xs.foldl f y) := by
  induction xs generalizing x y with
  | nil => exact h
  | cons a xs ih => exact ih (hf x y a h)

/-- A loop over the numbers below a bound. -/
theorem foldl_range_related {f : σ → Nat → σ} (n : Nat)
    (hf : ∀ s t i, i < n → R s t → R (f s i) (f t i)) {s t : σ} (h : R s t) :
    R ((List.range n).foldl f s) ((List.range n).foldl f t) := by
  induction n with
  | zero => exact h
  | succ n ih =>
    rw [List.range_succ, List.foldl_append, List.foldl_append]
    exact hf _ _ n (Nat.lt_succ_self n)
      (ih fun s t i hi => hf s t i (Nat.lt_succ_of_lt hi))

/-- A loop over the state alone. -/
theorem foldl_related {f : σ → α → σ} (xs : List α) (hf : ∀ s t a, R s t → R (f s a) (f t a))
    {s t : σ} (h : R s t) : R (xs.foldl f s) (xs.foldl f t) := by
  induction xs generalizing s t with
  | nil => exact h
  | cons a xs ih => exact ih (hf s t a h)

namespace Ends

variable {τ' : Type} {k : ρ → σ → τ} {x y : Option τ}

theorem none : Ends R k none none := Or.inl ⟨rfl, rfl⟩

theorem some (a : ρ) {s t : σ} (h : R s t) : Ends R k (some (k a s)) (some (k a t)) :=
  Or.inr ⟨a, s, t, rfl, rfl, h⟩

/-- The result of both runs is passed on. -/
theorem map {σ' ρ' : Type} {R' : σ' → σ' → Prop} {k' : ρ' → σ' → τ'} {f : τ → τ'}
    (h : Ends R k x y)
    (hf : ∀ a s t, R s t → Same R' k' (f (k a s)) (f (k a t))) :
    Ends R' k' (x.map f) (y.map f) := by
  rcases h with ⟨rfl, rfl⟩ | ⟨a, s, t, rfl, rfl, hR⟩
  · exact none
  · obtain ⟨a', s', t', hs, ht, hR'⟩ := hf a s t hR
    exact Or.inr ⟨a', s', t', congrArg _ hs, congrArg _ ht, hR'⟩

/-- A run that completes has its counterpart. -/
theorem of_some {a : ρ} {s : σ} (h : Ends R k x y) (hk : ∀ a b s t, k a s = k b t → a = b ∧ s = t)
    (hx : x = Option.some (k a s)) : ∃ t, y = Option.some (k a t) ∧ R s t := by
  rcases h with ⟨rfl, _⟩ | ⟨a', s', t, rfl, rfl, hR⟩
  · cases hx
  · obtain ⟨rfl, rfl⟩ := hk _ _ _ _ (Option.some.inj hx)
    exact ⟨t, rfl, hR⟩

end Ends

section Runs

variable {χ : Type} (ok : σ → χ → Prop) (serve : χ → (fuel : Nat) → σ → Option (ρ × σ))

/-- The requests of the list, made one after the other in both states, get the same answers. The
comparison ends at a request that is not `ok` in the first state. -/
def Agree : List χ → σ → σ → Prop
  | [], _, _ => True
  | c :: cs, s, t => ok s c → ∀ fuel, Ends (Agree cs) Prod.mk (serve c fuel s) (serve c fuel t)

variable {ok serve}

/-- States that a bisimulation relates answer alike for ever. -/
theorem Agree.of_bisim
    (hstep : ∀ s t c fuel, R s t → ok s c → Ends R Prod.mk (serve c fuel s) (serve c fuel t))
    (cs : List χ) {s t : σ} (h : R s t) : Agree ok serve cs s t := by
  induction cs generalizing s t with
  | nil => trivial
  | cons c cs ih =>
    intro hok fuel
    rcases hstep s t c fuel h hok with hnone | ⟨a, s', t', hs, ht, h'⟩
    · exact Or.inl hnone
    · exact Or.inr ⟨a, s', t', hs, ht, ih h'⟩

end Runs

end Relational
