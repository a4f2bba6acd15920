import NiFat32.Lib.Run

/-!
# `Lib.Refine`: runs that follow a specification

A `Spec` says on abstract states where a call may be made, and which answers and next states it may
have; it may leave some of them open. `Refines` runs the real operations beside it: every call of
the sequence completes, with an answer that the specification allows, and the states stay related.
`Simulates` is the condition on one call, from which `Simulates.refines` makes whole runs.
-/

set_option autoImplicit false

namespace Run

/-- A specification: where a call may be made, and how it may answer and go on. -/
structure Spec (α χ ρ : Type) where
  pre : α → χ → Prop
  post : α → χ → ρ → α → Prop

variable {σ α χ ρ : Type} (spec : Spec α χ ρ) (exec : χ → σ → (fuel : Nat) → Option (ρ × σ))
  (R : σ → α → Prop)

/-- The operations follow the specification along the calls, from related states on. -/
def Refines : List χ → σ → α → Prop
  | [], s, a => R s a
  | c :: cs, s, a => R s a ∧
      (spec.pre a c → Ensures (exec c s) fun r => ∃ a', spec.post a c r.1 a' ∧ Refines cs r.2 a')

/-- Each call follows the specification, from related states to related states. -/
def Simulates : Prop :=
  ∀ s a c, R s a → spec.pre a c → Ensures (exec c s) fun r => ∃ a', spec.post a c r.1 a' ∧ R r.2 a'

variable {spec exec R} {s : σ} {a : α} {c : χ} {cs : List χ}

theorem Simulates.refines (h : Simulates spec exec R) (cs : List χ) (hR : R s a) :
    Refines spec exec R cs s a := by
  induction cs generalizing s a with
  | nil => exact hR
  | cons c cs ih =>
    refine ⟨hR, fun hpre => (h s a c hR hpre).imp fun r hr => ?_⟩
    obtain ⟨a', hpost, hR'⟩ := hr
    exact ⟨a', hpost, ih hR'⟩

end Run
