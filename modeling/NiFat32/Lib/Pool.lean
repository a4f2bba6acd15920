import Mathlib.Data.List.Nodup
import Mathlib.Data.List.Perm.Basic

/-!
# `Lib.Pool`: cells that are free or held in chains

A pool has free cells and a list of chains. A free cell becomes a chain of its own (`take`) or
prolongs one (`grow`), and a chain is given back as a whole (`release`). `Whole T` says that nothing
is lost and nothing is held twice: the free cells and those of the chains are the cells of `T`, each
of them once. The three steps keep it.
-/

set_option autoImplicit false

/-- Free cells, and the cells held in chains. -/
structure Pool (α : Type) where
  chains : List (List α)
  free : α → Prop

namespace Pool

variable {α : Type} {p : Pool α} {T : α → Prop} {c k : α} {A B : List (List α)} {cs : List α}

/-- A free cell becomes a chain. -/
def take (p : Pool α) (c : α) : Pool α where
  chains := p.chains ++ [[c]]
  free k := p.free k ∧ k ≠ c

/-- A free cell goes to the end of the chain `cs`. -/
def grow (p : Pool α) (A : List (List α)) (cs : List α) (B : List (List α)) (c : α) : Pool α where
  chains := A ++ (cs ++ [c]) :: B
  free k := p.free k ∧ k ≠ c

/-- The chain `cs` is given back. -/
def release (p : Pool α) (A : List (List α)) (cs : List α) (B : List (List α)) : Pool α where
  chains := A ++ B
  free k := p.free k ∨ k ∈ cs

/-- The cells of `T` are free or in one place of one chain. -/
structure Whole (p : Pool α) (T : α → Prop) : Prop where
  once : p.chains.flatten.Nodup
  held : ∀ c ∈ p.chains.flatten, ¬ p.free c
  all : ∀ c, T c ↔ p.free c ∨ c ∈ p.chains.flatten

/-- A cell that moves from the free ones into the chains. -/
theorem Whole.move (h : p.Whole T) (hfree : p.free c) {chains : List (List α)}
    (hperm : chains.flatten.Perm (c :: p.chains.flatten)) :
    Whole ⟨chains, fun k => p.free k ∧ k ≠ c⟩ T where
  once := hperm.nodup_iff.mpr (List.nodup_cons.mpr ⟨fun hm => h.held c hm hfree, h.once⟩)
  held k hk hf := by
    cases List.mem_cons.mp (hperm.mem_iff.mp hk) with
    | inl heq => exact hf.2 heq
    | inr hm => exact h.held k hm hf.1
  all k := by
    rw [h.all k, hperm.mem_iff, List.mem_cons]
    by_cases heq : k = c
    · subst heq
      exact ⟨fun _ => Or.inr (Or.inl rfl), fun _ => Or.inl hfree⟩
    · simp [heq]

theorem Whole.take (h : p.Whole T) (hfree : p.free c) : (p.take c).Whole T := by
  apply h.move hfree
  rw [List.flatten_append, List.flatten_singleton]
  exact List.perm_append_singleton c _

theorem Whole.grow (h : p.Whole T) (hchains : p.chains = A ++ cs :: B) (hfree : p.free c) :
    (p.grow A cs B c).Whole T := by
  apply h.move hfree
  rw [hchains]
  simp only [List.flatten_append, List.flatten_cons, List.append_assoc, List.singleton_append]
  rw [← List.append_assoc A.flatten, ← List.append_assoc A.flatten]
  exact List.perm_middle

/-- The cells of one chain, and those of the others. -/
theorem flatten_focus (hchains : p.chains = A ++ cs :: B) :
    p.chains.flatten.Perm (cs ++ (A ++ B).flatten) := by
  rw [hchains]
  simp only [List.flatten_append, List.flatten_cons]
  rw [← List.append_assoc, ← List.append_assoc]
  exact List.perm_append_comm.append_right _

theorem Whole.release (h : p.Whole T) (hchains : p.chains = A ++ cs :: B) :
    (p.release A cs B).Whole T := by
  have hperm := flatten_focus hchains
  have hnodup := hperm.nodup_iff.mp h.once
  constructor
  · exact (List.nodup_append.mp hnodup).2.1
  · intro k hk hf
    cases hf with
    | inl hfree => exact h.held k (hperm.mem_iff.mpr (List.mem_append_right _ hk)) hfree
    | inr hcs => exact (List.nodup_append.mp hnodup).2.2 k hcs k hk rfl
  · intro k
    rw [h.all k, hperm.mem_iff, List.mem_append]
    show _ ↔ (p.free k ∨ k ∈ cs) ∨ k ∈ (A ++ B).flatten
    rw [or_assoc]

/-- Two chains have no cell in common. -/
theorem Whole.apart (h : p.Whole T) (hchains : p.chains = A ++ cs :: B) {ds : List α}
    (hds : ds ∈ A ++ B) : List.Disjoint cs ds := by
  intro k hk hkd
  exact (List.nodup_append.mp ((flatten_focus hchains).nodup_iff.mp h.once)).2.2 k hk k
    (List.mem_flatten.mpr ⟨ds, hds, hkd⟩) rfl

end Pool
