import Mathlib.Data.Finset.Card
import Mathlib.Data.Finset.Filter
import Mathlib.Logic.Relation

/-!
# `Release`: following links while destroying them

`release` follows the links of a table from a cell on and sets every cell it visits free. The links
are arbitrary: they may run in a circle, into another chain, or out of the table.

* `release_ends`: a visited cell was not free, or the walk stops there. So the number of cells that
  are not free bounds the number of passes (a larger bound changes nothing, `release_mono`);
* `release_changes`: the walk changes nothing but cells that the links reach from the start;
* `release_chain`: on a chain without repetition exactly its cells become free.
-/

set_option autoImplicit false

namespace Release

variable {α : Type} [DecidableEq α] (cells : Finset α) (free : α) (stop : α → Prop)
  [DecidablePred stop]

/-- Follow the links from `a` to a value that stops the walk, and free the cells on the way. The
walk fails where a link leaves the table; `none` when the bound on the passes is used up. -/
def release : (fuel : Nat) → (a : α) → (next : α → α) → Option (Bool × (α → α))
  | 0, _, _ => none
  | fuel + 1, a, next =>
    if a ∈ cells then
      if stop (next a) then some (true, Function.update next a free)
      else release fuel (next a) (Function.update next a free)
    else some (false, next)

/-- The value of `a` leads the walk to `b`. -/
def Leads (next : α → α) (a b : α) : Prop := next a = b ∧ ¬ stop b

/-- The cells that are in use. -/
def used (next : α → α) : Finset α := cells.filter fun a => next a ≠ free

variable {cells free stop} {next next' : α → α} {a b c : α} {fuel : Nat} {ok : Bool}

/-- A cell that is freed is no longer in use. -/
theorem used_update :
    used cells free (Function.update next a free) = (used cells free next).erase a := by
  ext b
  simp only [used, Finset.mem_filter, Finset.mem_erase]
  by_cases hb : b = a
  · simp [hb]
  · simp [hb]

/-- Every pass frees a cell, so the walk ends, whatever the links are. -/
theorem release_ends (hfree : stop free) (h : (used cells free next).card < fuel) :
    ∃ r, release cells free stop fuel a next = some r := by
  induction fuel generalizing a next with
  | zero => exact absurd h (Nat.not_lt_zero _)
  | succ fuel ih =>
    rw [release]
    by_cases ha : a ∈ cells
    · rw [if_pos ha]
      by_cases hstop : stop (next a)
      · exact ⟨_, if_pos hstop⟩
      · rw [if_neg hstop]
        apply ih
        -- the walk went on, so the cell was in use
        have hused : a ∈ used cells free next := by
          rw [used, Finset.mem_filter]
          exact ⟨ha, fun heq => hstop (heq ▸ hfree)⟩
        have hpos := Finset.card_pos.mpr ⟨a, hused⟩
        rw [used_update, Finset.card_erase_of_mem hused]
        omega
    · exact ⟨_, if_neg ha⟩

/-- A larger bound does not change the result. -/
theorem release_mono {fuel' : Nat} {r : Bool × (α → α)} (hle : fuel ≤ fuel')
    (hrun : release cells free stop fuel a next = some r) :
    release cells free stop fuel' a next = some r := by
  induction fuel generalizing fuel' a next with
  | zero => cases hrun
  | succ fuel ih =>
    obtain ⟨k, rfl⟩ : ∃ k, fuel' = k + 1 := ⟨fuel' - 1, by omega⟩
    rw [release] at hrun ⊢
    by_cases ha : a ∈ cells
    · rw [if_pos ha] at hrun ⊢
      by_cases hstop : stop (next a)
      · rw [if_pos hstop] at hrun ⊢
        exact hrun
      · rw [if_neg hstop] at hrun ⊢
        exact ih (by omega) hrun
    · rw [if_neg ha] at hrun ⊢
      exact hrun

omit [DecidablePred stop] in
/-- Freeing a cell takes links away and adds none. -/
theorem Leads.of_update (hfree : stop free) (h : Leads stop (Function.update next a free) b c) :
    Leads stop next b c := by
  by_cases hb : b = a
  · -- a freed cell leads nowhere
    have hc : c = free := by
      rw [← h.1, hb, Function.update_self]
    exact absurd (hc ▸ hfree) h.2
  · refine ⟨?_, h.2⟩
    rw [← h.1, Function.update_of_ne hb]

/-- A cell that the walk changes becomes free, and the links reach it from the start. -/
theorem release_changes (hfree : stop free)
    (hrun : release cells free stop fuel a next = some (ok, next')) (hc : next' c ≠ next c) :
    c ∈ cells ∧ next' c = free ∧ Relation.ReflTransGen (Leads stop next) a c := by
  induction fuel generalizing a next with
  | zero => cases hrun
  | succ fuel ih =>
    rw [release] at hrun
    by_cases ha : a ∈ cells
    · rw [if_pos ha] at hrun
      by_cases hstop : stop (next a)
      · rw [if_pos hstop] at hrun
        cases hrun
        by_cases hca : c = a
        · subst hca
          exact ⟨ha, Function.update_self .., Relation.ReflTransGen.refl⟩
        · exact absurd (Function.update_of_ne hca ..) hc
      · rw [if_neg hstop] at hrun
        have hlead : Leads stop next a (next a) := ⟨rfl, hstop⟩
        by_cases hrest : next' c = Function.update next a free c
        · -- the rest of the walk leaves the cell, so it is the one of this pass
          have hca : c = a := by
            by_contra hne
            exact hc (hrest.trans (Function.update_of_ne hne ..))
          subst hca
          exact ⟨ha, hrest.trans (Function.update_self ..), Relation.ReflTransGen.refl⟩
        · obtain ⟨hcell, hval, hreach⟩ := ih hrun hrest
          refine ⟨hcell, hval, ?_⟩
          have hmono : ∀ x y, Leads stop (Function.update next a free) x y → Leads stop next x y :=
            fun x y hstep => hstep.of_update hfree
          exact Relation.ReflTransGen.head hlead (Relation.ReflTransGen.mono hmono _ _ hreach)
    · rw [if_neg ha] at hrun
      cases hrun
      exact absurd rfl hc

/-- Links from `a` through the cells of the list, the last of which stops a walk. -/
inductive Links (cells : Finset α) (stop : α → Prop) (next : α → α) : α → List α → Prop
  | last {a : α} : a ∈ cells → stop (next a) → Links cells stop next a [a]
  | link {a : α} {cs : List α} : a ∈ cells → ¬ stop (next a) → Links cells stop next (next a) cs →
    Links cells stop next a (a :: cs)

omit [DecidableEq α] [DecidablePred stop] in
/-- The frame rule: links depend on the values of their own cells. -/
theorem Links.congr {cs : List α} (h : Links cells stop next a cs)
    (hsame : ∀ c ∈ cs, next' c = next c) : Links cells stop next' a cs := by
  induction h with
  | last ha hstop =>
    apply Links.last ha
    rwa [hsame _ List.mem_cons_self]
  | link ha hstop hrest ih =>
    have hself := hsame _ List.mem_cons_self
    apply Links.link ha
    · rwa [hself]
    · rw [hself]
      exact ih fun c hc => hsame c (List.mem_cons_of_mem _ hc)

/-- On a chain that visits no cell twice, the walk frees exactly its cells. -/
theorem release_chain {cs : List α} (h : Links cells stop next a cs) (hnodup : cs.Nodup)
    (hrun : release cells free stop fuel a next = some (ok, next')) :
    ok = true ∧ ∀ c, next' c = if c ∈ cs then free else next c := by
  induction fuel generalizing a next cs with
  | zero => cases hrun
  | succ fuel ih =>
    rw [release] at hrun
    cases h with
    | last ha hstop =>
      rw [if_pos ha, if_pos hstop] at hrun
      cases hrun
      refine ⟨rfl, fun c => ?_⟩
      rw [Function.update_apply]
      simp only [List.mem_singleton]
    | @link a ds ha hstop hrest =>
      rw [if_pos ha, if_neg hstop] at hrun
      obtain ⟨hnot, hds⟩ := List.nodup_cons.mp hnodup
      -- the cell that was freed is not on the rest of the chain
      have hsame : ∀ c ∈ ds, Function.update next a free c = next c :=
        fun c hc => Function.update_of_ne (ne_of_mem_of_not_mem hc hnot) ..
      obtain ⟨hok, hvals⟩ := ih (hrest.congr hsame) hds hrun
      refine ⟨hok, fun c => ?_⟩
      rw [hvals c, Function.update_apply]
      by_cases hca : c = a
      · simp [hca]
      · simp [hca]

end Release
