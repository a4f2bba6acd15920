import Mathlib.Data.List.Nodup
import Mathlib.Logic.Function.Basic

/-!
# `Lib.Assoc`: keyed lists

A list of elements with a key is a partial map: a key goes to the first element that carries it.
The two changes of a keyed list with distinct keys are updates of the map: an element that goes
in somewhere (`lookup_insert`) and one that is taken out (`lookup_erase`).
-/

set_option autoImplicit false

namespace Assoc

variable {α κ : Type} [DecidableEq κ] (key : α → κ)

/-- The first element with the key `k`. -/
def lookup (l : List α) (k : κ) : Option α := l.find? fun x => key x = k

variable {key} {l A B : List α} {a : α} {k : κ}

theorem lookup_eq_none : lookup key l k = none ↔ ∀ x ∈ l, key x ≠ k := by
  unfold lookup
  simp

theorem lookup_mem (h : lookup key l k = some a) : a ∈ l ∧ key a = k := by
  unfold lookup at h
  exact ⟨List.mem_of_find?_eq_some h, by simpa using List.find?_some h⟩

theorem lookup_append :
    lookup key (A ++ B) k = (lookup key A k).or (lookup key B k) := List.find?_append

theorem lookup_cons_self : lookup key (a :: B) (key a) = some a := by
  unfold lookup
  simp

theorem lookup_cons_ne (h : key a ≠ k) : lookup key (a :: B) k = lookup key B k := by
  unfold lookup
  simp [h]

/-- With distinct keys, every element is found. -/
theorem lookup_of_mem (hnodup : (l.map key).Nodup) (ha : a ∈ l) :
    lookup key l (key a) = some a := by
  induction l with
  | nil => exact absurd ha List.not_mem_nil
  | cons x l ih =>
    rw [List.map_cons, List.nodup_cons] at hnodup
    cases List.mem_cons.mp ha with
    | inl heq =>
      rw [heq]
      exact lookup_cons_self
    | inr hmem =>
      have hne : key x ≠ key a := fun heq => hnodup.1 (heq ▸ List.mem_map_of_mem hmem)
      rw [lookup_cons_ne hne]
      exact ih hnodup.2 hmem

/-- An element with a new key goes in. -/
theorem lookup_insert (hnew : lookup key (A ++ B) (key a) = none) :
    lookup key (A ++ a :: B) = Function.update (lookup key (A ++ B)) (key a) (some a) := by
  funext k
  by_cases hk : k = key a
  · subst hk
    rw [lookup_append, Option.or_eq_none_iff] at hnew
    rw [Function.update_self, lookup_append, hnew.1, Option.none_or]
    exact lookup_cons_self
  · have hne : key a ≠ k := fun heq => hk heq.symm
    rw [Function.update_of_ne hk, lookup_append, lookup_append, lookup_cons_ne hne]

/-- An element is taken out of a list with distinct keys. -/
theorem lookup_erase (hnodup : ((A ++ a :: B).map key).Nodup) :
    lookup key (A ++ B) = Function.update (lookup key (A ++ a :: B)) (key a) none := by
  have hmid : (key a :: ((A ++ B).map key)).Nodup := by
    rw [List.map_append, List.map_cons] at hnodup
    rw [List.map_append]
    exact (List.perm_middle.nodup_iff).mp hnodup
  funext k
  by_cases hk : k = key a
  · subst hk
    rw [Function.update_self, lookup_eq_none]
    intro x hx heq
    exact (List.nodup_cons.mp hmid).1 (heq ▸ List.mem_map_of_mem hx)
  · have hne : key a ≠ k := fun heq => hk heq.symm
    rw [Function.update_of_ne hk, lookup_append, lookup_append, lookup_cons_ne hne]

/-- A test that holds of the elements with the key `k`, and whose first hit has it, finds the
same element as the key. -/
theorem find?_eq_lookup {p : α → Bool} (hp : ∀ x ∈ l, key x = k → p x = true)
    (hfirst : ∀ x, l.find? p = some x → key x = k) : l.find? p = lookup key l k := by
  induction l with
  | nil => rfl
  | cons x l ih =>
    cases hx : p x with
    | true =>
      have hk : key x = k := hfirst x (List.find?_cons_of_pos hx)
      rw [List.find?_cons_of_pos hx, ← hk]
      exact lookup_cons_self.symm
    | false =>
      have hne : key x ≠ k := fun heq => by
        rw [hp x List.mem_cons_self heq] at hx
        cases hx
      have hskip : (x :: l).find? p = l.find? p := List.find?_cons_of_neg (by simp [hx])
      rw [hskip, lookup_cons_ne hne]
      exact ih (fun y hy => hp y (List.mem_cons_of_mem x hy)) fun y hy => hfirst y (hskip.trans hy)

end Assoc
