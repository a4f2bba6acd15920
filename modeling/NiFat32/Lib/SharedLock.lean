import Mathlib.Data.List.Basic

/-!
# `Lib.SharedLock`: a lock for readers and writers

At most `max` readers hold the lock, or one writer does. `Grip` is the lock, and `Grip.run` grants
or refuses a call. `Holders` are those whose calls were granted, as the callers see it.

`Describes` says that the lock and its holders agree. `Describes.run` keeps it over every call, as
long as a reader gives back only what it holds.
-/

set_option autoImplicit false

namespace SharedLock

variable {ι ω : Type} {max : Nat}

/-- What the lock is held by: at most `max` readers, or a writer. -/
inductive Grip (ω : Type) (max : Nat) where
  | shared (readers : Nat) (le : readers ≤ max)
  | exclusive (owner : ω)

/-- A call of the reader `i`, or on behalf of an owner. -/
inductive Call (ι ω : Type) where
  | requireRead (i : ι)
  | releaseRead (i : ι)
  | requireWrite (owner : ω)
  | releaseWrite (owner : ω)

namespace Grip

/-- Nobody holds it. -/
def free : Grip ω max := .shared 0 (Nat.zero_le max)

/-- One more reader, when there is no writer and the readers are not too many. -/
def requireRead : Grip ω max → Bool × Grip ω max
  | .shared n h => if hn : n < max then (true, .shared (n + 1) hn) else (false, .shared n h)
  | .exclusive o => (false, .exclusive o)

/-- One reader less. -/
def releaseRead : Grip ω max → Bool × Grip ω max
  | .shared (n + 1) h => (true, .shared n (Nat.le_of_succ_le h))
  | h => (false, h)

/-- The writer, when nobody holds the lock. -/
def requireWrite (owner : ω) : Grip ω max → Bool × Grip ω max
  | .shared 0 _ => (true, .exclusive owner)
  | h => (false, h)

/-- The writer itself gives the lock back. -/
def releaseWrite [DecidableEq ω] (owner : ω) : Grip ω max → Bool × Grip ω max
  | .exclusive o => if o = owner then (true, free) else (false, .exclusive o)
  | h => (false, h)

theorem requireRead_lt {n : Nat} {le : n ≤ max} (hn : n < max) :
    (shared n le : Grip ω max).requireRead = (true, shared (n + 1) hn) := dif_pos hn

theorem requireRead_full {n : Nat} {le : n ≤ max} (hn : ¬ n < max) :
    (shared n le : Grip ω max).requireRead = (false, shared n le) := dif_neg hn

theorem releaseWrite_self [DecidableEq ω] (owner : ω) :
    (exclusive owner : Grip ω max).releaseWrite owner = (true, free) := if_pos rfl

theorem releaseWrite_ne [DecidableEq ω] {o owner : ω} (hne : o ≠ owner) :
    (exclusive o : Grip ω max).releaseWrite owner = (false, exclusive o) := if_neg hne

/-- The call: whether it was granted, and the lock behind it. -/
def run [DecidableEq ω] (h : Grip ω max) : Call ι ω → Bool × Grip ω max
  | .requireRead _ => h.requireRead
  | .releaseRead _ => h.releaseRead
  | .requireWrite owner => h.requireWrite owner
  | .releaseWrite owner => h.releaseWrite owner

end Grip

/-- Those that hold the lock. A reader is there once for each time that it holds it. -/
structure Holders (ι ω : Type) where
  readers : List ι
  writers : List ω

/-- The holders after a call that was granted, or refused. -/
def Holders.after [DecidableEq ι] [DecidableEq ω] (x : Holders ι ω) (c : Call ι ω)
    (granted : Bool) : Holders ι ω :=
  if granted then
    match c with
    | .requireRead i => { x with readers := i :: x.readers }
    | .releaseRead i => { x with readers := x.readers.erase i }
    | .requireWrite owner => { x with writers := owner :: x.writers }
    | .releaseWrite owner => { x with writers := x.writers.erase owner }
  else x

/-- A reader gives back only what it holds. -/
def Holders.Allows (x : Holders ι ω) : Call ι ω → Prop
  | .releaseRead i => i ∈ x.readers
  | _ => True

/-- The lock is held by the holders. -/
def Describes (x : Holders ι ω) : Grip ω max → Prop
  | .shared n _ => x.readers.length = n ∧ x.writers = []
  | .exclusive o => x.readers = [] ∧ x.writers = [o]

namespace Describes

variable {x : Holders ι ω} {h : Grip ω max}

/-- There is one writer at most, and no reader beside it. -/
theorem writer (hx : Describes x h) : x.writers = [] ∨ x.readers = [] ∧ ∃ o, x.writers = [o] := by
  cases h with
  | shared n _ => exact Or.inl hx.2
  | exclusive o => exact Or.inr ⟨hx.1, o, hx.2⟩

/-- A writer gets the lock exactly when nobody holds it. -/
theorem requireWrite_iff (hx : Describes x h) (owner : ω) :
    (h.requireWrite owner).1 = true ↔ x.readers = [] ∧ x.writers = [] := by
  cases h with
  | shared n _ =>
    rw [← List.length_eq_zero_iff, hx.1]
    cases n with
    | zero => exact ⟨fun _ => ⟨rfl, hx.2⟩, fun _ => rfl⟩
    | succ n =>
      constructor
      · intro hgot
        cases hgot
      · intro hnone
        cases hnone.1
  | exclusive o =>
    constructor
    · intro hgot
      cases hgot
    · intro hnone
      rw [hx.2] at hnone
      cases hnone.2

variable [DecidableEq ω]

/-- Who is not the writer cannot give the lock back. -/
theorem releaseWrite_other (hx : Describes x h) {owner : ω} (hother : owner ∉ x.writers) :
    h.releaseWrite owner = (false, h) := by
  cases h with
  | shared n _ => rfl
  | exclusive o =>
    refine Grip.releaseWrite_ne fun heq => hother ?_
    rw [hx.2, heq]
    exact List.mem_cons_self

variable [DecidableEq ι]

/-- Every call keeps it. -/
theorem run (hx : Describes x h) {c : Call ι ω} (hc : x.Allows c) :
    Describes (x.after c (h.run c).1) (h.run c).2 := by
  cases c with
  | requireRead i =>
    cases h with
    | shared n le =>
      by_cases hn : n < max
      · unfold Grip.run
        simp only [Grip.requireRead_lt hn]
        exact ⟨congrArg (· + 1) hx.1, hx.2⟩
      · unfold Grip.run
        simp only [Grip.requireRead_full hn]
        exact hx
    | exclusive o => exact hx
  | releaseRead i =>
    cases h with
    | shared n le =>
      cases n with
      | zero => exact hx
      | succ n =>
        refine ⟨?_, hx.2⟩
        show (x.readers.erase i).length = n
        rw [List.length_erase_of_mem hc, hx.1]
        rfl
    | exclusive o => exact hx
  | requireWrite owner =>
    cases h with
    | shared n le =>
      cases n with
      | zero =>
        refine ⟨List.length_eq_zero_iff.mp hx.1, ?_⟩
        show owner :: x.writers = [owner]
        rw [hx.2]
      | succ n => exact hx
    | exclusive o => exact hx
  | releaseWrite owner =>
    cases h with
    | shared n le => exact hx
    | exclusive o =>
      by_cases heq : o = owner
      · subst heq
        unfold Grip.run
        simp only [Grip.releaseWrite_self]
        refine ⟨List.length_eq_zero_iff.mpr hx.1, ?_⟩
        show x.writers.erase o = []
        rw [hx.2, List.erase_cons_head]
      · unfold Grip.run
        simp only [Grip.releaseWrite_ne heq]
        exact hx

end Describes

/-- In the beginning nobody holds it. -/
theorem describes_free : Describes (⟨[], []⟩ : Holders ι ω) (.free : Grip ω max) := ⟨rfl, rfl⟩

end SharedLock
