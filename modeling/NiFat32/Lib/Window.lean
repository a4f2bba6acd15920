import NiFat32.Lib.ByteStore

/-!
# `Lib.Window`: records in the windows of a store

A store is divided into windows of `w` addresses, and a record lies in one window from an offset
on. An access to a record stays in its window: `putCell` drops what would lie behind the end, and
`cell` fills it with a padding value `z`. `clip` is what the window keeps of a record.

`putAll` writes the record into several windows, one after the other; windows of the list may be
the same. The rules are

* `cell_putAll_self`: each of the windows reads back what a window keeps of the record;
* `cell_putAll_other`: records at other offsets stay as they were, in every window;
* `clip_eq_self_iff`: a window keeps a record exactly when only padding is dropped.
-/

set_option autoImplicit false

namespace ByteStore

variable {α : Type}

/-- The record of `n` cells at the offset `off` of the window `a`. -/
def cell (z : α) (w : Nat) (d : Nat → α) (a off n : Nat) : List α :=
  read d (a * w + off) (min n (w - off)) ++ List.replicate (n - (w - off)) z

/-- The store with the record `xs` at the offset `off` of the window `a`. -/
def putCell (w : Nat) (d : Nat → α) (a off : Nat) (xs : List α) : Nat → α :=
  write d (a * w + off) (xs.take (w - off))

/-- What a window keeps of the record `xs` at the offset `off`. -/
def clip (z : α) (w off : Nat) (xs : List α) : List α :=
  xs.take (w - off) ++ List.replicate (xs.length - (w - off)) z

/-- The store with the record in all windows of the list. -/
def putAll (w : Nat) (d : Nat → α) (as : List Nat) (off : Nat) (xs : List α) : Nat → α :=
  as.foldl (fun d a => putCell w d a off xs) d

section Rules

variable {z : α} {w : Nat} {d : Nat → α} {a a' off off' n : Nat} {as : List Nat} {xs : List α}

/-- A store that is filled with the padding value. -/
theorem cell_const : cell z w (fun _ => z) a off n = List.replicate n z := by
  have hread : ∀ b k, read (fun _ : Nat => z) b k = List.replicate k z := by
    intro b k
    rw [read, List.map_const', List.length_range]
  rw [cell, hread, List.replicate_append_replicate]
  congr 1
  omega

/-- Inside the window nothing is dropped. -/
theorem clip_of_le (h : off + xs.length ≤ w) : clip z w off xs = xs := by
  unfold clip
  rw [List.take_of_length_le (by omega), Nat.sub_eq_zero_of_le (by omega), List.replicate_zero,
    List.append_nil]

/-- The window keeps the record when it drops padding only, and only then. -/
theorem clip_eq_self_iff : clip z w off xs = xs ↔ ∀ x ∈ xs.drop (w - off), x = z := by
  have hsplit : xs = xs.take (w - off) ++ xs.drop (w - off) := (List.take_append_drop _ _).symm
  have hlen : (xs.drop (w - off)).length = xs.length - (w - off) := List.length_drop
  unfold clip
  constructor
  · intro h x hx
    conv at h => rhs; rw [hsplit]
    rw [← List.append_cancel_left h] at hx
    exact List.eq_of_mem_replicate hx
  · intro h
    conv => rhs; rw [hsplit]
    congr 1
    rw [← hlen]
    exact (List.eq_replicate_iff.mpr ⟨rfl, h⟩).symm

/-- Behind the window everything is dropped. -/
theorem clip_of_ge (h : w ≤ off) : clip z w off xs = List.replicate xs.length z := by
  simp [clip, Nat.sub_eq_zero_of_le h]

/-- A record reads back as the window kept it. -/
theorem cell_putCell_self : cell z w (putCell w d a off xs) a off xs.length = clip z w off xs := by
  have hlen : min xs.length (w - off) = (xs.take (w - off)).length := by
    rw [List.length_take, Nat.min_comm]
  unfold cell putCell clip
  rw [hlen, read_write_self]

/-- Two windows have no address in common. -/
theorem windows_apart (hne : a ≠ a') : a * w + w ≤ a' * w ∨ a' * w + w ≤ a * w := by
  cases Nat.lt_or_gt_of_ne hne with
  | inl hlt =>
    have hmul := Nat.mul_le_mul_right w (Nat.succ_le_of_lt hlt)
    rw [Nat.succ_mul] at hmul
    exact Or.inl hmul
  | inr hgt =>
    have hmul := Nat.mul_le_mul_right w (Nat.succ_le_of_lt hgt)
    rw [Nat.succ_mul] at hmul
    exact Or.inr hmul

/-- A write to a record leaves the other windows, and the other records of its window. -/
theorem cell_putCell_other (h : a ≠ a' ∨ off + n ≤ off' ∨ off' + xs.length ≤ off) :
    cell z w (putCell w d a' off' xs) a off n = cell z w d a off n := by
  unfold cell putCell
  congr 1
  apply read_congr
  intro k hk hlt
  apply write_of_outside
  rw [List.length_take]
  by_cases heq : a = a'
  · subst heq
    have hoff := h.resolve_left fun hne => hne rfl
    omega
  · have hw := windows_apart (w := w) heq
    omega

/-- A write to a window that is read leaves its own record; a write to another one leaves it. -/
theorem cell_putCell : cell z w (putCell w d a' off xs) a off xs.length =
    if a = a' then clip z w off xs else cell z w d a off xs.length := by
  by_cases heq : a = a'
  · subst heq
    rw [if_pos rfl, cell_putCell_self]
  · rw [if_neg heq, cell_putCell_other (Or.inl heq)]

theorem putAll_cons : putAll w d (a :: as) off xs = putAll w (putCell w d a off xs) as off xs := rfl

/-- Each window of the list reads back what a window keeps of the record. -/
theorem cell_putAll_self (h : a ∈ as) :
    cell z w (putAll w d as off xs) a off xs.length = clip z w off xs := by
  -- a window that already has the record keeps it to the end of the list
  have hkeep : ∀ (l : List Nat) (d : Nat → α), cell z w d a off xs.length = clip z w off xs →
      cell z w (putAll w d l off xs) a off xs.length = clip z w off xs := by
    intro l
    induction l with
    | nil => exact fun _ hd => hd
    | cons b l ih =>
      intro d hd
      apply ih
      rw [cell_putCell, hd, ite_self]
  induction as generalizing d with
  | nil => cases h
  | cons b as ih =>
    rw [putAll_cons]
    cases List.mem_cons.mp h with
    | inl heq =>
      subst heq
      exact hkeep as _ cell_putCell_self
    | inr hmem => exact ih hmem

/-- A window outside the list, or a record at another offset, stays as it was. -/
theorem cell_putAll_other (h : a ∉ as ∨ off + n ≤ off' ∨ off' + xs.length ≤ off) :
    cell z w (putAll w d as off' xs) a off n = cell z w d a off n := by
  induction as generalizing d with
  | nil => rfl
  | cons b as ih =>
    rw [putAll_cons, ih, cell_putCell_other]
    · exact h.imp_left fun hmem heq => hmem (heq ▸ List.mem_cons_self)
    · exact h.imp_left fun hmem hb => hmem (List.mem_cons_of_mem b hb)

end Rules

/-! ### Stores with the same window -/

/-- The two stores have the same values in the window `a`. -/
def SameWindow (w : Nat) (d d' : Nat → α) (a : Nat) : Prop :=
  ∀ o, o < w → d (a * w + o) = d' (a * w + o)

namespace SameWindow

variable {z : α} {w : Nat} {d d' : Nat → α} {a b off n : Nat} {as : List Nat} {xs : List α}

theorem cell (h : SameWindow w d d' a) : cell z w d a off n = cell z w d' a off n := by
  rw [ByteStore.cell, ByteStore.cell]
  congr 1
  apply read_congr
  intro k hk hlt
  have heq := h (k - a * w) (by omega)
  rwa [Nat.add_sub_cancel' (by omega)] at heq

theorem read (h : SameWindow w d d' a) : read d (a * w) w = read d' (a * w) w := by
  apply read_congr
  intro k hk hlt
  have heq := h (k - a * w) (by omega)
  rwa [Nat.add_sub_cancel' hk] at heq

/-- The same record is written to both stores. -/
theorem putCell (h : SameWindow w d d' a) :
    SameWindow w (putCell w d b off xs) (putCell w d' b off xs) a := by
  intro o ho
  rw [ByteStore.putCell, ByteStore.putCell, write_apply, write_apply, h o ho]

theorem refl (w : Nat) (d : Nat → α) (a : Nat) : SameWindow w d d a := fun _ _ => rfl

theorem trans {d'' : Nat → α} (h : SameWindow w d d' a) (h' : SameWindow w d' d'' a) :
    SameWindow w d d'' a := fun o ho => (h o ho).trans (h' o ho)

theorem putAll (h : SameWindow w d d' a) :
    SameWindow w (putAll w d as off xs) (putAll w d' as off xs) a := by
  induction as generalizing d d' with
  | nil => exact h
  | cons b as ih =>
    rw [putAll_cons, putAll_cons]
    exact ih h.putCell

/-- A record is written to other windows. -/
theorem putCell_other (hne : b ≠ a) : SameWindow w (ByteStore.putCell w d b off xs) d a := by
  intro o ho
  apply write_of_outside
  rw [List.length_take]
  have hw := windows_apart (w := w) hne
  omega

theorem putAll_other (h : a ∉ as) : SameWindow w (ByteStore.putAll w d as off xs) d a := by
  induction as generalizing d with
  | nil => exact refl w d a
  | cons b as ih =>
    rw [putAll_cons]
    have hne : b ≠ a := fun heq => h (heq ▸ List.mem_cons_self)
    exact (ih fun hmem => h (List.mem_cons_of_mem b hmem)).trans (putCell_other hne)

end SameWindow

end ByteStore
