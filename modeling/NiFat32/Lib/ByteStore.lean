import Mathlib.Data.List.GetD

/-!
# `ByteStore`: a flat store of cells and its ranges

A store is a function from addresses to cells. `read d a n` is the list of the `n` cells
from address `a`, and `write d a xs` puts the list `xs` at address `a`. `splice xs off ys`
is the list counterpart of a write inside a range: `ys` replaces the cells of `xs` from
position `off`.

The rules are the ones a program over a block device needs:

* `write_append`: two writes that meet are one write, so a request that is cut into pieces
  is the request itself;
* `read_add`: a read splits the same way;
* `read_write_of_disjoint`: the frame rule, a write outside a range leaves the range;
* `read_write_within`: a write inside a range is a `splice` of the range.
-/

set_option autoImplicit false

namespace ByteStore

variable {α : Type}

/-- The `n` cells of the store `d` from address `a`. -/
def read (d : Nat → α) (a n : Nat) : List α := (List.range n).map fun i => d (a + i)

/-- The store `d` with the list `xs` at address `a`. -/
def write (d : Nat → α) (a : Nat) (xs : List α) : Nat → α :=
  fun k => if a ≤ k then xs.getD (k - a) (d k) else d k

/-- The list `xs` with `ys` in the place of its cells from position `off`. -/
def splice (xs : List α) (off : Nat) (ys : List α) : List α :=
  xs.take off ++ ys ++ xs.drop (off + ys.length)

/-! ### Lengths and cells -/

@[simp] theorem length_read (d : Nat → α) (a n : Nat) : (read d a n).length = n := by
  simp [read]

@[simp] theorem read_zero (d : Nat → α) (a : Nat) : read d a 0 = [] := rfl

theorem getElem?_read (d : Nat → α) (a n i : Nat) :
    (read d a n)[i]? = if i < n then some (d (a + i)) else none := by
  by_cases h : i < n
  · simp [read, h]
  · simp [read, h]

@[simp] theorem splice_nil (xs : List α) (off : Nat) : splice xs off [] = xs := by
  simp [splice]

/-- A splice that covers the whole list is the new list. -/
theorem splice_zero_all (xs ys : List α) (h : ys.length = xs.length) :
    splice xs 0 ys = ys := by
  simp [splice, h]

theorem getElem?_splice (xs ys : List α) (off i : Nat) (h : off ≤ xs.length) :
    (splice xs off ys)[i]? =
      if off ≤ i ∧ i < off + ys.length then ys[i - off]? else xs[i]? := by
  unfold splice
  have hlen : (xs.take off).length = off := by simp [h]
  rcases Nat.lt_or_ge i off with hi | hi
  · rw [List.append_assoc, List.getElem?_append_left (by omega), List.getElem?_take,
      if_pos hi, if_neg (by omega)]
  · rw [List.append_assoc, List.getElem?_append_right (by omega), hlen]
    by_cases hy : i < off + ys.length
    · rw [List.getElem?_append_left (by omega), if_pos ⟨hi, hy⟩]
    · rw [List.getElem?_append_right (by omega), List.getElem?_drop, if_neg (by omega)]
      congr 1
      omega

/-- A splice of a concatenation that starts in the first part, cut where the parts meet. -/
theorem splice_append (xs xs' ys ys' : List α) (off : Nat) (h : off + ys.length ≤ xs.length)
    (h' : ys' = [] ∨ off + ys.length = xs.length) :
    splice (xs ++ xs') off (ys ++ ys') = splice xs off ys ++ splice xs' 0 ys' := by
  unfold splice
  rw [List.take_append_of_le_length (by omega)]
  cases h' with
  | inl hnil =>
    subst hnil
    rw [List.append_nil, List.drop_append_of_le_length h]
    simp
  | inr heq =>
    rw [List.length_append, ← Nat.add_assoc, heq, List.drop_length_add_append, List.drop_length]
    simp

/-- A splice of a concatenation that starts behind the first part. -/
theorem splice_append_right (xs xs' ys : List α) (off : Nat) (h : xs.length ≤ off) :
    splice (xs ++ xs') off ys = xs ++ splice xs' (off - xs.length) ys := by
  unfold splice
  rw [List.take_append, List.take_of_length_le h, List.drop_append,
    List.drop_of_length_le (by omega), List.nil_append, List.append_assoc, List.append_assoc,
    List.append_assoc]
  congr 4
  omega

/-! ### Writes -/

theorem write_apply (d : Nat → α) (a : Nat) (xs : List α) (k : Nat) :
    write d a xs k = if a ≤ k then xs.getD (k - a) (d k) else d k := rfl

@[simp] theorem write_nil (d : Nat → α) (a : Nat) : write d a [] = d := by
  funext k
  simp [write]

/-- An address outside the written range keeps its cell. -/
theorem write_of_outside (d : Nat → α) (a : Nat) (xs : List α) (k : Nat)
    (h : k < a ∨ a + xs.length ≤ k) : write d a xs k = d k := by
  rw [write_apply]
  by_cases hak : a ≤ k
  · rw [if_pos hak, List.getD_eq_default _ _ (by omega)]
  · rw [if_neg hak]

/-- Two writes that meet are one write. -/
theorem write_append (d : Nat → α) (a : Nat) (xs ys : List α) :
    write (write d a xs) (a + xs.length) ys = write d a (xs ++ ys) := by
  funext k
  simp only [write_apply]
  rcases Nat.lt_or_ge k a with hk | hk
  · rw [if_neg (by omega), if_neg (by omega), if_neg (by omega)]
  · rw [if_pos hk, if_pos hk]
    rcases Nat.lt_or_ge k (a + xs.length) with hx | hx
    · rw [if_neg (by omega), List.getD_append _ _ _ _ (by omega)]
    · rw [if_pos hx, List.getD_append_right _ _ _ _ (by omega),
        List.getD_eq_default xs _ (by omega)]
      congr 1
      omega

/-! ### Reads -/

/-- A read splits into two reads that meet. -/
theorem read_add (d : Nat → α) (a n k : Nat) :
    read d a (n + k) = read d a n ++ read d (a + n) k := by
  simp [read, List.range_add, Nat.add_assoc]

/-- Two stores that agree on a range give the same read of it. -/
theorem read_congr (d d' : Nat → α) (a n : Nat) (h : ∀ k, a ≤ k → k < a + n → d k = d' k) :
    read d a n = read d' a n :=
  List.map_congr_left fun i hi => h (a + i) (by omega) (by
    have := List.mem_range.mp hi
    omega)

/-- The frame rule: a write outside a range leaves the read of the range. -/
theorem read_write_of_disjoint (d : Nat → α) (a n b : Nat) (xs : List α)
    (h : a + n ≤ b ∨ b + xs.length ≤ a) : read (write d b xs) a n = read d a n :=
  read_congr _ _ _ _ fun k h1 h2 => write_of_outside d b xs k (by omega)

/-- A write inside a range is a splice of the range. -/
theorem read_write_within (d : Nat → α) (a n off : Nat) (xs : List α)
    (h : off + xs.length ≤ n) :
    read (write d (a + off) xs) a n = splice (read d a n) off xs := by
  apply List.ext_getElem?
  intro i
  rw [getElem?_splice _ _ _ _ (by simp; omega), getElem?_read, getElem?_read]
  by_cases hi : i < n
  · rw [if_pos hi, if_pos hi, write_apply]
    by_cases ho : off ≤ i ∧ i < off + xs.length
    · rw [if_pos ho, if_pos (by omega), show a + i - (a + off) = i - off by omega,
        List.getD_eq_getElem _ _ (by omega), List.getElem?_eq_getElem]
    · rw [if_neg ho]
      by_cases h1 : a + off ≤ a + i
      · rw [if_pos h1, List.getD_eq_default _ _ (by omega)]
      · rw [if_neg h1]
  · rw [if_neg hi, if_neg hi, if_neg (by omega)]

/-- Reading back exactly what was written. -/
theorem read_write_self (d : Nat → α) (a : Nat) (xs : List α) :
    read (write d a xs) a xs.length = xs := by
  have h := read_write_within d a xs.length 0 xs (by omega)
  rw [Nat.add_zero] at h
  rw [h, splice_zero_all _ _ (by simp)]

/-- A read inside a range is a part of the read of the range. -/
theorem read_sub (d : Nat → α) (a n off len : Nat) (h : off + len ≤ n) :
    read d (a + off) len = ((read d a n).drop off).take len := by
  apply List.ext_getElem?
  intro i
  rw [getElem?_read, List.getElem?_take]
  by_cases hi : i < len
  · rw [if_pos hi, if_pos hi, List.getElem?_drop, getElem?_read, if_pos (by omega),
      Nat.add_assoc]
  · rw [if_neg hi, if_neg hi]

/-! ### Blocks of one size -/

/-- A write of a whole block leaves the other blocks alone. -/
theorem read_write_block (d : Nat → α) (b b' : Nat) {n : Nat} {data : List α}
    (hlen : data.length = n) :
    read (write d (b * n) data) (b' * n) n = if b' = b then data else read d (b' * n) n := by
  by_cases heq : b' = b
  · subst heq
    have hself := read_write_self d (b' * n) data
    rw [hlen] at hself
    rw [if_pos rfl]
    exact hself
  · rw [if_neg heq]
    refine read_write_of_disjoint _ _ _ _ _ ?_
    rw [hlen]
    cases Nat.lt_or_gt_of_ne heq with
    | inl hlt =>
      have hmul := Nat.mul_le_mul_right n (Nat.succ_le_of_lt hlt)
      rw [Nat.succ_mul] at hmul
      exact Or.inl hmul
    | inr hgt =>
      have hmul := Nat.mul_le_mul_right n (Nat.succ_le_of_lt hgt)
      rw [Nat.succ_mul] at hmul
      exact Or.inr hmul

/-- A write that starts with a whole block and runs into the next one. -/
theorem read_write_overflow (d : Nat → α) (b b' : Nat) {n : Nat} {head tail : List α}
    (hhead : head.length = n) (htail : tail.length ≤ n) :
    read (write d (b * n) (head ++ tail)) (b' * n) n =
      if b' = b then head
      else if b' = b + 1 then tail ++ (read d (b' * n) n).drop tail.length
      else read d (b' * n) n := by
  have hnext : b * n + head.length = (b + 1) * n + 0 := by rw [hhead, Nat.succ_mul, Nat.add_zero]
  rw [← write_append, hnext]
  by_cases hb : b' = b + 1
  · subst hb
    rw [read_write_within _ _ _ _ _ (by omega), read_write_block _ _ _ hhead, if_neg (by omega),
      if_neg (by omega), if_pos rfl]
    simp [splice]
  · rw [Nat.add_zero, read_write_of_disjoint]
    · rw [read_write_block _ _ _ hhead, if_neg hb]
    cases Nat.lt_or_gt_of_ne hb with
    | inl hlt =>
      have hmul := Nat.mul_le_mul_right n (Nat.succ_le_of_lt hlt)
      rw [Nat.succ_mul] at hmul
      exact Or.inl hmul
    | inr hgt =>
      have hmul := Nat.mul_le_mul_right n (Nat.succ_le_of_lt hgt)
      rw [Nat.succ_mul] at hmul
      omega

end ByteStore
