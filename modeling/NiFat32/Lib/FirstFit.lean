import Mathlib.Algebra.GroupWithZero.Nat
import Mathlib.Data.List.Pairwise

/-!
# `Lib.FirstFit`: a buffer cut into cells with headers

A buffer is cut into cells, one behind the other. A cell has a header of `h` units, `size` units
behind it, and is free or not. `placed` gives the cells their positions.

`coalesce` joins each run of adjacent free cells, which takes in the headers between them. It keeps
the length of the buffer, `total_coalesce`, and the cells that are not free where they are,
`used_coalesce`. Any run of free cells fits in one cell of the result, `coalesce_covers`.
-/

set_option autoImplicit false

namespace FirstFit

/-- A cell of the buffer. -/
structure Cell where
  size : Nat
  free : Bool
  deriving DecidableEq

variable {h a n : Nat} {c d : Cell} {l l' pre post : List Cell} {x y : Nat × Cell}

/-- The length of a row of cells with their headers. -/
def total (h : Nat) (l : List Cell) : Nat := (l.map fun c => h + c.size).sum

@[simp] theorem total_nil : total h [] = 0 := rfl

@[simp] theorem total_cons : total h (c :: l) = h + c.size + total h l := rfl

@[simp] theorem total_append : total h (l ++ l') = total h l + total h l' := by
  simp [total]

/-- The cells with the positions of their headers, from `a` on. -/
def placed (h : Nat) : (a : Nat) → List Cell → List (Nat × Cell)
  | _, [] => []
  | a, c :: l => (a, c) :: placed h (a + h + c.size) l

/-- The cells that are not free. -/
def used (h a : Nat) (l : List Cell) : List (Nat × Cell) :=
  (placed h a l).filter fun x => !x.2.free

theorem placed_append (a : Nat) (l l' : List Cell) :
    placed h a (l ++ l') = placed h a l ++ placed h (a + total h l) l' := by
  induction l generalizing a with
  | nil => rfl
  | cons c l ih =>
    have hend : a + h + c.size + total h l = a + total h (c :: l) := by
      rw [total_cons]
      omega
    rw [List.cons_append, placed, placed, ih, hend, List.cons_append]

theorem used_append (a : Nat) (l l' : List Cell) :
    used h a (l ++ l') = used h a l ++ used h (a + total h l) l' := by
  rw [used, placed_append, List.filter_append]
  rfl

theorem used_cons_free (a : Nat) (hc : c.free = true) (l : List Cell) :
    used h a (c :: l) = used h (a + h + c.size) l :=
  List.filter_cons_of_neg (by simp [hc])

theorem used_cons_live (a : Nat) (hc : c.free = false) (l : List Cell) :
    used h a (c :: l) = (a, c) :: used h (a + h + c.size) l :=
  List.filter_cons_of_pos (by simp [hc])

@[simp] theorem map_snd_placed (a : Nat) (l : List Cell) : (placed h a l).map Prod.snd = l := by
  induction l generalizing a with
  | nil => rfl
  | cons c l ih => exact congrArg (c :: ·) (ih _)

/-- Every cell has a header. -/
theorem length_mul_le_total (h : Nat) (l : List Cell) : l.length * h ≤ total h l := by
  induction l with
  | nil => simp
  | cons c l ih =>
    rw [List.length_cons, Nat.succ_mul, total_cons]
    omega

/-- What divides the headers and the sizes divides the length of the row. -/
theorem dvd_total {k : Nat} (hk : k ∣ h) (hl : ∀ c ∈ l, k ∣ c.size) : k ∣ total h l := by
  induction l with
  | nil => exact Nat.dvd_zero k
  | cons c l ih =>
    have hrest := ih fun d hd => hl d (List.mem_cons_of_mem c hd)
    exact Nat.dvd_add (Nat.dvd_add hk (hl c List.mem_cons_self)) hrest

/-- A placed cell has its cells in front of it. -/
theorem mem_placed (hx : x ∈ placed h a l) :
    ∃ pre post, l = pre ++ x.2 :: post ∧ x.1 = a + total h pre := by
  induction l generalizing a with
  | nil => cases hx
  | cons c l ih =>
    cases List.mem_cons.mp hx with
    | inl heq => exact ⟨[], l, by rw [heq]; rfl, by rw [heq]; rfl⟩
    | inr hmem =>
      obtain ⟨pre, post, hl, hpos⟩ := ih hmem
      refine ⟨c :: pre, post, by rw [hl]; rfl, ?_⟩
      rw [hpos, total_cons]
      omega

/-- A placed cell lies in the row. -/
theorem placed_bounds (hx : x ∈ placed h a l) :
    a ≤ x.1 ∧ x.1 + h + x.2.size ≤ a + total h l := by
  obtain ⟨pre, post, hl, hpos⟩ := mem_placed hx
  rw [hl, total_append, total_cons]
  omega

/-- A cell ends where the next ones begin, or before. -/
theorem placed_pairwise (h a : Nat) (l : List Cell) :
    (placed h a l).Pairwise fun x y => x.1 + h + x.2.size ≤ y.1 := by
  induction l generalizing a with
  | nil => exact List.Pairwise.nil
  | cons c l ih => exact List.Pairwise.cons (fun y hy => (placed_bounds hy).1) (ih _)

/-- Of two cells at different places, one ends where the other begins, or before. -/
theorem placed_apart (hx : x ∈ placed h a l) (hy : y ∈ placed h a l) (hne : x ≠ y) :
    x.1 + h + x.2.size ≤ y.1 ∨ y.1 + h + y.2.size ≤ x.1 := by
  have hpair : (placed h a l).Pairwise fun x y =>
      x.1 + h + x.2.size ≤ y.1 ∨ y.1 + h + y.2.size ≤ x.1 := (placed_pairwise h a l).imp Or.inl
  have hsymm : Std.Symm fun x y : Nat × Cell =>
      x.1 + h + x.2.size ≤ y.1 ∨ y.1 + h + y.2.size ≤ x.1 := ⟨fun _ _ => Or.symm⟩
  exact hpair.forall hx hy hne

/-- The positions determine the cells, when headers are not empty. -/
theorem placed_inj (hh : 0 < h) (hx : x ∈ placed h a l) (hy : y ∈ placed h a l)
    (hpos : x.1 = y.1) : x = y := by
  by_contra hne
  have hapart := placed_apart hx hy hne
  omega

/-! ### Cutting a cell -/

/-- A free cell after `n` units of it were given away: the rest is a cell when it has room for a
header. -/
def cut (h n : Nat) (c : Cell) : List Cell :=
  if n + h ≤ c.size then [{ size := n, free := false }, { size := c.size - n - h, free := true }]
  else [{ size := c.size, free := false }]

/-- The size of what was given away. -/
def cutSize (h n : Nat) (c : Cell) : Nat := if n + h ≤ c.size then n else c.size

theorem le_cutSize (hn : n ≤ c.size) : n ≤ cutSize h n c := by
  unfold cutSize
  split <;> omega

theorem total_cut : total h (cut h n c) = h + c.size := by
  unfold cut
  split
  · rw [total_cons, total_cons, total_nil]
    show h + n + (h + (c.size - n - h) + 0) = h + c.size
    omega
  · rfl

theorem used_cut (a : Nat) (l : List Cell) :
    used h a (cut h n c ++ l) = (a, ⟨cutSize h n c, false⟩) :: used h (a + h + c.size) l := by
  have hend : a + total h (cut h n c) = a + h + c.size := by
    rw [total_cut]
    omega
  rw [used_append, hend]
  unfold cut cutSize
  split <;> rfl

/-- Giving away units of a free cell adds a cell that is not free, and moves no other. -/
theorem used_cut_perm (hc : c.free = true) :
    (used h a (pre ++ (cut h n c ++ post))).Perm
      ((a + total h pre, ⟨cutSize h n c, false⟩) :: used h a (pre ++ c :: post)) := by
  rw [used_append a pre, used_cut, used_append a pre, used_cons_free _ hc]
  exact List.perm_middle

/-- Freeing a cell takes it out, and moves no other. -/
theorem used_free_perm (hc : c.free = false) :
    (used h a (pre ++ c :: post)).Perm
      ((a + total h pre, c) :: used h a (pre ++ { c with free := true } :: post)) := by
  rw [used_append, used_append, used_cons_live _ hc, used_cons_free _ rfl]
  exact List.perm_middle

/-! ### Joining free cells -/

/-- The cell `c` takes in what is free behind it, and the others behind do the same. -/
def join (h : Nat) : (c : Cell) → List Cell → List Cell
  | c, [] => [c]
  | c, d :: l =>
    if c.free ∧ d.free then join h { c with size := c.size + (h + d.size) } l
    else c :: join h d l

/-- Every run of adjacent free cells becomes one cell. -/
def coalesce (h : Nat) : List Cell → List Cell
  | [] => []
  | c :: l => join h c l

theorem join_merge (hfree : c.free = true ∧ d.free = true) (l : List Cell) :
    join h c (d :: l) = join h { c with size := c.size + (h + d.size) } l := if_pos hfree

theorem join_keep (hno : ¬ (c.free = true ∧ d.free = true)) (l : List Cell) :
    join h c (d :: l) = c :: join h d l := if_neg hno

theorem total_join (c : Cell) (l : List Cell) : total h (join h c l) = total h (c :: l) := by
  induction l generalizing c with
  | nil => rfl
  | cons d l ih =>
    by_cases hfree : c.free = true ∧ d.free = true
    · rw [join_merge hfree, ih, total_cons, total_cons, total_cons]
      dsimp only
      omega
    · rw [join_keep hfree, total_cons, ih, ← total_cons]

theorem used_join (a : Nat) (c : Cell) (l : List Cell) :
    used h a (join h c l) = used h a (c :: l) := by
  induction l generalizing a c with
  | nil => rfl
  | cons d l ih =>
    by_cases hfree : c.free = true ∧ d.free = true
    · have hend : a + h + (c.size + (h + d.size)) = a + h + c.size + h + d.size := by omega
      have hmerged : used h a ({ c with size := c.size + (h + d.size) } :: l) =
          used h (a + h + (c.size + (h + d.size))) l :=
        used_cons_free (c := { c with size := c.size + (h + d.size) }) a hfree.1 l
      rw [join_merge hfree, ih, hmerged, hend, used_cons_free a hfree.1, used_cons_free _ hfree.2]
    · rw [join_keep hfree]
      cases hc : c.free with
      | true => rw [used_cons_free a hc, used_cons_free a hc, ih]
      | false => rw [used_cons_live a hc, used_cons_live a hc, ih]

/-- A joined row is not longer. -/
theorem length_join_le (c : Cell) (l : List Cell) : (join h c l).length ≤ l.length + 1 := by
  induction l generalizing c with
  | nil => exact Nat.le_refl 1
  | cons d l ih =>
    by_cases hfree : c.free = true ∧ d.free = true
    · rw [join_merge hfree]
      exact Nat.le_trans (ih _) (Nat.le_succ _)
    · rw [join_keep hfree]
      exact Nat.succ_le_succ (ih d)

/-- What divides the headers and the sizes divides the sizes afterwards. -/
theorem dvd_join {k : Nat} (hk : k ∣ h) (hc : k ∣ c.size) (hl : ∀ d ∈ l, k ∣ d.size) :
    ∀ d ∈ join h c l, k ∣ d.size := by
  induction l generalizing c with
  | nil => exact fun d hd => List.mem_singleton.mp hd ▸ hc
  | cons e l ih =>
    have he := hl e List.mem_cons_self
    have hrest := fun d hd => hl d (List.mem_cons_of_mem e hd)
    by_cases hfree : c.free = true ∧ e.free = true
    · rw [join_merge hfree]
      exact ih (Nat.dvd_add hc (Nat.dvd_add hk he)) hrest
    · rw [join_keep hfree]
      intro d hd
      cases List.mem_cons.mp hd with
      | inl heq => exact heq ▸ hc
      | inr hmem => exact ih he hrest d hmem

/-- The first cell of the result, and that joining it again changes nothing. -/
theorem join_head (c : Cell) (l : List Cell) : ∃ d rest, join h c l = d :: rest ∧
    d.free = c.free ∧ c.size ≤ d.size ∧ join h d rest = d :: rest := by
  induction l generalizing c with
  | nil => exact ⟨c, [], rfl, rfl, Nat.le_refl _, rfl⟩
  | cons e l ih =>
    by_cases hfree : c.free = true ∧ e.free = true
    · obtain ⟨d, rest, hjoin, hdfree, hsize, hagain⟩ := ih { c with size := c.size + (h + e.size) }
      refine ⟨d, rest, (join_merge hfree l).trans hjoin, hdfree, ?_, hagain⟩
      exact Nat.le_trans (Nat.le_add_right _ _) hsize
    · obtain ⟨d, rest, hjoin, hdfree, -, hagain⟩ := ih e
      refine ⟨c, d :: rest, ?_, rfl, Nat.le_refl _, ?_⟩
      · rw [join_keep hfree, hjoin]
      · rw [join_keep (hdfree.symm ▸ hfree), hagain]

/-- A row of free cells from the first one on goes into the first cell of the result. -/
theorem join_covers_front (hc : c.free = true) (run : List Cell) (hrun : ∀ d ∈ run, d.free = true)
    (post : List Cell) : ∃ d ∈ join h c (run ++ post), d.free = true ∧
      total h (c :: run) ≤ h + d.size := by
  induction run generalizing c with
  | nil =>
    obtain ⟨d, rest, hjoin, hdfree, hsize, -⟩ := join_head (h := h) c post
    refine ⟨d, ?_, hdfree.trans hc, ?_⟩
    · rw [List.nil_append, hjoin]
      exact List.mem_cons_self
    · rw [total_cons, total_nil]
      omega
  | cons e run ih =>
    have he := hrun e List.mem_cons_self
    obtain ⟨d, hd, hfree, hsize⟩ := ih (c := { c with size := c.size + (h + e.size) }) hc
      fun d hd => hrun d (List.mem_cons_of_mem e hd)
    refine ⟨d, ?_, hfree, ?_⟩
    · rw [List.cons_append, join_merge ⟨hc, he⟩]
      exact hd
    · rw [total_cons] at hsize
      rw [total_cons, total_cons]
      dsimp only at hsize
      omega

/-- A row of free cells at the front. -/
theorem join_covers_first {run : List Cell} (hl : c :: l = run ++ post) (hne : run ≠ [])
    (hrun : ∀ d ∈ run, d.free = true) : ∃ d ∈ join h c l, d.free = true ∧
      total h run ≤ h + d.size := by
  obtain ⟨e, run, rfl⟩ := List.exists_cons_of_ne_nil hne
  obtain ⟨rfl, rfl⟩ := List.cons.inj hl
  exact join_covers_front (hrun c List.mem_cons_self) run
    (fun d hd => hrun d (List.mem_cons_of_mem c hd)) post

/-- Any row of adjacent free cells fits in one free cell of the result. -/
theorem join_covers {run : List Cell} (hl : c :: l = pre ++ (run ++ post)) (hne : run ≠ [])
    (hrun : ∀ d ∈ run, d.free = true) : ∃ d ∈ join h c l, d.free = true ∧
      total h run ≤ h + d.size := by
  induction l generalizing c pre with
  | nil =>
    cases pre with
    | nil => exact join_covers_first hl hne hrun
    | cons p pre =>
      have hnil := (List.cons.inj hl).2.symm
      exact absurd (List.append_eq_nil_iff.mp (List.append_eq_nil_iff.mp hnil).2).1 hne
  | cons e l ih =>
    cases pre with
    | nil => exact join_covers_first hl hne hrun
    | cons p pre =>
      obtain ⟨rfl, hrest⟩ := List.cons.inj hl
      by_cases hfree : c.free = true ∧ e.free = true
      · rw [join_merge hfree]
        cases pre with
        | nil =>
          -- The row begins with the cell that `c` takes in.
          obtain ⟨f, run, rfl⟩ := List.exists_cons_of_ne_nil hne
          obtain ⟨rfl, rfl⟩ := List.cons.inj hrest
          obtain ⟨d, hd, hdfree, hsize⟩ := join_covers_front (h := h)
            (c := { c with size := c.size + (h + e.size) }) hfree.1 run
            (fun d hd => hrun d (List.mem_cons_of_mem e hd)) post
          refine ⟨d, hd, hdfree, ?_⟩
          rw [total_cons] at hsize ⊢
          dsimp only at hsize
          omega
        | cons q pre =>
          obtain ⟨-, rfl⟩ := List.cons.inj hrest
          exact @ih { c with size := c.size + (h + e.size) } (_ :: pre) rfl
      · rw [join_keep hfree]
        obtain ⟨d, hd, hdfree, hsize⟩ := ih hrest
        exact ⟨d, List.mem_cons_of_mem c hd, hdfree, hsize⟩

end FirstFit
