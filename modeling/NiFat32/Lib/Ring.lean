import Mathlib.Data.List.Basic

/-!
# `Lib.Ring`: a bounded queue in a ring of positions

A ring has the positions `1` to `n`, and `next` goes round. A queue lies in it from the position
`first` on, and `current` is the position behind it, so at most `n - 1` elements are in the queue:
with `n` of them the ring would look empty. `Holds` relates the ring to the queue; what a position
stores is a relation, so the store itself stays abstract.

* `Holds.push`: a write at `current` appends, and drops the oldest element of a full queue;
* `Holds.pop`: the element at `first` is the oldest one;
* `Holds.nil_iff` and `Holds.full_iff`: the two comparisons of positions that a ring makes.
-/

set_option autoImplicit false

namespace Ring

variable {α : Type} {n first current k : Nat}

/-- The position behind `i`. -/
def next (n i : Nat) : Nat := if i < n then i + 1 else 1

/-- The position `k` steps behind `first`. -/
def pos (n first : Nat) : Nat → Nat
  | 0 => first
  | k + 1 => next n (pos n first k)

/-- Appending to a queue of at most `cap` elements: the oldest one gives way. -/
def push (cap : Nat) (q : List α) (c : α) : List α :=
  if q.length < cap then q ++ [c] else (q ++ [c]).tail

/-! ### Positions -/

theorem next_bounds (hn : 1 ≤ n) : 1 ≤ next n k ∧ next n k ≤ n := by
  simp only [next]
  split <;> omega

/-- Within one round a position is found without the steps between. -/
theorem pos_eq (hn : first ≤ n) (hk : k ≤ n) :
    pos n first k = if first + k ≤ n then first + k else first + k - n := by
  induction k with
  | zero => simp [pos, hn]
  | succ k ih =>
    rw [pos, ih (by omega), next]
    split <;> split <;> split <;> omega

theorem pos_bounds (h1 : 1 ≤ first) (hn : first ≤ n) (hk : k ≤ n) :
    1 ≤ pos n first k ∧ pos n first k ≤ n := by
  rw [pos_eq hn hk]
  split <;> omega

/-- Different numbers of steps lead to different positions, within one round. -/
theorem pos_ne {j : Nat} (hn : first ≤ n) (hj : j < n) (hk : k < n)
    (hne : j ≠ k) : pos n first j ≠ pos n first k := by
  rw [pos_eq hn (by omega), pos_eq hn (by omega)]
  split <;> split <;> omega

/-- A whole round leads back. -/
theorem pos_round (h1 : 1 ≤ first) (hn : first ≤ n) : pos n first n = first := by
  rw [pos_eq hn (Nat.le_refl n)]
  split <;> omega

/-- A step at the start is a step at the end. -/
theorem pos_next : pos n (next n first) k = pos n first (k + 1) := by
  induction k with
  | zero => rfl
  | succ k ih =>
    rw [pos, ih]
    rfl

/-! ### The queue in the ring -/

/-- The queue `q` lies in the ring from `first` up to `current`; `has p c` says that the position
`p` stores `c`. -/
structure Holds (n : Nat) (has : Nat → α → Prop) (first current : Nat) (q : List α) : Prop where
  one_le : 1 ≤ first
  le : first ≤ n
  short : q.length < n
  current_eq : current = pos n first q.length
  stored : ∀ k c, q[k]? = some c → has (pos n first k) c

namespace Holds

variable {has has' : Nat → α → Prop} {q : List α} {c : α}

/-- A ring that is empty at a position. -/
theorem empty (h1 : 1 ≤ first) (hn : first ≤ n) : Holds n has first first [] where
  one_le := h1
  le := hn
  short := Nat.lt_of_lt_of_le h1 hn
  current_eq := rfl
  stored := by simp

theorem current_bounds (h : Holds n has first current q) : 1 ≤ current ∧ current ≤ n := by
  rw [h.current_eq]
  exact pos_bounds h.one_le h.le (Nat.le_of_lt h.short)

/-- The ring looks empty exactly when the queue is. -/
theorem nil_iff (h : Holds n has first current q) : first = current ↔ q = [] := by
  constructor
  · intro heq
    by_contra hne
    have hlen : q.length ≠ 0 := fun h0 => hne (List.length_eq_zero_iff.mp h0)
    have hpos := pos_ne h.le (show 0 < n by have := h.short; omega) h.short hlen.symm
    exact hpos (heq.trans h.current_eq)
  · intro hnil
    rw [h.current_eq, hnil]
    rfl

/-- The next position meets `first` exactly when the queue is full. -/
theorem full_iff (h : Holds n has first current q) : next n current = first ↔ q.length + 1 = n := by
  have hstep : next n current = pos n first (q.length + 1) := by
    rw [h.current_eq]
    rfl
  rw [hstep]
  constructor
  · intro heq
    by_contra hne
    have hlt : q.length + 1 < n := by
      have := h.short
      omega
    exact pos_ne h.le (show 0 < n by omega) hlt (Nat.succ_ne_zero _).symm heq.symm
  · intro hlen
    rw [hlen, pos_round h.one_le h.le]

/-- A write at `current`: the element is appended, and in a full ring `first` moves on. -/
theorem push (h : Holds n has first current q) (hnew : has' current c)
    (hold : ∀ k a, k < q.length → pos n first k ≠ current → has (pos n first k) a →
      has' (pos n first k) a) :
    Holds n has' (if next n current = first then next n first else first) (next n current)
      (Ring.push (n - 1) q c) := by
  -- the elements of the appended queue stand at their positions
  have hall : ∀ k a, (q ++ [c])[k]? = some a → has' (pos n first k) a := by
    intro k a hk
    rcases Nat.lt_trichotomy k q.length with hlt | heq | hgt
    · rw [List.getElem?_append_left hlt] at hk
      refine hold k a hlt ?_ (h.stored k a hk)
      rw [h.current_eq]
      exact pos_ne h.le (by have := h.short; omega) h.short (Nat.ne_of_lt hlt)
    · subst heq
      rw [List.getElem?_concat_length] at hk
      rw [← Option.some.inj hk, ← h.current_eq]
      exact hnew
    · rw [List.getElem?_eq_none (by simp; omega)] at hk
      cases hk
  have hstep : next n current = pos n first (q.length + 1) := by
    rw [h.current_eq]
    rfl
  by_cases hfull : q.length + 1 = n
  · rw [if_pos (h.full_iff.mpr hfull), Ring.push, if_neg (by omega)]
    have hb := next_bounds (k := first) (show 1 ≤ n by omega)
    have hlen : (q ++ [c]).tail.length = q.length := by simp
    refine ⟨hb.1, hb.2, ?_, ?_, ?_⟩
    · rw [hlen]
      exact h.short
    · rw [hlen, hstep, pos_next]
    · intro k a hk
      rw [List.getElem?_tail] at hk
      rw [pos_next]
      exact hall (k + 1) a hk
  · have hroom : q.length + 1 < n := by
      have := h.short
      omega
    rw [if_neg fun heq => hfull (h.full_iff.mp heq), Ring.push, if_pos (by omega)]
    refine ⟨h.one_le, h.le, ?_, ?_, hall⟩
    · simpa using hroom
    · rw [hstep]
      simp

/-- The element at `first` is the oldest one, and the rest of the queue begins behind it. -/
theorem pop (h : Holds n has first current (c :: q)) :
    has first c ∧ Holds n has (next n first) current q := by
  have hlen : q.length + 1 < n := h.short
  have hb := next_bounds (k := first) (show 1 ≤ n by omega)
  refine ⟨h.stored 0 c rfl, hb.1, hb.2, by omega, ?_, ?_⟩
  · rw [h.current_eq, pos_next]
    rfl
  · intro k a hk
    rw [pos_next]
    exact h.stored (k + 1) a hk

end Holds

end Ring
