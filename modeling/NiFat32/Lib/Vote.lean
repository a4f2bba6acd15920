import Mathlib.Data.List.Count

/-!
# `Vote`: the running majority vote

A vote walks over the copies of a value once. It keeps a candidate and its surplus, and it
counts the copies that disagreed with the candidate of their turn; the count starts at `-1`
because the first copy always disagrees with the initial candidate, which is a value that
no copy is expected to hold.

* `run_replicate` is the rule for copies that agree: the vote returns their value;
* `run_majority` is the rule for a strict majority: the vote returns the value that more than
  half of the copies hold, whatever the initial candidate was;
* `run_wrong_le_zero_iff` says when the count does not tell that the copies disagree;
* `run_val_seated` says that the candidate is the value of the copy that was elected last.
-/

set_option autoImplicit false

namespace Vote

variable {α : Type} [DecidableEq α]

/-- A running vote. -/
structure Ballot (α : Type) where
  wrong : Int
  freq : Int
  val : α

/-- One copy enters the vote. -/
def step (b : Ballot α) (x : α) : Ballot α :=
  let b' : Ballot α :=
    if x = b.val then { b with freq := b.freq + 1 }
    else { b with freq := b.freq - 1, wrong := b.wrong + 1 }
  if b'.freq < 0 then { b' with val := x, freq := 0 } else b'

/-- The copy `x` becomes the candidate. -/
def elects (b : Ballot α) (x : α) : Bool := x ≠ b.val ∧ b.freq - 1 < 0

/-- The vote before the first copy, with the initial candidate `v`. -/
def start (v : α) : Ballot α := { wrong := -1, freq := 0, val := v }

/-- The vote over a list of copies. -/
def run (v : α) (xs : List α) : Ballot α := xs.foldl step (start v)

/-- Once the candidate is the value of all remaining copies and its surplus is not
negative, it stays. -/
theorem foldl_replicate_val (b : Ballot α) (n : Nat) (h : 0 ≤ b.freq) :
    ((List.replicate n b.val).foldl step b).val = b.val := by
  induction n generalizing b with
  | zero => rfl
  | succ n ih =>
    have hstep : step b b.val = { b with freq := b.freq + 1 } := by
      simp only [step, if_true]
      rw [if_neg (by omega)]
    rw [List.replicate_succ, List.foldl_cons, hstep]
    exact ih { b with freq := b.freq + 1 } (by show 0 ≤ b.freq + 1; omega)

/-- Copies that agree elect their value. -/
theorem run_replicate (v x : α) (n : Nat) (h : 0 < n) : (run v (List.replicate n x)).val = x := by
  obtain ⟨k, rfl⟩ : ∃ k, n = k + 1 := ⟨n - 1, by omega⟩
  unfold run
  rw [List.replicate_succ, List.foldl_cons]
  by_cases hx : x = v
  · subst hx
    have hstep : step (start x) x = { wrong := -1, freq := 1, val := x } := by
      simp [step, start]
    rw [hstep]
    exact foldl_replicate_val { wrong := -1, freq := 1, val := x } k Int.one_nonneg
  · have hstep : step (start v) x = { wrong := 0, freq := 0, val := x } := by
      simp [step, start, hx]
    rw [hstep]
    exact foldl_replicate_val { wrong := 0, freq := 0, val := x } k (Int.le_refl 0)

/-- Copies that agree with the candidate do not count as wrong. -/
theorem foldl_replicate_wrong (b : Ballot α) (n : Nat) (h : 0 ≤ b.freq) :
    ((List.replicate n b.val).foldl step b).wrong = b.wrong := by
  induction n generalizing b with
  | zero => rfl
  | succ n ih =>
    have hstep : step b b.val = { b with freq := b.freq + 1 } := by
      simp only [step, if_true]
      rw [if_neg (by omega)]
    rw [List.replicate_succ, List.foldl_cons, hstep]
    exact ih { b with freq := b.freq + 1 } (by show 0 ≤ b.freq + 1; omega)

/-- Copies that agree need no repair. -/
theorem run_replicate_wrong (v x : α) (n : Nat) : (run v (List.replicate n x)).wrong ≤ 0 := by
  cases n with
  | zero => exact Int.neg_nonpos_of_nonneg Int.one_nonneg
  | succ k =>
    unfold run
    rw [List.replicate_succ, List.foldl_cons]
    by_cases hx : x = v
    · subst hx
      have hstep : step (start x) x = { wrong := -1, freq := 1, val := x } := by
        simp [step, start]
      rw [hstep]
      exact Int.le_trans (Int.le_of_eq (foldl_replicate_wrong
        { wrong := -1, freq := 1, val := x } k Int.one_nonneg))
        (Int.neg_nonpos_of_nonneg Int.one_nonneg)
    · have hstep : step (start v) x = { wrong := 0, freq := 0, val := x } := by
        simp [step, start, hx]
      rw [hstep]
      exact Int.le_of_eq (foldl_replicate_wrong
        { wrong := 0, freq := 0, val := x } k (Int.le_refl 0))

/-- The winner is the initial candidate or one of the copies. -/
theorem foldl_val_mem (b : Ballot α) (xs : List α) :
    (xs.foldl step b).val = b.val ∨ (xs.foldl step b).val ∈ xs := by
  induction xs generalizing b with
  | nil => exact Or.inl rfl
  | cons x xs ih =>
    have hstep : (step b x).val = b.val ∨ (step b x).val = x := by
      unfold step
      by_cases hx : x = b.val
      · simp only [if_pos hx]
        split
        · exact Or.inr rfl
        · exact Or.inl rfl
      · simp only [if_neg hx]
        split
        · exact Or.inr rfl
        · exact Or.inl rfl
    rw [List.foldl_cons]
    cases ih (step b x) with
    | inl hkeep =>
      rw [hkeep]
      cases hstep with
      | inl hb => exact Or.inl hb
      | inr hx =>
        rw [hx]
        exact Or.inr List.mem_cons_self
    | inr hmem => exact Or.inr (List.mem_cons_of_mem x hmem)

/-! ### Majorities -/

/-- What a vote knows about the copies `xs` that entered it. A value other than the candidate
holds at most half of the copies, less the surplus; the candidate holds at most one copy more
than half of them, and the surplus, as the copy that installs a candidate is not counted. -/
def Bounded (xs : List α) (b : Ballot α) : Prop :=
  0 ≤ b.freq ∧
    ∀ v, 2 * (xs.count v : Int) ≤ xs.length + (if v = b.val then b.freq + 1 else -b.freq)

theorem bounded_start (v : α) : Bounded [] (start v) := by
  refine ⟨Int.le_refl 0, ?_⟩
  intro w
  show 2 * (([] : List α).count w : Int) ≤ 0 + (if w = v then (0 : Int) + 1 else -0)
  rw [List.count_nil]
  split <;> simp

/-- One copy keeps the bounds. -/
theorem Bounded.step {xs : List α} {b : Ballot α} (h : Bounded xs b) (x : α) :
    Bounded (xs ++ [x]) (step b x) := by
  obtain ⟨hfreq, hbound⟩ := h
  have hlen : ((xs ++ [x]).length : Int) = xs.length + 1 := by simp
  have hcount : ∀ v, ((xs ++ [x]).count v : Int) = xs.count v + (if x = v then 1 else 0) := by
    intro v
    rw [List.count_append, List.count_singleton]
    by_cases hv : x = v
    · simp [hv]
    · simp [hv]
  by_cases hx : x = b.val
  · -- the copy agrees with the candidate
    have hstep : Vote.step b x = { b with freq := b.freq + 1 } := by
      simp only [Vote.step, if_pos hx]
      rw [if_neg (by omega)]
    rw [hstep]
    refine ⟨by show 0 ≤ b.freq + 1; omega, ?_⟩
    intro v
    have hv := hbound v
    rw [hlen, hcount]
    show _ ≤ _ + (if v = b.val then b.freq + 1 + 1 else -(b.freq + 1))
    by_cases hvb : v = b.val
    · rw [if_pos hvb] at hv ⊢
      rw [if_pos (hx.trans hvb.symm)]
      omega
    · rw [if_neg hvb] at hv ⊢
      have hxv : ¬ x = v := fun heq => hvb (heq.symm.trans hx)
      rw [if_neg hxv]
      omega
  · by_cases h0 : b.freq - 1 < 0
    · -- the copy becomes the candidate
      have hstep : Vote.step b x = { wrong := b.wrong + 1, freq := 0, val := x } := by
        simp only [Vote.step, if_neg hx]
        rw [if_pos h0]
      rw [hstep]
      refine ⟨Int.le_refl 0, ?_⟩
      intro v
      have hv := hbound v
      rw [hlen, hcount]
      show _ ≤ _ + (if v = x then (0 : Int) + 1 else -0)
      by_cases hvx : v = x
      · rw [if_neg fun hvb => hx (hvx ▸ hvb)] at hv
        rw [if_pos hvx, if_pos hvx.symm]
        omega
      · rw [if_neg hvx, if_neg fun hxv => hvx hxv.symm]
        by_cases hvb : v = b.val
        · rw [if_pos hvb] at hv
          omega
        · rw [if_neg hvb] at hv
          omega
    · -- the copy takes one off the surplus
      have hstep : Vote.step b x = { b with freq := b.freq - 1, wrong := b.wrong + 1 } := by
        simp only [Vote.step, if_neg hx]
        rw [if_neg h0]
      rw [hstep]
      refine ⟨by show 0 ≤ b.freq - 1; omega, ?_⟩
      intro v
      have hv := hbound v
      rw [hlen, hcount]
      show _ ≤ _ + (if v = b.val then b.freq - 1 + 1 else -(b.freq - 1))
      by_cases hvb : v = b.val
      · rw [if_pos hvb] at hv ⊢
        rw [if_neg fun hxv => hx (hxv.trans hvb)]
        omega
      · rw [if_neg hvb] at hv ⊢
        split <;> omega

theorem Bounded.foldl {xs : List α} {b : Ballot α} (h : Bounded xs b) (ys : List α) :
    Bounded (xs ++ ys) (ys.foldl Vote.step b) := by
  induction ys generalizing xs b with
  | nil => rwa [List.append_nil]
  | cons y ys ih =>
    have hrest := ih (h.step y)
    rwa [List.append_assoc, List.singleton_append] at hrest

/-- A value that more than half of the copies hold wins the vote. -/
theorem run_majority (v₀ : α) {v : α} {xs : List α} (h : xs.length < 2 * xs.count v) :
    (run v₀ xs).val = v := by
  obtain ⟨hfreq, hbound⟩ : Bounded xs (run v₀ xs) := (bounded_start v₀).foldl xs
  by_contra hne
  have hv := hbound v
  rw [if_neg fun heq => hne heq.symm] at hv
  omega

/-! ### Disagreement -/

theorem step_wrong (b : Ballot α) (x : α) :
    (step b x).wrong = if x = b.val then b.wrong else b.wrong + 1 := by
  unfold step
  by_cases hx : x = b.val
  · simp only [if_pos hx]
    split <;> rfl
  · simp only [if_neg hx]
    split <;> rfl

theorem wrong_le_foldl (b : Ballot α) (xs : List α) : b.wrong ≤ (xs.foldl step b).wrong := by
  induction xs generalizing b with
  | nil => exact Int.le_refl _
  | cons x xs ih =>
    have hstep := step_wrong b x
    have hrest := ih (step b x)
    rw [List.foldl_cons]
    split at hstep <;> omega

/-- The count stays as it is exactly when all copies agree with the candidate. -/
theorem foldl_wrong_le_iff (b : Ballot α) (xs : List α) (h : 0 ≤ b.freq) :
    (xs.foldl step b).wrong ≤ b.wrong ↔ xs = List.replicate xs.length b.val := by
  constructor
  · intro hle
    induction xs generalizing b with
    | nil => rfl
    | cons x xs ih =>
      rw [List.foldl_cons] at hle
      have hstep := step_wrong b x
      have hmono := wrong_le_foldl (step b x) xs
      by_cases hx : x = b.val
      · have hnext : step b x = { b with freq := b.freq + 1 } := by
          simp only [step, if_pos hx]
          rw [if_neg (by omega)]
        rw [hnext] at hle
        have hrest := ih _ (by show 0 ≤ b.freq + 1; omega) hle
        rw [List.length_cons, List.replicate_succ, hx]
        exact congrArg (b.val :: ·) hrest
      · rw [if_neg hx] at hstep
        omega
  · intro heq
    rw [heq]
    exact Int.le_of_eq (foldl_replicate_wrong b _ h)

/-- Copies that agree with the candidate only add to its surplus. -/
theorem foldl_replicate (b : Ballot α) (n : Nat) (h : 0 ≤ b.freq) :
    (List.replicate n b.val).foldl step b = { b with freq := b.freq + n } := by
  induction n generalizing b with
  | zero => simp
  | succ n ih =>
    have hstep : step b b.val = { b with freq := b.freq + 1 } := by
      simp only [step, if_true]
      rw [if_neg (by omega)]
    rw [List.replicate_succ, List.foldl_cons, hstep]
    refine (ih { b with freq := b.freq + 1 } (by show 0 ≤ b.freq + 1; omega)).trans ?_
    show { b with freq := b.freq + 1 + (n : Int) }
      = { b with freq := b.freq + ((n + 1 : Nat) : Int) }
    congr 1
    omega

/-- The count misses a disagreement exactly when all copies but one hold the initial candidate,
and the first copy does. -/
theorem run_wrong_le_zero_iff (v₀ : α) (xs : List α) : (run v₀ xs).wrong ≤ 0 ↔
    (∃ n x, xs = List.replicate n x) ∨
    ∃ j x k, xs = List.replicate (j + 1) v₀ ++ x :: List.replicate k v₀ := by
  -- the copies up to the first one that is not the initial candidate
  have hsplit : (∃ n, xs = List.replicate n v₀) ∨
      ∃ j x ys, x ≠ v₀ ∧ xs = List.replicate j v₀ ++ x :: ys := by
    induction xs with
    | nil => exact Or.inl ⟨0, rfl⟩
    | cons y ys ih =>
      by_cases hy : y = v₀
      · cases ih with
        | inl hall =>
          obtain ⟨n, hn⟩ := hall
          exact Or.inl ⟨n + 1, by rw [hy, hn, List.replicate_succ]⟩
        | inr hfirst =>
          obtain ⟨j, x, zs, hx, hzs⟩ := hfirst
          exact Or.inr ⟨j + 1, x, zs, hx, by rw [hy, hzs, List.replicate_succ]; rfl⟩
      · exact Or.inr ⟨0, y, ys, hy, rfl⟩
  cases hsplit with
  | inl hall =>
    obtain ⟨n, rfl⟩ := hall
    exact ⟨fun _ => Or.inl ⟨n, v₀, rfl⟩, fun _ => run_replicate_wrong v₀ v₀ n⟩
  | inr hfirst =>
    obtain ⟨j, x, ys, hx, rfl⟩ := hfirst
    have hprefix : (List.replicate j v₀).foldl step (start v₀)
        = { wrong := -1, freq := j, val := v₀ } := by
      have hrep := foldl_replicate (start v₀) j (Int.le_refl 0)
      rw [show (start v₀).freq + (j : Int) = j from Int.zero_add _] at hrep
      exact hrep
    unfold run
    rw [List.foldl_append, List.foldl_cons, hprefix]
    cases j with
    | zero =>
      -- the copy is the first one, and becomes the candidate
      have hstep : step { wrong := -1, freq := ((0 : Nat) : Int), val := v₀ } x
          = { wrong := 0, freq := 0, val := x } := by
        simp [step, hx]
      rw [hstep, foldl_wrong_le_iff { wrong := 0, freq := 0, val := x } ys (Int.le_refl 0)]
      constructor
      · intro hys
        refine Or.inl ⟨ys.length + 1, x, ?_⟩
        rw [List.replicate_succ]
        exact congrArg (x :: ·) hys
      · rintro (⟨n, y, heq⟩ | ⟨j, y, k, heq⟩)
        · rw [List.replicate_zero, List.nil_append] at heq
          cases n with
          | zero => cases heq
          | succ n =>
            obtain ⟨rfl, hys⟩ := List.cons.inj heq
            show ys = List.replicate ys.length x
            rw [hys, List.length_replicate]
        · exact absurd (List.cons.inj heq).1 hx
    | succ j =>
      have hstep : step { wrong := -1, freq := ((j + 1 : Nat) : Int), val := v₀ } x
          = { wrong := 0, freq := j, val := v₀ } := by
        simp [step, hx]
      rw [hstep, foldl_wrong_le_iff { wrong := 0, freq := (j : Int), val := v₀ } ys
        (Int.natCast_nonneg j)]
      constructor
      · intro hys
        exact Or.inr ⟨j, x, ys.length, congrArg (_ ++ x :: ·) hys⟩
      · rintro (⟨n, y, heq⟩ | ⟨i, y, k, heq⟩)
        · -- equal copies would make the copy the candidate
          have hmem : ∀ z ∈ List.replicate (j + 1) v₀ ++ x :: ys, z = y := by
            rw [heq]
            exact fun z hz => List.eq_of_mem_replicate hz
          have h1 := hmem v₀ (by simp [List.replicate_succ])
          have h2 := hmem x (by simp)
          exact absurd (h2.trans h1.symm) hx
        · refine (List.eq_replicate_iff.mpr ⟨rfl, ?_⟩ : ys = List.replicate ys.length v₀)
          intro z hz
          by_contra hne
          have hcount := congrArg (List.countP fun w => decide (w ≠ v₀)) heq
          have hz' : 0 < List.countP (fun w => decide (w ≠ v₀)) ys :=
            List.countP_pos_iff.mpr ⟨z, hz, by simpa using hne⟩
          have hzero : ∀ n, List.countP (fun w => decide (w ≠ v₀)) (List.replicate n v₀) = 0 := by
            intro n
            exact List.countP_eq_zero.mpr fun w hw => by simp [List.eq_of_mem_replicate hw]
          have hx' : decide (x ≠ v₀) = true := by simpa using hx
          rw [List.countP_append, List.countP_append, List.countP_cons, List.countP_cons, hzero,
            hzero, hzero, if_pos hx'] at hcount
          split at hcount <;> omega

/-! ### The copy that is elected -/

/-- The copy that became the candidate last, of the first `n` copies `f 0`, `f 1`, …. -/
def seated (v : α) (f : Nat → α) : Nat → Option Nat
  | 0 => none
  | n + 1 => if elects (run v ((List.range n).map f)) (f n) then some n else seated v f n

theorem run_range_succ (v : α) (f : Nat → α) (n : Nat) :
    run v ((List.range (n + 1)).map f) = step (run v ((List.range n).map f)) (f n) := by
  unfold run
  rw [List.range_succ, List.map_append, List.foldl_append]
  rfl

/-- The candidate is the value of the copy that was elected last. -/
theorem run_val_seated (v : α) (f : Nat → α) (n : Nat) :
    (run v ((List.range n).map f)).val = ((seated v f n).map f).getD v := by
  induction n with
  | zero => rfl
  | succ n ih =>
    rw [run_range_succ, seated]
    by_cases he : elects (run v ((List.range n).map f)) (f n) = true
    · rw [if_pos he]
      obtain ⟨hne, hfreq⟩ := of_decide_eq_true he
      unfold step
      simp only [if_neg hne]
      rw [if_pos hfreq]
      rfl
    · rw [if_neg he, ← ih]
      have hfreq : 0 ≤ (run v ((List.range n).map f)).freq :=
        ((bounded_start v).foldl ((List.range n).map f)).1
      unfold step
      by_cases hx : f n = (run v ((List.range n).map f)).val
      · simp only [if_pos hx]
        rw [if_neg (by omega)]
      · have hpos : ¬ (run v ((List.range n).map f)).freq - 1 < 0 := fun hlt =>
          he (decide_eq_true ⟨hx, hlt⟩)
        simp only [if_neg hx]
        rw [if_neg hpos]

/-- Copies that agree with each other, and not with the initial candidate, elect the first. -/
theorem seated_of_agree {v x : α} {f : Nat → α} {n : Nat} (hn : 0 < n) (hx : x ≠ v)
    (h : ∀ i, i < n → f i = x) : seated v f n = some 0 := by
  induction n with
  | zero => exact absurd hn (Nat.lt_irrefl 0)
  | succ n ih =>
    by_cases h0 : n = 0
    · subst h0
      have hf : f 0 = x := h 0 Nat.one_pos
      simp [seated, elects, run, start, hf, hx]
    · have hmap : (List.range n).map f = List.replicate n x := by
        apply List.eq_replicate_iff.mpr
        simpa using fun i hi => h i (Nat.lt_succ_of_lt hi)
      have hval : (run v ((List.range n).map f)).val = x := by
        rw [hmap]
        exact run_replicate v x n (Nat.pos_of_ne_zero h0)
      have hstay : elects (run v ((List.range n).map f)) (f n) = false := by
        simp [elects, hval, h n (Nat.lt_succ_self n)]
      rw [seated, hstay]
      exact ih (Nat.pos_of_ne_zero h0) fun i hi => h i (Nat.lt_succ_of_lt hi)

/-- Where a copy was elected and the count of disagreements is still `0`, all copies agree. -/
theorem agree_of_seated {v : α} {f : Nat → α} {n p : Nat} (hp : seated v f n = some p)
    (hwrong : (run v ((List.range n).map f)).wrong ≤ 0) : ∀ i, i < n → f i = f p := by
  -- before the first disagreement all copies are the initial candidate; behind it, as long as it
  -- is the only one, they are the copy that was elected by it
  have hmain : ∀ k, (let b := run v ((List.range k).map f)
      (b.wrong = -1 ∧ b.val = v ∧ b.freq = k ∧ seated v f k = none) ∨
      0 ≤ b.wrong ∧ (b.wrong = 0 → ∀ q, seated v f k = some q →
        b.val = f q ∧ ∀ i, i < k → f i = f q)) := by
    intro k
    induction k with
    | zero => exact Or.inl ⟨rfl, rfl, rfl, rfl⟩
    | succ k ih =>
      simp only [run_range_succ, seated]
      have hfreq : 0 ≤ (run v ((List.range k).map f)).freq :=
        ((bounded_start v).foldl ((List.range k).map f)).1
      generalize hb : run v ((List.range k).map f) = b at ih hfreq ⊢
      have hcount := step_wrong b (f k)
      by_cases hx : f k = b.val
      · have hstay : elects b (f k) = false := by simp [elects, hx]
        have hstep : step b (f k) = { b with freq := b.freq + 1 } := by
          simp only [step, if_pos hx]
          rw [if_neg (by omega)]
        rw [hstep, hstay]
        simp only [Bool.false_eq_true, if_false]
        cases ih with
        | inl hfirst =>
          obtain ⟨h1, h2, h3, h4⟩ := hfirst
          exact Or.inl ⟨h1, h2, by omega, h4⟩
        | inr hlater =>
          refine Or.inr ⟨hlater.1, fun h0 q hq => ?_⟩
          obtain ⟨hval, hall⟩ := hlater.2 h0 q hq
          refine ⟨hval, fun i hi => ?_⟩
          rcases Nat.lt_or_ge i k with hlt | hge
          · exact hall i hlt
          · rw [show i = k by omega, hx, hval]
      · rw [if_neg hx] at hcount
        cases ih with
        | inr hlater => exact Or.inr ⟨by omega, fun h0 => by omega⟩
        | inl hfirst =>
          obtain ⟨h1, h2, h3, h4⟩ := hfirst
          refine Or.inr ⟨by omega, fun _ q hq => ?_⟩
          by_cases h0 : k = 0
          · subst h0
            have helect : elects b (f 0) = true := by simp [elects, hx, h3]
            rw [helect, if_pos rfl] at hq
            obtain rfl := Option.some.inj hq
            refine ⟨?_, fun i hi => by rw [Nat.lt_one_iff.mp hi]⟩
            simp [step, hx, h3]
          · have hstay : elects b (f k) = false := by
              simp only [elects, decide_eq_false_iff_not]
              omega
            rw [hstay, h4] at hq
            cases hq
  cases hmain n with
  | inl hfirst =>
    rw [hfirst.2.2.2] at hp
    cases hp
  | inr hlater => exact (hlater.2 (by omega) p hp).2

/-- The copy that is elected is one of those that voted. -/
theorem seated_lt {v : α} {f : Nat → α} {n p : Nat} (h : seated v f n = some p) : p < n := by
  induction n with
  | zero => cases h
  | succ n ih =>
    rw [seated] at h
    split at h
    · rw [← Option.some.inj h]
      exact Nat.lt_succ_self n
    · exact Nat.lt_succ_of_lt (ih h)

/-- The vote and the election side by side. -/
theorem foldl_seated (v : α) (f : Nat → α) (n : Nat) :
    (List.range n).foldl
      (fun acc i => (step acc.1 (f i), if elects acc.1 (f i) then some i else acc.2))
      (start v, none) = (run v ((List.range n).map f), seated v f n) := by
  induction n with
  | zero => rfl
  | succ n ih =>
    rw [List.range_succ, List.foldl_append, ih, ← List.range_succ, run_range_succ, seated]
    rfl

/-- The election depends on the votes that are cast. -/
theorem seated_congr {v : α} {f g : Nat → α} {n : Nat} (h : ∀ i, i < n → f i = g i) :
    seated v f n = seated v g n := by
  induction n with
  | zero => rfl
  | succ n ih =>
    have hmap : (List.range n).map f = (List.range n).map g :=
      List.map_congr_left fun i hi => h i (Nat.lt_succ_of_lt (List.mem_range.mp hi))
    rw [seated, seated, hmap, h n (Nat.lt_succ_self n), ih fun i hi => h i (Nat.lt_succ_of_lt hi)]

end Vote
