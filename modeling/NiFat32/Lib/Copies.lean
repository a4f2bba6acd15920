import NiFat32.Lib.ByteStore

/-!
# `Lib.Copies`: one list at several addresses of a store

`writeAll d as xs` puts the list `xs` at each address of `as`, in order, so that a later copy
wins where two copies overlap. `lastOver n k as` is the address of the last copy of length `n`
that covers the address `k`, and `writeAll_apply` reads the store through it: an address holds what
its last copy has there.

* `lastOver_of_kept`: a copy that no later copy runs into is the last one, and
  `lastOver_position` is the converse;
* `lastOver_block`: copies in whole blocks have the same last copy all over a block.
-/

set_option autoImplicit false

namespace ByteStore

variable {α : Type}

/-- The store with the list at each of the addresses. -/
def writeAll (d : Nat → α) (as : List Nat) (xs : List α) : Nat → α :=
  as.foldl (fun d a => write d a xs) d

/-- The copy of length `n` at the address `a` has the address `k`. -/
def Covers (n k a : Nat) : Prop := a ≤ k ∧ k < a + n

instance (n k a : Nat) : Decidable (Covers n k a) := inferInstanceAs (Decidable (_ ∧ _))

/-- The last copy of length `n` that has the address `k`. -/
def lastOver (n k : Nat) : List Nat → Option Nat
  | [] => none
  | a :: as => (lastOver n k as).or (if Covers n k a then some a else none)

section Rules

variable {d : Nat → α} {as : List Nat} {xs : List α} {n k a : Nat}

theorem lastOver_covers (h : lastOver n k as = some a) : Covers n k a := by
  induction as with
  | nil => cases h
  | cons b as ih =>
    rw [lastOver, Option.or_eq_some_iff] at h
    cases h with
    | inl hlater => exact ih hlater
    | inr hhere =>
      have hb := hhere.2
      split at hb
      · next hcov =>
        cases hb
        exact hcov
      · cases hb

theorem lastOver_eq_none : lastOver n k as = none ↔ ∀ a ∈ as, ¬ Covers n k a := by
  induction as with
  | nil => simp [lastOver]
  | cons b as ih => simp [lastOver, ih, and_comm]

/-- An address holds what its last copy has there, and what it held before if there is none. -/
theorem writeAll_apply (d : Nat → α) (as : List Nat) (xs : List α) (k : Nat) :
    writeAll d as xs k = match lastOver xs.length k as with
      | some a => xs.getD (k - a) (d k)
      | none => d k := by
  induction as generalizing d with
  | nil => rfl
  | cons b as ih =>
    show writeAll (write d b xs) as xs k = _
    rw [ih, lastOver]
    cases hlast : lastOver xs.length k as with
    | some a =>
      -- the position lies inside the list, so that the default is not used
      have hcov := lastOver_covers hlast
      have hlt : k - a < xs.length := by
        rw [Covers] at hcov
        omega
      simp only [Option.some_or, List.getD_eq_getElem _ _ hlt]
    | none =>
      rw [Option.none_or]
      by_cases hcov : Covers xs.length k b
      · rw [if_pos hcov]
        show write d b xs k = _
        rw [write_apply, if_pos hcov.1]
      · rw [if_neg hcov]
        show write d b xs k = _
        apply write_of_outside
        rw [Covers] at hcov
        omega

/-- The last copy stands at a position of the list behind which no copy covers the address. -/
theorem lastOver_position (h : lastOver n k as = some a) :
    ∃ j : Nat, as[j]? = some a ∧ ∀ i b, j < i → as[i]? = some b → ¬ Covers n k b := by
  induction as with
  | nil => cases h
  | cons b as ih =>
    rw [lastOver, Option.or_eq_some_iff] at h
    cases h with
    | inl hlater =>
      cases ih hlater with
      | intro j hj =>
        refine ⟨j + 1, hj.1, fun i c hi hc => ?_⟩
        cases i with
        | zero => omega
        | succ i => exact hj.2 i c (Nat.lt_of_succ_lt_succ hi) hc
    | inr hhere =>
      have hb := hhere.2
      split at hb
      · cases hb
        refine ⟨0, rfl, fun i c hi hc => ?_⟩
        cases i with
        | zero => omega
        | succ i => exact lastOver_eq_none.mp hhere.1 c (List.mem_of_getElem? hc)
      · cases hb

theorem lastOver_mem (h : lastOver n k as = some a) : a ∈ as := by
  cases lastOver_position h with
  | intro j hj => exact List.mem_of_getElem? hj.1

/-- The copy at one position of the list is the last one when the later ones that cover the address
are at the same place. -/
theorem lastOver_of_kept {j : Nat} (hj : as[j]? = some a) (hcov : Covers n k a)
    (hlater : ∀ i b, j < i → as[i]? = some b → b = a ∨ ¬ Covers n k b) :
    lastOver n k as = some a := by
  induction as generalizing j with
  | nil => cases hj
  | cons b as ih =>
    rw [lastOver]
    cases j with
    | zero =>
      cases hj
      rw [if_pos hcov]
      -- the rest of the list covers the address at the same place, or not at all
      cases hlast : lastOver n k as with
      | none => rfl
      | some c =>
        cases List.mem_iff_getElem?.mp (lastOver_mem hlast) with
        | intro i hi =>
          have heq := hlater (i + 1) c (Nat.succ_pos i) hi
          exact congrArg some (heq.resolve_right fun hno => hno (lastOver_covers hlast))
    | succ j =>
      rw [ih hj fun i c hi hc => hlater (i + 1) c (Nat.succ_lt_succ hi) hc]
      rfl

/-- Copies in whole blocks of `w` addresses have the same last copy all over a block. -/
theorem lastOver_block {w b o : Nat} (hn : w ∣ n) (has : ∀ a ∈ as, w ∣ a) (ho : o < w) :
    lastOver n (b * w + o) as = lastOver n (b * w) as := by
  induction as with
  | nil => rfl
  | cons a as ih =>
    rw [lastOver, lastOver, ih fun c hc => has c (List.mem_cons_of_mem a hc)]
    have hsame : Covers n (b * w + o) a ↔ Covers n (b * w) a := by
      cases hn with
      | intro p hp =>
        cases has a List.mem_cons_self with
        | intro q hq =>
          subst hp hq
          rw [Covers, Covers, Nat.mul_comm w q, Nat.mul_comm w p, ← Nat.add_mul]
          constructor
          · intro h
            have hlow : q < b + 1 := Nat.lt_of_mul_lt_mul_right (a := w) (by
              rw [Nat.succ_mul]
              omega)
            exact ⟨Nat.mul_le_mul_right w (Nat.le_of_lt_succ hlow), by omega⟩
          · intro h
            have hhigh : b < q + p := Nat.lt_of_mul_lt_mul_right h.2
            have hmul := Nat.mul_le_mul_right w (Nat.succ_le_of_lt hhigh)
            rw [Nat.succ_mul] at hmul
            exact ⟨by omega, by omega⟩
    simp only [hsame]

/-- Inside a block of its last copy a store reads what that copy has. -/
theorem read_writeAll {w b : Nat} (hn : w ∣ xs.length) (has : ∀ a ∈ as, w ∣ a)
    (h : lastOver xs.length (b * w) as = some a) :
    read (writeAll d as xs) (b * w) w = (xs.drop (b * w - a)).take w := by
  have hcov := lastOver_covers h
  apply List.ext_getElem?
  intro o
  rw [getElem?_read, List.getElem?_take]
  by_cases ho : o < w
  · rw [if_pos ho, if_pos ho, writeAll_apply, lastOver_block hn has ho, h, List.getElem?_drop]
    have hin := lastOver_block (b := b) hn has ho
    rw [h] at hin
    have hcov' := lastOver_covers hin
    rw [Covers] at hcov hcov'
    have hpos : b * w - a + o = b * w + o - a := by omega
    have hlt : b * w + o - a < xs.length := by omega
    simp only [hpos, List.getElem?_eq_getElem hlt, List.getD_eq_getElem _ _ hlt]
  · rw [if_neg ho, if_neg ho]

/-- Where no copy covers the block, the store reads what it held. -/
theorem read_writeAll_none {w b : Nat} (hn : w ∣ xs.length) (has : ∀ a ∈ as, w ∣ a)
    (h : lastOver xs.length (b * w) as = none) :
    read (writeAll d as xs) (b * w) w = read d (b * w) w := by
  apply List.ext_getElem?
  intro o
  rw [getElem?_read, getElem?_read]
  by_cases ho : o < w
  · rw [if_pos ho, if_pos ho, writeAll_apply, lastOver_block hn has ho, h]
  · rw [if_neg ho, if_neg ho]

end Rules

end ByteStore
