import Mathlib.Data.Nat.Basic

/-!
# `BitWords`: an array of bits in machine words

The bit `k` lies in the word `k / n` at the place `k % n`. A shift and a mask read a bit; a mask
sets or clears one and leaves all others, in the same word or another one.
-/

set_option autoImplicit false

namespace BitWords

variable {n : Nat}

/-- `(words[k / n] >> (k % n)) & 1` -/
def bit (words : Nat → BitVec n) (k : Nat) : Bool :=
  decide ((words (k / n) >>> (k % n)) &&& 1#n ≠ 0#n)

/-- `words[k / n] |= 1 << (k % n)` -/
def set (words : Nat → BitVec n) (k : Nat) : Nat → BitVec n := fun i =>
  if i = k / n then words i ||| 1#n <<< (k % n) else words i

/-- `words[k / n] &= ~(1 << (k % n))` -/
def clear (words : Nat → BitVec n) (k : Nat) : Nat → BitVec n := fun i =>
  if i = k / n then words i &&& ~~~(1#n <<< (k % n)) else words i

variable {words : Nat → BitVec n} {k j : Nat}

/-- Two bits are the same when they have the same place in the same word. -/
theorem place_iff (hword : j / n = k / n) : j % n = k % n ↔ j = k := by
  constructor
  · intro hplace
    have hj := Nat.div_add_mod j n
    rw [hword, hplace] at hj
    exact hj.symm.trans (Nat.div_add_mod k n)
  · intro h
    rw [h]

theorem bit_eq (hn : 0 < n) : bit words k = (words (k / n)).getLsbD (k % n) := by
  rw [bit, BitVec.and_one_eq_setWidth_ofBool_getLsbD, BitVec.getLsbD_ushiftRight, Nat.add_zero]
  cases (words (k / n)).getLsbD (k % n) with
  | false => simp
  | true =>
    have hone : BitVec.setWidth n (BitVec.ofBool true) ≠ 0#n := by
      intro h
      have hnat := congrArg BitVec.toNat h
      rw [BitVec.toNat_setWidth, BitVec.toNat_ofNat, Nat.zero_mod, BitVec.toNat_ofBool,
        Bool.toNat_true, Nat.mod_eq_of_lt (Nat.one_lt_two_pow (Nat.ne_of_gt hn))] at hnat
      cases hnat
    exact decide_eq_true hone

/-- The mask of one place. -/
theorem getLsbD_mask {i p : Nat} (hi : i < n) : (1#n <<< p).getLsbD i = decide (i = p) := by
  rw [BitVec.getLsbD_shiftLeft, BitVec.getLsbD_one]
  by_cases h : i = p
  · subst h
    have hpos : 0 < n := Nat.lt_of_le_of_lt (Nat.zero_le _) hi
    simp [hi, hpos]
  · have hapart : i < p ∨ i - p ≠ 0 := by omega
    rcases hapart with hlt | hne
    · simp [h, hlt]
    · simp [h, hne]

theorem bit_set (hn : 0 < n) : bit (set words k) j = if j = k then true else bit words j := by
  rw [bit_eq hn, bit_eq hn, set]
  by_cases hword : j / n = k / n
  · rw [if_pos hword, BitVec.getLsbD_or, getLsbD_mask (Nat.mod_lt j hn)]
    by_cases h : j = k
    · simp [h]
    · simp [h, place_iff hword]
  · have hne : j ≠ k := fun h => hword (h ▸ rfl)
    rw [if_neg hword, if_neg hne]

theorem bit_clear (hn : 0 < n) : bit (clear words k) j = if j = k then false else bit words j := by
  rw [bit_eq hn, bit_eq hn, clear]
  by_cases hword : j / n = k / n
  · rw [if_pos hword, BitVec.getLsbD_and, BitVec.getLsbD_not, getLsbD_mask (Nat.mod_lt j hn)]
    by_cases h : j = k
    · simp [h]
    · simp [h, place_iff hword, Nat.mod_lt j hn]
  · have hne : j ≠ k := fun h => hword (h ▸ rfl)
    rw [if_neg hword, if_neg hne]

/-- No bit of zeroed memory is set. -/
theorem bit_zero : bit (fun _ => 0#n) k = false := by
  simp [bit]

end BitWords
