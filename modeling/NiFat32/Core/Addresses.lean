import Mathlib.Algebra.Group.Int.Defs
import Mathlib.Algebra.Group.Nat.Defs
import Mathlib.Data.Nat.Basic

/-!
# `Core.Addresses`: placement of the metadata (`nft32/addresses.h`)

The boot sectors, the FAT copies, the journals and the error areas are scattered over the
volume by multiplicative hashing. All arithmetic is on `unsigned int`.
-/

set_option autoImplicit false

namespace NiFat32

/-- A value as an `unsigned int`. -/
def u32 (n : Nat) : Nat := n % 2 ^ 32

/-- Subtraction of `unsigned int` values. -/
def sub32 (a b : Nat) : Nat := (a + (2 ^ 32 - b % 2 ^ 32)) % 2 ^ 32

theorem u32_of_lt {n : Nat} (h : n < 2 ^ 32) : u32 n = n := Nat.mod_eq_of_lt h

theorem sub32_of_le {a b : Nat} (hb : b ≤ a) (ha : a < 2 ^ 32) : sub32 a b = a - b := by
  unfold sub32
  rw [Nat.mod_eq_of_lt (by omega : b < 2 ^ 32)]
  omega

/-- `GET_JOURNALSECTOR` -/
def getJournalSector (n ts : Nat) : Nat := (u32 ((n + 35) * 12983229) >>> 3) % sub32 ts 2

/-- `GET_BOOTSECTOR` -/
def getBootSector (n ts : Nat) : Nat := (u32 ((n + 1) * 2654435761) >>> 11) % sub32 ts 2

/-- `GET_FATSECTOR` of the library. -/
def getFatSector (n ts : Nat) : Nat := (u32 ((n + 7) * 340573321) >>> 13) % sub32 ts 23

/-- `GET_ERRORSSECTOR` -/
def getErrorsSector (n ts : Nat) : Nat := (u32 ((n + 23) * 10986542) >>> 9) % sub32 ts 2

/-- `GET_CLUSTER_OFF` -/
def getClusterOff (n tc : Nat) : Nat := (u32 ((n + 11) * 3024953) >>> 1) % tc

end NiFat32
