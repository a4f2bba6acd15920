import Mathlib.Data.BitVec

/-!
# `Std.Threading`: the lock word (`std/threading.c`)

A lock is one word: the number of readers, the flag of a writer, and the owner of the write lock.
The four routines read the word, compute another one, and swap it in if the word is still the one
that was read. The address of the word that they get is not `NULL`.

A routine is one step here: between the reading and the swap nobody else changes the word. The loops
without a bound take one; they are `none` when it is used up.
-/

set_option autoImplicit false

namespace NiFat32.Threading

/-- `lock_t` -/
abbrev Lock : Type := BitVec 32

/-- `owner_t` -/
abbrev Owner : Type := BitVec 16

/-- `UNLOCKED` -/
abbrev UNLOCKED : BitVec 32 := 0x00

/-- `NO_OWNER` -/
abbrev NO_OWNER : BitVec 32 := 0xFF

/-- `LOCKED_WRITE` -/
abbrev LOCKED_WRITE : BitVec 32 := 1

/-- `REQUIRE_TIME` -/
abbrev REQUIRE_TIME : Nat := 99999

/-- `MAX_READERS` -/
abbrev MAX_READERS : Nat := 255

/-- `OWNER_MASK` -/
abbrev OWNER_MASK : BitVec 32 := 0xFFFF

/-- `LOCK_READERS_MASK` -/
abbrev LOCK_READERS_MASK : BitVec 32 := 0x000000FF

/-- `LOCK_WRITE_FLAG` -/
abbrev LOCK_WRITE_FLAG : BitVec 32 := 0x00000100

/-- `LOCK_OWNER_MASK` -/
abbrev LOCK_OWNER_MASK : BitVec 32 := 0xFFFF0000

/-- `LOCK_IS_WRITE` -/
def lockIsWrite (lock : Lock) : Bool := lock &&& LOCK_WRITE_FLAG ≠ 0

/-- `LOCK_GET_STATUS` -/
def lockGetStatus (lock : Lock) : BitVec 32 := if lockIsWrite lock then LOCKED_WRITE else UNLOCKED

/-- `LOCK_GET_READERS` -/
def lockGetReaders (lock : Lock) : BitVec 32 := lock >>> 0 &&& 0xFF

/-- `LOCK_GET_OWNER` -/
def lockGetOwner (lock : Lock) : BitVec 32 := (lock &&& LOCK_OWNER_MASK) >>> 16

/-- `LOCK_PACK` -/
def lockPack (readers isWrite owner : BitVec 32) : Lock :=
  (readers &&& LOCK_READERS_MASK) ||| ((if isWrite ≠ 0 then 1 else 0 : BitVec 32) <<< 8) |||
    ((owner &&& OWNER_MASK) <<< 16)

/-- `NULL_LOCK` -/
def NULL_LOCK : Lock := lockPack 0 0 NO_OWNER

/-- `__sync_bool_compare_and_swap`: whether it swapped, and the word behind it. -/
def compareAndSwap (lock oldVal newVal : Lock) : Bool × Lock :=
  if lock = oldVal then (true, newVal) else (false, lock)

/-- The loop of `THR_require_read`. -/
def requireReadLoop : (delay : Nat) → Lock → Bool × Lock
  | 0, lock => (false, lock)
  | delay + 1, oldVal =>
    if lockIsWrite oldVal then requireReadLoop delay oldVal
    else
      let readers : BitVec 16 := (lockGetReaders oldVal).setWidth 16
      if MAX_READERS ≤ readers.toNat then (false, oldVal)
      else
        match compareAndSwap oldVal oldVal
            (lockPack (readers.setWidth 32 + 1) UNLOCKED NO_OWNER) with
        | (true, lock) => (true, lock)
        | (false, lock) => requireReadLoop delay lock

/-- `THR_require_read` -/
def thrRequireRead (lock : Lock) : Bool × Lock := requireReadLoop REQUIRE_TIME lock

/-- `THR_release_read` -/
def thrReleaseRead : (fuel : Nat) → Lock → Option (Bool × Lock)
  | 0, _ => none
  | fuel + 1, oldVal =>
    if lockIsWrite oldVal then some (false, oldVal)
    else
      let readers : BitVec 16 := (lockGetReaders oldVal).setWidth 16
      if readers = 0 then some (false, oldVal)
      else
        let newVal := if readers = 1 then NULL_LOCK
          else lockPack (readers.setWidth 32 - 1) UNLOCKED NO_OWNER
        match compareAndSwap oldVal oldVal newVal with
        | (true, lock) => some (true, lock)
        | (false, lock) => thrReleaseRead fuel lock

/-- The loop of `THR_require_write`. -/
def requireWriteLoop (owner : Owner) : (delay : Nat) → Lock → Bool × Lock
  | 0, lock => (false, lock)
  | delay + 1, oldVal =>
    if lockGetStatus oldVal = UNLOCKED ∧ lockGetReaders oldVal = 0 then
      match compareAndSwap oldVal oldVal (lockPack 0 LOCKED_WRITE (owner.setWidth 32)) with
      | (true, lock) => (true, lock)
      | (false, lock) => requireWriteLoop owner delay lock
    else requireWriteLoop owner delay oldVal

/-- `THR_require_write` -/
def thrRequireWrite (lock : Lock) (owner : Owner) : Bool × Lock :=
  requireWriteLoop owner REQUIRE_TIME lock

/-- `THR_release_write` -/
def thrReleaseWrite : (fuel : Nat) → Lock → Owner → Option (Bool × Lock)
  | 0, _, _ => none
  | fuel + 1, oldVal, owner =>
    if lockGetStatus oldVal = 0 then some (false, oldVal)
    else if lockGetOwner oldVal ≠ owner.setWidth 32 then some (false, oldVal)
    else
      match compareAndSwap oldVal oldVal NULL_LOCK with
      | (true, lock) => some (true, lock)
      | (false, lock) => thrReleaseWrite fuel lock owner

end NiFat32.Threading
