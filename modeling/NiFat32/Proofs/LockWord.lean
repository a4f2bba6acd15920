import NiFat32.Lib.Run
import NiFat32.Lib.SharedLock
import NiFat32.Std.Threading

/-!
# `Proofs.LockWord`: the lock word and those that hold the lock

`word` packs a lock of `Lib.SharedLock` as `std/threading.c` does, and the fields of a packed word
read back. On such a word each routine does what the lock does (`thrCall_word`). So in every run the
word is the one of a lock that its holders hold (`LockRun.Packed`), and `lockWord_describes` reads
the fields off it.
-/

set_option autoImplicit false

namespace NiFat32.Threading

open Run
open SharedLock

/-! ### The fields -/

section Fields

variable {i : Nat}

theorem readersMask_bit (hi : i < 32) : LOCK_READERS_MASK.getLsbD i = decide (i < 8) := by
  revert i
  decide

theorem writeFlag_bit (hi : i < 32) : LOCK_WRITE_FLAG.getLsbD i = decide (i = 8) := by
  revert i
  decide

theorem ownerMask_bit (hi : i < 32) : OWNER_MASK.getLsbD i = decide (i < 16) := by
  revert i
  decide

theorem lockOwnerMask_bit (hi : i < 32) : LOCK_OWNER_MASK.getLsbD i = decide (16 ≤ i) := by
  revert i
  decide

variable (readers isWrite owner : BitVec 32)

/-- The bits of a packed word: eight for the readers, the flag, and sixteen for the owner. -/
theorem lockPack_bit (hi : i < 32) : (lockPack readers isWrite owner).getLsbD i =
    (decide (i < 8) && readers.getLsbD i || decide (i = 8) && decide (isWrite ≠ 0) ||
      decide (16 ≤ i) && owner.getLsbD (i - 16)) := by
  have hflag : ((if isWrite ≠ 0 then 1 else 0 : BitVec 32) <<< 8).getLsbD i
      = (decide (i = 8) && decide (isWrite ≠ 0)) := by
    by_cases hw : isWrite = 0
    · simp [hw]
    · have hone : ((1 : BitVec 32) <<< 8).getLsbD i = decide (i = 8) := writeFlag_bit hi
      rw [if_pos hw, hone, decide_eq_true hw, Bool.and_true]
  have howner : ((owner &&& OWNER_MASK) <<< 16).getLsbD i
      = (decide (16 ≤ i) && owner.getLsbD (i - 16)) := by
    have hsub : i - 16 < 32 := by omega
    rw [BitVec.getLsbD_shiftLeft, BitVec.getLsbD_and, ownerMask_bit hsub]
    by_cases h : i < 16
    · have hnot : ¬ 16 ≤ i := Nat.not_le.mpr h
      simp [h, hnot]
    · have hle : 16 ≤ i := Nat.not_lt.mp h
      have hlt : i - 16 < 16 := by omega
      simp [h, hle, hlt, hi]
  unfold lockPack
  rw [BitVec.getLsbD_or, BitVec.getLsbD_or, BitVec.getLsbD_and, readersMask_bit hi, hflag, howner,
    Bool.and_comm (readers.getLsbD i)]

theorem lockGetReaders_lockPack :
    lockGetReaders (lockPack readers isWrite owner) = readers &&& LOCK_READERS_MASK := by
  apply BitVec.eq_of_getLsbD_eq
  intro i hi
  have hmask : (0xFF : BitVec 32).getLsbD i = decide (i < 8) := readersMask_bit hi
  unfold lockGetReaders
  rw [BitVec.getLsbD_and, BitVec.getLsbD_and, BitVec.getLsbD_ushiftRight, Nat.zero_add,
    lockPack_bit readers isWrite owner hi, hmask]
  by_cases h : i < 8
  · have hflag : i ≠ 8 := Nat.ne_of_lt h
    have howner : ¬ 16 ≤ i := by omega
    simp [h, hflag, howner]
  · simp [h]

theorem lockIsWrite_lockPack :
    lockIsWrite (lockPack readers isWrite owner) = decide (isWrite ≠ 0) := by
  have hbit : lockPack readers isWrite owner &&& LOCK_WRITE_FLAG
      = if isWrite ≠ 0 then LOCK_WRITE_FLAG else 0 := by
    apply BitVec.eq_of_getLsbD_eq
    intro i hi
    rw [BitVec.getLsbD_and, lockPack_bit readers isWrite owner hi, writeFlag_bit hi]
    by_cases h : i = 8
    · subst h
      by_cases hw : isWrite = 0
      · simp [hw]
      · rw [if_pos hw, decide_eq_true hw]
        rfl
    · rw [decide_eq_false h, Bool.and_false]
      by_cases hw : isWrite = 0
      · simp [hw]
      · rw [if_pos hw, writeFlag_bit hi, decide_eq_false h]
  unfold lockIsWrite
  rw [hbit]
  by_cases hw : isWrite = 0 <;> simp [hw]

theorem lockGetOwner_lockPack :
    lockGetOwner (lockPack readers isWrite owner) = owner &&& OWNER_MASK := by
  apply BitVec.eq_of_getLsbD_eq
  intro i hi
  unfold lockGetOwner
  rw [BitVec.getLsbD_ushiftRight, BitVec.getLsbD_and, BitVec.getLsbD_and, ownerMask_bit hi]
  by_cases h : i < 16
  · have hplace : 16 + i < 32 := by omega
    rw [lockPack_bit readers isWrite owner hplace, lockOwnerMask_bit hplace]
    have hreaders : ¬ 16 + i < 8 := by omega
    have hflag : 16 + i ≠ 8 := by omega
    simp [h, hreaders, hflag]
  · rw [BitVec.getLsbD_of_ge _ _ (show 32 ≤ 16 + i by omega)]
    simp [h]

end Fields

/-! ### Packed locks -/

/-- The word of a lock. -/
def word : Grip Owner MAX_READERS → Lock
  | .shared n _ => lockPack (BitVec.ofNat 32 n) UNLOCKED NO_OWNER
  | .exclusive o => lockPack 0 LOCKED_WRITE (o.setWidth 32)

section Word

variable {n : Nat} (le : n ≤ MAX_READERS) (o : Owner)

theorem lockIsWrite_shared : lockIsWrite (word (.shared n le)) = false :=
  lockIsWrite_lockPack _ _ _

theorem lockGetReaders_shared : lockGetReaders (word (.shared n le)) = BitVec.ofNat 32 n := by
  have hmask : BitVec.ofNat 32 n &&& LOCK_READERS_MASK = BitVec.ofNat 32 n := by
    apply BitVec.eq_of_toNat_eq
    have hmod : LOCK_READERS_MASK.toNat = 2 ^ 8 - 1 := rfl
    have hlt : n < 2 ^ 8 := Nat.lt_of_le_of_lt le (by decide)
    have hword : (BitVec.ofNat 32 n).toNat = n := Nat.mod_eq_of_lt (by omega)
    rw [BitVec.toNat_and, hmod, Nat.and_two_pow_sub_one_eq_mod, hword, Nat.mod_eq_of_lt hlt]
  exact (lockGetReaders_lockPack _ _ _).trans hmask

theorem toNat_readers_shared : (lockGetReaders (word (.shared n le))).toNat = n := by
  rw [lockGetReaders_shared, BitVec.toNat_ofNat]
  have hle : n ≤ 255 := le
  omega

theorem lockGetReaders_shared_eq_zero : lockGetReaders (word (.shared n le)) = 0 ↔ n = 0 := by
  rw [← BitVec.toNat_inj, toNat_readers_shared]
  rfl

theorem lockIsWrite_exclusive : lockIsWrite (word (.exclusive o)) = true :=
  lockIsWrite_lockPack _ _ _

theorem lockGetReaders_exclusive : lockGetReaders (word (.exclusive o)) = 0 :=
  lockGetReaders_lockPack _ _ _

theorem lockGetOwner_exclusive : lockGetOwner (word (.exclusive o)) = o.setWidth 32 := by
  refine (lockGetOwner_lockPack _ _ _).trans ?_
  apply BitVec.eq_of_getLsbD_eq
  intro i hi
  rw [BitVec.getLsbD_and, ownerMask_bit hi]
  by_cases h : i < 16
  · simp [h]
  · rw [BitVec.getLsbD_setWidth, BitVec.getLsbD_of_ge o i (Nat.not_lt.mp h)]
    simp

end Word

/-! ### The routines -/

theorem compareAndSwap_self (lock newVal : Lock) :
    compareAndSwap lock lock newVal = (true, newVal) :=
  if_pos rfl

/-- The number of readers, as the routines take it out of the word. -/
theorem readers_setWidth {n : Nat} (le : n ≤ MAX_READERS) :
    ((lockGetReaders (word (.shared n le))).setWidth 16).toNat = n := by
  rw [BitVec.toNat_setWidth, toNat_readers_shared]
  have hle : n ≤ 255 := le
  omega

theorem requireReadLoop_word (h : Grip Owner MAX_READERS) {delay : Nat} (hdelay : 0 < delay) :
    requireReadLoop delay (word h) = (h.requireRead.1, word h.requireRead.2) := by
  cases h with
  | shared n le =>
    obtain ⟨delay, rfl⟩ : ∃ k, delay = k + 1 := ⟨delay - 1, by omega⟩
    unfold requireReadLoop
    simp only [lockIsWrite_shared, Bool.false_eq_true, if_false, readers_setWidth,
      compareAndSwap_self]
    by_cases hn : n < MAX_READERS
    · rw [Grip.requireRead_lt hn, if_neg (Nat.not_le.mpr hn)]
      have hnext : ((lockGetReaders (word (.shared n le))).setWidth 16).setWidth 32 + 1
          = BitVec.ofNat 32 (n + 1) := by
        apply BitVec.eq_of_toNat_eq
        rw [BitVec.toNat_add, BitVec.toNat_setWidth, readers_setWidth, BitVec.toNat_ofNat]
        have hle : n < 255 := hn
        show (n % 2 ^ 32 + 1) % 2 ^ 32 = _
        omega
      rw [hnext]
      rfl
    · rw [Grip.requireRead_full hn, if_pos (Nat.not_lt.mp hn)]
  | exclusive o =>
    -- every pass finds the writer
    induction delay with
    | zero => rfl
    | succ delay ih =>
      unfold requireReadLoop
      rw [lockIsWrite_exclusive, if_pos rfl]
      cases delay with
      | zero => rfl
      | succ delay => exact ih (Nat.succ_pos delay)

theorem thrReleaseRead_word (h : Grip Owner MAX_READERS) {fuel : Nat} (hfuel : 0 < fuel) :
    thrReleaseRead fuel (word h) = some (h.releaseRead.1, word h.releaseRead.2) := by
  obtain ⟨fuel, rfl⟩ : ∃ k, fuel = k + 1 := ⟨fuel - 1, by omega⟩
  unfold thrReleaseRead
  cases h with
  | shared n le =>
    have hreaders : ∀ k : Nat, k ≤ 255 →
        ((lockGetReaders (word (.shared n le))).setWidth 16 = BitVec.ofNat 16 k ↔ n = k) := by
      intro k hk
      rw [← BitVec.toNat_inj, readers_setWidth, BitVec.toNat_ofNat, Nat.mod_eq_of_lt (by omega)]
    have hzero : (lockGetReaders (word (.shared n le))).setWidth 16 = 0 ↔ n = 0 :=
      hreaders 0 (by decide)
    have hone : (lockGetReaders (word (.shared n le))).setWidth 16 = 1 ↔ n = 1 :=
      hreaders 1 (by decide)
    simp only [lockIsWrite_shared, Bool.false_eq_true, if_false, compareAndSwap_self]
    cases n with
    | zero =>
      rw [if_pos (hzero.mpr rfl)]
      rfl
    | succ n =>
      rw [if_neg fun heq => Nat.succ_ne_zero n (hzero.mp heq)]
      by_cases hlast : n = 0
      · subst hlast
        rw [if_pos (hone.mpr rfl)]
        rfl
      · rw [if_neg fun heq => hlast (Nat.succ.inj (hone.mp heq))]
        have hnext : ((lockGetReaders (word (.shared (n + 1) le))).setWidth 16).setWidth 32 - 1
            = BitVec.ofNat 32 n := by
          apply BitVec.eq_of_toNat_eq
          rw [BitVec.toNat_sub, BitVec.toNat_setWidth, readers_setWidth, BitVec.toNat_ofNat]
          have hle : n + 1 ≤ 255 := le
          show (2 ^ 32 - 1 + (n + 1) % 2 ^ 32) % 2 ^ 32 = _
          omega
        rw [hnext]
        rfl
  | exclusive o =>
    rw [lockIsWrite_exclusive, if_pos rfl]
    rfl

theorem lockGetStatus_shared {n : Nat} (le : n ≤ MAX_READERS) :
    lockGetStatus (word (.shared n le)) = UNLOCKED := by
  unfold lockGetStatus
  rw [lockIsWrite_shared]
  rfl

theorem lockGetStatus_exclusive (o : Owner) : lockGetStatus (word (.exclusive o)) = LOCKED_WRITE :=
  if_pos (lockIsWrite_exclusive o)

/-- A lock that somebody holds stays as it is. -/
theorem requireWriteLoop_held {lock : Lock} (hheld : ¬ (lockGetStatus lock = UNLOCKED ∧
    lockGetReaders lock = 0)) (owner : Owner) (delay : Nat) :
    requireWriteLoop owner delay lock = (false, lock) := by
  induction delay with
  | zero => rfl
  | succ delay ih =>
    unfold requireWriteLoop
    rw [if_neg hheld]
    exact ih

theorem requireWriteLoop_word (h : Grip Owner MAX_READERS) (owner : Owner) {delay : Nat}
    (hdelay : 0 < delay) : requireWriteLoop owner delay (word h)
      = ((h.requireWrite owner).1, word (h.requireWrite owner).2) := by
  cases h with
  | shared n le =>
    cases n with
    | zero =>
      obtain ⟨delay, rfl⟩ : ∃ k, delay = k + 1 := ⟨delay - 1, by omega⟩
      unfold requireWriteLoop
      rw [if_pos ⟨lockGetStatus_shared le, (lockGetReaders_shared_eq_zero le).mpr rfl⟩,
        compareAndSwap_self]
      rfl
    | succ n =>
      exact requireWriteLoop_held (fun hfree =>
        Nat.succ_ne_zero n ((lockGetReaders_shared_eq_zero le).mp hfree.2)) owner delay
  | exclusive o =>
    refine requireWriteLoop_held (fun hfree => ?_) owner delay
    rw [lockGetStatus_exclusive] at hfree
    exact absurd hfree.1 (by decide)

theorem thrReleaseWrite_word (h : Grip Owner MAX_READERS) (owner : Owner) {fuel : Nat}
    (hfuel : 0 < fuel) : thrReleaseWrite fuel (word h) owner
      = some ((h.releaseWrite owner).1, word (h.releaseWrite owner).2) := by
  obtain ⟨fuel, rfl⟩ : ∃ k, fuel = k + 1 := ⟨fuel - 1, by omega⟩
  unfold thrReleaseWrite
  cases h with
  | shared n le =>
    rw [if_pos (lockGetStatus_shared le)]
    rfl
  | exclusive o =>
    have hlocked : ¬ lockGetStatus (word (.exclusive o)) = 0 := by
      rw [lockGetStatus_exclusive]
      decide
    rw [if_neg hlocked, lockGetOwner_exclusive, compareAndSwap_self]
    by_cases heq : o = owner
    · subst heq
      rw [Grip.releaseWrite_self, if_neg (not_not.mpr rfl)]
      rfl
    · have hne : o.setWidth 32 ≠ owner.setWidth 32 := fun hwide => heq (by
        apply BitVec.eq_of_toNat_eq
        have hnat := congrArg BitVec.toNat hwide
        rwa [BitVec.toNat_setWidth_of_le (by decide), BitVec.toNat_setWidth_of_le (by decide)]
          at hnat)
      rw [Grip.releaseWrite_ne heq, if_pos hne]

/-! ### Runs -/

section Run

variable {ι : Type}

/-- The call on a lock word, one atomic step: the result, and the word. -/
def thrCall : Call ι Owner → (fuel : Nat) → Lock → Option (Bool × Lock)
  | .requireRead _, _, lock => some (thrRequireRead lock)
  | .releaseRead _, fuel, lock => thrReleaseRead fuel lock
  | .requireWrite owner, _, lock => some (thrRequireWrite lock owner)
  | .releaseWrite owner, fuel, lock => thrReleaseWrite fuel lock owner

/-- A call on the word of a lock does what the lock does. -/
theorem thrCall_word (h : Grip Owner MAX_READERS) (c : Call ι Owner) {fuel : Nat}
    (hfuel : 0 < fuel) : thrCall c fuel (word h) = some ((h.run c).1, word (h.run c).2) := by
  have htime : 0 < REQUIRE_TIME := by decide
  cases c with
  | requireRead i => exact congrArg some (requireReadLoop_word h htime)
  | releaseRead i => exact thrReleaseRead_word h hfuel
  | requireWrite owner => exact congrArg some (requireWriteLoop_word h owner htime)
  | releaseWrite owner => exact thrReleaseWrite_word h owner hfuel

/-- The lock word of a run, and those whose calls on it returned `1`. -/
structure LockRun (ι : Type) where
  lock : Lock
  holders : Holders ι Owner

/-- In the beginning. -/
def LockRun.start : LockRun ι := ⟨NULL_LOCK, ⟨[], []⟩⟩

/-- One call of a run. -/
def LockRun.call [DecidableEq ι] (c : Call ι Owner) (x : LockRun ι) (fuel : Nat) :
    Option (LockRun ι) :=
  (thrCall c fuel x.lock).map fun r => ⟨r.2, x.holders.after c r.1⟩

/-- What the word says about its holders, and what the next calls on it do. -/
structure LockRun.Described (x : LockRun ι) : Prop where
  flag : lockIsWrite x.lock = true ↔ x.holders.writers.length = 1
  writers_le : x.holders.writers.length ≤ 1
  writer : ∀ owner, x.holders.writers = [owner] → x.holders.readers = [] ∧
    lockGetReaders x.lock = 0 ∧ lockGetOwner x.lock = owner.setWidth 32
  readers : lockIsWrite x.lock = false →
    (lockGetReaders x.lock).toNat = x.holders.readers.length ∧
      x.holders.readers.length ≤ MAX_READERS
  acquire : ∀ owner, (thrRequireWrite x.lock owner).1 = true ↔
    x.holders.readers = [] ∧ x.holders.writers = []
  release : ∀ owner, owner ∉ x.holders.writers →
    Ensures (fun fuel => thrReleaseWrite fuel x.lock owner) fun r => r = (false, x.lock)

/-- The word is the one of a lock that the holders hold. -/
def LockRun.Packed (x : LockRun ι) : Prop :=
  ∃ h : Grip Owner MAX_READERS, x.lock = word h ∧ Describes x.holders h

/-- The fields of a packed word. -/
theorem LockRun.Packed.described {x : LockRun ι} (hx : x.Packed) : x.Described := by
  obtain ⟨h, hword, hdesc⟩ := hx
  have htime : 0 < REQUIRE_TIME := by decide
  have hacquire : ∀ owner, (thrRequireWrite x.lock owner).1 = true ↔
      x.holders.readers = [] ∧ x.holders.writers = [] := fun owner => by
    rw [hword, ← hdesc.requireWrite_iff owner]
    exact iff_of_eq (congrArg (fun r : Bool × Lock => r.1 = true)
      (requireWriteLoop_word h owner htime))
  have hrelease : ∀ owner, owner ∉ x.holders.writers →
      Ensures (fun fuel => thrReleaseWrite fuel x.lock owner) fun r => r = (false, x.lock) :=
    fun owner hother => ⟨1, fun fuel hfuel => by
      have hrun := thrReleaseWrite_word h owner hfuel
      rw [hdesc.releaseWrite_other hother, ← hword] at hrun
      exact ⟨_, hrun, rfl⟩⟩
  cases h with
  | shared n le =>
    obtain ⟨hreaders, hwriters⟩ := hdesc
    have hflag : lockIsWrite x.lock = false := by rw [hword, lockIsWrite_shared]
    refine ⟨?_, ?_, fun owner hone => ?_, fun _ => ?_, hacquire, hrelease⟩
    · rw [hflag, hwriters]
      exact ⟨fun h => absurd h (by decide), fun h => absurd h (by decide)⟩
    · rw [hwriters]
      exact Nat.zero_le 1
    · rw [hwriters] at hone
      cases hone
    · rw [hword, toNat_readers_shared, hreaders]
      exact ⟨rfl, le⟩
  | exclusive o =>
    obtain ⟨hreaders, hwriters⟩ := hdesc
    have hflag : lockIsWrite x.lock = true := by rw [hword, lockIsWrite_exclusive]
    refine ⟨?_, ?_, fun owner hone => ?_, fun hno => ?_, hacquire, hrelease⟩
    · rw [hflag, hwriters]
      exact ⟨fun _ => rfl, fun _ => rfl⟩
    · rw [hwriters]
      exact Nat.le_refl 1
    · rw [hwriters] at hone
      obtain rfl := (List.cons.inj hone).1
      rw [hword]
      exact ⟨hreaders, lockGetReaders_exclusive o, lockGetOwner_exclusive o⟩
    · rw [hflag] at hno
      cases hno

/-- A call keeps it, when a reader gives back only what it holds. -/
theorem LockRun.Packed.call [DecidableEq ι] {x : LockRun ι} (hx : x.Packed) {c : Call ι Owner}
    (hc : x.holders.Allows c) : Ensures (LockRun.call c x) LockRun.Packed := by
  obtain ⟨h, hword, hdesc⟩ := hx
  refine ⟨1, fun fuel hfuel => ?_⟩
  unfold LockRun.call
  rw [hword, thrCall_word h c hfuel]
  exact ⟨_, rfl, (h.run c).2, rfl, hdesc.run hc⟩

/-- In every run of calls on one lock word, in which a reader gives back only what it holds, each
call returns, and the word describes its holders. -/
theorem lockWord_describes [DecidableEq ι] (calls : List (Call ι Owner)) :
    Always (fun x c => x.holders.Allows c) LockRun.call LockRun.Described calls
      (LockRun.start : LockRun ι) := by
  refine Always.of_invariant LockRun.Packed (fun _ hx => hx.described)
    (fun _ _ hx hc => hx.call hc) calls ?_
  exact ⟨.free, rfl, describes_free⟩

end Run

end NiFat32.Threading
