import NiFat32.Core.State
import NiFat32.Lib.Vote
import NiFat32.Std.Hamming

/-!
# `Core.Errors`: the persistent error ring (`src/errors.c`)

The ring holds one encoded 4-byte code at each index from `1`; index `0` holds the packed
positions. Every write goes to all `errors_count` areas.
-/

set_option autoImplicit false

namespace NiFat32

variable (m : Mount)

/-- A 16-bit position. -/
def u16 (n : Nat) : Nat := n % 2 ^ 16

/-- `__write_error__` -/
def writeErrorCopy (index : Nat) (c : UInt32) (copyIndex : Nat) (s : FS) : Bool × FS :=
  let (ok, d) := dskWriteoffSectors m s.medium (getErrorsSector copyIndex m.fi.totalSectors)
    (u32 (index * 8)) (packMemory (bytesOfU32 c)) 1
  (ok, { s with medium := d })

/-- `_write_error` -/
def writeError (index : Nat) (c : UInt32) (s : FS) : Bool × FS :=
  (List.range m.fi.errorsCount).foldl (fun acc i =>
    let (ok, s) := writeErrorCopy m index c i acc.2
    (ok && acc.1, s)) (true, s)

/-- `PACK_INFO_ENTRY` -/
def packInfoEntry (f c : Nat) : UInt32 := UInt32.ofNat (f * 2 ^ 16 % 2 ^ 32 + c % 2 ^ 16)

/-- `_dump_info` -/
def dumpInfo (i : ErrorRing) (s : FS) : Bool × FS :=
  writeError m 0 (packInfoEntry i.firstError i.lastError) s

/-- `_next_ring_index` -/
def nextRingIndex (idx : Nat) : Nat :=
  if m.fi.clusterSize ≤ (idx + 1) * 4 then 1 else idx + 1

/-- `errors_register_error` -/
def errorsRegisterError (code : ErrorCode) (s : FS) : Bool × FS :=
  match writeError m s.errors.current code.toU32 s with
  | (false, s) => (false, s)
  | (true, s) =>
    let next := nextRingIndex m s.errors.current
    let first :=
      if next = s.errors.firstError then u16 (nextRingIndex m s.errors.firstError)
      else s.errors.firstError
    let ring := { firstError := first, current := u16 next, lastError := u16 next }
    dumpInfo m ring { s with errors := ring }

/-- `errors_register_error` where the caller drops the result. -/
def registerError (code : ErrorCode) (s : FS) : FS := (errorsRegisterError m code s).2

/-- `__read_error__`, into a zero-filled buffer. -/
def readErrorCopy (index copyIndex : Nat) (s : FS) : Option UInt32 :=
  (dskReadoffSectors m s.medium (getErrorsSector copyIndex m.fi.totalSectors) (u32 (index * 8)) 8
    1).map fun bs =>
      let code := unpackMemory (bs ++ List.replicate (8 - bs.length) 0) 4
      u32OfBytes (code.getD 0 0) (code.getD 1 0) (code.getD 2 0) (code.getD 3 0)

/-- The vote loop of `_read_error`: a copy that cannot be read is passed over. -/
def voteError (index : Nat) (s : FS) : Vote.Ballot UInt32 × Option Nat :=
  (List.range m.fi.errorsCount).foldl (fun acc i =>
    match readErrorCopy m index i s with
    | none => acc
    | some c => (Vote.step acc.1 c, if Vote.elects acc.1 c then some i else acc.2))
    (Vote.start 0xFFFFFFFF, none)

/-- `_read_error`: the code, or `none` when no copy was elected. -/
def readError (index : Nat) (s : FS) : Option UInt32 × FS :=
  match voteError m index s with
  | (_, none) => (none, s)
  | (b, some _) => (some b.val, if 0 < b.wrong then (writeError m index b.val s).2 else s)

/-- `errors_setup`, whose `_load_info` takes the positions of the ring from its index `0`. -/
def errorsSetup (s : FS) : Bool × FS :=
  match readError m 0 s with
  | (none, s) => (false, s)
  | (some body, s) =>
    let first := if body.toNat / 2 ^ 16 = 0 then 1 else body.toNat / 2 ^ 16
    let last := if body.toNat % 2 ^ 16 = 0 then 1 else body.toNat % 2 ^ 16
    (true, { s with errors := { firstError := first, current := first, lastError := last } })

/-- `errors_last_error`; `-1` is returned as an `error_code_t`. -/
def errorsLastError (s : FS) : UInt32 × FS :=
  if s.errors.firstError = s.errors.lastError then (0xFFFFFFFF, s)
  else
    match readError m s.errors.firstError s with
    | (none, s) => (0xFFFFFFFF, s)
    | (some c, s) =>
      let ring := { s.errors with firstError := u16 (nextRingIndex m s.errors.firstError) }
      (c, (dumpInfo m ring { s with errors := ring }).2)

end NiFat32
