import NiFat32.Core.Addresses
import NiFat32.Lib.Holders

/-!
# `Core.IoGuard`: the locks on sector areas (`src/disk.c`)

`_io_guard` has a slot for each area that a thread works on. A call of the disk layer takes a slot
for its area, asks the callbacks of the platform for one sector after the other, and gives the slot
back. `Core.Disk` models what a call moves, for one thread. Here a call is a program over the slots
that interleaves with those of other threads: `_lock_area` and `_unlock_area` are its atomic steps,
and what a callback returns comes from outside.
-/

set_option autoImplicit false

namespace NiFat32.IoGuard

open Holders (Prog)

/-- `IO_THREADS_MAX` -/
abbrev IO_THREADS_MAX : Nat := 25

/-- `READ_LOCK` -/
abbrev READ_LOCK : Bool := true

/-- `WRITE_LOCK` -/
abbrev WRITE_LOCK : Bool := false

/-- `io_area_t` -/
structure IoArea where
  start : Nat
  count : Int
  ro : Bool
  deriving DecidableEq

/-- A slot that no one holds. -/
def noArea : IoArea := { start := 0, count := -1, ro := WRITE_LOCK }

/-- The areas of `_io_guard`. -/
structure IoTable where
  areas : List IoArea
  length_eq : areas.length = IO_THREADS_MAX

/-- The slots after `DSK_setup`. -/
def dskSetup : IoTable where
  areas := List.replicate IO_THREADS_MAX noArea
  length_eq := List.length_replicate

/-- `start + count`, as an `unsigned int`. -/
def areaEnd (start : Nat) (count : Int) : Nat := ((start + count) % 2 ^ 32).toNat

/-- The loop of `_lock_area` from the slot `i` on: `found` and `locked`. -/
def lockScan (sa : Nat) (size : Int) (ro : Bool) :
    (i : Nat) → (found : Option Nat) → List IoArea → Option Nat × Bool
  | _, found, [] => (found, false)
  | i, found, a :: areas =>
    if a.count = -1 then lockScan sa size ro (i + 1) (found.or (some i)) areas
    else if a.start < areaEnd sa size ∧ sa < areaEnd a.start a.count ∧ (ro = false ∨ a.ro = false)
    then (found, true)
    else lockScan sa size ro (i + 1) found areas

/-- `_lock_area`; `none` for a return of `0`. -/
def lockArea (r : IoArea) (t : IoTable) : Option IoTable :=
  match lockScan r.start r.count r.ro 0 none t.areas with
  | (some i, false) => some {
      areas := t.areas.set i r
      length_eq := by rw [List.length_set, t.length_eq] }
  | _ => none

/-- The loop of `_unlock_area`: the first slot with the start and the count is cleared. -/
def unlockScan (c : Nat × Int) : List IoArea → List IoArea
  | [] => []
  | a :: areas =>
    if a.start = c.1 ∧ a.count = c.2 then noArea :: areas else a :: unlockScan c areas

theorem length_unlockScan (c : Nat × Int) (areas : List IoArea) :
    (unlockScan c areas).length = areas.length := by
  induction areas with
  | nil => rfl
  | cons a areas ih =>
    unfold unlockScan
    split
    · rfl
    · exact congrArg (· + 1) ih

/-- `_unlock_area` -/
def unlockArea (c : Nat × Int) (t : IoTable) : IoTable where
  areas := unlockScan c t.areas
  length_eq := by rw [length_unlockScan, t.length_eq]

/-- The areas that are recorded. -/
def IoTable.records (t : IoTable) : List IoArea := t.areas.filter fun a => a.count ≠ -1

/-- What `_unlock_area` finds an area by. -/
def IoArea.key (a : IoArea) : Nat × Int := (a.start, a.count)

/-- The slots as a table of records. -/
def guardTable : Holders.Table IoTable IoArea (Nat × Int) where
  records := IoTable.records
  tryLock := lockArea
  release := unlockArea

/-! ### The calls -/

/-- A request to `read_sector` or `write_sector`. -/
structure Callback where
  ro : Bool
  sa : Nat
  offset : Int
  size : Int

/-- A call of the disk layer. It returns an `int`, as a callback does. -/
abbrev DskProg := Prog IoArea (Nat × Int) Callback Int Int

/-- One sector, read or written. -/
def sectorCall (ro : Bool) (sa : Nat) (size : Int) : DskProg :=
  .lock { start := sa, count := 1, ro } fun locked =>
    if locked then .call { ro, sa, offset := 0, size } fun result => .unlock (sa, 1) (.ret result)
    else .ret 0

/-- `DSK_read_sector` -/
def dskReadSector (sa : Nat) (buffSize : Int) : DskProg := sectorCall READ_LOCK sa buffSize

/-- `DSK_write_sector` -/
def dskWriteSector (sa : Nat) (dataSize : Int) : DskProg := sectorCall WRITE_LOCK sa dataSize

/-- The loop over the sectors from `sa + i` on, `left` of them, and the return behind it. -/
def offsetLoop (sectorSize : Int) (ro : Bool) (sa sc : Nat) :
    (left i : Nat) → (offset size : Int) → DskProg
  | 0, _, _, _ => .unlock (sa, sc) (.ret 1)
  | left + 1, i, offset, size =>
    if size ≤ 0 then .unlock (sa, sc) (.ret 1)
    else if sectorSize < offset then
      offsetLoop sectorSize ro sa sc left (i + 1) (offset - sectorSize) size
    else
      let part := if sectorSize - offset < size then sectorSize - offset else size
      .call { ro, sa := u32 (sa + i), offset, size := part } fun result =>
        if result = 0 then .unlock (sa, sc) (.ret 0)
        else offsetLoop sectorSize ro sa sc left (i + 1) 0 (size - part)

/-- A range of bytes in `sc` sectors, read or written. -/
def offsetCall (sectorSize : Int) (ro : Bool) (sa sc : Nat) (offset size : Int) : DskProg :=
  .lock { start := sa, count := sc, ro } fun locked =>
    if locked then offsetLoop sectorSize ro sa sc sc 0 offset size else .ret 0

/-- `DSK_readoff_sectors` -/
def dskReadoffSectors (sectorSize : Int) (sa : Nat) (offset buffSize : Int) (sc : Nat) : DskProg :=
  offsetCall sectorSize READ_LOCK sa sc offset buffSize

/-- `DSK_writeoff_sectors` -/
def dskWriteoffSectors (sectorSize : Int) (sa : Nat) (offset dataSize : Int) (sc : Nat) : DskProg :=
  offsetCall sectorSize WRITE_LOCK sa sc offset dataSize

/-- Both areas of a copy are given back. -/
def copyReturn (src dst sc : Nat) (result : Int) : DskProg :=
  .unlock (dst, sc) (.unlock (src, sc) (.ret result))

/-- The loop of `DSK_copy_sectors`, and its returns. -/
def copyLoop (src dst sc : Nat) (buffSize : Int) : (left i : Nat) → (copyResult : Int) → DskProg
  | 0, _, copyResult => copyReturn src dst sc copyResult
  | left + 1, i, copyResult =>
    .call { ro := READ_LOCK, sa := u32 (src + i), offset := 0, size := buffSize } fun readden =>
      if readden = 0 then copyReturn src dst sc 0
      else
        .call { ro := WRITE_LOCK, sa := u32 (dst + i), offset := 0, size := buffSize }
          fun written =>
            if written = 0 then copyReturn src dst sc 0
            else copyLoop src dst sc buffSize left (i + 1) (copyResult + (readden + written))

/-- `DSK_copy_sectors` -/
def dskCopySectors (src dst sc : Nat) (buffSize : Int) : DskProg :=
  .lock { start := src, count := sc, ro := READ_LOCK } fun locked =>
    if locked then
      .lock { start := dst, count := sc, ro := WRITE_LOCK } fun locked =>
        if locked then copyLoop src dst sc buffSize sc 0 0 else .unlock (src, sc) (.ret 0)
    else .ret 0

/-- A call of a thread. Its areas have sectors, and end on the device. -/
inductive DskCall where
  | readSector (sa : Nat) (buffSize : Int) (fits : sa + 1 < 2 ^ 32)
  | readoffSectors (sa : Nat) (offset buffSize : Int) (sc : Nat) (pos : 1 ≤ sc)
      (fits : sa + sc < 2 ^ 32)
  | writeSector (sa : Nat) (dataSize : Int) (fits : sa + 1 < 2 ^ 32)
  | writeoffSectors (sa : Nat) (offset dataSize : Int) (sc : Nat) (pos : 1 ≤ sc)
      (fits : sa + sc < 2 ^ 32)
  | copySectors (src dst sc : Nat) (buffSize : Int) (pos : 1 ≤ sc) (srcFits : src + sc < 2 ^ 32)
      (dstFits : dst + sc < 2 ^ 32)

/-- What the call does; the sector size is that of `DSK_setup`. -/
def DskCall.prog (sectorSize : Int) : DskCall → DskProg
  | .readSector sa buffSize _ => dskReadSector sa buffSize
  | .readoffSectors sa offset buffSize sc _ _ => dskReadoffSectors sectorSize sa offset buffSize sc
  | .writeSector sa dataSize _ => dskWriteSector sa dataSize
  | .writeoffSectors sa offset dataSize sc _ _ =>
    dskWriteoffSectors sectorSize sa offset dataSize sc
  | .copySectors src dst sc buffSize _ _ _ => dskCopySectors src dst sc buffSize

/-! ### The threads -/

/-- The slots and the threads. -/
abbrev DskSys := Holders.Sys IoTable IoArea (Nat × Int) Callback Int Int

/-- A thread: the rest of its call, and the areas that it locked and did not unlock. -/
abbrev DskThread := Holders.Party IoArea (Nat × Int) Callback Int Int

/-- `n` threads that have called nothing yet. -/
def dskStart (n : Nat) : DskSys where
  table := dskSetup
  parties := List.replicate n { prog := .ret 0, held := [] }

/-- What the threads do, in order: begin a call, or make a step of it. -/
abbrev DskAct := Holders.Act DskCall Int

/-- The system of `n` threads after the acts. -/
def dskRun (sectorSize : Int) (n : Nat) (acts : List DskAct) : DskSys :=
  (dskStart n).run guardTable IoArea.key (DskCall.prog sectorSize) acts

end NiFat32.IoGuard
