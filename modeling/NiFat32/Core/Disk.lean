import NiFat32.Core.FatInfo
import NiFat32.Lib.ByteStore

/-!
# `Core.Disk`: sector I/O (`src/disk.c`)

`Medium` is the device: its bytes, the number of write requests made so far, and the list
of the writes it took, newest last. The list is a ghost: the program never reads it, and
statements about a power loss replay a prefix of it.

The calls are modelled for one thread. There every area lock is taken on an empty lock
table, so it succeeds; the one exception is `DSK_copy_sectors`, which holds the read lock
on the source while it takes the write lock on the destination.

`readoffLoop_eq` and `writeoffLoop_eq` say that a request over several sectors is one
request to the flat byte store.
-/

set_option autoImplicit false

namespace NiFat32

open ByteStore

/-- The device behind the sector callbacks. -/
structure Medium where
  bytes : Nat → UInt8
  writes : Nat
  log : List (Nat × List UInt8)

variable (m : Mount)

/-- `read_sector(sa, offset, buffer, len)` -/
def readSector (d : Medium) (sa offset len : Nat) : Option (List UInt8) :=
  if m.readOk d.writes sa offset len then some (read d.bytes (sa * m.sectorSize + offset) len)
  else none

/-- `write_sector(sa, offset, data, len)` -/
def writeSector (d : Medium) (sa offset : Nat) (data : List UInt8) : Bool × Medium :=
  if m.writeOk d.writes sa offset data.length then
    (true, { bytes := write d.bytes (sa * m.sectorSize + offset) data
             writes := d.writes + 1
             log := d.log ++ [(sa * m.sectorSize + offset, data)] })
  else (false, { d with writes := d.writes + 1 })

/-- `DSK_read_sector` -/
def dskReadSector (d : Medium) (sa size : Nat) : Option (List UInt8) := readSector m d sa 0 size

/-- `DSK_write_sector` -/
def dskWriteSector (d : Medium) (sa : Nat) (data : List UInt8) : Bool × Medium :=
  writeSector m d sa 0 data

/-- The sector loop of `DSK_readoff_sectors`, `sc` sectors from `sa`. -/
def readoffLoop (d : Medium) : (sc sa offset size : Nat) → Option (List UInt8)
  | 0, _, _, _ => some []
  | sc + 1, sa, offset, size =>
    if size = 0 then some []
    else if m.sectorSize < offset then readoffLoop d sc (sa + 1) (offset - m.sectorSize) size
    else
      let readSize := min size (m.sectorSize - offset)
      match readSector m d sa offset readSize with
      | none => none
      | some bs => (readoffLoop d sc (sa + 1) 0 (size - readSize)).map (bs ++ ·)

/-- `DSK_readoff_sectors`: the bytes read, in order; they are fewer than `size` when the
request leaves the `sc` sectors. -/
def dskReadoffSectors (d : Medium) (sa offset size sc : Nat) : Option (List UInt8) :=
  readoffLoop m d sc sa offset size

/-- The sector loop of `DSK_writeoff_sectors`. -/
def writeoffLoop : (sc sa offset : Nat) → List UInt8 → Medium → Bool × Medium
  | 0, _, _, _, d => (true, d)
  | sc + 1, sa, offset, data, d =>
    if data.length = 0 then (true, d)
    else if m.sectorSize < offset then writeoffLoop sc (sa + 1) (offset - m.sectorSize) data d
    else
      let writeSize := min data.length (m.sectorSize - offset)
      match writeSector m d sa offset (data.take writeSize) with
      | (false, d) => (false, d)
      | (true, d) => writeoffLoop sc (sa + 1) 0 (data.drop writeSize) d

/-- `DSK_writeoff_sectors` -/
def dskWriteoffSectors (d : Medium) (sa offset : Nat) (data : List UInt8) (sc : Nat) :
    Bool × Medium := writeoffLoop m sc sa offset data d

/-- The sector loop of `DSK_copy_sectors`. -/
def copyLoop (size : Nat) : (sc src dst : Nat) → Medium → Bool × Medium
  | 0, _, _, d => (true, d)
  | sc + 1, src, dst, d =>
    match readSector m d src 0 size with
    | none => (false, d)
    | some bs =>
      match writeSector m d dst 0 bs with
      | (false, d) => (false, d)
      | (true, d) => copyLoop size sc (src + 1) (dst + 1) d

/-- `DSK_copy_sectors`: the sum of what the callbacks return, `1` for each request, or `0`.
The write lock on the destination fails when the two areas overlap, as the read lock on the
source is held. -/
def dskCopySectors (d : Medium) (src dst sc size : Nat) : Nat × Medium :=
  if src < u32 (dst + sc) ∧ dst < u32 (src + sc) then (0, d)
  else
    match copyLoop m size sc src dst d with
    | (true, d) => (2 * sc, d)
    | (false, d) => (0, d)

/-! ### A request is one request to the byte store -/

section Flat

variable {m}

theorem writeSector_eq (hw : m.Works) (d : Medium) (sa offset : Nat) (data : List UInt8) :
    writeSector m d sa offset data =
      (true, { bytes := write d.bytes (sa * m.sectorSize + offset) data
               writes := d.writes + 1
               log := d.log ++ [(sa * m.sectorSize + offset, data)] }) := by
  simp [writeSector, hw.write]

theorem readSector_eq (hw : m.Works) (d : Medium) (sa offset len : Nat) :
    readSector m d sa offset len = some (read d.bytes (sa * m.sectorSize + offset) len) := by
  simp [readSector, hw.read]

/-- A read that stays inside its sectors returns the flat range. -/
theorem readoffLoop_eq (hw : m.Works) (d : Medium) (sc sa offset size : Nat)
    (h : offset + size ≤ sc * m.sectorSize) :
    readoffLoop m d sc sa offset size = some (read d.bytes (sa * m.sectorSize + offset) size) := by
  induction sc generalizing sa offset size with
  | zero =>
    have : size = 0 := by omega
    simp [readoffLoop, this]
  | succ sc ih =>
    have hs : (sa + 1) * m.sectorSize = sa * m.sectorSize + m.sectorSize := Nat.succ_mul _ _
    have hsc : (sc + 1) * m.sectorSize = sc * m.sectorSize + m.sectorSize := Nat.succ_mul _ _
    unfold readoffLoop
    by_cases h0 : size = 0
    · simp [h0]
    rw [if_neg h0]
    by_cases ho : m.sectorSize < offset
    · -- the sector lies before the request
      rw [if_pos ho, ih _ _ _ (by omega), hs]
      congr 2
      omega
    · rw [if_neg ho]
      simp only [readSector_eq hw]
      rw [ih _ _ _ (by omega), hs]
      simp only [Option.map_some]
      by_cases hle : size ≤ m.sectorSize - offset
      · rw [Nat.min_eq_left hle]
        simp
      · rw [Nat.min_eq_right (by omega), Nat.add_zero]
        have hsplit := read_add d.bytes (sa * m.sectorSize + offset) (m.sectorSize - offset)
          (size - (m.sectorSize - offset))
        rw [show m.sectorSize - offset + (size - (m.sectorSize - offset)) = size by omega,
          show sa * m.sectorSize + offset + (m.sectorSize - offset)
            = sa * m.sectorSize + m.sectorSize by omega] at hsplit
        rw [hsplit]

/-- A write that stays inside its sectors is one write to the flat range, and the pieces it
logs make up the range in order. -/
theorem writeoffLoop_eq (hw : m.Works) (sc sa offset : Nat) (data : List UInt8) (d : Medium)
    (h : offset + data.length ≤ sc * m.sectorSize) :
    (writeoffLoop m sc sa offset data d).1 = true ∧
    (writeoffLoop m sc sa offset data d).2.bytes
      = write d.bytes (sa * m.sectorSize + offset) data := by
  induction sc generalizing sa offset data d with
  | zero =>
    have : data = [] := List.length_eq_zero_iff.mp (by omega)
    simp [writeoffLoop, this]
  | succ sc ih =>
    have hs : (sa + 1) * m.sectorSize = sa * m.sectorSize + m.sectorSize := Nat.succ_mul _ _
    have hsc : (sc + 1) * m.sectorSize = sc * m.sectorSize + m.sectorSize := Nat.succ_mul _ _
    unfold writeoffLoop
    by_cases h0 : data.length = 0
    · have : data = [] := List.length_eq_zero_iff.mp h0
      simp [this]
    rw [if_neg h0]
    by_cases ho : m.sectorSize < offset
    · rw [if_pos ho]
      have := ih (sa + 1) (offset - m.sectorSize) data d (by omega)
      rw [hs, show sa * m.sectorSize + m.sectorSize + (offset - m.sectorSize)
        = sa * m.sectorSize + offset by omega] at this
      exact this
    · rw [if_neg ho]
      simp only [writeSector_eq hw]
      have hd := ih (sa + 1) 0 (data.drop (min data.length (m.sectorSize - offset)))
        { bytes := write d.bytes (sa * m.sectorSize + offset)
            (data.take (min data.length (m.sectorSize - offset)))
          writes := d.writes + 1
          log := d.log ++ [(sa * m.sectorSize + offset,
            data.take (min data.length (m.sectorSize - offset)))] }
        (by rw [List.length_drop]; omega)
      refine ⟨hd.1, hd.2.trans ?_⟩
      by_cases hle : data.length ≤ m.sectorSize - offset
      · rw [Nat.min_eq_left hle]
        simp
      · have hmin : min data.length (m.sectorSize - offset) = m.sectorSize - offset := by omega
        rw [hmin, hs, Nat.add_zero]
        have happ := write_append d.bytes (sa * m.sectorSize + offset)
          (data.take (m.sectorSize - offset)) (data.drop (m.sectorSize - offset))
        rw [List.take_append_drop, List.length_take, Nat.min_eq_left (by omega),
          show sa * m.sectorSize + offset + (m.sectorSize - offset)
            = sa * m.sectorSize + m.sectorSize by omega] at happ
        exact happ

/-- Whatever its offset and length, a write stays inside its `sc` sectors. -/
theorem writeoffLoop_outside (hw : m.Works) (sc sa offset : Nat) (data : List UInt8) (d : Medium) :
    (writeoffLoop m sc sa offset data d).1 = true ∧
    ∀ k, k < sa * m.sectorSize ∨ (sa + sc) * m.sectorSize ≤ k →
      (writeoffLoop m sc sa offset data d).2.bytes k = d.bytes k := by
  induction sc generalizing sa offset data d with
  | zero => exact ⟨rfl, fun k _ => rfl⟩
  | succ sc ih =>
    have hs : (sa + 1) * m.sectorSize = sa * m.sectorSize + m.sectorSize := Nat.succ_mul _ _
    have hend : sa + 1 + sc = sa + (sc + 1) := by omega
    have hle : (sa + 1) * m.sectorSize ≤ (sa + (sc + 1)) * m.sectorSize :=
      Nat.mul_le_mul_right _ (by omega)
    unfold writeoffLoop
    split
    · exact ⟨rfl, fun k _ => rfl⟩
    split
    · have hrest := ih (sa + 1) (offset - m.sectorSize) data d
      rw [hend] at hrest
      exact ⟨hrest.1, fun k hk => hrest.2 k (by omega)⟩
    · simp only [writeSector_eq hw]
      refine ⟨(ih _ _ _ _).1, fun k hk => ?_⟩
      have hrest := (ih (sa + 1) 0 (data.drop (min data.length (m.sectorSize - offset)))
        { bytes := write d.bytes (sa * m.sectorSize + offset)
            (data.take (min data.length (m.sectorSize - offset)))
          writes := d.writes + 1
          log := d.log ++ [(sa * m.sectorSize + offset,
            data.take (min data.length (m.sectorSize - offset)))] }).2 k
      rw [hend] at hrest
      rw [hrest (by omega)]
      exact write_of_outside _ _ _ _ (by
        rw [List.length_take]
        omega)

end Flat

end NiFat32
