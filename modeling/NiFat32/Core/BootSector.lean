import NiFat32.Core.DirEntry

/-!
# `Core.BootSector`: the boot sector and its bytes (`nifat32.h`)

`nifat32_bootsector_t` is a packed structure of 81 bytes with two checksums: the one of the
extended section covers that section, and the one of the whole structure covers both.
`BootSector.bytes` and `BootSector.ofBytes` are the casts between the structure and a buffer, and
`ofBytes_bytes` is their round trip.
-/

set_option autoImplicit false

namespace NiFat32

/-- The two bytes of a value, low byte first. -/
def bytesOfU16 (x : UInt16) : List UInt8 :=
  [UInt8.ofNat x.toNat, UInt8.ofNat (x.toNat / 2 ^ 8)]

/-- The value of two bytes, low byte first. -/
def u16OfBytes (a b : UInt8) : UInt16 := UInt16.ofNat (a.toNat + b.toNat * 2 ^ 8)

/-- The round trip of a 16-bit value through its bytes. -/
theorem u16OfBytes_bytesOfU16 (x : UInt16) :
    u16OfBytes (UInt8.ofNat x.toNat) (UInt8.ofNat (x.toNat / 2 ^ 8)) = x := by
  have hx := x.toNat_lt
  apply UInt16.toNat_inj.mp
  simp only [u16OfBytes, UInt8.toNat_ofNat', UInt16.toNat_ofNat']
  omega

/-- The 16-bit value at byte position `i` of a buffer. -/
def halfAt (bs : List UInt8) (i : Nat) : UInt16 := u16OfBytes (bs.getD i 0) (bs.getD (i + 1) 0)

/-- The `n` bytes at byte position `i` of a buffer. -/
def vectorAt (bs : List UInt8) (i n : Nat) : Vector UInt8 n :=
  Vector.ofFn fun k => bs.getD (i + k.val) 0

/-- `"ROOT_LABEL "` -/
def VOLUME_LABEL : Vector UInt8 11 := #v[82, 79, 79, 84, 95, 76, 65, 66, 69, 76, 32]

/-- `"NIFAT32 "` -/
def FAT_TYPE_LABEL : Vector UInt8 8 := #v[78, 73, 70, 65, 84, 51, 50, 32]

/-! ### Reading behind a field

A position behind the first field of a buffer is a position in the rest. -/

section Skip

variable (bs rest : List UInt8) (a : UInt8) (x : UInt32) (y : UInt16)

@[simp] theorem getD_u32 (i : Nat) :
    (bytesOfU32 x ++ rest).getD (i + 4) 0 = rest.getD i 0 := rfl

@[simp] theorem getD_u16 (i : Nat) :
    (bytesOfU16 y ++ rest).getD (i + 2) 0 = rest.getD i 0 := rfl

theorem getD_vector {n : Nat} (v : Vector UInt8 n) (i : Nat) :
    (v.toList ++ rest).getD (i + n) 0 = rest.getD i 0 := by
  have hlen : v.toList.length ≤ i + n := by simp
  rw [List.getD_eq_getElem?_getD, List.getD_eq_getElem?_getD, List.getElem?_append_right hlen]
  simp

@[simp] theorem fieldAt_self : DirEntry.fieldAt (bytesOfU32 x ++ rest) 0 = x :=
  u32OfBytes_bytesOfU32 x

@[simp] theorem fieldAt_self_nil : DirEntry.fieldAt (bytesOfU32 x) 0 = x := u32OfBytes_bytesOfU32 x

@[simp] theorem fieldAt_cons (i : Nat) :
    DirEntry.fieldAt (a :: rest) (i + 1) = DirEntry.fieldAt rest i := rfl

@[simp] theorem fieldAt_u32 (i : Nat) :
    DirEntry.fieldAt (bytesOfU32 x ++ rest) (i + 4) = DirEntry.fieldAt rest i := rfl

@[simp] theorem fieldAt_u16 (i : Nat) :
    DirEntry.fieldAt (bytesOfU16 y ++ rest) (i + 2) = DirEntry.fieldAt rest i := rfl

theorem fieldAt_append (pre : List UInt8) :
    DirEntry.fieldAt (pre ++ rest) pre.length = DirEntry.fieldAt rest 0 := by
  simp [DirEntry.fieldAt, List.getElem?_append_right]

theorem fieldAt_vector {n : Nat} (v : Vector UInt8 n) (i : Nat) :
    DirEntry.fieldAt (v.toList ++ rest) (i + n) = DirEntry.fieldAt rest i := by
  unfold DirEntry.fieldAt
  rw [Nat.add_right_comm i n 1, Nat.add_right_comm i n 2, Nat.add_right_comm i n 3]
  simp only [getD_vector]

@[simp] theorem halfAt_self : halfAt (bytesOfU16 y ++ rest) 0 = y := u16OfBytes_bytesOfU16 y

@[simp] theorem halfAt_cons (i : Nat) : halfAt (a :: rest) (i + 1) = halfAt rest i := rfl

@[simp] theorem halfAt_u32 (i : Nat) : halfAt (bytesOfU32 x ++ rest) (i + 4) = halfAt rest i := rfl

@[simp] theorem halfAt_u16 (i : Nat) : halfAt (bytesOfU16 y ++ rest) (i + 2) = halfAt rest i := rfl

theorem halfAt_vector {n : Nat} (v : Vector UInt8 n) (i : Nat) :
    halfAt (v.toList ++ rest) (i + n) = halfAt rest i := by
  unfold halfAt
  rw [Nat.add_right_comm i n 1]
  simp only [getD_vector]

@[simp] theorem vectorAt_self {n : Nat} (v : Vector UInt8 n) :
    vectorAt (v.toList ++ rest) 0 n = v := by
  ext i hi
  have hlen : i < v.toList.length := by simpa using hi
  simp [vectorAt, List.getElem?_append_left hlen, hi]

@[simp] theorem vectorAt_cons (i n : Nat) : vectorAt (a :: rest) (i + 1) n = vectorAt rest i n := by
  unfold vectorAt
  simp only [Nat.add_right_comm i 1, List.getD_cons_succ]

@[simp] theorem vectorAt_u32 (i n : Nat) :
    vectorAt (bytesOfU32 x ++ rest) (i + 4) n = vectorAt rest i n := by
  unfold vectorAt
  simp only [Nat.add_right_comm i 4]
  rfl

@[simp] theorem vectorAt_u16 (i n : Nat) :
    vectorAt (bytesOfU16 y ++ rest) (i + 2) n = vectorAt rest i n := by
  unfold vectorAt
  simp only [Nat.add_right_comm i 2]
  rfl

theorem vectorAt_vector {n : Nat} (v : Vector UInt8 n) (i k : Nat) :
    vectorAt (v.toList ++ rest) (i + n) k = vectorAt rest i k := by
  unfold vectorAt
  simp only [Nat.add_right_comm i n, getD_vector]

end Skip

/-- `nifat32_ext32_bootsector_t` -/
structure ExtBootSector where
  tableSize32 : UInt32
  extendedFlags : UInt16
  fatVersion : UInt16
  rootCluster : UInt32
  driveNumber : UInt8
  bootSignature : UInt8
  volumeId : UInt32
  volumeLabel : Vector UInt8 11
  fatTypeLabel : Vector UInt8 8
  checksum : UInt32
  deriving DecidableEq

/-- `sizeof(nifat32_ext32_bootsector_t)` -/
abbrev EXT_BOOT_SIZE : Nat := 41

namespace ExtBootSector

/-- The bytes of the packed structure. -/
def bytes (e : ExtBootSector) : List UInt8 :=
  bytesOfU32 e.tableSize32 ++ (bytesOfU16 e.extendedFlags ++ (bytesOfU16 e.fatVersion ++
    (bytesOfU32 e.rootCluster ++ (e.driveNumber :: e.bootSignature :: (bytesOfU32 e.volumeId ++
      (e.volumeLabel.toList ++ (e.fatTypeLabel.toList ++ bytesOfU32 e.checksum)))))))

/-- The structure over a 41-byte buffer. -/
def ofBytes (bs : List UInt8) : ExtBootSector where
  tableSize32 := DirEntry.fieldAt bs 0
  extendedFlags := halfAt bs 4
  fatVersion := halfAt bs 6
  rootCluster := DirEntry.fieldAt bs 8
  driveNumber := bs.getD 12 0
  bootSignature := bs.getD 13 0
  volumeId := DirEntry.fieldAt bs 14
  volumeLabel := vectorAt bs 18 11
  fatTypeLabel := vectorAt bs 29 8
  checksum := DirEntry.fieldAt bs 37

@[simp] theorem length_bytes (e : ExtBootSector) : e.bytes.length = EXT_BOOT_SIZE := by
  simp [bytes, bytesOfU16]

/-- Reading the section back from its bytes, whatever follows them. -/
theorem ofBytes_bytes (e : ExtBootSector) (rest : List UInt8) : ofBytes (e.bytes ++ rest) = e := by
  have hlabel := fun rest i => fieldAt_vector rest e.volumeLabel i
  have htype := fun rest i => fieldAt_vector rest e.fatTypeLabel i
  have hvec := fun rest i => vectorAt_vector rest e.volumeLabel i 8
  unfold ofBytes bytes
  simp [-List.getD_eq_getElem?_getD, List.getD_cons_succ, List.getD_cons_zero, hlabel, htype, hvec]

/-- The checksum of a section: the hash of its bytes with a zero checksum field. -/
def computedChecksum (e : ExtBootSector) : UInt32 := murmur3 { e with checksum := 0 }.bytes 0

end ExtBootSector

/-- `nifat32_bootsector_t` -/
structure BootSector where
  bootjmp : Vector UInt8 3
  oemName : Vector UInt8 8
  bytesPerSector : UInt16
  sectorsPerCluster : UInt8
  reservedSectorCount : UInt16
  tableCount : UInt8
  rootEntryCount : UInt16
  totalSectors16 : UInt16
  mediaType : UInt8
  tableSize16 : UInt16
  sectorsPerTrack : UInt16
  headSideCount : UInt16
  hiddenSectorCount : UInt32
  totalSectors32 : UInt32
  extendedSection : ExtBootSector
  checksum : UInt32
  deriving DecidableEq

/-- `sizeof(nifat32_bootsector_t)` -/
abbrev BOOT_SIZE : Nat := 81

namespace BootSector

/-- The bytes in front of the extended section. -/
def headBytes (b : BootSector) : List UInt8 :=
  b.bootjmp.toList ++ (b.oemName.toList ++ (bytesOfU16 b.bytesPerSector ++
    (b.sectorsPerCluster :: (bytesOfU16 b.reservedSectorCount ++ (b.tableCount ::
      (bytesOfU16 b.rootEntryCount ++ (bytesOfU16 b.totalSectors16 ++ (b.mediaType ::
        (bytesOfU16 b.tableSize16 ++ (bytesOfU16 b.sectorsPerTrack ++
          (bytesOfU16 b.headSideCount ++ (bytesOfU32 b.hiddenSectorCount ++
            bytesOfU32 b.totalSectors32))))))))))))

/-- The bytes of the packed structure. -/
def bytes (b : BootSector) : List UInt8 :=
  b.headBytes ++ (b.extendedSection.bytes ++ bytesOfU32 b.checksum)

/-- The structure over an 81-byte buffer. -/
def ofBytes (bs : List UInt8) : BootSector where
  bootjmp := vectorAt bs 0 3
  oemName := vectorAt bs 3 8
  bytesPerSector := halfAt bs 11
  sectorsPerCluster := bs.getD 13 0
  reservedSectorCount := halfAt bs 14
  tableCount := bs.getD 16 0
  rootEntryCount := halfAt bs 17
  totalSectors16 := halfAt bs 19
  mediaType := bs.getD 21 0
  tableSize16 := halfAt bs 22
  sectorsPerTrack := halfAt bs 24
  headSideCount := halfAt bs 26
  hiddenSectorCount := DirEntry.fieldAt bs 28
  totalSectors32 := DirEntry.fieldAt bs 32
  extendedSection := .ofBytes (bs.drop 36)
  checksum := DirEntry.fieldAt bs 77

theorem length_headBytes (b : BootSector) : b.headBytes.length = 36 := by
  simp [headBytes, bytesOfU16]

@[simp] theorem length_bytes (b : BootSector) : b.bytes.length = BOOT_SIZE := by
  unfold bytes
  rw [List.length_append, List.length_append, b.length_headBytes, ExtBootSector.length_bytes]
  rfl

/-- Reading the structure back from its bytes. -/
theorem ofBytes_bytes (b : BootSector) : ofBytes b.bytes = b := by
  have hjmp := fun rest i => fieldAt_vector rest b.bootjmp i
  have hoem := fun rest i => fieldAt_vector rest b.oemName i
  have hjmp' := fun rest i => halfAt_vector rest b.bootjmp i
  have hoem' := fun rest i => halfAt_vector rest b.oemName i
  have hjmp'' := fun rest i => getD_vector rest b.bootjmp i
  have hoem'' := fun rest i => getD_vector rest b.oemName i
  have hvec := fun rest i => vectorAt_vector rest b.bootjmp i 8
  -- the extended section and the checksum stand behind the head
  have hext : ExtBootSector.ofBytes (b.bytes.drop 36) = b.extendedSection := by
    unfold bytes
    rw [List.drop_left' b.length_headBytes]
    exact ExtBootSector.ofBytes_bytes _ _
  have hsum : DirEntry.fieldAt b.bytes 77 = b.checksum := by
    have hlen : (b.headBytes ++ b.extendedSection.bytes).length = 77 := by
      rw [List.length_append, b.length_headBytes, ExtBootSector.length_bytes]
      rfl
    unfold bytes
    rw [← List.append_assoc, ← hlen, fieldAt_append]
    exact fieldAt_self_nil b.checksum
  unfold ofBytes
  rw [hext, hsum]
  unfold bytes headBytes
  simp [-List.getD_eq_getElem?_getD, List.getD_cons_succ, List.getD_cons_zero, hjmp, hoem, hjmp',
    hoem', hjmp'', hoem'', hvec]

/-- The structure with both checksums as a mount computes them: first the one of the extended
section, then the one of the whole with that section in place. -/
def withChecksums (b : BootSector) : BootSector :=
  let ext := { b.extendedSection with checksum := b.extendedSection.computedChecksum }
  let b := { b with extendedSection := ext, checksum := 0 }
  { b with checksum := murmur3 b.bytes 0 }

/-- Both checksums verify. -/
def Valid (b : BootSector) : Prop :=
  b.withChecksums.checksum = b.checksum ∧
    b.withChecksums.extendedSection.checksum = b.extendedSection.checksum

instance (b : BootSector) : Decidable b.Valid :=
  inferInstanceAs (Decidable (_ ∧ _))

end BootSector

end NiFat32
