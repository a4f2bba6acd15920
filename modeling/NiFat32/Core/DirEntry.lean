import NiFat32.Std.Checksum
import NiFat32.Core.FatInfo

/-!
# `Core.DirEntry`: the directory entry and its bytes (`nft32/entry.h`)

`directory_entry_t` is a packed structure of 32 bytes, and the library moves between the
structure and a byte buffer by casts. `DirEntry.bytes` and `DirEntry.ofBytes` are these
casts, and they are inverse to each other on 32 bytes (`ofBytes_bytes`, `bytes_ofBytes`).
-/

set_option autoImplicit false

namespace NiFat32

/-- An 11-byte name. -/
abbrev Name := Vector UInt8 11

/-- The first byte of a name. -/
def Name.first (name : Name) : UInt8 := name[0]

/-- The name with another first byte. -/
def Name.setFirst (name : Name) (c : UInt8) : Name := name.set 0 c

/-- `ENTRY_FREE` -/
abbrev ENTRY_FREE : UInt8 := 0xE5

/-- `ENTRY_END` -/
abbrev ENTRY_END : UInt8 := 0x00

/-- `FILE_DIRECTORY` -/
abbrev FILE_DIRECTORY : UInt8 := 0x10

/-- `FILE_ARCHIVE` -/
abbrev FILE_ARCHIVE : UInt8 := 0x20

/-- `directory_entry_t`, and `unsqueezed_entry_t`, which has the same fields. -/
structure DirEntry where
  fileName : Name
  nameHash : UInt32
  attributes : UInt8
  rca : UInt32
  dca : UInt32
  fileSize : UInt32
  checksum : UInt32
  deriving DecidableEq

/-- `sizeof(directory_entry_t)` -/
abbrev ENTRY_SIZE : Nat := 32

namespace DirEntry

/-- The bytes of the packed structure. -/
def bytes (e : DirEntry) : List UInt8 :=
  e.fileName.toList ++ (bytesOfU32 e.nameHash ++ (e.attributes :: (bytesOfU32 e.rca ++
    (bytesOfU32 e.dca ++ (bytesOfU32 e.fileSize ++ bytesOfU32 e.checksum)))))

/-- The `i`-th 32-bit value at byte position `i` of a buffer. -/
def fieldAt (bs : List UInt8) (i : Nat) : UInt32 :=
  u32OfBytes (bs.getD i 0) (bs.getD (i + 1) 0) (bs.getD (i + 2) 0) (bs.getD (i + 3) 0)

/-- The structure over a 32-byte buffer. -/
def ofBytes (bs : List UInt8) : DirEntry where
  fileName := Vector.ofFn fun i => bs.getD i.val 0
  nameHash := fieldAt bs 11
  attributes := bs.getD 15 0
  rca := fieldAt bs 16
  dca := fieldAt bs 20
  fileSize := fieldAt bs 24
  checksum := fieldAt bs 28

@[simp] theorem length_bytes (e : DirEntry) : e.bytes.length = ENTRY_SIZE := by
  simp [bytes]

/-- A list of 11 elements, spelled out. -/
private theorem exists_eleven (l : List UInt8) (h : l.length = 11) :
    ∃ a b c d e f g i j k n, l = [a, b, c, d, e, f, g, i, j, k, n] := by
  match l, h with
  | [a, b, c, d, e, f, g, i, j, k, n], _ => exact ⟨a, b, c, d, e, f, g, i, j, k, n, rfl⟩

/-- Reading the structure back from its bytes. -/
@[simp] theorem ofBytes_bytes (e : DirEntry) : ofBytes e.bytes = e := by
  obtain ⟨name, nh, at', rca, dca, fs, cs⟩ := e
  obtain ⟨a, b, c, d, e, f, g, i, j, k, n, hl⟩ := exists_eleven name.toList (by simp)
  have hname : (Vector.ofFn fun x : Fin 11 =>
      [a, b, c, d, e, f, g, i, j, k, n].getD x.val 0) = name := by
    apply Vector.toList_inj.mp
    rw [hl]
    rfl
  simp only [ofBytes, bytes, hl, fieldAt, bytesOfU32, List.cons_append, List.nil_append,
    DirEntry.mk.injEq]
  refine ⟨?_, u32OfBytes_bytesOfU32 nh, rfl, u32OfBytes_bytesOfU32 rca,
    u32OfBytes_bytesOfU32 dca, u32OfBytes_bytesOfU32 fs, u32OfBytes_bytesOfU32 cs⟩
  refine Eq.trans ?_ hname
  apply Vector.toList_inj.mp
  rfl

/-- The bytes of a structure read from 32 bytes. -/
theorem bytes_ofBytes (bs : List UInt8) (h : bs.length = ENTRY_SIZE) :
    (ofBytes bs).bytes = bs := by
  match bs, h with
  | [a0, a1, a2, a3, a4, a5, a6, a7, a8, a9, a10, b0, b1, b2, b3, c, d0, d1, d2, d3,
      e0, e1, e2, e3, f0, f1, f2, f3, g0, g1, g2, g3], _ =>
    simp only [ofBytes, bytes, fieldAt, List.getD_cons_zero, List.getD_cons_succ,
      bytesOfU32_u32OfBytes]
    rfl

/-- `file_name[0]` -/
def first (e : DirEntry) : UInt8 := Name.first e.fileName

/-- `entry->file_name[0] = c` -/
def setFirst (e : DirEntry) (c : UInt8) : DirEntry := 
  { e with fileName := Name.setFirst e.fileName c }

/-- The checksum that a consistent entry carries: the hash of its bytes with a zero
checksum field. -/
def computedChecksum (e : DirEntry) : UInt32 := murmur3 { e with checksum := 0 }.bytes 0

/-- The entry passes `_validate_entry`. -/
def Valid (e : DirEntry) : Prop := e.computedChecksum = e.checksum

instance (e : DirEntry) : Decidable e.Valid :=
  inferInstanceAs (Decidable (e.computedChecksum = e.checksum))

@[simp] theorem first_setFirst (e : DirEntry) (c : UInt8) : (e.setFirst c).first = c := by
  simp [first, setFirst, Name.first, Name.setFirst]

end DirEntry

/-- The name hash the library uses, over all 11 bytes. -/
def hashName (n : Name) : UInt32 := murmur3 n.toList 0

/-- `nft32_str_strncmp` -/
def strncmp : (str1 str2 : List UInt8) → (n : Nat) → Int
  | a :: as, b :: bs, n + 1 =>
    if a ≠ b ∨ a = 0 ∨ b = 0 then (a.toNat : Int) - b.toNat else strncmp as bs n
  | _, _, _ => 0

/-- The comparison of two names in the entry handlers: `!nft32_str_strncmp(a, b, 11)`. -/
def nameEq (a b : Name) : Bool := strncmp a.toList b.toList 11 = 0

theorem strncmp_self (l : List UInt8) (n : Nat) : strncmp l l n = 0 := by
  induction l generalizing n with
  | nil => cases n <;> rfl
  | cons a as ih =>
    cases n with
    | zero => rfl
    | succ n =>
      simp only [strncmp]
      split
      · omega
      · exact ih n

/-- The comparison stops at a common zero byte; before one, equal means equal. -/
theorem eq_of_strncmp_eq_zero (l k : List UInt8) (n : Nat) (hl : l.length = n)
    (hk : k.length = n) (h0 : ∀ b ∈ k, b ≠ 0) (h : strncmp l k n = 0) : l = k := by
  induction l generalizing k n with
  | nil =>
    rw [List.length_nil] at hl
    rw [← hl] at hk
    exact (List.length_eq_zero_iff.mp hk).symm
  | cons a as ih =>
    cases k with
    | nil => simp at hl hk; omega
    | cons b bs =>
      cases n with
      | zero => simp at hl
      | succ n =>
        simp only [strncmp] at h
        have hb : b ≠ 0 := h0 b (by simp)
        split at h
        · rename_i hc
          have hab : a = b := UInt8.toNat_inj.mp (by omega)
          subst hab
          simp [hb] at hc
        · rename_i hc
          have hab : a = b := by
            by_contra hne
            exact hc (Or.inl hne)
          rw [hab, ih bs n (by simpa using hl) (by simpa using hk)
            (fun x hx => h0 x (List.mem_cons_of_mem _ hx)) h]

@[simp] theorem nameEq_self (n : Name) : nameEq n n = true := by
  simp [nameEq, strncmp_self]

/-- Against a name without zero bytes the comparison decides equality. -/
theorem nameEq_iff (a b : Name) (h0 : ∀ x ∈ b.toList, x ≠ 0) : nameEq a b = true ↔ a = b := by
  constructor
  · intro h
    apply Vector.toList_inj.mp
    exact eq_of_strncmp_eq_zero _ _ 11 (by simp) (by simp) h0 (by simpa [nameEq] using h)
  · rintro rfl
    simp

end NiFat32
