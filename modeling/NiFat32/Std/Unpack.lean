import NiFat32.Std.Hamming

/-!
# `Std.Unpack`: decoding a buffer in place (`std/hamming.c`)

`nft32_unpack_memory` may get the encoded buffer itself as its destination. Step `i` of its loop
reads the word of the bytes `2 * i` and `2 * i + 1` and writes the byte `i`. Every byte that it has
written by then lies below `i`, so the words that it has yet to read are those of the encoding;
`unpackInPlaceLoop_take` carries this through the loop, for any buffer.
-/

set_option autoImplicit false

namespace NiFat32

/-- `src[i]` of the encoded words in a byte buffer. -/
def wordAt (buf : List UInt8) (i : Nat) : BitVec 16 :=
  wordOfBytes (buf.getD (2 * i) 0) (buf.getD (2 * i + 1) 0)

/-- The loop of `nft32_unpack_memory` from its step `i`, with `dst` the encoded buffer. -/
def unpackInPlaceLoop : (left i : Nat) → List UInt8 → List UInt8
  | 0, _, buf => buf
  | left + 1, i, buf => unpackInPlaceLoop left (i + 1) (buf.set i (getByte (wordAt buf i)))

/-- `nft32_unpack_memory(buf, (byte_t*)buf, l)` -/
def unpackInPlace (buf : List UInt8) (l : Nat) : List UInt8 := unpackInPlaceLoop l 0 buf

variable {buf src : List UInt8} {i left l : Nat}

/-- The word at the front of a buffer decodes first. -/
theorem unpackMemory_drop (h : 2 * (i + 1) ≤ buf.length) :
    unpackMemory (buf.drop (2 * i)) (left + 1) =
      getByte (wordAt buf i) :: unpackMemory (buf.drop (2 * (i + 1))) left := by
  have hlo : 2 * i < buf.length := by omega
  have hhi : 2 * i + 1 < buf.length := by omega
  rw [List.drop_eq_getElem_cons hlo, List.drop_eq_getElem_cons hhi, wordAt,
    List.getD_eq_getElem?_getD, List.getD_eq_getElem?_getD, List.getElem?_eq_getElem hlo,
    List.getElem?_eq_getElem hhi]
  rfl

/-- What a step has written leaves the words behind it as they were. -/
theorem drop_set_below {b : UInt8} : (buf.set i b).drop (2 * (i + 1)) = buf.drop (2 * (i + 1)) :=
  List.drop_set_of_lt (by omega)

theorem take_set_succ {b : UInt8} (h : i < buf.length) :
    (buf.set i b).take (i + 1) = buf.take i ++ [b] := by
  have hlen : i < (buf.set i b).length := by
    rw [List.length_set]
    exact h
  rw [List.take_succ_eq_append_getElem hlen, List.take_set_of_le (Nat.le_refl i),
    List.getElem_set_self]

/-- The loop keeps what it has written and appends the decoded rest. The induction is on the steps
that are left; that each of them finds its word untouched is `drop_set_below`. -/
theorem unpackInPlaceLoop_take (h : 2 * (i + left) ≤ buf.length) :
    (unpackInPlaceLoop left i buf).take (i + left) =
      buf.take i ++ unpackMemory (buf.drop (2 * i)) left := by
  induction left generalizing i buf with
  | zero => rw [unpackMemory_zero, List.append_nil]; rfl
  | succ left ih =>
    have hword : 2 * (i + 1) ≤ buf.length := by omega
    have hwritten : i < buf.length := by omega
    have hrest : 2 * (i + 1 + left) ≤ (buf.set i (getByte (wordAt buf i))).length := by
      rw [List.length_set]
      omega
    have hstep := ih hrest
    rw [drop_set_below, take_set_succ hwritten, List.append_assoc, List.singleton_append,
      ← unpackMemory_drop hword] at hstep
    rw [show i + (left + 1) = i + 1 + left by omega]
    exact hstep

/-- Decoding in place leaves the decoded bytes at the front of the buffer. -/
theorem unpackInPlace_take (h : 2 * l ≤ buf.length) :
    (unpackInPlace buf l).take l = unpackMemory buf l := by
  have hloop := unpackInPlaceLoop_take (i := 0) (by rw [Nat.zero_add]; exact h)
  rw [Nat.zero_add, Nat.mul_zero, List.take_zero, List.nil_append, List.drop_zero] at hloop
  exact hloop

/-- An encoding with at most one flipped bit in each word decodes to its bytes, into another buffer
or in place, and what was decoded packs to the encoding without its flips. -/
theorem unpack_repairs_flips (h : WordFlips (packMemory src) buf) :
    unpackMemory buf src.length = src ∧
    (unpackInPlace buf src.length).take src.length = src ∧
    packMemory (unpackMemory buf src.length) = packMemory src ∧
    packMemory ((unpackInPlace buf src.length).take src.length) = packMemory src := by
  have hsep : unpackMemory buf src.length = src := unpackMemory_of_flips h
  have hlen : 2 * src.length ≤ buf.length :=
    Nat.le_of_eq (h.length_eq.trans (length_packMemory src)).symm
  have hplace : (unpackInPlace buf src.length).take src.length = src := by
    rw [unpackInPlace_take hlen, hsep]
  rw [hplace, hsep]
  exact ⟨rfl, rfl, rfl, rfl⟩

/-- Two bytes, the top bit of the first word and the third bit of the second one flipped. -/
theorem unpack_repairs_two_flips :
    let buf := bytesOfWord (toggleBit (setByte 0x7F) 15) ++ bytesOfWord (toggleBit (setByte 0x80) 2)
    unpackMemory buf 2 = [0x7F, 0x80] ∧ (unpackInPlace buf 2).take 2 = [0x7F, 0x80] ∧
    packMemory (unpackMemory buf 2) = packMemory [0x7F, 0x80] ∧
    packMemory ((unpackInPlace buf 2).take 2) = packMemory [0x7F, 0x80] := by
  have hflips : WordFlips (packMemory [0x7F, 0x80])
      (bytesOfWord (toggleBit (setByte 0x7F) 15) ++ bytesOfWord (toggleBit (setByte 0x80) 2)) :=
    ⟨Or.inr ⟨15, by decide, by decide⟩, Or.inr ⟨2, by decide, by decide⟩, rfl⟩
  exact unpack_repairs_flips hflips

end NiFat32
