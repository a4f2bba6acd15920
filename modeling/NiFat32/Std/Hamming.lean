import Mathlib.Data.List.Basic

/-!
# `Std.Hamming`: the Hamming (15, 11) byte code (`std/hamming.c`)

Every metadata byte is stored as one 16-bit word: `encodeHamming1511` spreads the data
bits over the positions that are not a power of two and fills the four parity positions,
`decodeHamming1511` recomputes the parities, toggles the position they name and collects
the data bits. A byte buffer holds its words low byte first.

`unpackMemory_packMemory` is the round trip of a whole buffer. It is what lets the rest of
the development speak about decoded bytes only.

The parities are linear (`parity_xor`), so the `syndrome` of a damaged codeword is that of the
damage alone, and for one flipped bit it names the position (`syndrome_bit`). A codeword with one
flipped bit therefore decodes as before (`decode_toggleBit`).
-/

set_option autoImplicit false

namespace NiFat32

/-- `GET_BIT` -/
def getBit (w : BitVec 16) (pos : Nat) : Bool := w.getLsbD pos

/-- `SET_BIT` -/
def setBit (w : BitVec 16) (pos : Nat) (bit : Bool) : BitVec 16 :=
  if bit then w ||| (1#16 <<< pos) else w &&& ~~~(1#16 <<< pos)

/-- `TOGGLE_BIT` -/
def toggleBit (w : BitVec 16) (pos : Nat) : BitVec 16 := w ^^^ (1#16 <<< pos)

/-- `_encode_hamming_15_11` -/
def encodeHamming1511 (data : BitVec 16) : BitVec 16 :=
  let e := 0#16
  let e := setBit e 2 (getBit data 0)
  let e := setBit e 4 (getBit data 1)
  let e := setBit e 5 (getBit data 2)
  let e := setBit e 6 (getBit data 3)
  let e := setBit e 8 (getBit data 4)
  let e := setBit e 9 (getBit data 5)
  let e := setBit e 10 (getBit data 6)
  let e := setBit e 11 (getBit data 7)
  let e := setBit e 12 (getBit data 8)
  let e := setBit e 13 (getBit data 9)
  let e := setBit e 14 (getBit data 10)
  let p1 := getBit e 2 ^^ getBit e 4 ^^ getBit e 6 ^^ getBit e 8 ^^ getBit e 10 ^^
    getBit e 12 ^^ getBit e 14
  let p2 := getBit e 2 ^^ getBit e 5 ^^ getBit e 6 ^^ getBit e 9 ^^ getBit e 10 ^^
    getBit e 13 ^^ getBit e 14
  let p4 := getBit e 4 ^^ getBit e 5 ^^ getBit e 6 ^^ getBit e 11 ^^ getBit e 12 ^^
    getBit e 13 ^^ getBit e 14
  let p8 := getBit e 8 ^^ getBit e 9 ^^ getBit e 10 ^^ getBit e 11 ^^ getBit e 12 ^^
    getBit e 13 ^^ getBit e 14
  setBit (setBit (setBit (setBit e 0 p1) 1 p2) 3 p4) 7 p8

/-- `_decode_hamming_15_11` -/
def decodeHamming1511 (encoded : BitVec 16) : BitVec 16 :=
  let g := getBit encoded
  let s1 := g 0 ^^ g 2 ^^ g 4 ^^ g 6 ^^ g 8 ^^ g 10 ^^ g 12 ^^ g 14
  let s2 := g 1 ^^ g 2 ^^ g 5 ^^ g 6 ^^ g 9 ^^ g 10 ^^ g 13 ^^ g 14
  let s4 := g 3 ^^ g 4 ^^ g 5 ^^ g 6 ^^ g 11 ^^ g 12 ^^ g 13 ^^ g 14
  let s8 := g 7 ^^ g 8 ^^ g 9 ^^ g 10 ^^ g 11 ^^ g 12 ^^ g 13 ^^ g 14
  let errorPos := s1.toNat + 2 * s2.toNat + 4 * s4.toNat + 8 * s8.toNat
  let e := if errorPos = 0 then encoded else toggleBit encoded (errorPos - 1)
  let d := 0#16
  let d := setBit d 0 (getBit e 2)
  let d := setBit d 1 (getBit e 4)
  let d := setBit d 2 (getBit e 5)
  let d := setBit d 3 (getBit e 6)
  let d := setBit d 4 (getBit e 8)
  let d := setBit d 5 (getBit e 9)
  let d := setBit d 6 (getBit e 10)
  let d := setBit d 7 (getBit e 11)
  let d := setBit d 8 (getBit e 12)
  let d := setBit d 9 (getBit e 13)
  setBit d 10 (getBit e 14)

/-- `_get_byte`: the low byte of the decoded word. -/
def getByte (w : BitVec 16) : UInt8 := UInt8.ofBitVec ((decodeHamming1511 w).setWidth 8)

/-- `_set_byte`: the codeword of a byte. -/
def setByte (b : UInt8) : BitVec 16 := encodeHamming1511 (b.toBitVec.setWidth 16)

/-- The word at the front of a byte buffer, low byte first. -/
def wordOfBytes (lo hi : UInt8) : BitVec 16 := hi.toBitVec ++ lo.toBitVec

/-- The two bytes of a word, low byte first. -/
def bytesOfWord (w : BitVec 16) : List UInt8 :=
  [UInt8.ofBitVec (w.setWidth 8), UInt8.ofBitVec ((w >>> 8).setWidth 8)]

/-- `nft32_unpack_memory`: decode the first `l` words of a byte buffer. -/
def unpackMemory : (src : List UInt8) → (l : Nat) → List UInt8
  | lo :: hi :: rest, l + 1 => getByte (wordOfBytes lo hi) :: unpackMemory rest l
  | _, _ => []

/-- `nft32_pack_memory`: the encoded bytes of a buffer. -/
def packMemory (src : List UInt8) : List UInt8 := src.flatMap fun b => bytesOfWord (setByte b)

/-! ### The code on one byte -/

theorem wordOfBytes_bytesOfWord (w : BitVec 16) :
    wordOfBytes (UInt8.ofBitVec (w.setWidth 8)) (UInt8.ofBitVec ((w >>> 8).setWidth 8)) = w := by
  unfold wordOfBytes
  ext i hi
  simp only [BitVec.getElem_append]
  by_cases h : i < 8
  · simp [h, BitVec.getLsbD_eq_getElem hi]
  · simp only [h, dite_false]
    simp only [BitVec.getElem_setWidth, BitVec.getLsbD_ushiftRight]
    rw [show 8 + (i - 8) = i by omega, BitVec.getLsbD_eq_getElem hi]

private theorem getByte_setByte_bitVec :
    ∀ b : BitVec 8, getByte (setByte (UInt8.ofBitVec b)) = UInt8.ofBitVec b := by
  decide +kernel

/-- Decoding the codeword of a byte gives the byte. -/
@[simp] theorem getByte_setByte (b : UInt8) : getByte (setByte b) = b :=
  getByte_setByte_bitVec b.toBitVec

/-- The zero word is the codeword of the zero byte. -/
theorem getByte_zero : getByte (wordOfBytes 0 0) = 0 := by decide

/-! ### Buffers -/

@[simp] theorem packMemory_nil : packMemory [] = [] := rfl

theorem packMemory_cons (b : UInt8) (bs : List UInt8) :
    packMemory (b :: bs) = bytesOfWord (setByte b) ++ packMemory bs := by
  simp [packMemory]

@[simp] theorem length_packMemory (xs : List UInt8) : (packMemory xs).length = 2 * xs.length := by
  induction xs with
  | nil => rfl
  | cons b bs ih =>
    rw [packMemory_cons, List.length_append, ih]
    simp [bytesOfWord]
    omega

@[simp] theorem unpackMemory_zero (src : List UInt8) : unpackMemory src 0 = [] := by
  cases src with
  | nil => rfl
  | cons a rest => cases rest <;> rfl

theorem length_unpackMemory (l : Nat) :
    ∀ src : List UInt8, 2 * l ≤ src.length → (unpackMemory src l).length = l := by
  induction l with
  | zero => intro src _; simp
  | succ l ih =>
    intro src h
    match src, h with
    | lo :: hi :: rest, h =>
      simp only [unpackMemory, List.length_cons]
      rw [ih rest (by simp at h; omega)]
    | [a], h => simp at h; omega
    | [], h => simp at h

/-- The round trip of a buffer, whatever follows its encoding. -/
theorem unpackMemory_packMemory_append (xs rest : List UInt8) :
    unpackMemory (packMemory xs ++ rest) xs.length = xs := by
  induction xs with
  | nil => simp
  | cons b bs ih =>
    rw [packMemory_cons]
    simp only [bytesOfWord, List.cons_append, List.nil_append, List.length_cons, unpackMemory,
      wordOfBytes_bytesOfWord, getByte_setByte, ih]

/-- The round trip of a buffer. -/
theorem unpackMemory_packMemory (xs : List UInt8) :
    unpackMemory (packMemory xs) xs.length = xs := by
  simpa using unpackMemory_packMemory_append xs []

/-- A zero-filled buffer decodes to zero bytes. -/
theorem unpackMemory_replicate_zero (n : Nat) :
    unpackMemory (List.replicate (2 * n) 0) n = List.replicate n 0 := by
  induction n with
  | zero => rfl
  | succ n ih =>
    rw [show 2 * (n + 1) = 2 * n + 1 + 1 by omega]
    simp only [List.replicate_succ, unpackMemory, getByte_zero, ih]

/-! ### The syndrome -/

/-- The positions whose number, counted from one, has the bit `k`. -/
def checkPositions (k : Nat) : List Nat := (List.range 15).filter fun p => (p + 1).testBit k

/-- The parity of a word over some positions. -/
def parity (w : BitVec 16) (ps : List Nat) : Bool := ps.foldr (fun p b => getBit w p ^^ b) false

/-- The position that the decoder toggles, counted from one. -/
def syndrome (w : BitVec 16) : Nat :=
  (parity w (checkPositions 0)).toNat + 2 * (parity w (checkPositions 1)).toNat +
    4 * (parity w (checkPositions 2)).toNat + 8 * (parity w (checkPositions 3)).toNat

/-- The data bits that the decoder collects. -/
def dataBits (e : BitVec 16) : BitVec 16 :=
  [2, 4, 5, 6, 8, 9, 10, 11, 12, 13, 14].zipIdx.foldl (fun d x => setBit d x.2 (getBit e x.1)) 0

theorem decodeHamming1511_eq (w : BitVec 16) : decodeHamming1511 w =
    dataBits (if syndrome w = 0 then w else toggleBit w (syndrome w - 1)) := by
  have h0 : checkPositions 0 = [0, 2, 4, 6, 8, 10, 12, 14] := by decide
  have h1 : checkPositions 1 = [1, 2, 5, 6, 9, 10, 13, 14] := by decide
  have h2 : checkPositions 2 = [3, 4, 5, 6, 11, 12, 13, 14] := by decide
  have h3 : checkPositions 3 = [7, 8, 9, 10, 11, 12, 13, 14] := by decide
  unfold decodeHamming1511 syndrome parity
  rw [h0, h1, h2, h3]
  simp only [List.foldr_cons, List.foldr_nil, Bool.xor_false, Bool.xor_assoc]
  rfl

/-- The parity is linear. -/
theorem parity_xor (w x : BitVec 16) (ps : List Nat) :
    parity (w ^^^ x) ps = (parity w ps ^^ parity x ps) := by
  induction ps with
  | nil => rfl
  | cons p ps ih =>
    show (getBit (w ^^^ x) p ^^ parity (w ^^^ x) ps)
      = ((getBit w p ^^ parity w ps) ^^ (getBit x p ^^ parity x ps))
    rw [ih]
    unfold getBit
    rw [BitVec.getLsbD_xor, Bool.xor_assoc, Bool.xor_assoc, Bool.xor_left_comm (x.getLsbD p)]

/-- The parities of a codeword are even. -/
private theorem parity_setByte_bitVec : ∀ b : BitVec 8, ∀ k : Fin 4,
    parity (setByte (UInt8.ofBitVec b)) (checkPositions k.val) = false := by
  decide +kernel

theorem parity_setByte (b : UInt8) {k : Nat} (hk : k < 4) :
    parity (setByte b) (checkPositions k) = false :=
  parity_setByte_bitVec b.toBitVec ⟨k, hk⟩

/-- What is flipped in a codeword is all that its syndrome shows. -/
theorem syndrome_setByte_xor (b : UInt8) (x : BitVec 16) :
    syndrome (setByte b ^^^ x) = syndrome x := by
  unfold syndrome
  simp only [parity_xor, parity_setByte b (show 0 < 4 by decide),
    parity_setByte b (show 1 < 4 by decide), parity_setByte b (show 2 < 4 by decide),
    parity_setByte b (show 3 < 4 by decide), Bool.false_xor]

/-- The syndrome of one flipped bit names its position. The last bit of a word is not checked. -/
theorem syndrome_bit : ∀ i : Fin 16, syndrome (1#16 <<< i.val) = (i.val + 1) % 16 := by decide

theorem toggleBit_toggleBit (w : BitVec 16) (i : Nat) : toggleBit (toggleBit w i) i = w := by
  unfold toggleBit
  rw [BitVec.xor_assoc, BitVec.xor_self, BitVec.xor_zero]

/-- The last bit of a word holds no data. -/
theorem dataBits_toggleBit_last (w : BitVec 16) : dataBits (toggleBit w 15) = dataBits w := by
  have hlast : ∀ p : Fin 15, (1#16 <<< 15).getLsbD p.val = false := by decide
  have hbit : ∀ p < 15, getBit (toggleBit w 15) p = getBit w p := by
    intro p hp
    unfold getBit toggleBit
    rw [BitVec.getLsbD_xor, hlast ⟨p, hp⟩, Bool.xor_false]
  unfold dataBits
  simp [hbit]

/-- Decoding undoes one flipped bit of a codeword. -/
theorem decode_toggleBit (b : UInt8) {i : Nat} (hi : i < 16) :
    decodeHamming1511 (toggleBit (setByte b) i) = decodeHamming1511 (setByte b) := by
  have hclean : syndrome (setByte b) = 0 := by
    have h := syndrome_setByte_xor b 0#16
    rw [BitVec.xor_zero] at h
    rw [h]
    decide
  have hflip : syndrome (toggleBit (setByte b) i) = (i + 1) % 16 :=
    (syndrome_setByte_xor b _).trans (syndrome_bit ⟨i, hi⟩)
  rw [decodeHamming1511_eq, decodeHamming1511_eq, hflip, hclean, if_pos rfl]
  by_cases hlast : i = 15
  · subst hlast
    exact dataBits_toggleBit_last _
  · -- the syndrome names the flipped bit, and the decoder flips it back
    rw [Nat.mod_eq_of_lt (by omega), if_neg (Nat.succ_ne_zero i), Nat.add_sub_cancel,
      toggleBit_toggleBit]

/-! ### Flipped bits -/

/-- At most one bit of a word is flipped. -/
def OneFlip (w w' : BitVec 16) : Prop := w' = w ∨ ∃ i, i < 16 ∧ w' = toggleBit w i

/-- At most one bit is flipped in each word of a buffer. -/
def WordFlips : List UInt8 → List UInt8 → Prop
  | lo :: hi :: rest, lo' :: hi' :: rest' =>
    OneFlip (wordOfBytes lo hi) (wordOfBytes lo' hi') ∧ WordFlips rest rest'
  | xs, ys => xs = ys

/-- A codeword with at most one flipped bit decodes to its byte. -/
theorem getByte_of_oneFlip {b : UInt8} {w : BitVec 16} (h : OneFlip (setByte b) w) :
    getByte w = b := by
  cases h with
  | inl heq =>
    rw [heq]
    exact getByte_setByte b
  | inr hflip =>
    obtain ⟨i, hi, rfl⟩ := hflip
    unfold getByte
    rw [decode_toggleBit b hi]
    exact getByte_setByte b

theorem WordFlips.refl : (xs : List UInt8) → WordFlips xs xs
  | _ :: _ :: rest => ⟨Or.inl rfl, WordFlips.refl rest⟩
  | [_] => rfl
  | [] => rfl

/-- The buffer of an encoding with at most one flipped bit in each word decodes as before. -/
theorem unpackMemory_of_flips {xs ys : List UInt8} (h : WordFlips (packMemory xs) ys) :
    unpackMemory ys xs.length = xs := by
  induction xs generalizing ys with
  | nil => exact unpackMemory_zero ys
  | cons b bs ih =>
    rw [packMemory_cons] at h
    match ys, h with
    | lo :: hi :: rest, h =>
      obtain ⟨hword, hrest⟩ := h
      rw [wordOfBytes_bytesOfWord] at hword
      show getByte (wordOfBytes lo hi) :: unpackMemory rest bs.length = b :: bs
      rw [getByte_of_oneFlip hword, ih hrest]

theorem WordFlips.length_eq {xs ys : List UInt8} (h : WordFlips xs ys) :
    ys.length = xs.length := by
  match xs, ys, h with
  | _ :: _ :: rest, _ :: _ :: rest', h =>
    have hlen := WordFlips.length_eq h.2
    simp only [List.length_cons, hlen]
  | _ :: _ :: _, [], h => exact congrArg List.length (Eq.symm h)
  | _ :: _ :: _, [_], h => exact congrArg List.length (Eq.symm h)
  | [_], _, h => exact congrArg List.length (Eq.symm h)
  | [], _, h => exact congrArg List.length (Eq.symm h)

end NiFat32
