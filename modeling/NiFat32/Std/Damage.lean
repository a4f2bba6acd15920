import NiFat32.Std.Unpack

/-!
# `Std.Damage`: what damage does to encoded memory (`std/hamming.c`)

Damage to encoded bytes is a pattern of flipped bits, xored onto them. The decoder is linear around
every codeword: the bits it collects are (`dataBits_xor`), and the position it toggles depends on
the damage alone (`syndrome_setByte_xor`). So damage of any weight reaches the decoded bytes as its
own decoding (`unpackMemory_damage`), whatever was stored. `unpack_damage` says which damage that
makes harmless: one flipped bit in a word is, and so are some patterns of more.
-/

set_option autoImplicit false

namespace NiFat32

/-! ### One word -/

theorem getBit_xor (w w' : BitVec 16) (p : Nat) :
    getBit (w ^^^ w') p = (getBit w p ^^ getBit w' p) := BitVec.getLsbD_xor

theorem getBit_setBit (w : BitVec 16) {p q : Nat} (hq : q < 16) (bit : Bool) :
    getBit (setBit w p bit) q = if p = q then bit else getBit w q := by
  have hone : (1#16 <<< p).getLsbD q = decide (p = q) := by
    rw [BitVec.getLsbD_shiftLeft, BitVec.getLsbD_one, decide_eq_true hq]
    by_cases h : p = q
    · simp [h]
    · simp [h]
      omega
  unfold getBit setBit
  cases bit with
  | true =>
    rw [if_pos rfl, BitVec.getLsbD_or, hone]
    by_cases h : p = q
    · simp [h]
    · simp [h]
  | false =>
    rw [if_neg Bool.false_ne_true, BitVec.getLsbD_and, BitVec.getLsbD_not, hone, decide_eq_true hq]
    by_cases h : p = q
    · simp [h]
    · simp [h]

theorem setBit_xor (w w' : BitVec 16) (p : Nat) (bit bit' : Bool) :
    setBit (w ^^^ w') p (bit ^^ bit') = setBit w p bit ^^^ setBit w' p bit' := by
  apply BitVec.eq_of_getLsbD_eq
  intro q hq
  show getBit (setBit (w ^^^ w') p (bit ^^ bit')) q = getBit (setBit w p bit ^^^ setBit w' p bit') q
  rw [getBit_xor, getBit_setBit _ hq, getBit_setBit _ hq, getBit_setBit _ hq, getBit_xor]
  split <;> rfl

/-- The data bits are linear. The induction is on the positions that are still to be collected. -/
theorem dataBits_xor (w w' : BitVec 16) : dataBits (w ^^^ w') = dataBits w ^^^ dataBits w' := by
  have hfold : ∀ (ps : List (Nat × Nat)) (d d' : BitVec 16),
      ps.foldl (fun d x => setBit d x.2 (getBit (w ^^^ w') x.1)) (d ^^^ d') =
        ps.foldl (fun d x => setBit d x.2 (getBit w x.1)) d ^^^
          ps.foldl (fun d x => setBit d x.2 (getBit w' x.1)) d' := by
    intro ps
    induction ps with
    | nil => exact fun _ _ => rfl
    | cons x ps ih =>
      intro d d'
      rw [List.foldl_cons, List.foldl_cons, List.foldl_cons, getBit_xor, setBit_xor]
      exact ih _ _
  have h := hfold [2, 4, 5, 6, 8, 9, 10, 11, 12, 13, 14].zipIdx 0 0
  rwa [BitVec.xor_self] at h

/-- A codeword needs no correction. -/
theorem decode_setByte (b : UInt8) : decodeHamming1511 (setByte b) = dataBits (setByte b) := by
  have h := syndrome_setByte_xor b 0#16
  rw [BitVec.xor_zero] at h
  rw [decodeHamming1511_eq, h, if_pos (by decide)]

/-- The decoder is linear around a codeword: it toggles what it would toggle in the damage. -/
theorem decode_setByte_xor (b : UInt8) (x : BitVec 16) : decodeHamming1511 (setByte b ^^^ x) =
    decodeHamming1511 (setByte b) ^^^ decodeHamming1511 x := by
  rw [decode_setByte, decodeHamming1511_eq, decodeHamming1511_eq x, syndrome_setByte_xor]
  split
  · exact dataBits_xor _ _
  · unfold toggleBit
    rw [BitVec.xor_assoc, dataBits_xor]

/-- A damaged byte is off by the decoded damage. -/
theorem getByte_setByte_xor (b : UInt8) (x : BitVec 16) :
    getByte (setByte b ^^^ x) = b ^^^ getByte x := by
  have hbyte : getByte (setByte b) = b := getByte_setByte b
  unfold getByte at hbyte ⊢
  rw [decode_setByte_xor, BitVec.setWidth_xor, UInt8.ofBitVec_xor, hbyte]

/-! ### A buffer -/

/-- The bytes with the bits of the pattern flipped. -/
def flipped (src err : List UInt8) : List UInt8 := List.zipWith (· ^^^ ·) src err

variable {src err : List UInt8}

theorem wordOfBytes_xor (lo hi lo' hi' : UInt8) : wordOfBytes (lo ^^^ lo') (hi ^^^ hi') =
    wordOfBytes lo hi ^^^ wordOfBytes lo' hi' := by
  unfold wordOfBytes
  rw [UInt8.toBitVec_xor, UInt8.toBitVec_xor]
  exact (BitVec.xor_append).symm

/-- Damage of any weight reaches the decoded bytes as its own decoding. -/
theorem unpackMemory_damage (h : err.length = 2 * src.length) :
    unpackMemory (flipped (packMemory src) err) src.length =
      flipped src (unpackMemory err src.length) := by
  induction src generalizing err with
  | nil => exact unpackMemory_zero _
  | cons b bs ih =>
    match err, h with
    | lo :: hi :: rest, h =>
      have hrest : rest.length = 2 * bs.length := by
        simp only [List.length_cons] at h
        omega
      have hword := getByte_setByte_xor b (wordOfBytes lo hi)
      rw [packMemory_cons]
      show getByte (wordOfBytes _ _) :: unpackMemory (flipped (packMemory bs) rest) bs.length = _
      rw [wordOfBytes_xor, wordOfBytes_bytesOfWord, hword, ih hrest]
      rfl
    | [_], h => simp only [List.length_cons, List.length_nil] at h; omega
    | [], h => simp only [List.length_cons, List.length_nil] at h; omega

theorem flipped_eq_self_iff (h : err.length = src.length) :
    flipped src err = src ↔ err = List.replicate src.length 0 := by
  induction src generalizing err with
  | nil => exact iff_of_true rfl (List.length_eq_zero_iff.mp h)
  | cons b bs ih =>
    match err, h with
    | e :: es, h =>
      have hhead : b ^^^ e = b ↔ e = 0 := by
        constructor
        · intro heq
          rw [← UInt8.zero_xor (a := e), ← UInt8.xor_self (a := b), UInt8.xor_assoc, heq]
        · rintro rfl
          exact UInt8.xor_zero
      show (b ^^^ e) :: flipped bs es = b :: bs ↔ _
      rw [List.cons.injEq, hhead, ih (Nat.succ.inj h), List.length_cons, List.replicate_succ,
        List.cons.injEq]

/-- Damage of any weight to packed memory reaches the unpacked bytes as its own decoding, into
another buffer or in place, and is repaired exactly when every word of it decodes to zero. -/
theorem unpack_damage (h : err.length = 2 * src.length) :
    unpackMemory (flipped (packMemory src) err) src.length =
      flipped src (unpackMemory err src.length) ∧
    (unpackInPlace (flipped (packMemory src) err) src.length).take src.length =
      flipped src (unpackMemory err src.length) ∧
    (unpackMemory (flipped (packMemory src) err) src.length = src ↔
      unpackMemory err src.length = List.replicate src.length 0) := by
  have hdec := unpackMemory_damage h
  have hlen : (flipped (packMemory src) err).length = 2 * src.length := by
    unfold flipped
    rw [List.length_zipWith, length_packMemory, h, Nat.min_self]
  refine ⟨hdec, (unpackInPlace_take (Nat.le_of_eq hlen.symm)).trans hdec, ?_⟩
  rw [hdec]
  exact flipped_eq_self_iff (length_unpackMemory _ _ (Nat.le_of_eq h.symm))

/-- The thirteenth and the fifteenth bit of the word of one byte are flipped. The decoder takes
them for a flip of the second bit, which holds no data. -/
theorem unpack_damage_two_bits :
    unpackMemory (flipped (packMemory [0x5A]) [0x00, 0x50]) 1 = [0x5A] := by
  have herr : unpackMemory [0x00, 0x50] 1 = List.replicate 1 0 := by decide
  exact (unpack_damage rfl).2.2.mpr herr

end NiFat32
