import NiFat32.Proofs.Slots

/-!
# `Proofs.Settled`: the library sees decoded words only

The directory operations read metadata through the Hamming code and write clean codewords. So they
cannot tell a medium from the one whose words are all replaced by the codewords of the bytes they
decode to. `settle U d` is that medium, with the words in `U` left as they are, and the `_settle`
lemmas say that an operation commutes with it: the same result, and the settled state of the one it
leaves.
-/

set_option autoImplicit false

namespace NiFat32

open ByteStore

/-! ### Buffers whose words decode alike -/

/-- Two buffers of the same length whose words decode alike. -/
def SameWords : List UInt8 → List UInt8 → Prop
  | lo :: hi :: rest, lo' :: hi' :: rest' =>
    getByte (wordOfBytes lo hi) = getByte (wordOfBytes lo' hi') ∧ SameWords rest rest'
  | xs, ys => xs = ys

namespace SameWords

theorem refl : (xs : List UInt8) → SameWords xs xs
  | _ :: _ :: rest => ⟨rfl, refl rest⟩
  | [_] => rfl
  | [] => rfl

theorem length_eq {xs ys : List UInt8} (h : SameWords xs ys) : ys.length = xs.length := by
  match xs, ys, h with
  | _ :: _ :: _, _ :: _ :: _, h =>
    have hlen := length_eq h.2
    simp only [List.length_cons, hlen]
  | _ :: _ :: _, [], h => exact congrArg List.length (Eq.symm h)
  | _ :: _ :: _, [_], h => exact congrArg List.length (Eq.symm h)
  | [_], _, h => exact congrArg List.length (Eq.symm h)
  | [], _, h => exact congrArg List.length (Eq.symm h)

theorem append {xs ys : List UInt8} (h : SameWords xs ys) (heven : 2 ∣ xs.length)
    {zs ws : List UInt8} (h' : SameWords zs ws) : SameWords (xs ++ zs) (ys ++ ws) := by
  match xs, ys, h with
  | _ :: _ :: _, _ :: _ :: _, h =>
    refine ⟨h.1, append h.2 ?_ h'⟩
    rw [List.length_cons, List.length_cons] at heven
    omega
  | _ :: _ :: _, [], h => cases h
  | _ :: _ :: _, [_], h => cases h
  | [_], _, _ =>
    rw [List.length_singleton] at heven
    omega
  | [], _, h =>
    obtain rfl := h
    exact h'

theorem unpack {xs ys : List UInt8} (h : SameWords xs ys) (l : Nat) :
    unpackMemory ys l = unpackMemory xs l := by
  match xs, ys, h with
  | _ :: _ :: _, _ :: _ :: _, h =>
    cases l with
    | zero => rfl
    | succ l =>
      unfold unpackMemory
      rw [h.1, unpack h.2 l]
  | _ :: _ :: _, [], h => cases h
  | _ :: _ :: _, [_], h => cases h
  | [_], _, h => rw [h]
  | [], _, h => rw [h]

/-- Words with at most one flipped bit decode as the clean ones. -/
theorem of_flips {xs ys : List UInt8} (h : WordFlips (packMemory xs) ys) :
    SameWords (packMemory xs) ys := by
  induction xs generalizing ys with
  | nil => exact h
  | cons b bs ih =>
    rw [packMemory_cons] at h ⊢
    match ys, h with
    | lo :: hi :: rest, h =>
      obtain ⟨hword, hrest⟩ := h
      rw [wordOfBytes_bytesOfWord] at hword
      refine ⟨?_, ih hrest⟩
      rw [wordOfBytes_bytesOfWord, getByte_setByte, getByte_of_oneFlip hword]

end SameWords

/-! ### Settled bytes -/

/-- The byte at address `k` of the codeword in the word `k / 2` decodes to. -/
def cleanByte (d : Nat → UInt8) (k : Nat) : UInt8 :=
  (bytesOfWord (setByte (getByte (wordOfBytes (d (k / 2 * 2)) (d (k / 2 * 2 + 1)))))).getD (k % 2) 0

open Classical in
/-- The bytes with every word outside `U` replaced by the codeword of what it decodes to. -/
noncomputable def settle (U : Nat → Prop) (d : Nat → UInt8) : Nat → UInt8 :=
  fun k => if U (k / 2) then d k else cleanByte d k

section Bytes

variable {U : Nat → Prop} {d : Nat → UInt8}

theorem settle_of {k : Nat} (h : U (k / 2)) : settle U d k = d k := if_pos h

theorem settle_of_not {k : Nat} (h : ¬ U (k / 2)) : settle U d k = cleanByte d k := if_neg h

/-- A settled word decodes as before. -/
theorem getByte_settle (w : Nat) :
    getByte (wordOfBytes (settle U d (2 * w)) (settle U d (2 * w + 1)))
      = getByte (wordOfBytes (d (2 * w)) (d (2 * w + 1))) := by
  have h0 : 2 * w / 2 = w := by omega
  have h1 : (2 * w + 1) / 2 = w := by omega
  by_cases hU : U w
  · rw [settle_of (by rw [h0]; exact hU), settle_of (by rw [h1]; exact hU)]
  · rw [settle_of_not (by rw [h0]; exact hU), settle_of_not (by rw [h1]; exact hU)]
    unfold cleanByte
    rw [h0, h1, Nat.mul_comm w 2, show 2 * w % 2 = 0 by omega, show (2 * w + 1) % 2 = 1 by omega]
    show getByte (wordOfBytes (UInt8.ofBitVec _) (UInt8.ofBitVec _)) = _
    rw [wordOfBytes_bytesOfWord, getByte_setByte]

/-- The words of a settled range decode as before. -/
theorem sameWords_read_settle (w n : Nat) :
    SameWords (read d (2 * w) (2 * n)) (read (settle U d) (2 * w) (2 * n)) := by
  induction n generalizing w with
  | zero => exact SameWords.refl []
  | succ n ih =>
    have hcons : ∀ d : Nat → UInt8, read d (2 * w) (2 * (n + 1))
        = d (2 * w) :: d (2 * w + 1) :: read d (2 * (w + 1)) (2 * n) := by
      intro d
      rw [show 2 * (n + 1) = 2 + 2 * n by omega, read_add, show 2 * w + 2 = 2 * (w + 1) by omega]
      rfl
    rw [hcons, hcons]
    exact ⟨(getByte_settle w).symm, ih (w + 1)⟩

theorem getD_bytesOfWord (x : BitVec 16) (i : Nat) (y : UInt8) (h : i < 2) :
    (bytesOfWord x).getD i y = (bytesOfWord x).getD i 0 := by
  have hcases : i = 0 ∨ i = 1 := by omega
  rcases hcases with rfl | rfl
  · rfl
  · rfl

/-- Writing a codeword commutes with settling. -/
theorem settle_write_word (w : Nat) (b : UInt8) :
    settle U (write d (2 * w) (bytesOfWord (setByte b)))
      = write (settle U d) (2 * w) (bytesOfWord (setByte b)) := by
  have hlen : (bytesOfWord (setByte b)).length = 2 := rfl
  funext k
  by_cases hk : k / 2 = w
  · -- the word that is written
    have hle : 2 * w ≤ k := by omega
    have hat : ∀ d : Nat → UInt8, ∀ j, j / 2 = w →
        write d (2 * w) (bytesOfWord (setByte b)) j = (bytesOfWord (setByte b)).getD (j % 2) 0 := by
      intro d j hj
      rw [write_apply, if_pos (by omega), show j - 2 * w = j % 2 by omega]
      exact getD_bytesOfWord _ _ _ (by omega)
    rw [hat _ k hk]
    by_cases hU : U (k / 2)
    · rw [settle_of hU, hat _ k hk]
    · rw [settle_of_not hU]
      unfold cleanByte
      rw [hat _ _ (by omega), hat _ _ (by omega), show k / 2 * 2 % 2 = 0 by omega,
        show (k / 2 * 2 + 1) % 2 = 1 by omega]
      show (bytesOfWord
        (setByte (getByte (wordOfBytes (UInt8.ofBitVec _) (UInt8.ofBitVec _))))).getD _ _
        = _
      rw [wordOfBytes_bytesOfWord, getByte_setByte]
  · have hout : ∀ d : Nat → UInt8, ∀ j, j / 2 = k / 2 →
        write d (2 * w) (bytesOfWord (setByte b)) j = d j := by
      intro d j hj
      exact write_of_outside _ _ _ _ (by rw [hlen]; omega)
    rw [hout _ k rfl]
    by_cases hU : U (k / 2)
    · rw [settle_of hU, settle_of hU, hout _ k rfl]
    · rw [settle_of_not hU, settle_of_not hU]
      unfold cleanByte
      rw [hout _ _ (by omega), hout _ _ (by omega)]

/-- Writing clean codewords commutes with settling. -/
theorem settle_write (w : Nat) (xs : List UInt8) :
    settle U (write d (2 * w) (packMemory xs)) = write (settle U d) (2 * w) (packMemory xs) := by
  induction xs generalizing w d with
  | nil => rw [packMemory_nil, write_nil, write_nil]
  | cons b bs ih =>
    have hlen : (bytesOfWord (setByte b)).length = 2 := rfl
    rw [packMemory_cons, ← write_append, ← write_append, hlen,
      show 2 * w + 2 = 2 * (w + 1) by omega, ih,
      settle_write_word]

end Bytes

/-! ### Sector requests -/

/-- The medium with its bytes settled. -/
noncomputable def Medium.settle (U : Nat → Prop) (d : Medium) : Medium :=
  { d with bytes := NiFat32.settle U d.bytes }

/-- The state with its medium settled. -/
noncomputable def FS.settle (U : Nat → Prop) (s : FS) : FS := { s with medium := s.medium.settle U }

/-- Sectors and clusters are made of words. -/
structure EvenSizes (m : Mount) : Prop where
  sector : 2 ∣ m.sectorSize
  bytes : 2 ∣ m.fi.bytesPerSector
  cluster : 2 ∣ m.fi.clusterSize

theorem Layout.evenSizes {m : Mount} (L : Layout m) : EvenSizes m := by
  have hbytes : 2 ∣ m.fi.bytesPerSector := Nat.dvd_trans (by decide) L.sector_cells
  refine ⟨?_, hbytes, ?_⟩
  · rw [L.sectorSize_eq]
    exact hbytes
  · rw [L.clusterSize_eq]
    exact Nat.dvd_mul_right_of_dvd hbytes _

variable {m : Mount} {U : Nat → Prop}

section Rel

variable {x y x' y' : Option (List UInt8)}

theorem rel_none (h : Option.Rel SameWords none y) : y = none := by
  cases h
  rfl

theorem rel_some {bs : List UInt8} (h : Option.Rel SameWords (some bs) y) :
    ∃ bs', y = some bs' ∧ SameWords bs bs' := by
  cases h with
  | some hwords => exact ⟨_, rfl, hwords⟩

theorem rel_append {bs bs' : List UInt8} (heven : 2 ∣ bs.length) (h : SameWords bs bs')
    (h' : Option.Rel SameWords x x') :
    Option.Rel SameWords (x.map (bs ++ ·)) (x'.map (bs' ++ ·)) := by
  cases h' with
  | none => exact Option.Rel.none
  | some htail => exact Option.Rel.some (h.append heven htail)

end Rel

theorem length_readSector {d : Medium} {sa offset len : Nat} {bs : List UInt8}
    (h : readSector m d sa offset len = some bs) : bs.length = len := by
  unfold readSector at h
  split at h
  · rw [← Option.some.inj h, length_read]
  · cases h

section Requests

variable (hm : EvenSizes m)

include hm

/-- An address of a word in a sector. -/
theorem EvenSizes.address (sa : Nat) {offset : Nat} (ho : 2 ∣ offset) :
    sa * m.sectorSize + offset = 2 * ((sa * m.sectorSize + offset) / 2) := by
  have h : 2 ∣ sa * m.sectorSize + offset := Nat.dvd_add (Nat.dvd_mul_left_of_dvd hm.sector sa) ho
  omega

theorem readSector_settle (d : Medium) (sa : Nat) {offset len : Nat} (ho : 2 ∣ offset)
    (hl : 2 ∣ len) :
    Option.Rel SameWords (readSector m d sa offset len)
      (readSector m (d.settle U) sa offset len) := by
  unfold readSector
  show Option.Rel SameWords _ (if m.readOk d.writes sa offset len = true then _ else _)
  by_cases hok : m.readOk d.writes sa offset len = true
  · rw [if_pos hok, if_pos hok, hm.address sa ho, show len = 2 * (len / 2) by omega]
    exact Option.Rel.some (sameWords_read_settle _ _)
  · rw [if_neg hok, if_neg hok]
    exact Option.Rel.none

theorem writeSector_settle (d : Medium) (sa : Nat) {offset : Nat} (ho : 2 ∣ offset)
    (xs : List UInt8) :
    writeSector m (d.settle U) sa offset (packMemory xs)
      = ((writeSector m d sa offset (packMemory xs)).1,
        (writeSector m d sa offset (packMemory xs)).2.settle U) := by
  unfold writeSector
  show (if m.writeOk d.writes sa offset (packMemory xs).length = true then _ else _) = _
  by_cases hok : m.writeOk d.writes sa offset (packMemory xs).length = true
  · rw [if_pos hok, if_pos hok]
    have hbytes := settle_write (U := U) (d := d.bytes) ((sa * m.sectorSize + offset) / 2) xs
    rw [← hm.address sa ho] at hbytes
    unfold Medium.settle
    simp only [hbytes]
  · rw [if_neg hok, if_neg hok]
    rfl

/-- A request that reads words. -/
theorem readoffLoop_settle (d : Medium) (sc sa : Nat) {offset size : Nat} (ho : 2 ∣ offset)
    (hs : 2 ∣ size) : Option.Rel SameWords (readoffLoop m d sc sa offset size)
      (readoffLoop m (d.settle U) sc sa offset size) := by
  have heven := hm.sector
  induction sc generalizing sa offset size with
  | zero => exact Option.Rel.some (SameWords.refl [])
  | succ sc ih =>
    unfold readoffLoop
    by_cases h0 : size = 0
    · rw [if_pos h0, if_pos h0]
      exact Option.Rel.some (SameWords.refl [])
    rw [if_neg h0, if_neg h0]
    by_cases hlt : m.sectorSize < offset
    · rw [if_pos hlt, if_pos hlt]
      exact ih _ (by omega) hs
    rw [if_neg hlt, if_neg hlt]
    have hlen : 2 ∣ min size (m.sectorSize - offset) := by omega
    have hread := readSector_settle (U := U) hm d sa ho hlen
    have hrest := ih (sa + 1) (Nat.dvd_zero 2) (Nat.dvd_sub hs hlen)
    simp only
    cases hr : readSector m d sa offset (min size (m.sectorSize - offset)) with
    | none =>
      rw [hr] at hread
      rw [rel_none hread]
      exact Option.Rel.none
    | some bs =>
      rw [hr] at hread
      obtain ⟨bs', hr', hwords⟩ := rel_some hread
      have hbs : 2 ∣ bs.length := by
        rw [length_readSector hr]
        exact hlen
      rw [hr']
      exact rel_append hbs hwords hrest

/-- What a request reads has an even number of bytes, at most as many as it asks for. -/
theorem length_readoff {d : Medium} {sc sa offset size : Nat} (ho : 2 ∣ offset) (hs : 2 ∣ size)
    {bs : List UInt8} (h : readoffLoop m d sc sa offset size = some bs) :
    2 ∣ bs.length ∧ bs.length ≤ size := by
  have heven := hm.sector
  induction sc generalizing sa offset size bs with
  | zero =>
    obtain rfl := Option.some.inj h
    exact ⟨Nat.dvd_zero 2, Nat.zero_le _⟩
  | succ sc ih =>
    unfold readoffLoop at h
    by_cases h0 : size = 0
    · rw [if_pos h0] at h
      obtain rfl := Option.some.inj h
      exact ⟨Nat.dvd_zero 2, Nat.zero_le _⟩
    rw [if_neg h0] at h
    by_cases hlt : m.sectorSize < offset
    · rw [if_pos hlt] at h
      exact ih (by omega) hs h
    rw [if_neg hlt] at h
    simp only at h
    cases hr : readSector m d sa offset (min size (m.sectorSize - offset)) with
    | none =>
      rw [hr] at h
      cases h
    | some head =>
      rw [hr] at h
      obtain ⟨tail, htail, rfl⟩ := Option.map_eq_some_iff.mp h
      have hlen := length_readSector hr
      have hrest := ih (Nat.dvd_zero 2) (by omega) htail
      rw [List.length_append, hlen]
      omega

omit hm in
theorem take_packMemory (xs : List UInt8) (j : Nat) :
    (packMemory xs).take (2 * j) = packMemory (xs.take j) := by
  induction xs generalizing j with
  | nil => simp
  | cons b bs ih =>
    cases j with
    | zero => rfl
    | succ j =>
      have hlen : (bytesOfWord (setByte b)).length = 2 := rfl
      rw [packMemory_cons, List.take_succ_cons, packMemory_cons, ← ih,
        show 2 * (j + 1) = (bytesOfWord (setByte b)).length + 2 * j by omega,
        List.take_length_add_append]

omit hm in
theorem drop_packMemory (xs : List UInt8) (j : Nat) :
    (packMemory xs).drop (2 * j) = packMemory (xs.drop j) := by
  induction xs generalizing j with
  | nil => simp
  | cons b bs ih =>
    cases j with
    | zero => rfl
    | succ j =>
      have hlen : (bytesOfWord (setByte b)).length = 2 := rfl
      rw [packMemory_cons, List.drop_succ_cons, ← ih,
        show 2 * (j + 1) = (bytesOfWord (setByte b)).length + 2 * j by omega,
        List.drop_length_add_append]

/-- A request that writes clean codewords. -/
theorem writeoffLoop_settle (sc sa : Nat) {offset : Nat} (ho : 2 ∣ offset) (xs : List UInt8)
    (d : Medium) :
    writeoffLoop m sc sa offset (packMemory xs) (d.settle U)
      = ((writeoffLoop m sc sa offset (packMemory xs) d).1,
        (writeoffLoop m sc sa offset (packMemory xs) d).2.settle U) := by
  have heven := hm.sector
  induction sc generalizing sa offset xs d with
  | zero => rfl
  | succ sc ih =>
    unfold writeoffLoop
    by_cases h0 : (packMemory xs).length = 0
    · rw [if_pos h0, if_pos h0]
    rw [if_neg h0, if_neg h0]
    by_cases hlt : m.sectorSize < offset
    · rw [if_pos hlt, if_pos hlt]
      exact ih _ (by omega) _ _
    rw [if_neg hlt, if_neg hlt]
    obtain ⟨j, hj⟩ : 2 ∣ min (packMemory xs).length (m.sectorSize - offset) := by
      rw [length_packMemory]
      omega
    simp only [hj]
    rw [take_packMemory, drop_packMemory, writeSector_settle hm d sa ho]
    cases writeSector m d sa offset (packMemory (xs.take j)) with
    | mk ok d' =>
      cases ok with
      | false => rfl
      | true => exact ih _ (Nat.dvd_zero 2) _ _

end Requests

/-! ### The state -/

/-- The result of an operation with the state it leaves settled. -/
noncomputable abbrev settleResult (U : Nat → Prop) {ρ : Type} (r : ρ × FS) : ρ × FS :=
  (r.1, r.2.settle U)

section State

variable {s : FS}

@[simp] theorem settle_medium : (s.settle U).medium = s.medium.settle U := rfl
@[simp] theorem settle_fat : (s.settle U).fat = s.fat := rfl
@[simp] theorem settle_bitmap : (s.settle U).bitmap = s.bitmap := rfl
@[simp] theorem settle_lastAllocated :
    (s.settle U).lastAllocatedCluster = s.lastAllocatedCluster := rfl
@[simp] theorem settle_journalIndex : (s.settle U).journalIndex = s.journalIndex := rfl
@[simp] theorem settle_errors : (s.settle U).errors = s.errors := rfl
@[simp] theorem settle_heap : (s.settle U).heap = s.heap := rfl
@[simp] theorem settle_contents : (s.settle U).contents = s.contents := rfl
@[simp] theorem settle_log : (s.medium.settle U).log = s.medium.log := rfl

/-- A loop whose body commutes with settling. -/
theorem foldl_settle {ρ β : Type} {f : ρ × FS → β → ρ × FS}
    (h : ∀ r s b, f (r, s.settle U) b = settleResult U (f (r, s) b)) (l : List β) (r : ρ) (s : FS) :
    l.foldl f (r, s.settle U) = settleResult U (l.foldl f (r, s)) := by
  induction l generalizing r s with
  | nil => rfl
  | cons b l ih =>
    rw [List.foldl_cons, List.foldl_cons, h]
    exact ih (f (r, s) b).1 (f (r, s) b).2

end State

section Fat

variable (hm : EvenSizes m)

include hm

/-! ### Errors and the FAT -/

theorem writeErrorCopy_settle (index : Nat) (c : UInt32) (i : Nat) (s : FS) :
    writeErrorCopy m index c i (s.settle U) = settleResult U (writeErrorCopy m index c i s) := by
  have hoff : 2 ∣ u32 (index * 8) := by
    unfold u32
    omega
  unfold writeErrorCopy dskWriteoffSectors
  rw [settle_medium, writeoffLoop_settle hm 1 _ hoff]
  rfl

theorem writeError_settle (index : Nat) (c : UInt32) (s : FS) :
    writeError m index c (s.settle U) = settleResult U (writeError m index c s) := by
  refine foldl_settle (fun r s i => ?_) (List.range m.fi.errorsCount) true s
  show ((writeErrorCopy m index c i (s.settle U)).1 && r,
    (writeErrorCopy m index c i (s.settle U)).2) = _
  rw [writeErrorCopy_settle hm]

/-- Registering an error writes codewords only. -/
theorem registerError_settle (code : ErrorCode) (s : FS) :
    registerError m code (s.settle U) = (registerError m code s).settle U := by
  unfold registerError errorsRegisterError
  rw [settle_errors, writeError_settle hm]
  cases writeError m s.errors.current code.toU32 s with
  | mk ok s' =>
    cases ok with
    | false => rfl
    | true =>
      have hdump : ∀ ring, (dumpInfo m ring { s'.settle U with errors := ring }).2
          = (dumpInfo m ring { s' with errors := ring }).2.settle U :=
        fun ring => congrArg Prod.snd (writeError_settle hm 0 _ { s' with errors := ring })
      exact hdump _

theorem fatEntryPos_even (ca i : Nat) : 2 ∣ (fatEntryPos m ca i).2 := by
  have hpos : (fatEntryPos m ca i).2 = u32 (ca * 8) % m.fi.bytesPerSector := rfl
  have hbytes := hm.bytes
  rw [hpos, Nat.dvd_mod_iff hbytes]
  unfold u32
  omega

theorem readFatCopy_settle (ca i : Nat) (s : FS) :
    readFatCopy m ca i (s.settle U) = settleResult U (readFatCopy m ca i s) := by
  have hoff := fatEntryPos_even hm ca i
  have hread := readoffLoop_settle (U := U) hm s.medium 1 (fatEntryPos m ca i).1 hoff
    (show 2 ∣ 8 by decide)
  unfold readFatCopy dskReadoffSectors
  simp only [settle_medium]
  cases hr : readoffLoop m s.medium 1 (fatEntryPos m ca i).1 (fatEntryPos m ca i).2 8 with
  | none =>
    rw [hr] at hread
    rw [rel_none hread]
    simp only [registerError_settle hm]
  | some bs =>
    rw [hr] at hread
    obtain ⟨bs', hr', hwords⟩ := rel_some hread
    rw [hr']
    have hfill : SameWords (fillBuffer bs 8) (fillBuffer bs' 8) := by
      unfold fillBuffer
      rw [hwords.length_eq]
      exact hwords.append (length_readoff hm hoff (by decide) hr).1 (SameWords.refl _)
    simp only [hfill.unpack]

theorem writeFatCopy_settle (ca value i : Nat) (s : FS) :
    writeFatCopy m ca value i (s.settle U) = settleResult U (writeFatCopy m ca value i s) := by
  unfold writeFatCopy dskWriteoffSectors
  simp only [settle_medium, writeoffLoop_settle hm 1 _ (fatEntryPos_even hm ca i)]
  cases writeoffLoop m 1 (fatEntryPos m ca i).1 (fatEntryPos m ca i).2
      (packMemory (bytesOfU32 (UInt32.ofNat value))) s.medium with
  | mk ok d =>
    cases ok with
    | true => rfl
    | false => exact congrArg (Prod.mk false) (registerError_settle hm _ { s with medium := d })

omit hm in
theorem noteFat_settle (ca value : Nat) (s : FS) :
    noteFat ca value (s.settle U) = (noteFat ca value s).settle U := by
  unfold noteFat
  by_cases hfree : value = FAT_CLUSTER_FREE
  · rw [if_pos hfree, if_pos hfree]
    rfl
  · rw [if_neg hfree, if_neg hfree]
    rfl

theorem writeFatLocked_settle (ca value : Nat) (s : FS) :
    writeFatLocked m ca value (s.settle U) = settleResult U (writeFatLocked m ca value s) := by
  unfold writeFatLocked
  rw [noteFat_settle]
  refine foldl_settle (fun r s i => ?_) (List.range m.fi.fatCount) true (noteFat ca value s)
  simp only [writeFatCopy_settle hm]

theorem writeFat_settle (ca value : Nat) (s : FS) :
    writeFat m ca value (s.settle U) = settleResult U (writeFat m ca value s) := by
  unfold writeFat
  split
  · rw [registerError_settle hm]
  · exact writeFatLocked_settle hm ca value s

theorem voteFat_settle (ca : Nat) (s : FS) :
    voteFat m ca (s.settle U) = settleResult U (voteFat m ca s) := by
  refine foldl_settle (fun r s i => ?_) (List.range m.fi.fatCount) (Vote.start FAT_CLUSTER_BAD) s
  simp only [readFatCopy_settle hm]

theorem readFat_settle (ca : Nat) (s : FS) :
    readFat m ca (s.settle U) = settleResult U (readFat m ca s) := by
  have hcached : cachedFat ca (s.settle U) = cachedFat ca s := rfl
  unfold readFat
  split
  · rw [registerError_settle hm]
  rw [hcached]
  cases cachedFat ca s with
  | some x => rfl
  | none =>
    simp only [voteFat_settle hm]
    cases voteFat m ca s with
    | mk b s' =>
      simp only [noteFat_settle, writeFatLocked_settle hm]
      split
      · rfl
      · rfl

end Fat

/-! ### Clusters -/

section Clusters

variable (hm : EvenSizes m)

include hm

omit hm in
theorem getClusterOffset_settle (s : FS) :
    getClusterOffset m (s.settle U) = settleResult U (getClusterOffset m s) := by
  unfold getClusterOffset
  split
  · rfl
  · rfl

omit hm in
theorem moveOffset_settle (offt x : Nat) (s : FS) :
    moveOffset offt x (s.settle U) = (moveOffset offt x s).settle U := by
  unfold moveOffset
  split
  · rfl
  · rfl

theorem claimCluster_settle (offt ca : Nat) (s : FS) :
    claimCluster m offt ca (s.settle U) = settleResult U (claimCluster m offt ca s) := by
  unfold claimCluster
  rw [writeFat_settle hm]
  cases writeFat m ca FAT_CLUSTER_RESERVED s with
  | mk ok s' =>
    cases ok with
    | false => rfl
    | true => exact congrArg (Prod.mk ca) (moveOffset_settle offt (ca + 1) s')

theorem allocScan_settle (offt passes ca skip : Nat) (s : FS) :
    allocScan m offt passes ca skip (s.settle U)
      = settleResult U (allocScan m offt passes ca skip s) := by
  have hmove := fun s : FS => moveOffset_settle (U := U) offt m.fi.extRootCluster s
  induction passes generalizing ca skip s with
  | zero => exact congrArg (Prod.mk _) (hmove s)
  | succ passes ih =>
    unfold allocScan
    split
    · exact congrArg (Prod.mk _) (hmove s)
    rw [readFat_settle hm]
    cases readFat m ca s with
    | mk status s' =>
      simp only
      by_cases hfree : status = FAT_CLUSTER_FREE
      · rw [if_pos hfree, if_pos hfree]
        exact claimCluster_settle hm offt ca s'
      rw [if_neg hfree, if_neg hfree]
      by_cases hskip : status = FAT_CLUSTER_BAD ∨ status = FAT_CLUSTER_RESERVED
      · rw [if_pos hskip, if_pos hskip]
        exact ih _ _ s'
      · rw [if_neg hskip, if_neg hskip]
        exact ih _ _ s'

theorem allocSearch_settle (offt : Nat) (s : FS) :
    allocSearch m offt (s.settle U) = settleResult U (allocSearch m offt s) := by
  have hfind : ∀ curr, fatmapFindFree m curr 1 (s.settle U) = fatmapFindFree m curr 1 s :=
    fun _ => rfl
  unfold allocSearch
  simp only [hfind, settle_lastAllocated]
  generalize (if offt = NO_CLUSTER_OFFSET then s.lastAllocatedCluster else offt) = curr
  by_cases h0 : fatmapFindFree m curr 1 s = 0
  · rw [if_pos h0, if_pos h0]
    exact allocScan_settle hm _ _ _ _ s
  rw [if_neg h0, if_neg h0, readFat_settle hm]
  cases readFat m (fatmapFindFree m curr 1 s) s with
  | mk status s' =>
    simp only
    by_cases hfree : status = FAT_CLUSTER_FREE
    · rw [if_pos hfree, if_pos hfree]
      exact claimCluster_settle hm _ _ s'
    · rw [if_neg hfree, if_neg hfree]
      exact allocScan_settle hm _ _ _ _ s'

theorem allocNext_settle (s : FS) :
    allocNext m (s.settle U) = settleResult U (allocNext m s) := by
  unfold allocNext allocCluster
  simp only [getClusterOffset_settle, settleResult, allocSearch_settle hm]
  rfl

theorem setClusterEnd_settle (ca : Nat) (s : FS) :
    setClusterEnd m ca (s.settle U) = settleResult U (setClusterEnd m ca s) :=
  writeFat_settle hm ca _ s

theorem deallocCluster_settle (ca : Nat) (s : FS) :
    deallocCluster m ca (s.settle U) = settleResult U (deallocCluster m ca s) := by
  unfold deallocCluster setClusterFree
  rw [readFat_settle hm]
  cases readFat m ca s with
  | mk status s' =>
    simp only
    by_cases hfree : status = FAT_CLUSTER_FREE
    · rw [if_pos hfree, if_pos hfree]
    rw [if_neg hfree, if_neg hfree, writeFat_settle hm]
    cases writeFat m ca FAT_CLUSTER_FREE s' with
    | mk ok s'' =>
      cases ok with
      | true => rfl
      | false => exact congrArg (Prod.mk false) (registerError_settle hm _ s'')

theorem deallocChain_settle (fuel ca : Nat) (s : FS) :
    deallocChain m fuel ca (s.settle U) = (deallocChain m fuel ca s).map (settleResult U) := by
  induction fuel generalizing ca s with
  | zero => rfl
  | succ fuel ih =>
    unfold deallocChain
    rw [readFat_settle hm]
    cases readFat m ca s with
    | mk next s' =>
      simp only
      rw [deallocCluster_settle hm]
      cases deallocCluster m ca s' with
      | mk ok s'' =>
        cases ok with
        | false => exact congrArg (fun s => some (false, s)) (registerError_settle hm _ s'')
        | true =>
          simp only
          by_cases hlast : next = FAT_CLUSTER_END ∨ next = FAT_CLUSTER_BAD ∨ next = FAT_CLUSTER_FREE
          · rw [if_pos hlast, if_pos hlast]
            rfl
          · rw [if_neg hlast, if_neg hlast]
            exact ih next s''

/-- A write of clean codewords to a cluster. -/
theorem writeCluster_settle (ca : Nat) (xs : List UInt8) (s : FS) :
    writeCluster m ca (packMemory xs) (s.settle U)
      = settleResult U (writeCluster m ca (packMemory xs) s) := by
  unfold writeCluster writeoffCluster dskWriteoffSectors
  rw [settle_medium, writeoffLoop_settle hm _ _ (Nat.dvd_zero 2)]
  rfl

/-- A directory cluster decodes alike. -/
theorem readEncodedCluster_settle (ca : Nat) (s : FS) :
    (readEncodedCluster m ca s).1 = none ∧
      readEncodedCluster m ca (s.settle U) = settleResult U (readEncodedCluster m ca s) ∨
    ∃ enc enc' dec, readEncodedCluster m ca s = (some (enc, dec), s) ∧
      readEncodedCluster m ca (s.settle U) = (some (enc', dec), s.settle U) ∧
      enc.drop (2 * decodedLen m) = [] ∧ enc'.drop (2 * decodedLen m) = [] := by
  have hsize : 2 * decodedLen m = m.fi.clusterSize := Nat.mul_div_cancel' hm.cluster
  have hread := readoffLoop_settle (U := U) hm s.medium m.fi.sectorsPerCluster (clusterSector m ca)
    (Nat.dvd_zero 2) hm.cluster
  unfold readEncodedCluster readCluster readoffCluster dskReadoffSectors
  by_cases hbad : ca = FAT_CLUSTER_BAD
  · rw [if_pos hbad, if_pos hbad, registerError_settle hm]
    exact Or.inl ⟨rfl, rfl⟩
  rw [if_neg hbad, if_neg hbad, settle_medium]
  cases hr : readoffLoop m s.medium m.fi.sectorsPerCluster (clusterSector m ca) 0
      m.fi.clusterSize with
  | none =>
    rw [hr] at hread
    rw [rel_none hread]
    exact Or.inl ⟨rfl, congrArg (Prod.mk none) (registerError_settle hm _ s)⟩
  | some enc =>
    have hlen := (length_readoff hm (Nat.dvd_zero 2) hm.cluster hr).2
    rw [hr] at hread
    obtain ⟨enc', hr', hwords⟩ := rel_some hread
    rw [hr']
    refine Or.inr ⟨enc, enc', _, rfl, ?_, ?_, ?_⟩
    · simp only [hwords.unpack]
    · exact List.drop_of_length_le (by rw [hsize]; exact hlen)
    · exact List.drop_of_length_le (by rw [hsize, hwords.length_eq]; exact hlen)

end Clusters

/-! ### The journal -/

section Journal

variable (hm : EvenSizes m)

include hm

omit hm in
theorem journalOffset_even (index : Nat) : 2 ∣ u32 (index * (2 * JOURNAL_ENTRY_SIZE)) := by
  unfold u32
  rw [Nat.dvd_mod_iff (by decide : 2 ∣ 2 ^ 32)]
  exact Nat.dvd_mul_left_of_dvd (Nat.dvd_mul_right 2 _) index

theorem writeJournalCopy_settle (index : Nat) (j : JournalEntry) (i : Nat) (s : FS) :
    writeJournalCopy m index j i (s.settle U)
      = settleResult U (writeJournalCopy m index j i s) := by
  unfold writeJournalCopy dskWriteoffSectors
  simp only [settle_medium, writeoffLoop_settle hm 1 _ (journalOffset_even index)]
  cases writeoffLoop m 1 (getJournalSector i m.fi.totalSectors)
      (u32 (index * (2 * JOURNAL_ENTRY_SIZE))) (packMemory j.bytes) s.medium with
  | mk ok d =>
    cases ok with
    | true => rfl
    | false => exact congrArg (Prod.mk false) (registerError_settle hm _ { s with medium := d })

theorem writeJournal_settle (index : Nat) (j : JournalEntry) (s : FS) :
    writeJournal m index j (s.settle U) = (writeJournal m index j s).settle U := by
  refine List.foldl_hom (FS.settle U) fun s i => ?_
  rw [writeJournalCopy_settle hm]

theorem readJournalCopy_settle (index i : Nat) (s : FS) :
    readJournalCopy m index i (s.settle U) = settleResult U (readJournalCopy m index i s) := by
  have hsize : 2 ∣ 2 * JOURNAL_ENTRY_SIZE := Nat.dvd_mul_right 2 _
  have hread := readoffLoop_settle (U := U) hm s.medium 1 (getJournalSector i m.fi.totalSectors)
    (journalOffset_even index) hsize
  unfold readJournalCopy dskReadoffSectors
  simp only [settle_medium]
  cases hr : readoffLoop m s.medium 1 (getJournalSector i m.fi.totalSectors)
      (u32 (index * (2 * JOURNAL_ENTRY_SIZE))) (2 * JOURNAL_ENTRY_SIZE) with
  | none =>
    rw [hr] at hread
    rw [rel_none hread]
    simp only [registerError_settle hm]
  | some bs =>
    rw [hr] at hread
    obtain ⟨bs', hr', hwords⟩ := rel_some hread
    rw [hr']
    have hfill : SameWords (fillBuffer bs (2 * JOURNAL_ENTRY_SIZE))
        (fillBuffer bs' (2 * JOURNAL_ENTRY_SIZE)) := by
      unfold fillBuffer
      rw [hwords.length_eq]
      exact hwords.append (length_readoff hm (journalOffset_even index) hsize hr).1
        (SameWords.refl _)
    simp only [hfill.unpack]

theorem voteJournal_settle (index : Nat) (s : FS) :
    voteJournal m index (s.settle U) = ((voteJournal m index s).1, (voteJournal m index s).2.1,
      (voteJournal m index s).2.2.settle U) := by
  refine @List.foldl_hom _ _ _ (fun acc : Vote.Ballot UInt32 × Option Nat × FS =>
    (acc.1, acc.2.1, acc.2.2.settle U)) _ _ _ (Vote.start 0xFFFFFFFF, none, s) fun acc i => ?_
  simp only [readJournalCopy_settle hm]

theorem readJournal_settle (index : Nat) (prev : JournalEntry) (s : FS) :
    readJournal m index prev (s.settle U) = settleResult U (readJournal m index prev s) := by
  unfold readJournal
  rw [voteJournal_settle hm]
  cases voteJournal m index s with
  | mk b rest =>
    obtain ⟨pos, s'⟩ := rest
    cases pos with
    | none => rfl
    | some pos =>
      simp only [readJournalCopy_settle hm, writeJournal_settle hm]
      split
      · rfl
      · rfl

theorem journalAddLoop_settle (j : JournalEntry) (delay : Nat) (s : FS) :
    journalAddLoop m j delay (s.settle U) = settleResult U (journalAddLoop m j delay s) := by
  induction delay generalizing s with
  | zero => rfl
  | succ delay ih =>
    have hread := fun index prev s => readJournal_settle (U := U) hm index prev s
    have hmove : { s.settle U with journalIndex := (s.journalIndex + 1) % 256 }
        = { s with journalIndex := (s.journalIndex + 1) % 256 }.settle U := rfl
    unfold journalAddLoop
    simp only [settle_journalIndex, hmove, hread]
    cases readJournal m (s.journalIndex % journalSlots m) (.ofBytes (m.junk 2 delay))
        { s with journalIndex := (s.journalIndex + 1) % 256 } with
    | mk curr s' =>
      simp only
      by_cases hop : curr.op = NO_OP
      · rw [if_pos hop, if_pos hop, writeJournal_settle hm]
      · rw [if_neg hop, if_neg hop]
        exact ih s'

theorem journalAddOperation_settle (op : UInt8) (ca offset : Nat) (e : DirEntry) (s : FS) :
    journalAddOperation m op ca offset e (s.settle U)
      = settleResult U (journalAddOperation m op ca offset e s) := by
  unfold journalAddOperation
  split
  · rfl
  · simp only [journalAddLoop_settle hm]
    rfl

theorem journalSolveOperation_settle (index : Int) (s : FS) :
    journalSolveOperation m index (s.settle U) = (journalSolveOperation m index s).settle U := by
  unfold journalSolveOperation
  split
  · rfl
  · exact writeJournal_settle hm _ _ { s with journalSolving := s.medium.log.length }

end Journal

/-! ### Directories -/

section Directories

variable {σ : Type} {handler : Handler σ} (hm : EvenSizes m)

/-- The handler commutes with settling. -/
def Settles (U : Nat → Prop) (handler : Handler σ) : Prop := ∀ info e ctx s,
  handler info e ctx (s.settle U)
    = (handler info e ctx s).map fun (exit, e, ctx, s) => (exit, e, ctx, s.settle U)

theorem slotLoop_settle (hh : Settles U handler) (ca i : Nat) (es : List DirEntry) (ctx : σ)
    (s : FS) : slotLoop handler ca i es ctx (s.settle U)
      = (slotLoop handler ca i es ctx s).map fun (exit, es, ctx, s) =>
        (exit, es, ctx, s.settle U) := by
  induction es generalizing i ctx s with
  | nil => rfl
  | cons e es ih =>
    unfold slotLoop
    by_cases hend : e.first = ENTRY_END
    · rw [if_pos hend, if_pos hend]
      rfl
    rw [if_neg hend, if_neg hend, hh]
    cases handler ⟨ca, i⟩ e ctx s with
    | none => rfl
    | some out =>
      obtain ⟨exit, e', ctx', s'⟩ := out
      cases exit with
      | true => rfl
      | false =>
        simp only [Option.map_some, ih, Option.map_map]
        rfl

include hm

omit hm in
/-- The bytes that go back to a cluster are clean codewords. -/
theorem repackCluster_eq {enc : List UInt8} (henc : enc.drop (2 * decodedLen m) = [])
    (dec : List UInt8) (slots : List DirEntry) : repackCluster m enc dec slots
      = packMemory (bytesOfSlots slots ++ dec.drop (ENTRY_SIZE * entriesPerCluster m)) := by
  unfold repackCluster
  rw [henc, List.append_nil]

theorem entryIterate_settle (hh : Settles U handler) (fuel ca : Nat) (ctx : σ) (s : FS) :
    entryIterate m handler fuel ca ctx (s.settle U)
      = (entryIterate m handler fuel ca ctx s).map fun (exit, ctx, s) =>
        (exit, ctx, s.settle U) := by
  induction fuel generalizing ca ctx s with
  | zero => rfl
  | succ fuel ih =>
    unfold entryIterate
    rcases readEncodedCluster_settle (U := U) hm ca s with ⟨hnone, hset⟩ |
      ⟨enc, enc', dec, he, he', htail, htail'⟩
    · rw [hset]
      cases hr : readEncodedCluster m ca s with
      | mk r s' =>
        rw [hr] at hnone
        obtain rfl : r = none := hnone
        rfl
    rw [he, he']
    simp only [slotLoop_settle hh]
    cases slotLoop handler ca 0 (slotsOf (entriesPerCluster m) dec) ctx s with
    | none => rfl
    | some out =>
      obtain ⟨exit, slots, ctx', s'⟩ := out
      simp only [Option.map_some, repackCluster_eq htail, repackCluster_eq htail',
        writeCluster_settle hm]
      cases writeCluster m ca (packMemory (bytesOfSlots slots ++
          dec.drop (ENTRY_SIZE * entriesPerCluster m))) s' with
      | mk ok s'' =>
        cases ok with
        | false =>
          simp only [registerError_settle hm]
          rfl
        | true =>
          simp only [readFat_settle hm]
          cases readFat m ca s'' with
          | mk next s₃ =>
            simp only
            by_cases hgo : next ≠ FAT_CLUSTER_END ∧ exit = false
            · rw [if_pos hgo, if_pos hgo]
              exact ih next ctx' s₃
            · rw [if_neg hgo, if_neg hgo]
              rfl

end Directories

/-! ### The operations on a directory -/

section Operations

variable (hm : EvenSizes m)

theorem searchHandler_settle (name : Name) : Settles U (searchHandler name) := by
  intro info e found s
  unfold searchHandler
  simp only
  split
  · rfl
  split
  · rfl
  split
  · rfl
  · rfl

include hm

theorem entrySearch_settle (fuel : Nat) (name : Name) (ca : Nat) (s : FS) :
    entrySearch m fuel name ca 0 (s.settle U)
      = (entrySearch m fuel name ca 0 s).map (settleResult U) := by
  unfold entrySearch
  simp only [if_true, ne_eq, not_true_eq_false, if_false]
  rw [entryIterate_settle hm (searchHandler_settle name), Option.map_map, Option.map_map]
  rfl

theorem editHandler_settle (fuel : Nat) (name : Name) (dst : DirEntry) :
    Settles U (editHandler m fuel name dst 0) := by
  intro info e ji s
  unfold editHandler
  simp only [journalAddOperation_settle hm]
  split
  · rfl
  split
  · rfl
  split
  · rfl
  · rfl

theorem solve_settle (ji : Int) (s : FS) :
    (if 0 ≤ ji then journalSolveOperation m ji (s.settle U) else s.settle U)
      = (if 0 ≤ ji then journalSolveOperation m ji s else s).settle U := by
  split
  · exact journalSolveOperation_settle hm ji s
  · rfl

theorem entryEdit_settle (fuel ca : Nat) (name : Name) (dst : DirEntry) (s : FS) :
    entryEdit m fuel ca 0 name dst (s.settle U)
      = (entryEdit m fuel ca 0 name dst s).map (settleResult U) := by
  unfold entryEdit
  rw [entryIterate_settle hm (editHandler_settle hm fuel name dst), Option.map_map, Option.map_map]
  refine congrFun (congrArg Option.map ?_) _
  funext out
  exact congrArg (Prod.mk out.1) (solve_settle hm out.2.1 out.2.2)

theorem eraseSlots_settle {eraseRec : Nat → Bool → FS → Option (Int × FS)}
    (hrec : ∀ ca file s, eraseRec ca file (s.settle U) = (eraseRec ca file s).map (settleResult U))
    (es : List DirEntry) (s : FS) :
    eraseSlots m eraseRec es (s.settle U) = (eraseSlots m eraseRec es s).map (FS.settle U) := by
  induction es generalizing s with
  | nil => rfl
  | cons e es ih =>
    unfold eraseSlots
    by_cases hend : e.first = ENTRY_END
    · rw [if_pos hend, if_pos hend]
      rfl
    rw [if_neg hend, if_neg hend]
    by_cases hlive : e.Valid ∧ e.first ≠ ENTRY_FREE
    · rw [if_pos hlive, if_pos hlive, hrec]
      cases eraseRec e.dca.toNat (!e.isDir) s with
      | none => rfl
      | some out =>
        obtain ⟨result, s'⟩ := out
        simp only [Option.map_some]
        by_cases hneg : result < 0
        · rw [if_pos hneg, if_pos hneg, registerError_settle hm]
          exact ih _
        · rw [if_neg hneg, if_neg hneg]
          exact ih s'
    · rw [if_neg hlive, if_neg hlive]
      exact ih s

theorem eraseClusters_settle {eraseRec : Nat → Bool → FS → Option (Int × FS)}
    (hrec : ∀ ca file s, eraseRec ca file (s.settle U) = (eraseRec ca file s).map (settleResult U))
    (fuel ca : Nat) (s : FS) :
    eraseClusters m eraseRec fuel ca (s.settle U)
      = (eraseClusters m eraseRec fuel ca s).map (FS.settle U) := by
  induction fuel generalizing ca s with
  | zero => rfl
  | succ fuel ih =>
    unfold eraseClusters
    rcases readEncodedCluster_settle (U := U) hm ca s with ⟨hnone, hset⟩ |
      ⟨enc, enc', dec, he, he', -, -⟩
    · rw [hset]
      cases hr : readEncodedCluster m ca s with
      | mk r s' =>
        rw [hr] at hnone
        obtain rfl : r = none := hnone
        rfl
    rw [he, he']
    simp only [readFat_settle hm]
    cases readFat m ca s with
    | mk nca s' =>
      simp only [eraseSlots_settle hm hrec]
      cases eraseSlots m eraseRec (slotsOf (entriesPerCluster m) dec) s' with
      | none => rfl
      | some s'' =>
        simp only [Option.map_some, deallocCluster_settle hm]
        cases deallocCluster m ca s'' with
        | mk ok s₃ =>
          have herr : (if ok = true then s₃.settle U
              else registerError m .clusterDeallocationError (s₃.settle U))
               = (if ok = true then s₃
                 else registerError m .clusterDeallocationError s₃).settle U := by
            split
            · rfl
            · exact registerError_settle hm _ s₃
          simp only [herr]
          by_cases hend : nca ≠ FAT_CLUSTER_END
          · rw [if_pos hend, if_pos hend]
            exact ih nca _
          · rw [if_neg hend, if_neg hend]
            rfl

theorem entryEraseRec_settle (fuel ca : Nat) (file : Bool) (s : FS) :
    entryEraseRec m fuel ca file (s.settle U)
      = (entryEraseRec m fuel ca file s).map (settleResult U) := by
  induction fuel generalizing ca file s with
  | zero => rfl
  | succ fuel ih =>
    cases file with
    | true =>
      unfold entryEraseRec
      rw [deallocChain_settle hm, Option.map_map, Option.map_map]
      rfl
    | false =>
      unfold entryEraseRec
      rw [eraseClusters_settle hm ih, Option.map_map, Option.map_map]
      rfl

theorem removeHandler_settle (fuel : Nat) (name : Name) :
    Settles U (removeHandler m fuel name 0) := by
  intro info e ji s
  unfold removeHandler
  rw [validateEntry_eq]
  simp only
  by_cases hhole : decide e.Valid = false ∨ (cleaned e).first = ENTRY_FREE
  · rw [if_pos hhole, if_pos hhole]
    rfl
  rw [if_neg hhole, if_neg hhole]
  by_cases hname : nameEq (cleaned e).fileName name = false
  · rw [if_pos hname, if_pos hname]
    rfl
  rw [if_neg hname, if_neg hname]
  simp only [if_true, journalAddOperation_settle hm]
  cases journalAddOperation m DEL_OP info.ca info.offset (cleaned e) s with
  | mk ji' s' =>
    simp only [entryEraseRec_settle hm]
    cases entryEraseRec m fuel (cleaned e).dca.toNat (!(cleaned e).isDir) s' with
    | none => rfl
    | some out =>
      obtain ⟨result, s''⟩ := out
      simp only [Option.map_some]
      by_cases hneg : result < 0
      · rw [if_pos hneg, if_pos hneg, registerError_settle hm]
        rfl
      · rw [if_neg hneg, if_neg hneg]
        rfl

theorem entryRemove_settle (fuel ca : Nat) (name : Name) (s : FS) :
    entryRemove m fuel ca name 0 (s.settle U)
      = (entryRemove m fuel ca name 0 s).map (settleResult U) := by
  unfold entryRemove
  rw [entryIterate_settle hm (removeHandler_settle hm fuel name), Option.map_map, Option.map_map]
  refine congrFun (congrArg Option.map ?_) _
  funext out
  exact congrArg (Prod.mk out.1) (solve_settle hm out.2.1 out.2.2)

theorem addNextCluster_settle (ca : Nat) (s : FS) :
    addNextCluster m ca (s.settle U) = settleResult U (addNextCluster m ca s) := by
  unfold addNextCluster
  simp only [readFat_settle hm]
  cases readFat m ca s with
  | mk next s' =>
    simp only
    by_cases hbad : next = FAT_CLUSTER_BAD
    · rw [if_pos hbad, if_pos hbad, registerError_settle hm]
    rw [if_neg hbad, if_neg hbad]
    by_cases hend : next = FAT_CLUSTER_END
    · rw [if_pos hend, if_pos hend]
      simp only [allocNext_settle hm]
      cases allocNext m s' with
      | mk nca s'' =>
        simp only
        by_cases hnone : nca = FAT_CLUSTER_BAD
        · rw [if_pos hnone, if_pos hnone, registerError_settle hm]
        rw [if_neg hnone, if_neg hnone]
        simp only [setClusterEnd_settle hm]
        cases setClusterEnd m nca s'' with
        | mk ok s₃ =>
          cases ok with
          | false => exact congrArg (Prod.mk none) (registerError_settle hm _ s₃)
          | true =>
            simp only [writeFat_settle hm]
            cases writeFat m ca nca s₃ with
            | mk ok s₄ =>
              cases ok with
              | false => exact congrArg (Prod.mk none) (registerError_settle hm _ s₄)
              | true => rfl
    · rw [if_neg hend, if_neg hend]

theorem addToSlot_settle (fuel ca i : Nat) (e : DirEntry) {enc enc' : List UInt8}
    (henc : enc.drop (2 * decodedLen m) = []) (henc' : enc'.drop (2 * decodedLen m) = [])
    (dec : List UInt8) (slots : List DirEntry) (s : FS) :
    addToSlot m fuel ca 0 i e enc' dec slots (s.settle U)
      = (addToSlot m fuel ca 0 i e enc dec slots s).map fun (result, e, s) =>
        (result, e, s.settle U) := by
  unfold addToSlot
  simp only [journalAddOperation_settle hm, if_true, repackCluster_eq henc, repackCluster_eq henc',
    writeCluster_settle hm]
  cases journalAddOperation m ADD_OP ca i e s with
  | mk ji s' =>
    simp only
    cases writeCluster m ca _ s' with
    | mk ok s'' =>
      cases ok with
      | false =>
        exact congrArg (fun s => some (-6, storedIn e ca, s)) (registerError_settle hm _ s'')
      | true =>
        exact congrArg (fun s => some (1, storedIn e ca, s))
          (journalSolveOperation_settle hm ji s'')

theorem entryAdd_settle (fuel ca : Nat) (e : DirEntry) (s : FS) :
    entryAdd m fuel ca 0 e (s.settle U)
      = (entryAdd m fuel ca 0 e s).map fun (result, e, s) => (result, e, s.settle U) := by
  induction fuel generalizing ca s with
  | zero => rfl
  | succ fuel ih =>
    unfold entryAdd
    rcases readEncodedCluster_settle (U := U) hm ca s with ⟨hnone, hset⟩ |
      ⟨enc, enc', dec, he, he', htail, htail'⟩
    · rw [hset]
      cases hr : readEncodedCluster m ca s with
      | mk r s' =>
        rw [hr] at hnone
        obtain rfl : r = none := hnone
        rfl
    rw [he, he']
    simp only
    cases (slotsOf (entriesPerCluster m) dec).findIdx? addable with
    | some i => exact addToSlot_settle hm fuel ca i e htail htail' dec _ s
    | none =>
      simp only [addNextCluster_settle hm]
      cases addNextCluster m ca s with
      | mk next s' =>
        cases next with
        | none => rfl
        | some next =>
          simp only
          by_cases hend : next = FAT_CLUSTER_END
          · rw [if_pos hend, if_pos hend]
            rfl
          · rw [if_neg hend, if_neg hend]
            exact ih next s'

end Operations

end NiFat32
