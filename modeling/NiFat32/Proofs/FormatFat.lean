import NiFat32.Lib.Copies
import NiFat32.Proofs.FatCache
import NiFat32.Proofs.Placement

/-!
# `Proofs.FormatFat`: the FAT that the formatter writes and the one that the library reads

Both programs place FAT copies by the same hash, but the formatter reduces it modulo `ts - 32` and
the library modulo `ts - 23`. The formatter's copies are one list at several addresses
(`writeFats_eq`), so that an entry reads back from the last copy that covers its address.

`formatted_fat_agrees_iff` is the exact condition under which every entry of every copy reads back:
each copy of the library stands where the formatter put one, and no later copy of the formatter
runs into its entries. `default_fat_disagrees` is a volume of the default size.
-/

set_option autoImplicit false

namespace NiFat32.Formatter

open ByteStore

variable {o : Opt} {sz : Sizes} {passes : Nat}

/-! ### Where the copies are -/

/-- The hash of a FAT copy is below `2 ^ 19`. -/
theorem fatHash_lt (i n : Nat) : (u32 ((i + 7) * 340573321) >>> 13) % n < 2 ^ 19 := by
  apply Nat.lt_of_le_of_lt (Nat.mod_le _ _)
  rw [Nat.shiftRight_eq_div_pow]
  have hu : u32 ((i + 7) * 340573321) < 2 ^ 32 := Nat.mod_lt _ (by decide)
  omega

theorem fatSector_lt (i ts : Nat) : fatSector i ts < 2 ^ 20 := by
  have hlt : getFatSector i ts < 2 ^ 19 := fatHash_lt i _
  rw [fatSector, RESERVED_SECTORS, u32, Nat.mod_eq_of_lt (by omega)]
  omega

theorem sectorOff_fatSector (i ts : Nat) : sectorOff (fatSector i ts) = fatSector i ts * 512 := by
  have hlt := fatSector_lt i ts
  rw [sectorOff, BYTES_PER_SECTOR, u32, Nat.mod_eq_of_lt (by omega)]

/-- The addresses of the copies. -/
def fatAddresses (o : Opt) (ts : Nat) : List Nat :=
  (List.range o.fc.toNat).map fun i => fatSector i ts * 512

theorem writeFats_eq (table : Nat → Nat) (fatSize ts : Nat) (d : Nat → UInt8) :
    writeFats o table fatSize ts d
      = writeAll d (fatAddresses o ts) (encodedFat table fatSize) := by
  rw [writeFats, writeAll, fatAddresses, List.foldl_map]
  simp only [sectorOff_fatSector, pwrite]

theorem fatAddresses_getElem? (o : Opt) (ts j a : Nat) :
    (fatAddresses o ts)[j]? = some a ↔ j < o.fc.toNat ∧ a = fatSector j ts * 512 := by
  rw [fatAddresses, List.getElem?_map]
  by_cases hj : j < o.fc.toNat
  · rw [List.getElem?_range hj]
    simp only [Option.map_some, Option.some.injEq, hj, true_and]
    exact eq_comm
  · rw [List.getElem?_eq_none (by simpa using hj)]
    simp [hj]

/-- The copies start at whole entries. -/
theorem fatAddresses_dvd (ts : Nat) : ∀ a ∈ fatAddresses o ts, 8 ∣ a := by
  intro a ha
  cases List.mem_iff_getElem?.mp ha with
  | intro j hj =>
    rw [fatAddresses_getElem?] at hj
    omega

/-! ### What a copy holds -/

/-- One piece of a concatenation of pieces of one length. -/
theorem drop_take_flatMap {α : Type} {f : Nat → List α} {w n e : Nat}
    (hlen : ∀ i, (f i).length = w) (he : e < n) :
    (((List.range n).flatMap f).drop (e * w)).take w = f e := by
  have hsum : ∀ k, ((List.range k).flatMap f).length = k * w := by
    intro k
    rw [List.length_flatMap, List.map_congr_left fun i _ => hlen i, List.map_const',
      List.sum_replicate_nat, List.length_range]
  obtain ⟨k, rfl⟩ : ∃ k, n = e + (k + 1) := ⟨n - e - 1, by omega⟩
  rw [List.range_add, List.flatMap_append, ← hsum e, List.drop_left, List.range_succ_eq_map,
    List.map_cons, List.flatMap_cons]
  show (f e ++ _).take w = f e
  rw [← hlen e, List.take_left]

/-- The encoded table is the list of its encoded entries. -/
theorem packMemory_tableBytes (table : Nat → Nat) (n : Nat) :
    packMemory (tableBytes table n) = (List.range n).flatMap fun ca => cellBytes (table ca) := by
  rw [tableBytes, packMemory, List.flatMap_assoc]
  rfl

theorem length_tableBytes (table : Nat → Nat) (n : Nat) : (tableBytes table n).length = 4 * n := by
  rw [tableBytes, List.length_flatMap, List.map_congr_left fun i _ => length_bytesOfU32 _,
    List.map_const', List.sum_replicate_nat, List.length_range, Nat.mul_comm]

/-- The length of a copy does not depend on the table, and it has whole entries. -/
theorem length_encodedFat (table : Nat → Nat) (fatSize : Nat) :
    (encodedFat table fatSize).length = fatLength fatSize := by
  have hu : u32 (fatSize * 512) < 2 ^ 32 ∧ 4 ∣ u32 (fatSize * 512) := by
    rw [u32]
    omega
  rw [encodedFat, fatLength]
  split
  · next hlt =>
    rw [length_packMemory, length_tableBytes]
    rw [BYTES_PER_SECTOR] at hlt ⊢
    have hfit : u32 (u32 (fatSize * 512) * 2) = u32 (fatSize * 512) * 2 :=
      Nat.mod_eq_of_lt (by omega)
    omega
  · exact List.length_replicate

theorem dvd_length_encodedFat (table : Nat → Nat) (fatSize : Nat) :
    8 ∣ (encodedFat table fatSize).length := by
  rw [length_encodedFat, fatLength, u32, u32]
  omega

/-- An entry of a copy that is as long as an `int` can say. -/
theorem encodedFat_entry {table : Nat → Nat} {fatSize e : Nat}
    (hfat : u32 (fatSize * 512) < 2 ^ 31) (he : e < u32 (fatSize * 512) / 4) :
    ((encodedFat table fatSize).drop (e * 8)).take 8 = cellBytes (table e) := by
  rw [encodedFat, BYTES_PER_SECTOR]
  rw [if_pos hfat, packMemory_tableBytes]
  exact drop_take_flatMap (fun i => length_cellBytes _) he

/-! ### What the library reads -/

/-- The library reads the entry of `ca` at its place in the copy, as long as the product does not
wrap. -/
theorem Mounted.read {m : Mount} (h : Mounted o sz m) (hfit : sz.Fit o) {ca : Nat}
    (hca : ca < 2 ^ 29) (i : Nat) (s : FS) :
    (readFatCopy m ca i s).1
      = leValue (unpackMemory (ByteStore.read s.medium.bytes
          ((librarySector i sz.totalSectors * 64 + ca) * 8) 8) 4) % 2 ^ 28 := by
  have hfields := h.fields hfit
  have hhash : NiFat32.getFatSector i sz.totalSectors < 2 ^ 19 := fatHash_lt i _
  have hpos : fatEntryPos m ca i
      = (librarySector i sz.totalSectors + ca * 8 / 512, ca * 8 % 512) := by
    rw [fatEntryPos, hfields.1, hfields.2.1, hfields.2.2, librarySector]
    have hoff : u32 (ca * 8) = ca * 8 := Nat.mod_eq_of_lt (by omega)
    simp only [hoff]
    rw [u32, Nat.mod_eq_of_lt (by omega)]
  have hpos0 : (fatEntryPos m ca 0).2 = ca * 8 % 512 := by
    show (fatEntryPos m ca i).2 = _
    rw [hpos]
  rw [readFatCopy_works h.works]
  show fatAt m s.medium ca i = _
  rw [fatAt, fatOffset, hpos0, hpos, h.sector, cell]
  -- an entry does not leave its sector
  have hmin : min 8 (512 - ca * 8 % 512) = 8 := by omega
  have hzero : 8 - (512 - ca * 8 % 512) = 0 := by omega
  have haddr : (librarySector i sz.totalSectors + ca * 8 / 512) * 512 + ca * 8 % 512
      = (librarySector i sz.totalSectors * 64 + ca) * 8 := by omega
  rw [hmin, hzero, haddr, List.replicate_zero, List.append_nil]

/-- The value of an encoded entry. -/
theorem leValue_cell (x : Nat) : leValue (unpackMemory (cellBytes x) 4) % 2 ^ 28 = x % 2 ^ 28 := by
  have hround := unpackMemory_packMemory (bytesOfU32 (UInt32.ofNat x))
  rw [length_bytesOfU32] at hround
  rw [cellBytes, hround]
  have hback : leValue (bytesOfU32 (UInt32.ofNat x)) = (UInt32.ofNat x).toNat :=
    congrArg UInt32.toNat (u32OfBytes_bytesOfU32 (UInt32.ofNat x))
  rw [hback, UInt32.toNat_ofNat']
  omega

/-! ### When the entries read back -/

/-- The library finds its copy `i`: the formatter wrote a copy at that sector, and each later one
is at the same place, ends in front of it, or begins behind its entries. -/
def CopyKept (o : Opt) (sz : Sizes) (i : Nat) : Prop :=
  ∃ j < o.fc.toNat, fatSector j sz.totalSectors = librarySector i sz.totalSectors ∧
    ∀ k < o.fc.toNat, j < k →
      fatSector k sz.totalSectors = fatSector j sz.totalSectors ∨
      fatSector k sz.totalSectors + 2 * sz.fatSize ≤ fatSector j sz.totalSectors ∨
      fatSector j sz.totalSectors * 64 + sz.totalClusters ≤ fatSector k sz.totalSectors * 64

instance (o : Opt) (sz : Sizes) (i : Nat) : Decidable (CopyKept o sz i) := by
  unfold CopyKept
  infer_instance

/-- The condition for the formatter and the library to agree: the length of a copy is one that an
`int` can say, and every copy is found. A volume without clusters has no entries. -/
def FatAgrees (o : Opt) (sz : Sizes) : Prop :=
  sz.totalClusters ≤ 2 ∨ ∀ i < o.fc.toNat, sz.fatSize < 2 ^ 22 ∧ CopyKept o sz i

/-- The library reads the table back from every copy. -/
def ReadsBack (o : Opt) (sz : Sizes) (m : Mount) (table : Nat → Nat) (s : FS) : Prop :=
  ∀ ca, 2 ≤ ca → ca < sz.totalClusters → ∀ i < o.fc.toNat,
    (readFatCopy m ca i s).1 = table ca % 2 ^ 28

/-- A copy that is kept is the last one over each of its entries. -/
theorem CopyKept.last {i ca : Nat} (h : CopyKept o sz i) (hfit : sz.Fit o)
    (hca : ca < sz.totalClusters) :
    lastOver (sz.fatSize * 1024) ((librarySector i sz.totalSectors * 64 + ca) * 8)
      (fatAddresses o sz.totalSectors) = some (librarySector i sz.totalSectors * 512) := by
  have hroom := hfit.room
  cases h with
  | intro j hj =>
    rw [← hj.2.1]
    apply lastOver_of_kept ((fatAddresses_getElem? o sz.totalSectors j _).mpr ⟨hj.1, rfl⟩)
    · rw [Covers]
      omega
    · intro k b hk hb
      rw [fatAddresses_getElem?] at hb
      rw [hb.2, Covers]
      have hlater := hj.2.2 k hb.1 hk
      omega

theorem ReadsBack.of_agrees {m : Mount} (hm : Mounted o sz m) (hfit : sz.Fit o)
    (h : FatAgrees o sz) (table : Nat → Nat) (d : Nat → UInt8) {s : FS}
    (hs : s.medium.bytes = writeFats o table sz.fatSize sz.totalSectors d) :
    ReadsBack o sz m table s := by
  intro ca hlow hca i hi
  have hkept := h.resolve_left (by omega) i hi
  have hroom := hfit.room
  have hlen : (encodedFat table sz.fatSize).length = sz.fatSize * 1024 := by
    rw [length_encodedFat, fatLength, u32, u32]
    omega
  have hlast := hkept.2.last hfit hca
  rw [← hlen] at hlast
  rw [hm.read hfit (by omega), hs, writeFats_eq,
    read_writeAll (dvd_length_encodedFat table sz.fatSize) (fatAddresses_dvd _) hlast]
  have hpos : (librarySector i sz.totalSectors * 64 + ca) * 8
      - librarySector i sz.totalSectors * 512 = ca * 8 := by omega
  have hu : u32 (sz.fatSize * 512) = sz.fatSize * 512 := Nat.mod_eq_of_lt (by omega)
  rw [hpos, encodedFat_entry (by omega) (by omega), leValue_cell]

/-- The table with one entry that is not zero. -/
def unitTable (ca : Nat) : Nat → Nat := fun k => if k = ca then 1 else 0

/-- A state of the library over another device. -/
def overDevice (s : FS) (bytes : Nat → UInt8) : FS :=
  { s with medium := { s.medium with bytes := bytes } }

theorem overDevice_bytes (s : FS) (bytes : Nat → UInt8) :
    (overDevice s bytes).medium.bytes = bytes := rfl

section Converse

variable {m : Mount} {d : Nat → UInt8} {s : FS}

/-- Where all tables read back, the last copy over an entry is the one that starts at the sector
of the library's copy. -/
theorem lastOver_of_readsBack (hm : Mounted o sz m) (hfit : sz.Fit o)
    (h : ∀ table, ReadsBack o sz m table
      (overDevice s (writeFats o table sz.fatSize sz.totalSectors d)))
    {ca : Nat} (hlow : 2 ≤ ca) (hca : ca < sz.totalClusters) (hsmall : ca < 2 ^ 29) {i : Nat}
    (hi : i < o.fc.toNat) :
    u32 (sz.fatSize * 512) < 2 ^ 31 ∧
      lastOver (fatLength sz.fatSize) ((librarySector i sz.totalSectors * 64 + ca) * 8)
        (fatAddresses o sz.totalSectors) = some (librarySector i sz.totalSectors * 512) := by
  -- two tables that differ in this entry only
  have hzero := h (fun _ => 0) ca hlow hca i hi
  have hunit := h (unitTable ca) ca hlow hca i hi
  rw [hm.read hfit hsmall] at hzero hunit
  simp only [overDevice, writeFats_eq] at hzero hunit
  have hone : unitTable ca ca % 2 ^ 28 = 1 := by simp [unitTable]
  rw [hone] at hunit
  have hdvd := fatAddresses_dvd (o := o) sz.totalSectors
  have hlen := fun table => length_encodedFat table sz.fatSize
  cases hlast : lastOver (fatLength sz.fatSize)
      ((librarySector i sz.totalSectors * 64 + ca) * 8) (fatAddresses o sz.totalSectors) with
  | none =>
    rw [read_writeAll_none (dvd_length_encodedFat _ _) hdvd (by rw [hlen, hlast])] at hzero hunit
    omega
  | some a =>
    rw [read_writeAll (dvd_length_encodedFat _ _) hdvd (by rw [hlen, hlast])] at hzero hunit
    have hcov := lastOver_covers hlast
    have hmem := lastOver_mem hlast
    cases List.mem_iff_getElem?.mp hmem with
    | intro j hj =>
      rw [fatAddresses_getElem?] at hj
      rw [Covers] at hcov
      by_cases hpacked : u32 (sz.fatSize * 512) < 2 ^ 31
      · refine ⟨hpacked, ?_⟩
        -- the entry of the copy that lies at the address
        obtain ⟨e, he⟩ : ∃ e, (librarySector i sz.totalSectors * 64 + ca) * 8 - a = e * 8 :=
          ⟨librarySector i sz.totalSectors * 64 + ca - fatSector j sz.totalSectors * 64, by omega⟩
        have hfits : fatLength sz.fatSize = u32 (sz.fatSize * 512) * 2 :=
          Nat.mod_eq_of_lt (by omega)
        have hfour : 4 ∣ u32 (sz.fatSize * 512) := by
          rw [u32]
          omega
        have hin : e < u32 (sz.fatSize * 512) / 4 := by omega
        rw [he, encodedFat_entry hpacked hin, leValue_cell] at hzero hunit
        have heq : e = ca := by
          by_contra hne
          rw [unitTable, if_neg hne] at hunit
          omega
        congr 1
        omega
      · -- nothing of the table is written
        have hsame : encodedFat (unitTable ca) sz.fatSize = encodedFat (fun _ => 0) sz.fatSize := by
          rw [encodedFat, encodedFat, BYTES_PER_SECTOR]
          rw [if_neg hpacked, if_neg hpacked]
        rw [hsame] at hunit
        omega

/-- A length that an `int` cannot say leaves entries out. -/
theorem fatSize_lt_of_readsBack (hm : Mounted o sz m) (hfit : sz.Fit o)
    (h : ∀ table, ReadsBack o sz m table
      (overDevice s (writeFats o table sz.fatSize sz.totalSectors d)))
    (htc : 2 < sz.totalClusters) {i : Nat} (hi : i < o.fc.toNat) : sz.fatSize < 2 ^ 22 := by
  by_contra hlarge
  have hroom := hfit.room
  have hbound := hfit.bound
  have hpacked := (lastOver_of_readsBack hm hfit h (Nat.le_refl 2) htc (by decide) hi).1
  have hwrap : u32 (sz.fatSize * 512) + 2 ^ 32 ≤ sz.fatSize * 512 ∧
      4 ∣ u32 (sz.fatSize * 512) := by
    rw [u32] at hpacked ⊢
    omega
  -- the first entry behind the end of a copy
  generalize hca : max 2 (u32 (sz.fatSize * 512) / 4) = ca
  have hlow : 2 ≤ ca := hca ▸ Nat.le_max_left _ _
  have hend := (lastOver_of_readsBack hm hfit h hlow (by omega) (by omega) hi).2
  have hfits : fatLength sz.fatSize = u32 (sz.fatSize * 512) * 2 :=
    Nat.mod_eq_of_lt (by omega)
  have hcov := lastOver_covers hend
  rw [hfits, Covers] at hcov
  omega

theorem copyKept_of_readsBack (hm : Mounted o sz m) (hfit : sz.Fit o)
    (h : ∀ table, ReadsBack o sz m table
      (overDevice s (writeFats o table sz.fatSize sz.totalSectors d)))
    (htc : 2 < sz.totalClusters) {i : Nat} (hi : i < o.fc.toNat) : CopyKept o sz i := by
  have hfat := fatSize_lt_of_readsBack hm hfit h htc hi
  have hroom := hfit.room
  have hlen : fatLength sz.fatSize = sz.fatSize * 1024 := by
    rw [fatLength, u32, u32]
    omega
  have hlast := fun (ca : Nat) (hlow : 2 ≤ ca) (hca : ca < sz.totalClusters) =>
    (lastOver_of_readsBack hm hfit h hlow hca (by omega) hi).2
  rw [hlen] at hlast
  -- the last copy over the first entry
  obtain ⟨j, hj, hlater⟩ := lastOver_position (hlast 2 (Nat.le_refl 2) htc)
  rw [fatAddresses_getElem?] at hj
  have hne : ∀ k < o.fc.toNat, j < k → ¬ Covers (sz.fatSize * 1024)
      ((librarySector i sz.totalSectors * 64 + 2) * 8) (fatSector k sz.totalSectors * 512) := by
    intro k hk hjk
    exact hlater k _ hjk ((fatAddresses_getElem? o _ k _).mpr ⟨hk, rfl⟩)
  refine ⟨j, hj.1, by omega, fun k hk hjk => ?_⟩
  have hk2 := hne k hk hjk
  rw [Covers] at hk2
  by_cases hentry : librarySector i sz.totalSectors ≤ fatSector k sz.totalSectors ∧
      fatSector k sz.totalSectors * 64 < librarySector i sz.totalSectors * 64 + sz.totalClusters
  · -- a later copy that begins at an entry is not the last one over it
    exfalso
    by_cases hat : fatSector k sz.totalSectors = librarySector i sz.totalSectors
    · omega
    obtain ⟨j', hj', hlater'⟩ := lastOver_position (hlast
      (fatSector k sz.totalSectors * 64 - librarySector i sz.totalSectors * 64) (by omega)
        (by omega))
    rw [fatAddresses_getElem?] at hj'
    have hle : j' ≤ j := by
      by_contra hlt
      have hcov := hne j' hj'.1 (by omega)
      rw [Covers] at hcov
      omega
    apply hlater' k _ (by omega) ((fatAddresses_getElem? o _ k _).mpr ⟨hk, rfl⟩)
    rw [Covers]
    omega
  · omega

end Converse

/-- The library reads every entry of every copy as the formatter wrote it, whatever the table is,
exactly when it finds its copies and no later one runs into them. -/
theorem formatted_fat_agrees_iff (h : sizes o passes = some sz) {m : Mount}
    (hm : Mounted o sz m) (s : FS) (d : Nat → UInt8) :
    (∀ table, ReadsBack o sz m table
      (overDevice s (writeFats o table sz.fatSize sz.totalSectors d))) ↔ FatAgrees o sz := by
  have hfit := sizes_fit h
  constructor
  · intro hreads
    by_cases htc : sz.totalClusters ≤ 2
    · exact Or.inl htc
    · right
      intro i hi
      exact ⟨fatSize_lt_of_readsBack hm hfit hreads (by omega) hi,
        copyKept_of_readsBack hm hfit hreads (by omega) hi⟩
  · intro hagrees table
    exact ReadsBack.of_agrees hm hfit hagrees table d rfl

/-! ### What the formatter writes -/

section Written

variable {d : Nat → UInt8} {k : Nat}

/-- A write of at most `n` sectors stays in its region. -/
theorem pwrite_outside {data : List UInt8} {sector n : Nat} (hlen : data.length ≤ n * 512)
    (hout : ¬ (⟨placedAt sector, n⟩ : Extent).Has (k / 512)) :
    pwrite d data (sectorOff sector) k = d k := by
  have hoff : sectorOff sector = placedAt sector * 512 := by
    rw [placedAt, sectorOff, u32, BYTES_PER_SECTOR]
    omega
  have hout' : ¬ (placedAt sector ≤ k / 512 ∧ k / 512 < placedAt sector + n) := hout
  rw [pwrite, hoff]
  apply write_of_outside
  omega

theorem writeBs_outside (o : Opt) (ts fatSize : Nat)
    (hout : ∀ i ∈ bootCopies o, ¬ (⟨placedAt (getBootSector i ts), 1⟩ : Extent).Has (k / 512)) :
    writeBs o ts fatSize d k = d k := by
  have hbs : (packMemory (bootSector o ts fatSize).bytes).length ≤ 1 * 512 := by
    rw [length_packMemory, BootSector.length_bytes]
    decide
  rw [writeBs]
  generalize bootCopies o = is at hout ⊢
  induction is generalizing d with
  | nil => rfl
  | cons i is ih =>
    rw [List.foldl_cons, ih fun j hj => hout j (List.mem_cons_of_mem i hj)]
    have hi := hout i List.mem_cons_self
    rw [pwrite_outside hbs hi, pwrite_outside (by rw [List.length_replicate]) hi]

theorem wipe_outside (o : Opt) {sectors : List Nat}
    (hout : ∀ sector ∈ sectors, ¬ (⟨placedAt sector, o.spc.toNat⟩ : Extent).Has (k / 512)) :
    wipe o sectors d k = d k := by
  rw [wipe]
  induction sectors generalizing d with
  | nil => rfl
  | cons sector sectors ih =>
    rw [List.foldl_cons, ih fun s hs => hout s (List.mem_cons_of_mem sector hs)]
    apply pwrite_outside _ (hout sector List.mem_cons_self)
    rw [List.length_replicate, BYTES_PER_SECTOR, Nat.mul_comm]

theorem writeFats_outside (o : Opt) (table : Nat → Nat) (fatSize ts : Nat)
    (hout : ∀ i < o.fc.toNat,
      ¬ (⟨placedAt (fatSector i ts), fatLength fatSize / 512⟩ : Extent).Has (k / 512)) :
    writeFats o table fatSize ts d k = d k := by
  have hlen : (encodedFat table fatSize).length ≤ fatLength fatSize / 512 * 512 := by
    rw [length_encodedFat, fatLength, u32, u32]
    omega
  have hrange : ∀ i ∈ List.range o.fc.toNat,
      ¬ (⟨placedAt (fatSector i ts), fatLength fatSize / 512⟩ : Extent).Has (k / 512) :=
    fun i hi => hout i (List.mem_range.mp hi)
  rw [writeFats]
  generalize List.range o.fc.toNat = is at hrange ⊢
  induction is generalizing d with
  | nil => rfl
  | cons i is ih =>
    rw [List.foldl_cons, ih fun j hj => hrange j (List.mem_cons_of_mem i hj)]
    exact pwrite_outside hlen (hrange i List.mem_cons_self)

/-- The image changes in the regions of the metadata and in the root directory only. -/
theorem formatted_outside (o : Opt) (sz : Sizes) (table : Nat → Nat)
    (hout : ∀ r ∈ metadataRegions o sz, ¬ r.Has (k / 512))
    (hroot : k < sz.dataStart ∨ sz.dataStart + CLUSTER_SIZE ≤ k) :
    writeFats o table sz.fatSize sz.totalSectors (formatAreas o sz d) k = d k := by
  have hmem : ∀ r, r ∈ metadataRegions o sz ↔
      (∃ i ∈ bootCopies o, ⟨placedAt (getBootSector i sz.totalSectors), 1⟩ = r) ∨
      (∃ i < o.fc.toNat, ⟨placedAt (fatSector i sz.totalSectors), fatLength sz.fatSize / 512⟩ = r) ∨
      (∃ sector, (sector ∈ journalSectors o sz.totalSectors ∨
        sector ∈ errorSectors o sz.totalSectors) ∧ ⟨placedAt sector, o.spc.toNat⟩ = r) := by
    intro r
    simp only [metadataRegions, List.mem_append, List.mem_map, List.mem_range, or_assoc]
  rw [writeFats_outside o table _ _ fun i hi =>
    hout _ ((hmem _).mpr (Or.inr (Or.inl ⟨i, hi, rfl⟩)))]
  rw [formatAreas, writeRootDirectory, pwrite]
  rw [write_of_outside _ _ _ _ (by rw [List.length_replicate]; exact hroot)]
  rw [writeErrors, wipe_outside o fun sector hs =>
    hout _ ((hmem _).mpr (Or.inr (Or.inr ⟨sector, Or.inr hs, rfl⟩)))]
  rw [writeJournals, wipe_outside o fun sector hs =>
    hout _ ((hmem _).mpr (Or.inr (Or.inr ⟨sector, Or.inl hs, rfl⟩)))]
  exact writeBs_outside o _ _ fun i hi => hout _ ((hmem _).mpr (Or.inl ⟨i, hi, rfl⟩))

end Written

/-! ### Two volumes -/

/-- The options of a volume of 204 megabytes. -/
def largeOptions : Opt := { Opt.default with vSize := 204 }

def largeSizes : Sizes :=
  { totalSectors := 417792, fatSize := 407, totalClusters := 52016, dataStart := 849920 }

/-- On the large volume the library finds the copies, and every table reads back. -/
theorem formatted_fat_agrees_large : FatAgrees largeOptions largeSizes ∧
    ∀ table, ReadsBack largeOptions largeSizes (formattedMount largeOptions largeSizes) table
      (overDevice (zeroFS (oneFile 2 0))
        (writeFats largeOptions table largeSizes.fatSize largeSizes.totalSectors fun _ => 0)) := by
  have hsizes : sizes largeOptions 8 = some largeSizes := by decide
  have hagrees : FatAgrees largeOptions largeSizes := Or.inr (by decide)
  exact ⟨hagrees,
    (formatted_fat_agrees_iff hsizes (formattedMount_mounted _ _) _ _).mpr hagrees⟩

/-- With the default options the library looks for the copy `0` at the sector 28951, the formatter
wrote it at 28969, and no copy lies at the place. The entry of the root directory reads as zero. -/
theorem default_fat_disagrees : ∃ image,
    formatEmpty Opt.default 8 (fun _ => 0) = some image ∧
    ¬ ReadsBack Opt.default defaultSizes (formattedMount Opt.default defaultSizes)
      (freshTable Opt.default defaultSizes fun _ => 0)
      (overDevice (zeroFS (oneFile 2 0)) image) := by
  have hfit := sizes_fit sizes_default
  have hm := formattedMount_mounted Opt.default defaultSizes
  refine ⟨writeFats Opt.default (freshTable Opt.default defaultSizes fun _ => 0)
    defaultSizes.fatSize defaultSizes.totalSectors
        (formatAreas Opt.default defaultSizes fun _ => 0),
    by rw [formatEmpty, sizes_default]; rfl, fun hreads => ?_⟩
  have hentry := hreads 2 (Nat.le_refl 2) (by decide) 0 (by decide)
  rw [hm.read hfit (by decide)] at hentry
  -- the formatter wrote nothing at the place
  have hzeros : ByteStore.read (writeFats Opt.default
      (freshTable Opt.default defaultSizes fun _ => 0) defaultSizes.fatSize
      defaultSizes.totalSectors (formatAreas Opt.default defaultSizes fun _ => 0))
      ((librarySector 0 defaultSizes.totalSectors * 64 + 2) * 8) 8 = List.replicate 8 0 := by
    have hsector : librarySector 0 defaultSizes.totalSectors = 28951 := by decide
    apply List.ext_getElem?
    intro k
    rw [getElem?_read, List.getElem?_replicate]
    by_cases hk : k < 8
    · rw [if_pos hk, if_pos hk, hsector, formatted_outside]
      · have hdiv : ((28951 * 64 + 2) * 8 + k) / 512 = 28951 := by omega
        rw [hdiv]
        decide
      · right
        show 278528 + 4096 ≤ _
        omega
    · rw [if_neg hk, if_neg hk]
  have hvalue : leValue (List.replicate 4 0) % 2 ^ 28 = 0 := by decide
  rw [overDevice_bytes, hzeros, unpackMemory_replicate_zero 4, hvalue] at hentry
  -- the entry of the table is not zero
  have htable : freshTable Opt.default defaultSizes (fun _ => 0) 2 = FAT_CLUSTER_FREE := by
    rw [freshTable] at hentry ⊢
    refine initializeFat_masked _ ?_ _ hentry.symm
    intro k _
    exact ite_self 0
  rw [freshTable_free_iff hfit _ (by decide)] at htable
  exact htable (Or.inl (Nat.le_refl 2))

end NiFat32.Formatter
