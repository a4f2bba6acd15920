import NiFat32.Core.Init
import NiFat32.Proofs.Fat
import Mathlib.Data.Nat.Find

/-!
# `Proofs.Mount`: mounting over damaged boot sectors

`NIFAT32_init` tries one copy of the boot sector after the other. `initFrom_invalid` and
`initFrom_valid` say what it does from a copy on, by induction on the copies that are left, and
`init_survives` puts them together: the mount takes the geometry of the first valid copy and
leaves that boot sector in every copy.
-/

set_option autoImplicit false

namespace NiFat32

open ByteStore

variable {m : Mount} {s s' : FS}

/-- The sector of the boot copy `i`. -/
def bootAt (m : Mount) (ts : Nat) (s : FS) (i : Nat) : List UInt8 :=
  read s.medium.bytes (getBootSector i ts * m.sectorSize) m.sectorSize

/-- The boot sector that the copy `i` decodes to. -/
def copyBoot (m : Mount) (ts : Nat) (s : FS) (i : Nat) : BootSector := decodeBoot (bootAt m ts s i)

/-- The parameters of a mount without errors, journals and caches. -/
structure Plain (p : Params) : Prop where
  ec : p.ec = 0
  jc : p.jc = 0
  cache : p.fatCache = NO_CACHE

/-- The mount that `NIFAT32_init` leaves for a boot sector. -/
def mountedOn (m : Mount) (p : Params) (b : BootSector) : Mount :=
  m.withInfo (geometryOf (startInfo m.fi p) p b)

/-- The state after a mount without journals and caches on the copy `i`: the other copies are
rewritten unless it is the first. -/
def afterMount (m : Mount) (p : Params) (i : Nat) (sector : List UInt8) (s : FS) : FS :=
  ctableInit (if 0 < i then
    rewriteBoots (mountedOn m p (decodeBoot sector)) p.ts.toNat i sector
      (List.range p.bsCount.toNat) s
    else s)

/-! ### Two requests to whole sectors -/

theorem dskReadSector_eq (hw : m.Works) (d : Medium) (sa : Nat) :
    dskReadSector m d sa m.sectorSize = some (read d.bytes (sa * m.sectorSize) m.sectorSize) := by
  unfold dskReadSector
  rw [readSector_eq hw, Nat.add_zero]

theorem dskWriteSector_bytes (hw : m.Works) (d : Medium) (sa : Nat) (data : List UInt8) :
    (dskWriteSector m d sa data).2.bytes = write d.bytes (sa * m.sectorSize) data := by
  unfold dskWriteSector
  rw [writeSector_eq hw, Nat.add_zero]

/-- Without error areas an error leaves the device alone. -/
theorem registerError_medium (h : m.fi.errorsCount = 0) (code : ErrorCode) (s : FS) :
    (registerError m code s).medium = s.medium := by
  have hwrite : ∀ index c s, writeError m index c s = (true, s) := by
    intro index c s
    unfold writeError
    rw [h]
    rfl
  unfold registerError errorsRegisterError dumpInfo
  rw [hwrite]
  simp only [hwrite]

/-! ### The copies are rewritten -/

/-- After the rewrite, the copies it went over and the copies that were right before hold the
sector. -/
theorem rewriteBoots_reads (hw : m.Works) (ts bsNum : Nat) {sector : List UInt8}
    (hlen : sector.length = m.sectorSize) (is : List Nat) (h : bootAt m ts s bsNum = sector) :
    ∀ k, k ∈ is ∨ bootAt m ts s k = sector →
      bootAt m ts (rewriteBoots m ts bsNum sector is s) k = sector := by
  induction is generalizing s with
  | nil => exact fun k hk => hk.resolve_left List.not_mem_nil
  | cons i is ih =>
    intro k hk
    unfold rewriteBoots
    rw [List.foldl_cons]
    by_cases hi : i = bsNum
    · rw [if_pos hi]
      refine ih h k ?_
      cases hk with
      | inl hmem =>
        cases List.mem_cons.mp hmem with
        | inl heq =>
          rw [heq, hi]
          exact Or.inr h
        | inr hmem => exact Or.inl hmem
      | inr hright => exact Or.inr hright
    · rw [if_neg hi]
      -- every copy after this write: the sector, or what it was
      have hstep : ∀ j, bootAt m ts { s with medium :=
          (dskWriteSector m s.medium (getBootSector i ts) sector).2 } j
          = if getBootSector j ts = getBootSector i ts then sector else bootAt m ts s j := by
        intro j
        show read (dskWriteSector m s.medium (getBootSector i ts) sector).2.bytes _ _ = _
        rw [dskWriteSector_bytes hw, read_write_block _ _ _ hlen]
        rfl
      have hkeep : ∀ j, bootAt m ts s j = sector → bootAt m ts { s with medium :=
          (dskWriteSector m s.medium (getBootSector i ts) sector).2 } j = sector := by
        intro j hj
        rw [hstep, hj]
        split <;> rfl
      refine ih (hkeep bsNum h) k ?_
      cases hk with
      | inl hmem =>
        cases List.mem_cons.mp hmem with
        | inl heq =>
          rw [heq, hstep, if_pos rfl]
          exact Or.inr rfl
        | inr hmem => exact Or.inl hmem
      | inr hright => exact Or.inr (hkeep k hright)

/-! ### The search for a valid copy -/

section Search

variable {p : Params} {left : Nat}

theorem withInfo_works (hw : m.Works) (fi : FatData) : (m.withInfo fi).Works := ⟨hw.read, hw.write⟩

/-- One copy: it is mounted when it verifies, and passed over when it does not. -/
theorem initFrom_succ (fuel : Nat) (hec : p.ec = 0) (hw : m.Works) (hss : m.sectorSize ≠ 0)
    {i : Nat} (hi : i = p.bsCount.toNat - (left + 1)) :
    initFrom fuel p (left + 1) m s =
      if (copyBoot m p.ts.toNat s i).Valid then
        mountFrom (m.withInfo (startInfo m.fi p)) fuel p i (bootAt m p.ts.toNat s i) s
      else initFrom fuel p left (m.withInfo (startInfo m.fi p))
        (registerError (m.withInfo (startInfo m.fi p)) .checksumCheckError s) := by
  have hread : dskReadSector (m.withInfo (startInfo m.fi p)) s.medium (getBootSector i p.ts.toNat)
      m.sectorSize = some (bootAt m p.ts.toNat s i) := dskReadSector_eq (withInfo_works hw _) _ _
  have hsize : (m.withInfo (startInfo m.fi p)).sectorSize = m.sectorSize := rfl
  rw [initFrom, if_neg hss]
  simp only [if_pos hec, hsize, ← hi, hread]
  rfl

/-- A failed check leaves the copies as they are. -/
theorem copyBoot_registerError (hec : p.ec = 0) (i : Nat) :
    copyBoot (m.withInfo (startInfo m.fi p)) p.ts.toNat
      (registerError (m.withInfo (startInfo m.fi p)) .checksumCheckError s) i
      = copyBoot m p.ts.toNat s i := by
  have hcount : (m.withInfo (startInfo m.fi p)).fi.errorsCount = 0 := by
    show p.ec.toNat = 0
    rw [hec]
    rfl
  unfold copyBoot bootAt
  rw [registerError_medium hcount]
  rfl

/-- The mount fails when no copy from here on verifies. -/
theorem initFrom_invalid (fuel : Nat) (hec : p.ec = 0) (hw : m.Works) (hss : m.sectorSize ≠ 0)
    (hleft : left ≤ p.bsCount.toNat)
    (hbad : ∀ i, p.bsCount.toNat - left ≤ i → i < p.bsCount.toNat →
      ¬ (copyBoot m p.ts.toNat s i).Valid) :
    ∃ m' s', initFrom fuel p left m s = some (false, m', s') := by
  induction left generalizing m s with
  | zero => exact ⟨m, s, rfl⟩
  | succ left ih =>
    have hv := hbad _ (Nat.le_refl _) (by omega)
    rw [initFrom_succ fuel hec hw hss rfl, if_neg hv]
    refine ih (withInfo_works hw _) hss (by omega) fun i hlo hi => ?_
    rw [copyBoot_registerError hec]
    exact hbad i (by omega) hi

/-- The mount takes the first copy from here on that verifies. -/
theorem initFrom_valid (fuel : Nat) (hec : p.ec = 0) (hw : m.Works) (hss : m.sectorSize ≠ 0)
    (hleft : left ≤ p.bsCount.toNat) {i : Nat} (hlo : p.bsCount.toNat - left ≤ i)
    (hi : i < p.bsCount.toNat) (hv : (copyBoot m p.ts.toNat s i).Valid)
    (hbad : ∀ j, p.bsCount.toNat - left ≤ j → j < i → ¬ (copyBoot m p.ts.toNat s j).Valid) :
    ∃ s₁, s₁.medium = s.medium ∧ initFrom fuel p left m s
      = mountFrom (m.withInfo (startInfo m.fi p)) fuel p i (bootAt m p.ts.toNat s i) s₁ := by
  induction left generalizing m s with
  | zero => omega
  | succ left ih =>
    rcases Nat.eq_or_lt_of_le hlo with heq | hlt
    · refine ⟨s, rfl, ?_⟩
      rw [initFrom_succ fuel hec hw hss heq.symm, if_pos hv]
    · have hnot := hbad _ (Nat.le_refl _) hlt
      rw [initFrom_succ fuel hec hw hss rfl, if_neg hnot]
      have hsame := copyBoot_registerError (m := m) (s := s) hec
      have hcount : (m.withInfo (startInfo m.fi p)).fi.errorsCount = 0 := by
        show p.ec.toNat = 0
        rw [hec]
        rfl
      have hmedium := registerError_medium hcount .checksumCheckError s
      obtain ⟨s₁, hs₁, heq⟩ := ih (m := m.withInfo (startInfo m.fi p)) (withInfo_works hw _) hss
        (by omega) (by omega) ((hsame i).symm ▸ hv)
        fun j hj hji => (hsame j).symm ▸ hbad j (by omega) hji
      refine ⟨s₁, hs₁.trans hmedium, heq.trans ?_⟩
      unfold bootAt
      rw [hmedium]
      rfl

end Search

/-! ### The mount -/

/-- The copy `i` is the first one that verifies. -/
structure FirstValid (m : Mount) (p : Params) (s : FS) (i : Nat) : Prop where
  lt : i < p.bsCount.toNat
  valid : (copyBoot m p.ts.toNat s i).Valid
  first : ∀ j < i, ¬ (copyBoot m p.ts.toNat s j).Valid

/-- Some copy verifies exactly when there is a first one. -/
theorem exists_firstValid {p : Params} :
    (∃ i < p.bsCount.toNat, (copyBoot m p.ts.toNat s i).Valid) ↔ ∃ i, FirstValid m p s i := by
  constructor
  · intro h
    classical
    have hspec := Nat.find_spec h
    exact ⟨Nat.find h, hspec.1, hspec.2, fun j hj hv =>
      Nat.find_min h hj ⟨Nat.lt_trans hj hspec.1, hv⟩⟩
  · rintro ⟨i, hi⟩
    exact ⟨i, hi.lt, hi.valid⟩

/-- Without journals and caches the mount on a copy is `afterMount`. -/
theorem mountFrom_plain (fuel : Nat) {p : Params} (hp : Plain p) {i : Nat} {sector : List UInt8}
    (hbps : (decodeBoot sector).bytesPerSector ≠ 0) :
    mountFrom (m.withInfo (startInfo m.fi p)) fuel p i sector s
      = some (true, mountedOn m p (decodeBoot sector), afterMount m p i sector s) := by
  simp only [mountFrom, if_neg hbps, if_pos hp.jc, hp.cache]
  rfl

/-- After a mount on the copy `i`, every copy decodes to its boot sector. -/
theorem copyBoot_afterMount (hw : m.Works) {p : Params} {i : Nat} (hi : 0 < i) {k : Nat}
    (hk : k < p.bsCount.toNat) {sector : List UInt8} (hsector : bootAt m p.ts.toNat s i = sector) :
    copyBoot m p.ts.toNat (afterMount m p i sector s) k = decodeBoot sector := by
  have hlen : sector.length = (mountedOn m p (decodeBoot sector)).sectorSize := by
    rw [← hsector]
    exact length_read _ _ _
  have hreads := rewriteBoots_reads (m := mountedOn m p (decodeBoot sector)) (s := s)
    (withInfo_works hw _) p.ts.toNat i hlen (List.range p.bsCount.toNat) hsector k
    (Or.inl (List.mem_range.mpr hk))
  unfold copyBoot afterMount
  rw [if_pos hi]
  exact congrArg decodeBoot hreads

/-- The first copy after a mount decodes to the boot sector that was mounted. -/
theorem copyBoot_zero_afterMount (hw : m.Works) {p : Params} {i : Nat} (hi : i < p.bsCount.toNat)
    {sector : List UInt8} (hsector : bootAt m p.ts.toNat s i = sector) :
    copyBoot m p.ts.toNat (afterMount m p i sector s) 0 = decodeBoot sector := by
  rcases Nat.eq_zero_or_pos i with rfl | hpos
  · rw [← hsector]
    rfl
  · exact copyBoot_afterMount hw hpos (by omega) hsector

/-- A mount ends, succeeds exactly when some copy verifies, takes its geometry from the first such
copy, and leaves that boot sector in every copy, where a later mount finds it. -/
def MountsFirstValid (m : Mount) (fuel : Nat) (p : Params) (s : FS) : Prop :=
  ∃ r m' s', nifat32Init m fuel p s = some (r, m', s') ∧
    (r = true ↔ ∃ i < p.bsCount.toNat, (copyBoot m p.ts.toNat s i).Valid) ∧
    ∀ i, FirstValid m p s i →
      m'.fi = geometryOf (startInfo m.fi p) p (copyBoot m p.ts.toNat s i) ∧
      (0 < i → ∀ k < p.bsCount.toNat, copyBoot m p.ts.toNat s' k = copyBoot m p.ts.toNat s i) ∧
      ∀ fuel' fi, ∃ s'', nifat32Init (m.withInfo fi) fuel' p s'
        = some (true, m.withInfo { m'.fi with entryOffset := fi.entryOffset }, s'')

/-- The mount survives damaged boot sectors. -/
theorem init_survives {p : Params} (fuel : Nat) (hp : Plain p) (hnum : p.bsNum = 0) (hw : m.Works)
    (hss : 162 ≤ m.sectorSize)
    (hbps : ∀ i < p.bsCount.toNat, (copyBoot m p.ts.toNat s i).Valid →
      (copyBoot m p.ts.toNat s i).bytesPerSector ≠ 0) :
    MountsFirstValid m fuel p s := by
  have hss' : m.sectorSize ≠ 0 := by omega
  have hinit : ∀ m fuel s, nifat32Init m fuel p s = initFrom fuel p p.bsCount.toNat m s := by
    intro m fuel s
    unfold nifat32Init
    rw [hnum]
    rfl
  by_cases hex : ∃ i < p.bsCount.toNat, (copyBoot m p.ts.toNat s i).Valid
  · obtain ⟨i, hi⟩ := exists_firstValid.mp hex
    have hbps' := hbps i hi.lt hi.valid
    obtain ⟨s₁, hmedium, heq⟩ := initFrom_valid fuel hp.ec hw hss' (Nat.le_refl _)
      (by omega) hi.lt hi.valid fun j _ hj => hi.first j hj
    rw [mountFrom_plain fuel hp hbps'] at heq
    have hsector : bootAt m p.ts.toNat s₁ i = bootAt m p.ts.toNat s i := by
      unfold bootAt
      rw [hmedium]
    refine ⟨true, _, _, (hinit m fuel s).trans heq, ⟨fun _ => hex, fun _ => rfl⟩, ?_⟩
    intro k hk
    obtain rfl : k = i := by
      rcases Nat.lt_trichotomy k i with hlt | heq | hgt
      · exact absurd hk.valid (hi.first k hlt)
      · exact heq
      · exact absurd hi.valid (hk.first i hgt)
    refine ⟨rfl, fun hpos j hj => copyBoot_afterMount hw hpos hj hsector, ?_⟩
    intro fuel' fi
    -- the later mount finds the boot sector in the first copy
    have hzero : copyBoot (m.withInfo fi) p.ts.toNat
        (afterMount m p k (bootAt m p.ts.toNat s k) s₁) 0 = copyBoot m p.ts.toNat s k :=
      copyBoot_zero_afterMount hw hi.lt hsector
    have hvalid := hi.valid
    rw [← hzero] at hvalid hbps'
    obtain ⟨s₂, -, heq₂⟩ := initFrom_valid fuel' hp.ec (withInfo_works hw fi) hss' (Nat.le_refl _)
      (by omega) (Nat.lt_of_le_of_lt (Nat.zero_le _) hi.lt) hvalid fun j _ hj => by omega
    rw [mountFrom_plain fuel' hp hbps'] at heq₂
    rw [show decodeBoot _ = copyBoot m p.ts.toNat s k from hzero] at heq₂
    exact ⟨_, (hinit _ _ _).trans heq₂⟩
  · obtain ⟨m', s', heq⟩ := initFrom_invalid fuel hp.ec hw hss' (Nat.le_refl _)
      fun i _ hi hv => hex ⟨i, hi, hv⟩
    refine ⟨false, m', s', (hinit m fuel s).trans heq, ?_, ?_⟩
    · constructor
      · intro h
        cases h
      · exact fun h => absurd h hex
    · exact fun i hi => absurd ⟨i, hi.lt, hi.valid⟩ hex

/-! ### A device with a damaged first copy -/

/-- A sector that starts with an encoded boot sector. -/
def bootSectorBytes (b : BootSector) (n : Nat) : List UInt8 :=
  packMemory b.bytes ++ List.replicate (n - 162) 0

theorem length_bootSectorBytes (b : BootSector) {n : Nat} (hn : 162 ≤ n) :
    (bootSectorBytes b n).length = n := by
  unfold bootSectorBytes
  rw [List.length_append, length_packMemory, BootSector.length_bytes, List.length_replicate]
  show 2 * 81 + (n - 162) = n
  omega

/-- Decoding what starts with an encoded boot sector. -/
theorem decodeBoot_pack (b : BootSector) (rest : List UInt8) :
    decodeBoot (packMemory b.bytes ++ rest) = b := by
  have hround := unpackMemory_packMemory_append b.bytes rest
  rw [b.length_bytes] at hround
  unfold decodeBoot
  rw [hround, b.ofBytes_bytes]

/-- A boot sector with its checksums verifies. -/
theorem withChecksums_valid (b : BootSector) : b.withChecksums.Valid := ⟨rfl, rfl⟩

/-- A volume of 48 sectors of 512 bytes. -/
def sampleBoot : BootSector := rebuiltBoot {
  bsCount := 2, fatSize := 1, fatCount := 2, firstDataSector := 3, totalSectors := 48
  totalClusters := 22, bytesPerSector := 512, clusterSize := 1024, sectorsPerCluster := 2
  extRootCluster := 2, sectorsPadd := 1, journalsCount := 0, errorsCount := 0, entryOffset := 0 }

/-- The sample with a wrong checksum. -/
def damagedBoot : BootSector :=
  { sampleBoot.withChecksums with checksum := sampleBoot.withChecksums.checksum + 1 }

/-- A process that has not mounted a volume yet, on 512-byte sectors. -/
def unmounted : Mount := { smallMount 0 with fi := default, sectorSize := 512 }

/-- Two copies, from the first one on. -/
def twoCopies : Params :=
  { fatCache := NO_CACHE, bsNum := 0, bsCount := 2, ts := 48, jc := 0, ec := 0 }

/-- A device with two copies. -/
def twoCopyDisk (fill : UInt8) (b b' : BootSector) : FS :=
  { zeroFS (oneFile 2 R_MODE) with medium := {
      bytes := write (write (fun _ => fill) (getBootSector 1 48 * 512) (bootSectorBytes b' 512))
        (getBootSector 0 48 * 512) (bootSectorBytes b 512)
      writes := 0
      log := [] } }

/-- The sectors of the device. -/
theorem read_twoCopyDisk (fill : UInt8) (b b' : BootSector) (y : Nat) :
    read (twoCopyDisk fill b b').medium.bytes (y * 512) 512 =
      if y = getBootSector 0 48 then bootSectorBytes b 512
      else if y = getBootSector 1 48 then bootSectorBytes b' 512
      else read (fun _ => fill) (y * 512) 512 := by
  have hlen := fun b => length_bootSectorBytes b (Nat.le_of_ble_eq_true rfl : 162 ≤ 512)
  unfold twoCopyDisk
  rw [read_write_block _ _ _ (hlen b), read_write_block _ _ _ (hlen b')]

theorem copyBoot_zero_twoCopyDisk (fill : UInt8) (b b' : BootSector) :
    copyBoot unmounted 48 (twoCopyDisk fill b b') 0 = b := by
  have hread := read_twoCopyDisk fill b b' (getBootSector 0 48)
  rw [if_pos rfl] at hread
  exact (congrArg decodeBoot hread).trans (decodeBoot_pack b _)

theorem copyBoot_one_twoCopyDisk (fill : UInt8) (b b' : BootSector) :
    copyBoot unmounted 48 (twoCopyDisk fill b b') 1 = b' := by
  have hread := read_twoCopyDisk fill b b' (getBootSector 1 48)
  rw [if_neg (by decide), if_pos rfl] at hread
  exact (congrArg decodeBoot hread).trans (decodeBoot_pack b' _)

/-- The mount of the device whose first copy is damaged. -/
theorem init_survives_small :
    MountsFirstValid unmounted 0 twoCopies
      (twoCopyDisk 0 damagedBoot sampleBoot.withChecksums) := by
  have hss : 162 ≤ unmounted.sectorSize := by show 162 ≤ 512; omega
  have hplain : Plain twoCopies := ⟨rfl, rfl, rfl⟩
  have hnum : twoCopies.bsNum = 0 := rfl
  have hworks : unmounted.Works := ⟨fun _ _ _ _ => rfl, fun _ _ _ _ => rfl⟩
  refine init_survives 0 hplain hnum hworks hss ?_
  intro i hi hv
  have hsize : sampleBoot.bytesPerSector ≠ 0 := by decide
  have htwo : i < 2 := hi
  have hcases : i = 0 ∨ i = 1 := by omega
  cases hcases with
  | inl h0 =>
    rw [h0]
    show (copyBoot unmounted 48 _ 0).bytesPerSector ≠ 0
    rw [copyBoot_zero_twoCopyDisk]
    exact hsize
  | inr h1 =>
    rw [h1]
    show (copyBoot unmounted 48 _ 1).bytesPerSector ≠ 0
    rw [copyBoot_one_twoCopyDisk]
    exact hsize

end NiFat32
