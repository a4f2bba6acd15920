import NiFat32.Proofs.Mount

/-!
# `Proofs.BootRepair`: the repair of the boot sectors

`NIFAT32_repair_bootsectors` hands the platform a buffer of one pointer for each byte of the
structure: on 512-byte sectors every write runs into the sector behind the copy. `repair_sector`
says what each sector holds afterwards; `bootRepair_faithful_iff` says when the repair touches the
copies only and a later mount finds the same geometry.
-/

set_option autoImplicit false

namespace NiFat32

open ByteStore

variable {m : Mount} {s : FS}

/-! ### The buffer -/

/-- The size of a pointer of the build. -/
abbrev POINTER_SIZE : Nat := 8

/-- The sector that the repair writes at each copy. -/
def bootHead (m : Mount) : List UInt8 := (rebuiltSector m POINTER_SIZE).take m.sectorSize

/-- The bytes that it writes into the next sector. -/
def bootTail (m : Mount) : List UInt8 := (rebuiltSector m POINTER_SIZE).drop m.sectorSize

/-- A copy behind which the next copy was written: its first bytes are from the buffer of that
copy. -/
def hitSector (m : Mount) : List UInt8 := bootTail m ++ (bootHead m).drop (bootTail m).length

theorem length_rebuiltSector : (rebuiltSector m POINTER_SIZE).length = 648 := by
  unfold rebuiltSector
  rw [List.length_take, List.length_append, List.length_append, List.length_replicate]
  show min 648 (_ + 648) = 648
  omega

theorem length_bootHead (hss : m.sectorSize = 512) : (bootHead m).length = m.sectorSize := by
  unfold bootHead
  rw [List.length_take, length_rebuiltSector]
  omega

theorem length_bootTail (hss : m.sectorSize = 512) : (bootTail m).length = 136 := by
  unfold bootTail
  rw [List.length_drop, length_rebuiltSector]
  omega

theorem bootHead_append_bootTail : bootHead m ++ bootTail m = rebuiltSector m POINTER_SIZE :=
  List.take_append_drop _ _

/-- The sector decodes to the boot sector that was rebuilt. -/
theorem decodeBoot_bootHead (hss : m.sectorSize = 512) :
    decodeBoot (bootHead m) = (rebuiltBoot m.fi).withChecksums := by
  have hlen : (packMemory (rebuiltBoot m.fi).withChecksums.bytes).length = 162 := by
    rw [length_packMemory, BootSector.length_bytes]
    rfl
  unfold bootHead rebuiltSector
  rw [List.take_take, List.append_assoc, List.take_append, List.take_of_length_le]
  · exact decodeBoot_pack _ _
  · rw [hlen, hss]
    decide

/-! ### The sectors after the repair -/

/-- The sector of the copy `i`, where the repair looks for it. -/
def copySector (m : Mount) (i : Nat) : Nat := getBootSector i m.fi.totalSectors

/-- The sector `y` was written by some copy that comes right in front of it, and not as a copy of
its own after that, in the first `n` writes. -/
def Hit (m : Mount) (n y : Nat) : Prop :=
  ∃ j < n, copySector m j + 1 = y ∧ ∀ k < n, j < k → copySector m k ≠ y

/-- The state after the first `n` writes. -/
def repairUpTo (m : Mount) (n : Nat) (s : FS) : FS :=
  (List.range n).foldl (fun s i =>
    { s with medium := (dskWriteSector m s.medium (copySector m i)
        (rebuiltSector m POINTER_SIZE)).2 }) s

/-- The sector `y` of a state. -/
def sectorOf (m : Mount) (s : FS) (y : Nat) : List UInt8 :=
  read s.medium.bytes (y * m.sectorSize) m.sectorSize

/-- One write: the sector of the copy, and the first bytes of the next one. -/
theorem repairUpTo_succ (hw : m.Works) (hss : m.sectorSize = 512) (n y : Nat) :
    sectorOf m (repairUpTo m (n + 1) s) y =
      if y = copySector m n then bootHead m
      else if y = copySector m n + 1 then
        bootTail m ++ (sectorOf m (repairUpTo m n s) y).drop (bootTail m).length
      else sectorOf m (repairUpTo m n s) y := by
  have htail : (bootTail m).length ≤ m.sectorSize := by
    rw [length_bootTail hss, hss]
    decide
  have hwrite := read_write_overflow (repairUpTo m n s).medium.bytes (copySector m n) y
    (length_bootHead hss) htail
  unfold sectorOf
  rw [← hwrite, bootHead_append_bootTail]
  conv_lhs => rw [repairUpTo, List.range_succ, List.foldl_append]
  show read (dskWriteSector m (repairUpTo m n s).medium _ _).2.bytes _ _ = _
  rw [dskWriteSector_bytes hw]

/-- A sector that is no copy keeps its bytes, but for the first ones when a copy lies in front of
it. -/
theorem repair_other_sector (hw : m.Works) (hss : m.sectorSize = 512) {n y : Nat}
    (hy : ∀ i < n, copySector m i ≠ y) :
    ((∃ i < n, copySector m i + 1 = y) →
      sectorOf m (repairUpTo m n s) y
        = bootTail m ++ (sectorOf m s y).drop (bootTail m).length) ∧
    ((∀ i < n, copySector m i + 1 ≠ y) → sectorOf m (repairUpTo m n s) y = sectorOf m s y) := by
  induction n with
  | zero =>
    refine ⟨fun h => ?_, fun _ => rfl⟩
    obtain ⟨i, hi, -⟩ := h
    exact absurd hi (Nat.not_lt_zero i)
  | succ n ih =>
    obtain ⟨ihhit, ihmiss⟩ := ih fun i hi => hy i (Nat.lt_succ_of_lt hi)
    rw [repairUpTo_succ hw hss, if_neg (hy n (Nat.lt_succ_self n)).symm]
    constructor
    · rintro ⟨i, hi, hnext⟩
      by_cases hn : y = copySector m n + 1
      · rw [if_pos hn]
        by_cases hprev : ∃ i < n, copySector m i + 1 = y
        · rw [ihhit hprev, List.drop_left]
        · rw [ihmiss fun i hi heq => hprev ⟨i, hi, heq⟩]
      · rw [if_neg hn]
        refine ihhit ⟨i, ?_, hnext⟩
        rcases Nat.lt_succ_iff_lt_or_eq.mp hi with hlt | heq
        · exact hlt
        · exact absurd (heq ▸ hnext.symm) hn
    · intro hmiss
      rw [if_neg (hmiss n (Nat.lt_succ_self n)).symm]
      exact ihmiss fun i hi => hmiss i (Nat.lt_succ_of_lt hi)

/-- A copy holds the rebuilt sector, unless it was hit. -/
theorem repair_copy_sector (hw : m.Works) (hss : m.sectorSize = 512) {n y : Nat}
    (hy : ∃ i < n, copySector m i = y) :
    (Hit m n y → sectorOf m (repairUpTo m n s) y = hitSector m) ∧
    (¬ Hit m n y → sectorOf m (repairUpTo m n s) y = bootHead m) := by
  induction n with
  | zero =>
    obtain ⟨i, hi, -⟩ := hy
    exact absurd hi (Nat.not_lt_zero i)
  | succ n ih =>
    rw [repairUpTo_succ hw hss]
    by_cases hn : y = copySector m n
    · -- the copy is written last
      rw [if_pos hn]
      refine ⟨fun hhit => ?_, fun _ => rfl⟩
      obtain ⟨j, hj, hnext, hlast⟩ := hhit
      rcases Nat.lt_succ_iff_lt_or_eq.mp hj with hlt | heq
      · exact absurd hn.symm (hlast n (Nat.lt_succ_self n) hlt)
      · rw [heq] at hnext
        omega
    · have hprev : ∃ i < n, copySector m i = y := by
        obtain ⟨i, hi, heq⟩ := hy
        rcases Nat.lt_succ_iff_lt_or_eq.mp hi with hlt | hin
        · exact ⟨i, hlt, heq⟩
        · exact absurd (hin ▸ heq.symm) hn
      obtain ⟨ihhit, ihmiss⟩ := ih hprev
      rw [if_neg hn]
      by_cases hnext : y = copySector m n + 1
      · -- the write of the copy in front hits it
        rw [if_pos hnext]
        have hhit : Hit m (n + 1) y :=
          ⟨n, Nat.lt_succ_self n, hnext.symm, fun k hk hlt => by omega⟩
        refine ⟨fun _ => ?_, fun h => absurd hhit h⟩
        by_cases hbefore : Hit m n y
        · rw [ihhit hbefore]
          unfold hitSector
          rw [List.drop_left]
        · rw [ihmiss hbefore]
          rfl
      · rw [if_neg hnext]
        have hiff : Hit m (n + 1) y ↔ Hit m n y := by
          constructor
          · rintro ⟨j, hj, hjy, hlast⟩
            rcases Nat.lt_succ_iff_lt_or_eq.mp hj with hlt | heq
            · exact ⟨j, hlt, hjy, fun k hk => hlast k (Nat.lt_succ_of_lt hk)⟩
            · exact absurd (heq ▸ hjy.symm) hnext
          · rintro ⟨j, hj, hjy, hlast⟩
            refine ⟨j, Nat.lt_succ_of_lt hj, hjy, fun k hk hjk => ?_⟩
            rcases Nat.lt_succ_iff_lt_or_eq.mp hk with hlt | heq
            · exact hlast k hlt hjk
            · exact heq ▸ fun h => hn h.symm
        rw [hiff]
        exact ⟨ihhit, ihmiss⟩

/-- The last copy is not hit. -/
theorem not_hit_last {n : Nat} : ¬ Hit m (n + 1) (copySector m n) := by
  rintro ⟨j, hj, hnext, hlast⟩
  rcases Nat.lt_succ_iff_lt_or_eq.mp hj with hlt | heq
  · exact hlast n (Nat.lt_succ_self n) hlt rfl
  · rw [heq] at hnext
    omega

/-! ### Mounted volumes -/

/-- The volume was mounted with the parameters `p` on the boot sector `b`. -/
structure MountedOn (m : Mount) (p : Params) (b : BootSector) : Prop where
  valid : b.Valid
  divides : b.bytesPerSector ≠ 0
  count : 0 < p.bsCount.toNat
  info : ∃ fi : FatData, fi.bsCount = p.bsCount.toNat ∧ m.fi = geometryOf fi p b

theorem initFrom_mounted {fuel left : Nat} {p : Params} {m₀ : Mount} {s₀ s₁ : FS}
    (hleft : left ≤ p.bsCount.toNat) (h : initFrom fuel p left m₀ s₀ = some (true, m, s₁)) :
    ∃ b, MountedOn m p b := by
  induction left generalizing m₀ s₀ with
  | zero => cases h
  | succ left ih =>
    rw [initFrom] at h
    simp only at h
    split at h
    · cases h
    split at h
    · cases h
    split at h
    · cases h
    rename_i sector _
    split at h
    · rename_i hvalid
      unfold mountFrom at h
      simp only at h
      split at h
      · cases h
      rename_i hbps
      refine ⟨decodeBoot sector, hvalid, hbps, by omega, startInfo m₀.fi p, rfl, ?_⟩
      split at h
      · cases h
        rfl
      · obtain ⟨⟨r, s'⟩, -, heq⟩ := Option.map_eq_some_iff.mp h
        cases heq
        rfl
    · exact ih (by omega) h

/-- Every mount that succeeds is on a boot sector that verifies. -/
theorem nifat32Init_mounted {fuel : Nat} {p : Params} {m₀ : Mount} {s₀ s₁ : FS}
    (h : nifat32Init m₀ fuel p s₀ = some (true, m, s₁)) : ∃ b, MountedOn m p b :=
  initFrom_mounted (Nat.sub_le _ _) h

/-- Two geometries that differ at most in the counts that the parameters fix, and in the field
that a mount leaves alone. -/
def SameGeometry (fi fi' : FatData) : Prop :=
  { fi' with
    journalsCount := fi.journalsCount
    errorsCount := fi.errorsCount
    entryOffset := fi.entryOffset } = fi

theorem SameGeometry.totalClusters {fi fi' : FatData} (h : SameGeometry fi fi') :
    fi'.totalClusters = fi.totalClusters := by
  unfold SameGeometry at h
  rw [← h]

/-- Only the number of copies is taken over from what `_fs_data` held. -/
theorem SameGeometry.congr {fi fi₁ fi₂ : FatData} {p₁ p₂ : Params} {b : BootSector}
    (hcount : fi₁.bsCount = fi₂.bsCount) (h : SameGeometry fi (geometryOf fi₁ p₁ b)) :
    SameGeometry fi (geometryOf fi₂ p₂ b) := by
  unfold SameGeometry geometryOf at h ⊢
  simp only [hcount] at h
  exact h

/-- The boot sector gives the geometry of the mounted volume. -/
def Carries (m : Mount) (b : BootSector) : Prop :=
  b.bytesPerSector ≠ 0 ∧ ∀ p, SameGeometry m.fi (geometryOf m.fi p b)

/-- The rebuilt boot sector has the fields of the mounted one, but no root entries. -/
theorem geometryOf_rebuilt {p : Params} {b : BootSector} (h : MountedOn m p b) (fi : FatData)
    (p' : Params) : geometryOf fi p' (rebuiltBoot m.fi).withChecksums
      = geometryOf fi p' { b with rootEntryCount := 0 } := by
  obtain ⟨fi₀, -, hfi⟩ := h.info
  rw [hfi]
  simp [geometryOf, rebuiltBoot, BootSector.withChecksums]

theorem carries_rebuilt {p : Params} {b : BootSector} (h : MountedOn m p b) :
    Carries m (rebuiltBoot m.fi).withChecksums ↔
      ∀ p', (geometryOf m.fi p' { b with rootEntryCount := 0 }).totalClusters
        = m.fi.totalClusters := by
  obtain ⟨fi₀, hcount, hfi⟩ := h.info
  have hsize : (rebuiltBoot m.fi).withChecksums.bytesPerSector = b.bytesPerSector := by
    rw [hfi]
    simp [geometryOf, rebuiltBoot, BootSector.withChecksums]
  unfold Carries
  rw [hsize]
  constructor
  · intro hcarries p'
    have hsame := hcarries.2 p'
    rw [geometryOf_rebuilt h] at hsame
    exact hsame.totalClusters
  · intro hclusters
    refine ⟨h.divides, fun p' => ?_⟩
    have hc := hclusters p'
    rw [geometryOf_rebuilt h]
    unfold SameGeometry
    rw [hfi] at hc ⊢
    -- the other fields do not read the root entries
    calc _ = { geometryOf fi₀ p b with totalClusters := (geometryOf (geometryOf fi₀ p b) p'
          { b with rootEntryCount := 0 }).totalClusters } := rfl
      _ = geometryOf fi₀ p b := by rw [hc]

/-! ### The mount after the repair -/

/-- A mount on the parameters `p` succeeds with the geometry `fi`: with journals, as soon as they
are replayed. -/
def MountsAs (m : Mount) (p : Params) (s : FS) (fi : FatData) : Prop :=
  ∀ fuel, ∃ s', nifat32Init m fuel p s =
    if p.jc = 0 then some (true, m.withInfo fi, s')
    else (restoreFromJournal (m.withInfo fi) fuel s').map fun (_, s) => (true, m.withInfo fi, s)

/-- The parameters look for the copies of the volume from `i` on; there are no error areas. -/
structure Remount (m : Mount) (p : Params) (i : Nat) : Prop where
  ec : p.ec = 0
  num : p.bsNum.toNat = i
  count : p.bsCount.toNat = m.fi.bsCount
  sectors : p.ts.toNat = m.fi.totalSectors

/-- What the repair owes: it changes the copies only, and from every copy a mount finds the
geometry of the volume, whatever `_fs_data` holds before. -/
def RepairFaithful (m : Mount) (s : FS) : Prop :=
  (∀ a, (∀ i < m.fi.bsCount, a / m.sectorSize ≠ copySector m i) →
    (repairBootsectors m POINTER_SIZE s).2.medium.bytes a = s.medium.bytes a) ∧
  ∀ i < m.fi.bsCount, ∀ p, Remount m p i → ∀ fi, ∃ fi', SameGeometry m.fi fi' ∧
    MountsAs (m.withInfo fi) p (repairBootsectors m POINTER_SIZE s).2 fi'

/-- The repair is faithful when the mounted boot sector has no root entries that count, the bytes
that run into other sectors are there already, and a hit copy does not verify as something
else. -/
structure RepairFits (m : Mount) (b : BootSector) (s : FS) : Prop where
  clusters : ∀ p, (geometryOf m.fi p { b with rootEntryCount := 0 }).totalClusters
    = m.fi.totalClusters
  tail : ∀ i < m.fi.bsCount, (∀ j < m.fi.bsCount, copySector m j ≠ copySector m i + 1) →
    (sectorOf m s (copySector m i + 1)).take 136 = bootTail m
  hit : ∀ i < m.fi.bsCount, Hit m m.fi.bsCount (copySector m i) →
    (decodeBoot (hitSector m)).Valid → Carries m (decodeBoot (hitSector m))

theorem repairBootsectors_state :
    (repairBootsectors m POINTER_SIZE s).2 = repairUpTo m m.fi.bsCount s :=
  rfl

/-- The repair is local exactly when what runs over is there already. -/
theorem repair_local_iff (hw : m.Works) (hss : m.sectorSize = 512) :
    (∀ a, (∀ i < m.fi.bsCount, a / m.sectorSize ≠ copySector m i) →
      (repairUpTo m m.fi.bsCount s).medium.bytes a = s.medium.bytes a) ↔
    ∀ i < m.fi.bsCount, (∀ j < m.fi.bsCount, copySector m j ≠ copySector m i + 1) →
      (sectorOf m s (copySector m i + 1)).take 136 = bootTail m := by
  have hpos : 0 < m.sectorSize := by omega
  have htail := length_bootTail hss
  -- the bytes of a sector and the sector
  have hsector : ∀ y, (∀ a, a / m.sectorSize = y →
      (repairUpTo m m.fi.bsCount s).medium.bytes a = s.medium.bytes a) ↔
      sectorOf m (repairUpTo m m.fi.bsCount s) y = sectorOf m s y := by
    intro y
    constructor
    · intro h
      refine read_congr _ _ _ _ fun k hlo hhi => h k ?_
      exact Nat.div_eq_of_lt_le hlo (by rw [Nat.succ_mul]; exact hhi)
    · intro h a ha
      have hcell := congrArg (fun l : List UInt8 => l[a % m.sectorSize]?) h
      have hlt := Nat.mod_lt a hpos
      simp only [sectorOf, getElem?_read, if_pos hlt, Option.some.injEq] at hcell
      have haddr : y * m.sectorSize + a % m.sectorSize = a := by
        rw [← ha, Nat.mul_comm]
        exact Nat.div_add_mod a _
      rwa [haddr] at hcell
  constructor
  · intro h i hi hfree
    have hsame := (hsector (copySector m i + 1)).mp fun a ha => h a fun j hj => by
      rw [ha]
      exact (hfree j hj).symm
    rw [(repair_other_sector hw hss hfree).1 ⟨i, hi, rfl⟩] at hsame
    rw [← hsame, ← htail, List.take_left]
  · intro h a hfree
    refine (hsector (a / m.sectorSize)).mpr ?_ a rfl
    have hother := repair_other_sector (s := s) hw hss fun i hi => (hfree i hi).symm
    by_cases hnext : ∃ i < m.fi.bsCount, copySector m i + 1 = a / m.sectorSize
    · obtain ⟨i, hi, heq⟩ := hnext
      have hthere := h i hi fun j hj => by rw [heq]; exact (hfree j hj).symm
      rw [hother.1 ⟨i, hi, heq⟩, htail, ← hthere, heq, List.take_append_drop]
    · exact hother.2 fun i hi heq => hnext ⟨i, hi, heq⟩

/-- A mount from the copy `i` on takes the first copy behind it that verifies. -/
theorem remount_eq (hw : m.Works) (hss : m.sectorSize = 512) {p : Params} {i k : Nat}
    (hp : Remount m p i) (fi : FatData) (fuel : Nat) (hik : i ≤ k) (hk : k < m.fi.bsCount)
    (hv : (decodeBoot (sectorOf m s (copySector m k))).Valid)
    (hbad : ∀ j, i ≤ j → j < k → ¬ (decodeBoot (sectorOf m s (copySector m j))).Valid) :
    ∃ s₁, nifat32Init (m.withInfo fi) fuel p s
      = mountFrom (m.withInfo (startInfo fi p)) fuel p k (sectorOf m s (copySector m k)) s₁ := by
  have hcopy : ∀ j, bootAt (m.withInfo fi) p.ts.toNat s j = sectorOf m s (copySector m j) := by
    intro j
    unfold bootAt
    rw [hp.sectors]
    rfl
  have hboot : ∀ j, copyBoot (m.withInfo fi) p.ts.toNat s j
      = decodeBoot (sectorOf m s (copySector m j)) := fun j => congrArg decodeBoot (hcopy j)
  have hstart : p.bsCount.toNat - (p.bsCount.toNat - p.bsNum.toNat) = i := by
    rw [hp.num, hp.count]
    omega
  obtain ⟨s₁, -, heq⟩ := initFrom_valid (m := m.withInfo fi) (s := s) fuel hp.ec
    (withInfo_works hw fi) (by show m.sectorSize ≠ 0; omega) (Nat.sub_le _ p.bsNum.toNat)
    (hstart ▸ hik) (hp.count ▸ hk) ((hboot k).symm ▸ hv)
    fun j hj hjk => (hboot j).symm ▸ hbad j (hstart ▸ hj) hjk
  rw [hcopy] at heq
  exact ⟨s₁, heq⟩

/-- The geometry of a mount on a copy. -/
theorem mountFrom_mounts {p : Params} {b : BootSector} {sector : List UInt8} (fi : FatData)
    (fuel k : Nat) (hb : decodeBoot sector = b) (hbps : b.bytesPerSector ≠ 0) (s₁ : FS) :
    ∃ s', mountFrom (m.withInfo (startInfo fi p)) fuel p k sector s₁ =
      if p.jc = 0 then some (true, m.withInfo (geometryOf (startInfo fi p) p b), s')
      else (restoreFromJournal (m.withInfo (geometryOf (startInfo fi p) p b)) fuel s').map
        fun (_, s) => (true, m.withInfo (geometryOf (startInfo fi p) p b), s) := by
  subst hb
  simp only [mountFrom, if_neg hbps]
  exact ⟨_, rfl⟩

/-- Without journals a mount that picks the copy `k` has its boot sector carry the geometry. -/
theorem carries_of_mountsAs {p : Params} {i k : Nat} {b : BootSector} (hp : Remount m p i)
    (hjc : p.jc = 0) (fi fi' : FatData) (hsame : SameGeometry m.fi fi') {s s₁ : FS}
    {sector : List UInt8} (hb : decodeBoot sector = b)
    (hmount : MountsAs (m.withInfo fi) p s fi')
    (heq : nifat32Init (m.withInfo fi) 0 p s
      = mountFrom (m.withInfo (startInfo fi p)) 0 p k sector s₁) : Carries m b := by
  obtain ⟨s', hs'⟩ := hmount 0
  rw [heq, if_pos hjc] at hs'
  have hbps : b.bytesPerSector ≠ 0 := by
    intro hzero
    rw [← hb] at hzero
    simp only [mountFrom, if_pos hzero] at hs'
    cases hs'
  obtain ⟨s'', hs''⟩ := mountFrom_mounts (m := m) (p := p) fi 0 k hb hbps s₁
  rw [hs', if_pos hjc] at hs''
  have hfi : fi' = geometryOf (startInfo fi p) p b :=
    congrArg (fun o => (o.map fun x => x.2.1.fi).getD fi') hs''
  rw [hfi] at hsame
  exact ⟨hbps, fun p' => hsame.congr hp.count⟩

/-- Parameters that look for the copies of the volume from `i` on, without journals. -/
def remountParams (p : Params) (b : BootSector) (i : Nat) : Params :=
  { p with bsNum := UInt8.ofNat i, ts := b.totalSectors32, jc := 0, ec := 0 }

theorem remountParams_remount {p : Params} {b : BootSector} (h : MountedOn m p b) {i : Nat}
    (hi : i < m.fi.bsCount) : Remount m (remountParams p b i) i := by
  obtain ⟨fi₀, hcount, hfi⟩ := h.info
  have hbs : m.fi.bsCount = p.bsCount.toNat := by
    rw [hfi]
    exact hcount
  refine ⟨rfl, ?_, hbs.symm, ?_⟩
  · have hlt := p.bsCount.toNat_lt
    show (UInt8.ofNat i).toNat = i
    rw [UInt8.toNat_ofNat']
    exact Nat.mod_eq_of_lt (by omega)
  · rw [hfi]
    rfl

/-! ### The main result -/

/-- The repair of the boot sectors of a mounted volume is faithful if and only if `RepairFits`. -/
theorem bootRepair_faithful_iff {fuel : Nat} {p : Params} {m₀ : Mount} {s₀ s₁ : FS}
    (h : nifat32Init m₀ fuel p s₀ = some (true, m, s₁)) (hw : m.Works)
    (hss : m.sectorSize = 512) :
    ∃ b, MountedOn m p b ∧ ∀ s, RepairFaithful m s ↔ RepairFits m b s := by
  obtain ⟨b, hb⟩ := nifat32Init_mounted h
  have hpos : 0 < m.fi.bsCount := by
    obtain ⟨fi₀, hcount, hfi⟩ := hb.info
    rw [hfi]
    exact hcount ▸ hb.count
  have hrebuilt := decodeBoot_bootHead hss
  refine ⟨b, hb, fun s => ?_⟩
  have hcopy := fun i (hi : i < m.fi.bsCount) =>
    repair_copy_sector (s := s) (n := m.fi.bsCount) hw hss ⟨i, hi, rfl⟩
  -- the last copy is the rebuilt boot sector
  obtain ⟨last, hlast⟩ : ∃ last, m.fi.bsCount = last + 1 := ⟨m.fi.bsCount - 1, by omega⟩
  have hlastboot : decodeBoot (sectorOf m (repairUpTo m m.fi.bsCount s) (copySector m last))
      = (rebuiltBoot m.fi).withChecksums := by
    rw [(hcopy last (by omega)).2 (hlast ▸ not_hit_last), hrebuilt]
  constructor
  · rintro ⟨hlocal, hmount⟩
    have hcarries : ∀ i b', i < m.fi.bsCount →
        decodeBoot (sectorOf m (repairUpTo m m.fi.bsCount s) (copySector m i)) = b' → b'.Valid →
        Carries m b' := by
      intro i b' hi hdec hv
      have hp := remountParams_remount hb hi
      obtain ⟨fi', hsame, has⟩ := hmount i hi _ hp default
      obtain ⟨s₂, heq⟩ := remount_eq hw hss hp default 0 (Nat.le_refl i) hi (hdec.symm ▸ hv)
        fun j hij hji => by omega
      exact carries_of_mountsAs hp rfl default fi' hsame hdec has heq
    refine ⟨?_, (repair_local_iff hw hss).mp hlocal, ?_⟩
    · exact (carries_rebuilt hb).mp
        (hcarries last _ (by omega) hlastboot (withChecksums_valid _))
    · intro i hi hhit hv
      exact hcarries i _ hi (congrArg decodeBoot ((hcopy i hi).1 hhit)) hv
  · intro hfits
    refine ⟨(repair_local_iff hw hss).mpr hfits.tail, fun i hi p' hp' fi => ?_⟩
    -- the first copy from `i` on that verifies
    have hex : ∃ k, i ≤ k ∧ k < m.fi.bsCount ∧
        (decodeBoot (sectorOf m (repairUpTo m m.fi.bsCount s) (copySector m k))).Valid :=
      ⟨last, by omega, by omega, hlastboot ▸ withChecksums_valid _⟩
    classical
    obtain ⟨hik, hk, hv⟩ := Nat.find_spec hex
    have hcarries : Carries m
        (decodeBoot (sectorOf m (repairUpTo m m.fi.bsCount s) (copySector m (Nat.find hex)))) := by
      by_cases hhit : Hit m m.fi.bsCount (copySector m (Nat.find hex))
      · rw [(hcopy _ hk).1 hhit] at hv ⊢
        exact hfits.hit _ hk hhit hv
      · rw [(hcopy _ hk).2 hhit, hrebuilt]
        exact (carries_rebuilt hb).mpr hfits.clusters
    have hcount : m.fi.bsCount = (startInfo fi p').bsCount := hp'.count.symm
    refine ⟨geometryOf (startInfo fi p') p' _, (hcarries.2 p').congr hcount, fun fuel' => ?_⟩
    obtain ⟨s₂, heq⟩ := remount_eq hw hss hp' fi fuel' hik hk hv
      fun j hij hjk hvj => Nat.find_min hex hjk ⟨hij, by omega, hvj⟩
    rw [repairBootsectors_state, heq]
    exact mountFrom_mounts fi fuel' _ rfl hcarries.1 s₂

/-! ### A volume with data behind the copy -/

/-- The mount of the sample volume. -/
def sampleMount : Mount := mountedOn unmounted twoCopies sampleBoot.withChecksums

/-- A device of which every other sector is filled with ones. -/
def fullDisk : FS := twoCopyDisk 1 sampleBoot.withChecksums sampleBoot.withChecksums

theorem sampleMount_mounts : ∃ s₁, nifat32Init unmounted 0 twoCopies fullDisk
    = some (true, sampleMount, s₁) ∧ s₁.medium = fullDisk.medium := by
  have hboot : copyBoot unmounted twoCopies.ts.toNat fullDisk 0 = sampleBoot.withChecksums :=
    copyBoot_zero_twoCopyDisk _ _ _
  have hworks : unmounted.Works := ⟨fun _ _ _ _ => rfl, fun _ _ _ _ => rfl⟩
  have hvalid : (copyBoot unmounted twoCopies.ts.toNat fullDisk 0).Valid := by
    rw [hboot]
    exact withChecksums_valid _
  have hbps : (copyBoot unmounted twoCopies.ts.toNat fullDisk 0).bytesPerSector ≠ 0 := by
    rw [hboot]
    exact (by decide : sampleBoot.bytesPerSector ≠ 0)
  obtain ⟨s₁, hmedium, heq⟩ := initFrom_valid 0 (rfl : twoCopies.ec = 0) hworks
    (by show 512 ≠ 0; decide) (Nat.le_refl _) (by show 2 - 2 ≤ 0; decide)
    (by show 0 < 2; decide) hvalid fun j _ hj => by omega
  rw [mountFrom_plain 0 ⟨rfl, rfl, rfl⟩ hbps] at heq
  have hdec : decodeBoot (bootAt unmounted twoCopies.ts.toNat fullDisk 0)
      = sampleBoot.withChecksums := hboot
  rw [hdec] at heq
  exact ⟨_, heq, hmedium⟩

/-- The bytes that run over are zeros here. -/
theorem bootTail_sample : bootTail sampleMount = List.replicate 136 0 := by
  have hlen : (packMemory (rebuiltBoot sampleMount.fi).withChecksums.bytes).length = 162 := by
    rw [length_packMemory, BootSector.length_bytes]
    rfl
  show (((packMemory (rebuiltBoot sampleMount.fi).withChecksums.bytes ++ []) ++
    List.replicate 648 0).take 648).drop 512 = _
  rw [List.append_nil, List.drop_take, List.drop_append, List.drop_of_length_le (by omega), hlen,
    List.nil_append, List.drop_replicate, List.take_replicate]
  have hmin : min (648 - 512) (648 - (512 - 162)) = 136 := by decide
  rw [hmin]

/-- The repair of the copies overwrites the sector behind a copy. -/
theorem bootRepair_not_local : ∃ s₁, nifat32Init unmounted 0 twoCopies fullDisk
    = some (true, sampleMount, s₁) ∧ ¬ RepairFaithful sampleMount s₁ := by
  obtain ⟨s₁, hmount, hmedium⟩ := sampleMount_mounts
  refine ⟨s₁, hmount, fun hfaithful => ?_⟩
  have hworks : sampleMount.Works := ⟨fun _ _ _ _ => rfl, fun _ _ _ _ => rfl⟩
  -- no copy lies right behind the first one
  have hfree : ∀ j < sampleMount.fi.bsCount,
      copySector sampleMount j ≠ copySector sampleMount 0 + 1 := by
    have h : ∀ j < 2, getBootSector j 48 ≠ getBootSector 0 48 + 1 := by decide
    exact h
  have hthere := (repair_local_iff hworks rfl).mp hfaithful.1 0 (by show 0 < 2; decide) hfree
  have hsector : sectorOf sampleMount s₁ (copySector sampleMount 0 + 1)
      = read (fun _ => 1) ((getBootSector 0 48 + 1) * 512) 512 := by
    have hread := read_twoCopyDisk 1 sampleBoot.withChecksums sampleBoot.withChecksums
      (getBootSector 0 48 + 1)
    rw [if_neg (by decide), if_neg (by decide)] at hread
    unfold sectorOf
    rw [hmedium]
    exact hread
  have hcell := congrArg (fun l : List UInt8 => l[0]?) hthere
  rw [hsector, bootTail_sample] at hcell
  simp only [List.getElem?_take, getElem?_read, List.getElem?_replicate] at hcell
  exact absurd hcell (by decide)

/-- The repair of the sample volume, from any later state. -/
theorem bootRepair_faithful_iff_small : ∃ s₁, nifat32Init unmounted 0 twoCopies fullDisk
    = some (true, sampleMount, s₁) ∧ ∃ b, MountedOn sampleMount twoCopies b ∧
      ∀ s, RepairFaithful sampleMount s ↔ RepairFits sampleMount b s := by
  obtain ⟨s₁, hmount, -⟩ := sampleMount_mounts
  exact ⟨s₁, hmount, bootRepair_faithful_iff hmount ⟨fun _ _ _ _ => rfl, fun _ _ _ _ => rfl⟩ rfl⟩

end NiFat32
