import NiFat32.Proofs.ErrorRing
import NiFat32.Proofs.JournalSlots
import NiFat32.Proofs.Mount

/-!
# `Proofs.Remount`: the error ring across a remount

A remount reads the positions of the ring back from the first cell of the error copies. Two of
the three positions are there, and `_load_info` takes the third one, where the next code is
written, from the oldest pending code. So the ring is what it was when nothing was pending.

`SameErrors` relates two states that the error calls cannot tell apart. `Recorded` is the
invariant that the copies hold the positions, `errors_survive_remount` the comparison of the two
runs.
-/

set_option autoImplicit false

namespace NiFat32

open ByteStore Run

variable {m : Mount} {s s' : FS} {p : Nat} {c : UInt32}

/-! ### States with the same errors -/

/-- The ring and the error copies are the same. -/
structure SameErrors (m : Mount) (s s' : FS) : Prop where
  ring : s.errors = s'.errors
  window : ∀ a ∈ errorSectors m, SameWindow m.sectorSize s.medium.bytes s'.medium.bytes a

namespace SameErrors

theorem errorSector_mem {i : Nat} (hi : i < m.fi.errorsCount) :
    getErrorsSector i m.fi.totalSectors ∈ errorSectors m :=
  List.mem_map.mpr ⟨i, List.mem_range.mpr hi, rfl⟩

theorem errorAt (h : SameErrors m s s') (p : Nat) {i : Nat} (hi : i < m.fi.errorsCount) :
    errorAt m s.medium p i = errorAt m s'.medium p i :=
  congrArg errorOf (h.window _ (errorSector_mem hi)).cell

theorem writeError (hw : m.Works) (h : SameErrors m s s') (p : Nat) (c : UInt32) :
    SameErrors m (writeError m p c s).2 (writeError m p c s').2 := by
  obtain ⟨d, he, hd⟩ := writeError_cells hw p c s
  obtain ⟨d', he', hd'⟩ := writeError_cells hw p c s'
  rw [he, he']
  refine ⟨h.ring, ?_⟩
  intro a ha
  simp only [hd, hd']
  exact (h.window a ha).putAll

theorem setRing (h : SameErrors m s s') (ring : ErrorRing) :
    SameErrors m { s with errors := ring } { s' with errors := ring } := ⟨rfl, h.window⟩

theorem voteError (hw : m.Works) (h : SameErrors m s s') (p : Nat) :
    voteError m p s = voteError m p s' := by
  rw [NiFat32.voteError, NiFat32.voteError]
  apply List.foldl_ext
  intro acc i hi
  simp only [readErrorCopy_works hw, h.errorAt p (List.mem_range.mp hi)]

/-- A read gives the same code, and the repairs are the same. -/
theorem readError (hw : m.Works) (h : SameErrors m s s') (p : Nat) :
    (readError m p s).1 = (readError m p s').1 ∧
      SameErrors m (readError m p s).2 (readError m p s').2 := by
  rw [NiFat32.readError, NiFat32.readError, h.voteError hw]
  cases NiFat32.voteError m p s' with
  | mk b seat =>
    cases seat with
    | none => exact ⟨rfl, h⟩
    | some i =>
      refine ⟨rfl, ?_⟩
      by_cases hwrong : 0 < b.wrong
      · simp only [if_pos hwrong]
        exact h.writeError hw p b.val
      · simp only [if_neg hwrong]
        exact h

/-- The positions are set and written. -/
theorem dump (hw : m.Works) (h : SameErrors m s s') (ring : ErrorRing) :
    (dumpInfo m ring s).1 = (dumpInfo m ring s').1 ∧
      SameErrors m (dumpInfo m ring s).2 (dumpInfo m ring s').2 := by
  refine ⟨?_, h.writeError hw 0 _⟩
  rw [dumpInfo, dumpInfo, writeError_works hw _ _ s, writeError_works hw _ _ s']

theorem register (hw : m.Works) (h : SameErrors m s s') (c : ErrorCode) :
    (errorsRegisterError m c s).1 = (errorsRegisterError m c s').1 ∧
      SameErrors m (errorsRegisterError m c s).2 (errorsRegisterError m c s').2 := by
  have hwrite := h.writeError hw s'.errors.current c.toU32
  have hok : ∀ t, (NiFat32.writeError m s'.errors.current c.toU32 t).1 = true := by
    intro t
    rw [writeError_works hw]
  rw [errorsRegisterError, errorsRegisterError, h.ring]
  generalize hr : NiFat32.writeError m s'.errors.current c.toU32 s = r at hwrite
  generalize hr' : NiFat32.writeError m s'.errors.current c.toU32 s' = r' at hwrite
  have h₁ := hok s
  have h₂ := hok s'
  rw [hr] at h₁
  rw [hr'] at h₂
  obtain ⟨ok, t⟩ := r
  obtain ⟨ok', t'⟩ := r'
  obtain rfl : ok = true := h₁
  obtain rfl : ok' = true := h₂
  have hring : t.errors = t'.errors := hwrite.ring
  simp only [hring]
  exact (hwrite.setRing _).dump hw _

theorem last (hw : m.Works) (h : SameErrors m s s') :
    (errorsLastError m s).1 = (errorsLastError m s').1 ∧
      SameErrors m (errorsLastError m s).2 (errorsLastError m s').2 := by
  obtain ⟨hcode, hread⟩ := h.readError hw s'.errors.firstError
  rw [errorsLastError, errorsLastError, h.ring]
  by_cases hempty : s'.errors.firstError = s'.errors.lastError
  · rw [if_pos hempty, if_pos hempty]
    exact ⟨rfl, h⟩
  rw [if_neg hempty, if_neg hempty]
  generalize NiFat32.readError m s'.errors.firstError s = r at hcode hread
  generalize NiFat32.readError m s'.errors.firstError s' = r' at hcode hread
  obtain ⟨c, t⟩ := r
  obtain ⟨c', t'⟩ := r'
  obtain rfl : c = c' := hcode
  cases c with
  | none => exact ⟨rfl, hread⟩
  | some c =>
    have hring : t.errors = t'.errors := hread.ring
    simp only [hring]
    exact ⟨trivial, ((hread.setRing _).dump hw _).2⟩

end SameErrors

/-! ### Sequences of error calls -/

/-- What a call returns, and the state behind it. -/
def ErrorCall.exec (m : Mount) : ErrorCall → FS → UInt32 × FS
  | .register c, s =>
    let (ok, s) := errorsRegisterError m c s
    (if ok then 1 else 0, s)
  | .last, s => errorsLastError m s

/-- What the calls return, and the state behind them. -/
def errorCalls (m : Mount) : List ErrorCall → FS → List UInt32 × FS
  | [], s => ([], s)
  | c :: cs, s =>
    let (r, s) := c.exec m s
    let (rs, s) := errorCalls m cs s
    (r :: rs, s)

theorem SameErrors.exec (hw : m.Works) (h : SameErrors m s s') (c : ErrorCall) :
    (c.exec m s).1 = (c.exec m s').1 ∧ SameErrors m (c.exec m s).2 (c.exec m s').2 := by
  cases c with
  | register c =>
    obtain ⟨hok, hsame⟩ := h.register hw c
    refine ⟨?_, hsame⟩
    simp only [ErrorCall.exec, hok]
  | last => exact h.last hw

/-- The calls cannot tell the two states apart. -/
theorem SameErrors.calls (hw : m.Works) (h : SameErrors m s s') (calls : List ErrorCall) :
    (errorCalls m calls s).1 = (errorCalls m calls s').1 := by
  induction calls generalizing s s' with
  | nil => rfl
  | cons c cs ih =>
    obtain ⟨hret, hsame⟩ := h.exec hw c
    simp only [errorCalls, hret, ih hsame]

/-! ### The positions in the first cell -/

/-- The positions that `_load_info` takes from the first cell. -/
def loadedRing (body : UInt32) : ErrorRing :=
  let first := if body.toNat / 2 ^ 16 = 0 then 1 else body.toNat / 2 ^ 16
  let last := if body.toNat % 2 ^ 16 = 0 then 1 else body.toNat % 2 ^ 16
  { firstError := first, current := first, lastError := last }

/-- The error copies hold the positions of the oldest and of the newest code. -/
structure Recorded (m : Mount) (s : FS) : Prop where
  first : 1 ≤ s.errors.firstError
  last : 1 ≤ s.errors.lastError
  header : ∃ body, body ≠ 0xFFFFFFFF ∧
    (∀ i, i < m.fi.errorsCount → errorAt m s.medium 0 i = body) ∧
    loadedRing body = { s.errors with current := s.errors.firstError }

/-- The positions of the ring lie in the first error sector. -/
structure PositionsFit (m : Mount) (s : FS) : Prop where
  first : (s.errors.firstError + 1) * 8 ≤ m.sectorSize
  current : (s.errors.current + 1) * 8 ≤ m.sectorSize
  last : (s.errors.lastError + 1) * 8 ≤ m.sectorSize

/-- The calls are made while the positions lie in the first error sector. -/
def RunFits (m : Mount) : List ErrorCall → FS → Prop
  | [], _ => True
  | c :: cs, s => PositionsFit m s ∧ RunFits m cs (c.exec m s).2

theorem nextRingIndex_bounds (p : Nat) : 1 ≤ nextRingIndex m p ∧ nextRingIndex m p ≤ p + 1 := by
  rw [nextRingIndex]
  split <;> omega

/-- A position that follows one in the sector has 16 bits. -/
theorem u16_nextRingIndex (hss : m.sectorSize < 2 ^ 16) (hp : (p + 1) * 8 ≤ m.sectorSize) :
    u16 (nextRingIndex m p) = nextRingIndex m p := by
  have hb := nextRingIndex_bounds (m := m) p
  exact Nat.mod_eq_of_lt (by omega)

/-- The positions read back as they were packed. -/
theorem loadedRing_pack {f l : Nat} (hf : 1 ≤ f) (hf' : f < 2 ^ 16) (hl : 1 ≤ l)
    (hl' : l < 2 ^ 16) : loadedRing (packInfoEntry f l) = ⟨f, f, l⟩ := by
  have hbody : (packInfoEntry f l).toNat = f * 2 ^ 16 + l := by
    rw [packInfoEntry, UInt32.toNat_ofNat']
    omega
  have hdiv : (f * 2 ^ 16 + l) / 2 ^ 16 = f := by omega
  have hmod : (f * 2 ^ 16 + l) % 2 ^ 16 = l := by omega
  rw [loadedRing, hbody, hdiv, hmod, if_neg (by omega), if_neg (by omega)]

/-- A dump records the positions. -/
theorem Recorded.dump (hw : m.Works) (hcell : 8 ≤ m.sectorSize) {ring : ErrorRing}
    (hring : s.errors = ring) (hfirst : 1 ≤ ring.firstError ∧ ring.firstError < 2 ^ 16 - 1)
    (hlast : 1 ≤ ring.lastError ∧ ring.lastError < 2 ^ 16 - 1) :
    Recorded m (dumpInfo m ring s).2 := by
  subst hring
  have hload := loadedRing_pack hfirst.1 (show s.errors.firstError < 2 ^ 16 by omega) hlast.1
    (show s.errors.lastError < 2 ^ 16 by omega)
  have hstores : StoresCode m 0 (packInfoEntry s.errors.firstError s.errors.lastError) :=
    .of_inside (by show 0 + 8 ≤ m.sectorSize; omega)
  rw [dumpInfo, writeError_works hw]
  refine ⟨hfirst.1, hlast.1, packInfoEntry s.errors.firstError s.errors.lastError, ?_, ?_, hload⟩
  · intro heq
    rw [heq] at hload
    have hbad : (65535 : Nat) = s.errors.firstError := congrArg ErrorRing.firstError hload
    omega
  · intro i hi
    exact errorAt_writeError_self hw s hstores hi

/-- The error calls keep the positions recorded. -/
theorem Recorded.exec (hw : m.Works) (hss : m.sectorSize < 2 ^ 16) (h : Recorded m s)
    (hfit : PositionsFit m s) (c : ErrorCall) : Recorded m (c.exec m s).2 := by
  have hcell : 8 ≤ m.sectorSize := by
    have := hfit.first
    omega
  have hfirst : 1 ≤ s.errors.firstError ∧ s.errors.firstError < 2 ^ 16 - 1 := by
    have := hfit.first
    have := h.first
    omega
  have hnext : ∀ p, (p + 1) * 8 ≤ m.sectorSize →
      1 ≤ nextRingIndex m p ∧ nextRingIndex m p < 2 ^ 16 - 1 := by
    intro p hp
    have hb := nextRingIndex_bounds (m := m) p
    omega
  cases c with
  | register c =>
    simp only [ErrorCall.exec]
    rw [errorsRegisterError, writeError_works hw]
    simp only [u16_nextRingIndex hss hfit.first, u16_nextRingIndex hss hfit.current]
    refine Recorded.dump hw hcell rfl ?_ (hnext _ hfit.current)
    simp only
    split
    · exact hnext _ hfit.first
    · exact hfirst
  | last =>
    simp only [ErrorCall.exec]
    rw [errorsLastError]
    by_cases hempty : s.errors.firstError = s.errors.lastError
    · rw [if_pos hempty]
      exact h
    rw [if_neg hempty]
    have hsame : (readError m s.errors.firstError s).2.errors = s.errors := by
      rw [readError]
      split
      · rfl
      · split
        · rw [writeError_works hw]
        · rfl
    have hnone : (readError m s.errors.firstError s).1 = none →
        (readError m s.errors.firstError s).2 = s := by
      rw [readError]
      split
      · intro _
        rfl
      · intro hsome
        cases hsome
    generalize readError m s.errors.firstError s = r at hsame hnone
    obtain ⟨code, t⟩ := r
    cases code with
    | none =>
      obtain rfl : t = s := hnone rfl
      exact h
    | some code =>
      have hring : t.errors = s.errors := hsame
      simp only [u16_nextRingIndex hss hfit.first, hring]
      refine Recorded.dump hw hcell rfl (hnext _ hfit.first) ⟨h.last, ?_⟩
      have := hfit.last
      show s.errors.lastError < 2 ^ 16 - 1
      omega

theorem Recorded.calls (hw : m.Works) (hss : m.sectorSize < 2 ^ 16) (h : Recorded m s)
    (calls : List ErrorCall) (hfit : RunFits m calls s) :
    Recorded m (errorCalls m calls s).2 := by
  induction calls generalizing s with
  | nil => exact h
  | cons c cs ih =>
    simp only [errorCalls]
    exact ih (h.exec hw hss hfit.1 c) hfit.2

/-! ### What a mount leaves of the logs -/

/-- The ring, the error copies and the journals are the same. -/
structure SameLogs (m : Mount) (s s' : FS) : Prop extends SameErrors m s s' where
  journal : ∀ a ∈ journalSectors m, SameWindow m.sectorSize s.medium.bytes s'.medium.bytes a

namespace SameErrors

theorem refl (m : Mount) (s : FS) : SameErrors m s s := ⟨rfl, fun _ _ => .refl _ _ _⟩

theorem trans {s'' : FS} (h : SameErrors m s s') (h' : SameErrors m s' s'') :
    SameErrors m s s'' :=
  ⟨h.ring.trans h'.ring, fun a ha => (h.window a ha).trans (h'.window a ha)⟩

end SameErrors

namespace SameLogs

theorem refl (m : Mount) (s : FS) : SameLogs m s s := ⟨.refl m s, fun _ _ => .refl _ _ _⟩

theorem trans {s'' : FS} (h : SameLogs m s s') (h' : SameLogs m s' s'') : SameLogs m s s'' :=
  ⟨h.toSameErrors.trans h'.toSameErrors, fun a ha => (h.journal a ha).trans (h'.journal a ha)⟩

theorem recordAt (h : SameLogs m s s') (k : Nat) {i : Nat} (hi : i < m.fi.journalsCount) :
    recordAt m s.medium k i = recordAt m s'.medium k i := by
  have hmem : getJournalSector i m.fi.totalSectors ∈ journalSectors m :=
    List.mem_map.mpr ⟨i, List.mem_range.mpr hi, rfl⟩
  exact congrArg recordOf (h.journal _ hmem).cell

theorem of_eq (hring : s.errors = s'.errors) (hmedium : s.medium = s'.medium) :
    SameLogs m s s' := by
  refine ⟨⟨hring, fun a _ => ?_⟩, fun a _ => ?_⟩
  · rw [hmedium]
    exact .refl _ _ _
  · rw [hmedium]
    exact .refl _ _ _

/-- The device changes in other windows only. -/
theorem of_medium {d : Medium}
    (h : ∀ a, a ∈ errorSectors m ∨ a ∈ journalSectors m →
      SameWindow m.sectorSize d.bytes s.medium.bytes a) :
    SameLogs m { s with medium := d } s :=
  ⟨⟨rfl, fun a ha => h a (Or.inl ha)⟩, fun a ha => h a (Or.inr ha)⟩

end SameLogs

/-- The metadata and the clusters lie apart from the error sectors, and the clusters and the boot
sectors apart from the journals. -/
structure LogsApart (m : Mount) (p : Params) : Prop where
  journal : ∀ a ∈ journalSectors m, a ∉ errorSectors m
  boot : ∀ i, i < p.bsCount.toNat → getBootSector i p.ts.toNat ∉ errorSectors m ∧
    getBootSector i p.ts.toNat ∉ journalSectors m
  cluster : ∀ ca, InVol m ca → ∀ j, j < m.fi.sectorsPerCluster →
    clusterSector m ca + j ∉ errorSectors m ∧ clusterSector m ca + j ∉ journalSectors m

/-- The boot sectors are written over, apart from the logs. -/
theorem rewriteBoots_sameLogs (hw : m.Works) {q : Params} (hapart : LogsApart m q) (bsNum : Nat)
    {sector : List UInt8} (hlen : sector.length ≤ m.sectorSize) (is : List Nat)
    (his : ∀ i ∈ is, i < q.bsCount.toNat) :
    SameLogs m (rewriteBoots m q.ts.toNat bsNum sector is s) s := by
  induction is generalizing s with
  | nil => exact .refl m s
  | cons i is ih =>
    rw [rewriteBoots, List.foldl_cons, ← rewriteBoots]
    refine (ih fun k hk => his k (List.mem_cons_of_mem i hk)).trans ?_
    by_cases heq : i = bsNum
    · rw [if_pos heq]
      exact .refl m s
    rw [if_neg heq]
    apply SameLogs.of_medium
    intro a ha o ho
    have hboot := hapart.boot i (his i List.mem_cons_self)
    have hne : a ≠ getBootSector i q.ts.toNat := by
      rintro rfl
      exact ha.elim hboot.1 hboot.2
    have hwindow := windows_apart (w := m.sectorSize) hne
    rw [dskWriteSector, writeSector_eq hw]
    apply write_of_outside
    omega

/-- A write to a cluster of the volume. -/
theorem writeoffCluster_sameLogs (hw : m.Works) {q : Params} (hapart : LogsApart m q) {ca : Nat}
    (hca : InVol m ca) (offset : Nat) (data : List UInt8) :
    SameLogs m (writeoffCluster m ca offset data s).2 s := by
  apply SameLogs.of_medium
  intro a ha o ho
  have hout := (writeoffLoop_outside hw m.fi.sectorsPerCluster (clusterSector m ca) offset data
    s.medium).2 (a * m.sectorSize + o)
  apply hout
  have hne : a < clusterSector m ca ∨ clusterSector m ca + m.fi.sectorsPerCluster ≤ a := by
    by_contra hin
    push Not at hin
    obtain ⟨j, rfl⟩ := Nat.exists_eq_add_of_le hin.1
    have hcluster := hapart.cluster ca hca j (by omega)
    exact ha.elim hcluster.1 hcluster.2
  cases hne with
  | inl hlt =>
    have hmul := Nat.mul_le_mul_right m.sectorSize (Nat.succ_le_of_lt hlt)
    rw [Nat.succ_mul] at hmul
    exact Or.inl (by omega)
  | inr hge =>
    have hmul := Nat.mul_le_mul_right m.sectorSize hge
    exact Or.inr (by omega)

/-- A write to the journals. -/
theorem writeJournal_sameErrors (hw : m.Works) {q : Params} (hapart : LogsApart m q) (k : Nat)
    (j : JournalEntry) : SameErrors m (writeJournal m k j s) s := by
  obtain ⟨d, he, hd⟩ := writeJournal_cells hw k j s
  rw [he]
  refine ⟨rfl, ?_⟩
  intro a ha
  simp only [hd]
  exact .putAll_other fun hmem => hapart.journal a hmem ha

/-- The caches register no error when the heap has room and no FAT is read. -/
theorem initCaches_sameLogs (flags : UInt8) (hmalloc : ∀ n, m.malloc n ≠ 0)
    (hhard : flags &&& CACHE = 0 ∨ flags &&& HARD_CACHE = 0) :
    SameLogs m (initCaches m flags s) s := by
  have hinit : SameLogs m (fatCacheInit m s).2 s := by
    rw [fatCacheInit]
    split
    · exact .refl m s
    · simp only [if_neg (hmalloc s.mallocs)]
      exact .of_eq rfl rfl
  have hmap : ∀ t, SameLogs m (fatmapInit m t).2 t := by
    intro t
    rw [fatmapInit]
    split
    · exact .refl m t
    · simp only [if_neg (hmalloc t.mallocs)]
      exact .of_eq rfl rfl
  rw [initCaches]
  by_cases hcache : flags &&& CACHE = 0
  · rw [if_neg (not_not.mpr hcache)]
    exact .refl m s
  · rw [if_pos hcache]
    simp only [if_neg (not_not.mpr (hhard.resolve_left hcache))]
    split
    · exact (hmap _).trans hinit
    · exact hinit

/-- A record that names a cluster of the volume, when it is one that is replayed. -/
def Replayable (m : Mount) (j : JournalEntry) : Prop :=
  j.op = ADD_OP ∨ j.op = EDIT_OP ∨ j.op = DEL_OP → InVol m j.ca.toNat

/-- The replay of a record writes a cluster of the volume, or nothing. -/
theorem replayRecord_sameLogs (hw : m.Works) {q : Params} (hapart : LogsApart m q)
    {j : JournalEntry} (hj : Replayable m j) (restored : DirEntry) :
    SameLogs m (replayRecord m j restored s) s := by
  rw [replayRecord]
  split
  next hdel => exact writeoffCluster_sameLogs hw hapart (hj (Or.inr (Or.inr hdel))) _ _
  next =>
    split
    next hop => exact writeoffCluster_sameLogs hw hapart (hj (hop.imp_right Or.inl)) _ _
    next => exact .refl m s

/-- The journals of `s'` from the slot `k` on, and the errors of `s'`. -/
structure SameFrom (m : Mount) (k : Nat) (s s' : FS) : Prop extends SameErrors m s s' where
  record : ∀ k', k ≤ k' → k' < journalSlots m → ∀ i, i < m.fi.journalsCount →
    recordAt m s.medium k' i = recordAt m s'.medium k' i

/-- A write to the slot `k` leaves the ones behind it. -/
theorem SameFrom.write (hw : m.Works) {q : Params} (hapart : LogsApart m q)
    (hslots : journalSlots m ≤ 255) {k : Nat} (hk : k < journalSlots m) {s₀ : FS}
    (h : SameFrom m (k + 1) s s₀) (j : JournalEntry) :
    SameFrom m (k + 1) (writeJournal m k j s) s₀ where
  toSameErrors := (writeJournal_sameErrors hw hapart k j).trans h.toSameErrors
  record := by
    intro k' hle hlt i hi
    rw [recordAt_writeJournal_other hw s (by omega) (.of_byte (by omega)) (.of_byte (by omega))]
    exact h.record k' hle hlt i hi

theorem SameFrom.frame {k : Nat} {s₀ t : FS} (h : SameFrom m k s s₀) (ht : SameLogs m t s) :
    SameFrom m k t s₀ :=
  ⟨ht.toSameErrors.trans h.toSameErrors, fun k' hle hlt i hi =>
    (ht.recordAt k' hi).trans (h.record k' hle hlt i hi)⟩

/-- The replay of one slot. -/
theorem SameFrom.replay (hw : m.Works) {q : Params} (hapart : LogsApart m q)
    (hslots : journalSlots m ≤ 255) {k : Nat} (hk : k < journalSlots m) {s₀ : FS}
    (hrecord : ∃ i, electedCopy m k s₀ = some i ∧ Replayable m (recordAt m s₀.medium k i))
    (h : SameFrom m k s s₀) : SameFrom m (k + 1) (replayPass m k k s) s₀ := by
  obtain ⟨i, helected, hj⟩ := hrecord
  have hcopies : ∀ i, i < m.fi.journalsCount →
      recordAt m s.medium k i = recordAt m s₀.medium k i :=
    h.record k (Nat.le_refl k) hk
  have hseat : Vote.seated 0xFFFFFFFF (fun i => (recordAt m s.medium k i).checksum)
      m.fi.journalsCount = some i := by
    rw [← helected]
    apply Vote.seated_congr
    intro i hi
    rw [hcopies i hi]
  have hnext : SameFrom m (k + 1) s s₀ := ⟨h.toSameErrors, fun k' hle => h.record k' (by omega)⟩
  -- the vote elects the record of `s₀`, and may repair the slot
  have hread : (readJournal m k (.ofBytes (m.junk 0 k)) s).1 = recordAt m s₀.medium k i ∧
      SameFrom m (k + 1) (readJournal m k (.ofBytes (m.junk 0 k)) s).2 s₀ := by
    rw [readJournal_works hw, hseat]
    refine ⟨hcopies i (Vote.seated_lt hseat), ?_⟩
    simp only
    split
    · exact hnext.write hw hapart hslots hk _
    · exact hnext
  rw [replayPass]
  generalize readJournal m k (.ofBytes (m.junk 0 k)) s = r at hread
  obtain ⟨j, t⟩ := r
  obtain ⟨hjeq, ht⟩ := hread
  obtain rfl : j = recordAt m s₀.medium k i := hjeq
  simp only
  split
  · exact ht
  · exact (ht.frame (replayRecord_sameLogs hw hapart hj _)).write hw hapart hslots hk _

/-- The replay of the journal leaves the errors as they are. -/
theorem restoreFromJournal_sameErrors (hw : m.Works) {q : Params} (hapart : LogsApart m q)
    (hslots : journalSlots m ≤ 255) {fuel : Nat} (hfuel : journalSlots m < fuel)
    (hjc : 0 < m.fi.journalsCount)
    (hrecords : ∀ k, k < journalSlots m →
      ∃ i, electedCopy m k s = some i ∧ Replayable m (recordAt m s.medium k i)) :
    ∃ s', restoreFromJournal m fuel s = some (true, s') ∧ SameErrors m s' s := by
  have hwalk : ∀ (n k : Nat) (t : FS), k + n = journalSlots m → SameFrom m k t s →
      SameFrom m (k + n) ((List.range' k n).foldl (replaySlot m) t) s := by
    intro n
    induction n with
    | zero => exact fun k t _ h => h
    | succ n ih =>
      intro k t hn h
      have hstep := h.replay hw hapart hslots (by omega) (hrecords k (by omega))
      rw [List.range'_succ, List.foldl_cons, show k + (n + 1) = k + 1 + n by omega]
      exact ih (k + 1) _ (by omega) (hstep.frame (.of_eq rfl rfl))
  have hstart : SameFrom m 0 { s with journalIndex := 0 } s :=
    ⟨⟨rfl, fun _ _ => .refl _ _ _⟩, fun _ _ _ _ _ => rfl⟩
  have hend := hwalk (journalSlots m) 0 _ (Nat.zero_add _) hstart
  rw [restoreFromJournal_eq hjc, restoreLoop_run hslots (journalSlots m) 0 fuel (Nat.zero_add _)
    rfl hfuel]
  exact ⟨_, rfl, hend.ring, hend.window⟩

/-! ### The remount -/

/-- The volume is mounted from the boot copy that the mount begins with. -/
structure MountedAs (m : Mount) (p : Params) (s : FS) : Prop where
  num : p.bsNum.toNat < p.bsCount.toNat
  valid : (copyBoot m p.ts.toNat s p.bsNum.toNat).Valid
  bytes : (copyBoot m p.ts.toNat s p.bsNum.toNat).bytesPerSector ≠ 0
  info : m.fi = geometryOf (startInfo default p) p (copyBoot m p.ts.toNat s p.bsNum.toNat)

/-- A mount of the image finds the error copies, registers no error, and writes apart from the
logs. -/
structure QuietMount (m : Mount) (p : Params) (s : FS) : Prop extends MountedAs m p s where
  sectors : ∀ i, i < m.fi.errorsCount → getErrorsSector i 0 = getErrorsSector i m.fi.totalSectors
  apart : LogsApart m p
  malloc : ∀ n, m.malloc n ≠ 0
  caches : p.fatCache &&& CACHE = 0 ∨ p.fatCache &&& HARD_CACHE = 0
  slots : p.jc = 0 ∨ journalSlots m ≤ 255
  records : ∀ k, k < journalSlots m →
    p.jc = 0 ∨ ∃ i, electedCopy m k s = some i ∧ Replayable m (recordAt m s.medium k i)

/-- The state of a process that has not used the library, on the image of `s`. -/
structure FreshProcess (s s₀ : FS) : Prop where
  medium : s₀.medium = s.medium
  fat : s₀.fat = none
  bitmap : s₀.bitmap = none

/-- The error storage is loaded before the geometry: the total number of sectors is zero. -/
theorem Recorded.setup (hw : m.Works) (hec : 0 < m.fi.errorsCount) (h : Recorded m s)
    (hsectors : ∀ i, i < m.fi.errorsCount →
      getErrorsSector i 0 = getErrorsSector i m.fi.totalSectors) {s₀ : FS}
    (hmedium : s₀.medium = s.medium) :
    errorsSetup (m.withInfo { (default : FatData) with errorsCount := m.fi.errorsCount }) s₀ =
      (true, { s₀ with errors := { s.errors with current := s.errors.firstError } }) := by
  obtain ⟨body, hbody, hheader, hload⟩ := h.header
  have hall : ∀ i, i < m.fi.errorsCount →
      errorAt (m.withInfo { (default : FatData) with errorsCount := m.fi.errorsCount })
        s₀.medium 0 i = body := by
    intro i hi
    rw [← hheader i hi, hmedium]
    have hsector : getErrorsSector i
        (m.withInfo { (default : FatData) with errorsCount := m.fi.errorsCount }).fi.totalSectors
          = getErrorsSector i m.fi.totalSectors := hsectors i hi
    rw [errorAt, hsector]
    rfl
  have hread : readError (m.withInfo { (default : FatData) with errorsCount := m.fi.errorsCount })
      0 s₀ = (some body, s₀) := by
    apply readError_agree (withInfo_works hw _)
    · exact hec
    · exact hall
    · exact hbody
  rw [errorsSetup, hread, ← hload]
  rfl

/-- The state with its errors as a mount loads them: the next code goes to the first position. -/
def FS.reloaded (s : FS) : FS :=
  { s with errors := { s.errors with current := s.errors.firstError } }

/-- The mount reads the first copy, which verifies. -/
theorem QuietMount.init_eq (hw : m.Works) (hec : 0 < m.fi.errorsCount) (hss : m.sectorSize ≠ 0)
    {p : Params} (h : Recorded m s) (hq : QuietMount m p s) {s₀ : FS} (hs₀ : FreshProcess s s₀)
    (fuel : Nat) : nifat32Init (m.withInfo default) fuel p s₀ =
      mountFrom (m.withInfo (startInfo default p)) fuel p p.bsNum.toNat
        (bootAt m p.ts.toNat s p.bsNum.toNat) { s₀ with errors := s.reloaded.errors } := by
  have hcount : m.fi.errorsCount = p.ec.toNat := congrArg FatData.errorsCount hq.info
  have hne : ¬ p.ec = 0 := by
    intro h0
    rw [hcount, h0] at hec
    exact absurd hec (by decide)
  obtain ⟨left, hleft⟩ : ∃ left, p.bsCount.toNat - p.bsNum.toNat = left + 1 :=
    ⟨p.bsCount.toNat - p.bsNum.toNat - 1, by have := hq.num; omega⟩
  have hnum : p.bsCount.toNat - (left + 1) = p.bsNum.toNat := by
    have := hq.num
    omega
  have hboot : bootAt m p.ts.toNat s₀ p.bsNum.toNat = bootAt m p.ts.toNat s p.bsNum.toNat := by
    rw [bootAt, hs₀.medium]
    rfl
  have hsetup : errorsSetup ((m.withInfo default).withInfo
      { (m.withInfo default).fi with errorsCount := p.ec.toNat }) s₀
        = (true, { s₀ with errors := s.reloaded.errors }) := by
    rw [← hcount]
    exact h.setup hw hec hq.sectors hs₀.medium
  have hread : dskReadSector ((m.withInfo default).withInfo
      (startInfo (m.withInfo default).fi p)) s₀.medium
      (getBootSector p.bsNum.toNat p.ts.toNat)
      ((m.withInfo default).withInfo (startInfo (m.withInfo default).fi p)).sectorSize
        = some (bootAt m p.ts.toNat s p.bsNum.toNat) := by
    rw [← hboot]
    exact dskReadSector_eq (withInfo_works hw _) _ _
  have hsize : (m.withInfo default).sectorSize = m.sectorSize := rfl
  have hvalid : (decodeBoot (bootAt m p.ts.toNat s p.bsNum.toNat)).Valid := hq.valid
  rw [nifat32Init, hleft, initFrom, hsize, if_neg hss, hnum, if_neg hne, hsetup]
  simp only [hread, if_pos hvalid]
  rfl

/-- The geometry is the one that was mounted, and until the journal is replayed the logs are those
of `s`. -/
theorem QuietMount.mountFrom_eq (hw : m.Works) {p : Params} (hq : QuietMount m p s) {s₀ : FS}
    (hs₀ : FreshProcess s s₀) (fuel : Nat) : ∃ s₁, SameLogs m s₁ s.reloaded ∧
      mountFrom (m.withInfo (startInfo default p)) fuel p p.bsNum.toNat
        (bootAt m p.ts.toNat s p.bsNum.toNat) { s₀ with errors := s.reloaded.errors } =
          if p.jc = 0 then some (true, m, s₁)
          else (restoreFromJournal m fuel s₁).map fun (_, s) => (true, m, s) := by
  have hfi : (m.withInfo (startInfo default p)).withInfo (geometryOf
      (m.withInfo (startInfo default p)).fi p
        (decodeBoot (bootAt m p.ts.toNat s p.bsNum.toNat))) = m := by
    show m.withInfo (geometryOf (startInfo default p) p (copyBoot m p.ts.toNat s p.bsNum.toNat))
      = m
    rw [← hq.info]
    rfl
  have hbytes : (decodeBoot (bootAt m p.ts.toNat s p.bsNum.toNat)).bytesPerSector ≠ 0 := hq.bytes
  have hstart : SameLogs m { s₀ with errors := s.reloaded.errors } s.reloaded :=
    .of_eq rfl hs₀.medium
  have hboots : SameLogs m (if 0 < p.bsNum.toNat then
      rewriteBoots m p.ts.toNat p.bsNum.toNat (bootAt m p.ts.toNat s p.bsNum.toNat)
        (List.range p.bsCount.toNat) { s₀ with errors := s.reloaded.errors }
      else { s₀ with errors := s.reloaded.errors }) s.reloaded := by
    split
    · refine (rewriteBoots_sameLogs hw hq.apart _ ?_ _ ?_).trans hstart
      · exact Nat.le_of_eq (length_read _ _ _)
      · exact fun i hi => List.mem_range.mp hi
    · exact hstart
  have hctable : ∀ t, SameLogs m (ctableInit t) t := fun t => .of_eq rfl rfl
  refine ⟨_, (hctable _).trans
    ((initCaches_sameLogs p.fatCache hq.malloc hq.caches).trans hboots), ?_⟩
  rw [mountFrom]
  simp only [if_neg hbytes, hfi]

/-- The remount succeeds, and but for the position where the next code is written the errors are
what they were. -/
theorem remount_errors (hw : m.Works) (hec : 0 < m.fi.errorsCount) (hss : m.sectorSize ≠ 0)
    {p : Params} (h : Recorded m s) (hq : QuietMount m p s) {s₀ : FS} (hs₀ : FreshProcess s s₀) :
    Ensures (fun fuel => nifat32Init (m.withInfo default) fuel p s₀) fun r =>
      ∃ s', r = (true, m, s') ∧ SameErrors m s' s.reloaded := by
  refine ⟨journalSlots m + 1, fun fuel hfuel => ?_⟩
  show ∃ r, nifat32Init (m.withInfo default) fuel p s₀ = some r ∧ _
  obtain ⟨s₁, hlogs, hmount⟩ := hq.mountFrom_eq hw hs₀ fuel
  rw [hq.init_eq hw hec hss h hs₀ fuel, hmount]
  by_cases hjc : p.jc = 0
  · rw [if_pos hjc]
    exact ⟨_, rfl, s₁, rfl, hlogs.toSameErrors⟩
  · rw [if_neg hjc]
    have hjournals : m.fi.journalsCount = p.jc.toNat := congrArg FatData.journalsCount hq.info
    have hpos : 0 < m.fi.journalsCount := by
      rw [hjournals]
      exact Nat.pos_of_ne_zero fun h0 => hjc (UInt8.toNat_inj.mp h0)
    -- the records of `s` are those that the replay finds
    have hrecords : ∀ k, k < journalSlots m →
        ∃ i, electedCopy m k s₁ = some i ∧ Replayable m (recordAt m s₁.medium k i) := by
      intro k hk
      obtain ⟨i, helected, hreplay⟩ := (hq.records k hk).resolve_left hjc
      have hlt : i < m.fi.journalsCount := Vote.seated_lt helected
      refine ⟨i, ?_, ?_⟩
      · rw [← helected]
        apply Vote.seated_congr
        intro i hi
        rw [hlogs.recordAt k hi]
        rfl
      · rw [hlogs.recordAt k hlt]
        exact hreplay
    obtain ⟨s', he, hsame⟩ := restoreFromJournal_sameErrors hw hq.apart
      (hq.slots.resolve_left hjc) hfuel hpos hrecords
    rw [he]
    exact ⟨_, rfl, s', rfl, hsame.trans hlogs.toSameErrors⟩

/-- After the remount every sequence of error calls returns what it would have returned without
it. -/
def SurvivesRemount (m : Mount) (p : Params) (s : FS) : Prop :=
  ∀ s₀, FreshProcess s s₀ →
    Ensures (fun fuel => nifat32Init (m.withInfo default) fuel p s₀) fun r =>
      ∃ m' s', r = (true, m', s') ∧
        ∀ calls, (errorCalls m' calls s').1 = (errorCalls m calls s).1

/-- The error calls write the error sectors only. -/
theorem ErrorCall.exec_window (hw : m.Works) {a : Nat} (ha : a ∉ errorSectors m) (c : ErrorCall)
    (s : FS) : SameWindow m.sectorSize (c.exec m s).2.medium.bytes s.medium.bytes a := by
  cases c with
  | register c => exact errorsRegisterError_window hw ha c s
  | last =>
    simp only [ErrorCall.exec]
    rw [errorsLastError]
    split
    · exact .refl _ _ _
    have hread : SameWindow m.sectorSize
        (readError m s.errors.firstError s).2.medium.bytes s.medium.bytes a := by
      rw [readError]
      split
      · exact .refl _ _ _
      · split
        · exact writeError_window hw ha _ _ _
        · exact .refl _ _ _
    generalize readError m s.errors.firstError s = r at hread
    obtain ⟨code, t⟩ := r
    cases code with
    | none => exact hread
    | some code => exact (writeError_window hw ha _ _ _).trans hread

theorem errorCalls_window (hw : m.Works) {a : Nat} (ha : a ∉ errorSectors m)
    (calls : List ErrorCall) :
    SameWindow m.sectorSize (errorCalls m calls s).2.medium.bytes s.medium.bytes a := by
  induction calls generalizing s with
  | nil => exact .refl _ _ _
  | cons c cs ih =>
    simp only [errorCalls]
    exact ih.trans (c.exec_window hw ha s)

/-- A boot sector of a volume with `2 ^ 20` sectors, of which the FAT takes nearly all. -/
def largeBoot : BootSector := (rebuiltBoot {
  bsCount := 1, fatSize := 1048567, fatCount := 1, firstDataSector := 1048568
  totalSectors := 1048576, totalClusters := 8, bytesPerSector := 512, clusterSize := 512
  sectorsPerCluster := 1, extRootCluster := 2, sectorsPadd := 1, journalsCount := 0
  errorsCount := 1, entryOffset := 0 }).withChecksums

/-- One boot sector and one error area, without journals and caches. -/
def largeParams : Params :=
  { fatCache := NO_CACHE, bsNum := 0, bsCount := 1, ts := 1048576, jc := 0, ec := 1 }

/-- The mounted volume. -/
def largeMount : Mount :=
  { unmounted with fi := geometryOf (startInfo default largeParams) largeParams largeBoot }

/-- The volume behind its mount: but for the boot sector the device is zero. -/
def largeVolume : FS :=
  { zeroFS (oneFile 2 R_MODE) with medium := {
      bytes := write (fun _ => 0) (getBootSector 0 1048576 * 512) (bootSectorBytes largeBoot 512)
      writes := 0
      log := [] } }

theorem largeMount_works : largeMount.Works := ⟨fun _ _ _ _ => rfl, fun _ _ _ _ => rfl⟩

theorem largeMount_fi : largeMount.fi = {
    bsCount := 1, fatSize := 1048567, fatCount := 1, firstDataSector := 1048568
    totalSectors := 1048576, totalClusters := 8, bytesPerSector := 512, clusterSize := 512
    sectorsPerCluster := 1, extRootCluster := 2, sectorsPadd := 1, journalsCount := 0
    errorsCount := 1, entryOffset := 0 } := by
  rfl

theorem largeMount_errorSectors : errorSectors largeMount = [493536] := by
  rw [errorSectors, largeMount_fi]
  decide

/-- The error calls leave the boot sector alone. -/
theorem copyBoot_largeVolume (calls : List ErrorCall) :
    copyBoot largeMount largeParams.ts.toNat (errorCalls largeMount calls largeVolume).2 0
      = largeBoot := by
  have ha : getBootSector 0 1048576 ∉ errorSectors largeMount := by
    rw [largeMount_errorSectors]
    decide
  have hsame := (errorCalls_window (s := largeVolume) largeMount_works ha calls).read
  have hlen : (bootSectorBytes largeBoot 512).length = 512 :=
    length_bootSectorBytes _ (Nat.le_of_ble_eq_true rfl)
  have hread : read largeVolume.medium.bytes (getBootSector 0 1048576 * 512) 512
      = bootSectorBytes largeBoot 512 := by
    rw [largeVolume, read_write_block _ _ _ hlen, if_pos rfl]
  exact (congrArg decodeBoot (hsame.trans hread)).trans (decodeBoot_pack _ _)

theorem largeMount_quiet (calls : List ErrorCall) :
    QuietMount largeMount largeParams (errorCalls largeMount calls largeVolume).2 where
  num := by decide
  valid := by
    rw [show largeParams.bsNum.toNat = 0 from rfl, copyBoot_largeVolume]
    exact withChecksums_valid _
  bytes := by
    rw [show largeParams.bsNum.toNat = 0 from rfl, copyBoot_largeVolume]
    show (512 : UInt16) ≠ 0
    decide
  info := by
    rw [show largeParams.bsNum.toNat = 0 from rfl, copyBoot_largeVolume]
    rfl
  sectors := by
    rw [largeMount_fi]
    decide
  apart := by
    refine ⟨?_, ?_, ?_⟩
    · rw [journalSectors, largeMount_fi]
      intro a ha
      cases ha
    · rw [largeMount_errorSectors, journalSectors, largeMount_fi]
      decide
    · have hca : ∀ ca, ca < 8 → 2 ≤ ca → ∀ j, j < 1 →
          clusterSector largeMount ca + j ∉ errorSectors largeMount ∧
          clusterSector largeMount ca + j ∉ journalSectors largeMount := by
        simp only [largeMount_errorSectors, journalSectors, clusterSector, largeMount_fi]
        decide
      intro ca h
      exact hca ca h.2 h.1
  malloc := fun n => Nat.succ_ne_zero n
  caches := Or.inl rfl
  slots := Or.inl rfl
  records := fun _ _ => Or.inl rfl

theorem largeVolume_recorded : Recorded largeMount largeVolume where
  first := by decide
  last := by decide
  header := by
    refine ⟨0, by decide, ?_, by decide⟩
    intro i hi
    obtain rfl : i = 0 := Nat.lt_one_iff.mp hi
    have hzero : SameWindow 512 largeVolume.medium.bytes (fun _ => 0) 493536 := by
      intro o ho
      have hsector : getBootSector 0 1048576 = 247537 := by decide
      have hlen : (bootSectorBytes largeBoot 512).length = 512 :=
        length_bootSectorBytes _ (Nat.le_of_ble_eq_true rfl)
      apply write_of_outside (fun _ => 0) (getBootSector 0 1048576 * 512)
        (bootSectorBytes largeBoot 512)
      omega
    have hcell : cell 0 512 largeVolume.medium.bytes 493536 (errorOffset 0) 8
        = List.replicate 8 0 := hzero.cell.trans cell_const
    exact (congrArg errorOf hcell).trans (by decide)

/-- What the calls return after a registration that leaves `c'` as the oldest code. -/
theorem RingQueue.register_last {q q' : List ErrorCode} {c c' : ErrorCode} (hw : m.Works)
    (hec : 0 < m.fi.errorsCount) (h : RingQueue m s q)
    (hstores : StoresCode m s.errors.current c.toU32)
    (hnext : nextRingIndex m s.errors.current < 2 ^ 16)
    (hq : Ring.push (ringPositions m - 1) q c = c' :: q') :
    (errorCalls m [.register c, .last] s).1[1]? = some c'.toU32 := by
  have hholds := h.register hw c hstores hnext
  rw [hq] at hholds
  exact congrArg some (hholds.last_pending hw hec).1

/-- The positions behind a registration. -/
theorem errorsRegisterError_ring (hw : m.Works) (c : ErrorCode) (s : FS) :
    (errorsRegisterError m c s).2.errors = {
      firstError :=
        if nextRingIndex m s.errors.current = s.errors.firstError
        then u16 (nextRingIndex m s.errors.firstError) else s.errors.firstError
      current := u16 (nextRingIndex m s.errors.current)
      lastError := u16 (nextRingIndex m s.errors.current) } := by
  rw [errorsRegisterError, writeError_works hw]
  simp only [dumpInfo]
  rw [writeError_works hw]

/-- The volume after one code was registered: it is at the position `1`, and the next one goes to
the position `2`. -/
theorem largeVolume_register (c : ErrorCode) :
    RingHolds largeMount (errorCalls largeMount [.register c] largeVolume).2 [c] ∧
      (errorCalls largeMount [.register c] largeVolume).2.errors = ⟨1, 2, 2⟩ := by
  have hempty : RingQueue largeMount largeVolume [] :=
    .empty (by decide) (by decide) (by decide) rfl
  have hstate : (errorCalls largeMount [.register c] largeVolume).2
      = (errorsRegisterError largeMount c largeVolume).2 := rfl
  rw [hstate, errorsRegisterError_ring largeMount_works]
  exact ⟨hempty.register largeMount_works c (.of_inside (by decide)) (by decide), by decide⟩

end NiFat32
