import NiFat32.Proofs.Areas
import NiFat32.Proofs.Volume
import NiFat32.Lib.Ring

/-!
# `Proofs.ErrorRing`: the error ring is a bounded queue

The ring of the error area has a position for every code that a cluster could hold, but each
position is accessed through the first sector of its copy, and the positions are kept in 16 bits.

`RingHolds` says which codes are pending in a state: it is `Ring.Holds` over the cells of the
error copies. `RingQueue.register` and `RingHolds.last` are the two operations, `error_ring_fifo`
the runs of them.
-/

set_option autoImplicit false

namespace NiFat32

open ByteStore Run

variable {m : Mount} {s : FS} {p p' : Nat} {c : UInt32}

/-! ### One position -/

/-- The sector keeps the whole code at the position: what would lie behind its end is zero. -/
def StoresCode (m : Mount) (p : Nat) (c : UInt32) : Prop :=
  ∀ b ∈ (packMemory (bytesOfU32 c)).drop (m.sectorSize - errorOffset p), b = 0

/-- A position that lies in the sector keeps every code. -/
theorem StoresCode.of_inside (h : errorOffset p + 8 ≤ m.sectorSize) : StoresCode m p c := by
  have hnil : (packMemory (bytesOfU32 c)).drop (m.sectorSize - errorOffset p) = [] := by
    apply List.drop_eq_nil_of_le
    rw [length_packError]
    omega
  intro b hb
  rw [hnil] at hb
  cases hb

/-- Different positions have no byte in common. -/
theorem errorOffset_apart (hp : p < 2 ^ 16) (hp' : p' < 2 ^ 16) (hne : p ≠ p') :
    errorOffset p + 8 ≤ errorOffset p' ∨ errorOffset p' + 8 ≤ errorOffset p := by
  have hoff : errorOffset p = p * 8 := u32_of_lt (by omega)
  have hoff' : errorOffset p' = p' * 8 := u32_of_lt (by omega)
  omega

/-- A write to all copies succeeds, and changes the device only. -/
theorem writeError_works (hw : m.Works) (p : Nat) (c : UInt32) (s : FS) :
    writeError m p c s = (true, { s with medium := (writeError m p c s).2.medium }) := by
  obtain ⟨d, he, -⟩ := writeError_cells hw p c s
  rw [he]

/-- A registration succeeds, and leaves all sectors but the error sectors. -/
theorem errorsRegisterError_window (hw : m.Works) {a : Nat} (ha : a ∉ errorSectors m)
    (code : ErrorCode) (s : FS) : SameWindow m.sectorSize
      (errorsRegisterError m code s).2.medium.bytes s.medium.bytes a := by
  rw [errorsRegisterError, writeError_works hw]
  simp only [dumpInfo]
  exact (writeError_window hw ha _ _ _).trans
    (writeError_window hw ha s.errors.current code.toU32 s)

/-- Every copy has the code that was written, when its sector keeps it. -/
theorem errorAt_writeError_self (hw : m.Works) (s : FS) (h : StoresCode m p c) {i : Nat}
    (hi : i < m.fi.errorsCount) : errorAt m (writeError m p c s).2.medium p i = c := by
  obtain ⟨d, he, hd⟩ := writeError_cells hw p c s
  have hmem : getErrorsSector i m.fi.totalSectors ∈ errorSectors m :=
    List.mem_map.mpr ⟨i, List.mem_range.mpr hi, rfl⟩
  have hcell : cell 0 m.sectorSize d.bytes (getErrorsSector i m.fi.totalSectors)
      (errorOffset p) (packMemory (bytesOfU32 c)).length = packMemory (bytesOfU32 c) := by
    rw [hd, cell_putAll_self hmem]
    exact clip_eq_self_iff.mpr h
  rw [length_packError] at hcell
  rw [he, errorAt, hcell, errorOf_pack]

/-- The other positions keep their codes. -/
theorem errorAt_writeError_other (hw : m.Works) (s : FS) (hne : p' ≠ p) (hp : p < 2 ^ 16)
    (hp' : p' < 2 ^ 16) (i : Nat) :
    errorAt m (writeError m p c s).2.medium p' i = errorAt m s.medium p' i := by
  obtain ⟨d, he, hd⟩ := writeError_cells hw p c s
  have hcell : cell 0 m.sectorSize d.bytes (getErrorsSector i m.fi.totalSectors)
      (errorOffset p') 8 = cell 0 m.sectorSize s.medium.bytes
        (getErrorsSector i m.fi.totalSectors) (errorOffset p') 8 := by
    rw [hd]
    apply cell_putAll_other
    rw [length_packError]
    exact Or.inr (errorOffset_apart hp' hp hne)
  rw [he]
  exact congrArg errorOf hcell

/-- A read of a position whose copies agree. -/
theorem readError_agree (hw : m.Works) (hec : 0 < m.fi.errorsCount)
    (hall : ∀ i, i < m.fi.errorsCount → errorAt m s.medium p i = c) (hc : c ≠ 0xFFFFFFFF) :
    readError m p s = (some c, s) := by
  have hmap : (List.range m.fi.errorsCount).map (errorAt m s.medium p)
      = List.replicate m.fi.errorsCount c := by
    apply List.eq_replicate_iff.mpr
    simpa using hall
  have hquiet := Vote.run_replicate_wrong (0xFFFFFFFF : UInt32) c m.fi.errorsCount
  rw [readError, voteError_works hw, Vote.seated_of_agree hec hc hall, hmap]
  simp only [if_neg (Int.not_lt.mpr hquiet), Vote.run_replicate _ _ _ hec]

/-! ### The ring -/

/-- The number of indices `i ≥ 1` with `i * sizeof(error_code_t) < cluster_size`. -/
def ringSize (m : Mount) : Nat := (m.fi.clusterSize - 1) / 4

theorem le_ringSize_iff {i : Nat} (hi : 1 ≤ i) : i ≤ ringSize m ↔ i * 4 < m.fi.clusterSize := by
  simp only [ringSize]
  omega

/-- The positions that the ring uses; it uses the first one in any case. -/
def ringPositions (m : Mount) : Nat := max 1 (ringSize m)

theorem nextRingIndex_eq (hp : 1 ≤ p) : nextRingIndex m p = Ring.next (ringPositions m) p := by
  have hsize := le_ringSize_iff (m := m) (i := p + 1) (by omega)
  rw [nextRingIndex, Ring.next]
  by_cases hend : m.fi.clusterSize ≤ (p + 1) * 4
  · have hlast : ¬ p < ringPositions m := by
      rw [ringPositions]
      omega
    rw [if_pos hend, if_neg hlast]
  · have hmore : p < ringPositions m := by
      rw [ringPositions]
      omega
    rw [if_neg hend, if_pos hmore]

theorem ErrorCode.toU32_ne (c : ErrorCode) : c.toU32 ≠ 0xFFFFFFFF := by
  cases c <;> decide

/-- All copies of the ring have the code at the position. -/
def HasError (m : Mount) (d : Medium) (p : Nat) (c : ErrorCode) : Prop :=
  ∀ i, i < m.fi.errorsCount → errorAt m d p i = c.toU32

/-- The codes `q` lie in front of the position where the next code is written. -/
structure RingQueue (m : Mount) (s : FS) (q : List ErrorCode) : Prop where
  holds : Ring.Holds (ringPositions m) (HasError m s.medium) s.errors.firstError
    s.errors.current q
  small : ∀ k, k ≤ q.length → Ring.pos (ringPositions m) s.errors.firstError k < 2 ^ 16

/-- The codes `q` are pending. -/
structure RingHolds (m : Mount) (s : FS) (q : List ErrorCode) : Prop extends RingQueue m s q where
  last : s.errors.lastError = s.errors.current

variable {q : List ErrorCode}

theorem RingQueue.current_small (h : RingQueue m s q) : s.errors.current < 2 ^ 16 := by
  rw [h.holds.current_eq]
  exact h.small q.length (Nat.le_refl _)

/-- The positions are written to the first cell of every copy, which is none of them. -/
theorem RingHolds.dump (hw : m.Works) {ring : ErrorRing} (h : RingHolds m s q)
    (hring : s.errors = ring) : RingHolds m (dumpInfo m ring s).2 q := by
  subst hring
  rw [dumpInfo, writeError_works hw]
  refine ⟨⟨⟨h.holds.one_le, h.holds.le, h.holds.short, h.holds.current_eq, ?_⟩, h.small⟩, h.last⟩
  intro k c hk i hi
  have hlt : k < q.length := (List.getElem?_eq_some_iff.mp hk).1
  have hpos := Ring.pos_bounds h.holds.one_le h.holds.le (k := k)
    (Nat.le_of_lt (Nat.lt_trans hlt h.holds.short))
  rw [← h.holds.stored k c hk i hi]
  exact errorAt_writeError_other hw _ (Nat.ne_of_gt hpos.1) (by decide)
    (h.small k (Nat.le_of_lt hlt)) i

/-- A registration appends the code to the queue, and drops the oldest one when it is full. -/
theorem RingQueue.register (hw : m.Works) (h : RingQueue m s q) (c : ErrorCode)
    (hstores : StoresCode m s.errors.current c.toU32)
    (hnext : nextRingIndex m s.errors.current < 2 ^ 16) :
    RingHolds m (errorsRegisterError m c s).2 (Ring.push (ringPositions m - 1) q c) := by
  have hcurrent := h.holds.current_bounds
  have hstep : nextRingIndex m s.errors.current
      = Ring.pos (ringPositions m) s.errors.firstError (q.length + 1) := by
    rw [nextRingIndex_eq hcurrent.1, h.holds.current_eq]
    rfl
  have hsmall : ∀ k, k ≤ q.length + 1 →
      Ring.pos (ringPositions m) s.errors.firstError k < 2 ^ 16 := by
    intro k hk
    by_cases hold : k ≤ q.length
    · exact h.small k hold
    · obtain rfl : k = q.length + 1 := by omega
      rw [← hstep]
      exact hnext
  -- `first_error` moves on without a loss
  have hfirst : u16 (nextRingIndex m s.errors.firstError)
      = Ring.next (ringPositions m) s.errors.firstError := by
    rw [nextRingIndex_eq h.holds.one_le]
    exact Nat.mod_eq_of_lt (hsmall 1 (by omega))
  have hcurr : u16 (nextRingIndex m s.errors.current)
      = Ring.next (ringPositions m) s.errors.current := by
    rw [u16, Nat.mod_eq_of_lt hnext, nextRingIndex_eq hcurrent.1]
  have hnew : HasError m (writeError m s.errors.current c.toU32 s).2.medium s.errors.current c :=
    fun i hi => errorAt_writeError_self hw s hstores hi
  have hpush := h.holds.push hnew fun k a hk hne hhas i hi =>
    (errorAt_writeError_other hw s hne h.current_small (h.small k (by omega)) i).trans (hhas i hi)
  rw [errorsRegisterError, writeError_works hw]
  simp only [hfirst, hcurr]
  rw [nextRingIndex_eq hcurrent.1]
  refine RingHolds.dump hw ⟨⟨hpush, ?_⟩, rfl⟩ rfl
  intro k hk
  simp only
  by_cases hfull : Ring.next (ringPositions m) s.errors.current = s.errors.firstError
  · have hlen := h.holds.full_iff.mp hfull
    rw [Ring.push, if_neg (by omega), List.length_tail, List.length_append] at hk
    rw [if_pos hfull, Ring.pos_next]
    exact hsmall (k + 1) (by simpa using hk)
  · rw [if_neg hfull]
    apply hsmall
    rw [Ring.push] at hk
    split at hk
    · simpa using hk
    · rw [List.length_tail, List.length_append] at hk
      simp at hk
      omega

/-- Without pending codes there is no last error. -/
theorem RingHolds.last_empty (h : RingHolds m s []) :
    errorsLastError m s = (0xFFFFFFFF, s) := by
  have heq : s.errors.firstError = s.errors.lastError := by
    rw [h.last]
    exact h.holds.nil_iff.mpr rfl
  rw [errorsLastError, if_pos heq]

theorem errorsLastError_pending {c : UInt32}
    (hne : s.errors.firstError ≠ s.errors.lastError)
    (hread : readError m s.errors.firstError s = (some c, s)) :
    (errorsLastError m s).1 = c := by
  rw [errorsLastError, if_neg hne, hread]

/-- The oldest pending code is returned, and is pending no more. -/
theorem RingHolds.last_pending (hw : m.Works) (hec : 0 < m.fi.errorsCount) {c : ErrorCode}
    (h : RingHolds m s (c :: q)) :
    (errorsLastError m s).1 = c.toU32 ∧ RingHolds m (errorsLastError m s).2 q := by
  have hne : s.errors.firstError ≠ s.errors.lastError := by
    rw [h.last]
    exact fun heq => List.cons_ne_nil _ _ (h.holds.nil_iff.mp heq)
  obtain ⟨hhas, hpop⟩ := h.holds.pop
  have hfirst : u16 (nextRingIndex m s.errors.firstError)
      = Ring.next (ringPositions m) s.errors.firstError := by
    rw [nextRingIndex_eq h.holds.one_le]
    exact Nat.mod_eq_of_lt (h.small 1 (Nat.succ_le_succ (Nat.zero_le _)))
  rw [errorsLastError, if_neg hne, readError_agree hw hec hhas c.toU32_ne]
  simp only [hfirst]
  refine ⟨trivial, ?_⟩
  refine RingHolds.dump hw ⟨⟨hpop, ?_⟩, h.last⟩ rfl
  intro k hk
  simp only
  rw [Ring.pos_next]
  exact h.small (k + 1) (Nat.succ_le_succ hk)

/-! ### Runs of error calls -/

/-- A call of the error ring. -/
inductive ErrorCall
  | register (c : ErrorCode)
  | last

/-- A run of error calls: the state of the library, the codes that are pending, and whether every
call so far returned what a queue returns. -/
structure ErrorRun where
  fs : FS
  pending : List ErrorCode
  lawful : Prop

/-- What `errors_last_error` has to return: the oldest code, or `-1`. -/
def oldest : List ErrorCode → UInt32
  | [] => 0xFFFFFFFF
  | c :: _ => c.toU32

/-- The run after the next call: at most `N - 1` codes are pending, where `N` is the number of
positions of the ring. -/
def ErrorRun.next (m : Mount) : ErrorCall → ErrorRun → ErrorRun
  | .register c, x =>
    { x with
      fs := (errorsRegisterError m c x.fs).2
      pending := Ring.push (ringSize m - 1) x.pending c }
  | .last, x =>
    let (c, s) := errorsLastError m x.fs
    { fs := s, pending := x.pending.tail, lawful := x.lawful ∧ c = oldest x.pending }

/-- The calls complete. -/
def ErrorRun.call (m : Mount) (c : ErrorCall) (x : ErrorRun) (_ : Nat) : Option ErrorRun :=
  some (x.next m c)

theorem ErrorRun.call_eq (m : Mount) (c : ErrorCall) (x : ErrorRun) (fuel : Nat) :
    ErrorRun.call m c x fuel = some (x.next m c) := rfl

/-- A code is registered at a position that the sector keeps, and the position behind it has 16
bits. -/
def KeepsCode (m : Mount) (x : ErrorRun) : ErrorCall → Prop
  | .register c => StoresCode m x.fs.errors.current c.toU32 ∧
      nextRingIndex m x.fs.errors.current < 2 ^ 16
  | .last => True

/-- A ring without pending codes. -/
structure EmptyRing (m : Mount) (s : FS) : Prop where
  first_pos : 1 ≤ s.errors.firstError
  first_le : s.errors.firstError ≤ ringPositions m
  first_lt : s.errors.firstError < 2 ^ 16
  current : s.errors.current = s.errors.firstError
  last : s.errors.lastError = s.errors.firstError

/-- A ring that is empty where the next code is written. -/
theorem RingQueue.empty (h1 : 1 ≤ s.errors.firstError) (hle : s.errors.firstError ≤ ringPositions m)
    (hlt : s.errors.firstError < 2 ^ 16) (hcurrent : s.errors.current = s.errors.firstError) :
    RingQueue m s [] where
  holds := by
    rw [hcurrent]
    exact .empty h1 hle
  small := by
    intro k hk
    obtain rfl : k = 0 := Nat.le_zero.mp hk
    exact hlt

theorem EmptyRing.holds (h : EmptyRing m s) : RingHolds m s [] where
  toRingQueue := .empty h.first_pos h.first_le h.first_lt h.current
  last := h.last.trans h.current.symm

/-- One call keeps the invariant. -/
theorem ErrorRun.next_holds (hw : m.Works) (hec : 0 < m.fi.errorsCount) {x : ErrorRun}
    {c : ErrorCall} (hx : x.lawful ∧ RingHolds m x.fs x.pending) (hc : KeepsCode m x c) :
    (x.next m c).lawful ∧ RingHolds m (x.next m c).fs (x.next m c).pending := by
  obtain ⟨hlawful, hholds⟩ := hx
  cases c with
  | register c =>
    have hcap : ringSize m - 1 = ringPositions m - 1 := by
      rw [ringPositions]
      omega
    have hreg := hholds.toRingQueue.register hw c hc.1 hc.2
    rw [← hcap] at hreg
    exact ⟨hlawful, hreg⟩
  | last =>
    obtain ⟨s, q, lawful⟩ := x
    cases q with
    | nil =>
      rw [ErrorRun.next, hholds.last_empty]
      exact ⟨⟨hlawful, rfl⟩, hholds⟩
    | cons c q =>
      obtain ⟨hret, hrest⟩ := hholds.last_pending hw hec
      rw [ErrorRun.next]
      exact ⟨⟨hlawful, hret⟩, hrest⟩

/-- In every run whose registrations lie in the sector the ring is a bounded queue. -/
theorem error_ring_fifo (hw : m.Works) (hec : 0 < m.fi.errorsCount) (calls : List ErrorCall)
    (s : FS) (hempty : EmptyRing m s) :
    Always (KeepsCode m) (ErrorRun.call m) ErrorRun.lawful calls ⟨s, [], True⟩ := by
  apply Always.of_invariant fun x : ErrorRun => x.lawful ∧ RingHolds m x.fs x.pending
  · exact fun x hx => hx.1
  · intro x c hx hc
    exact ⟨0, fun _ _ => ⟨_, rfl, ErrorRun.next_holds hw hec hx hc⟩⟩
  · exact ⟨trivial, hempty.holds⟩

/-- A code that is registered at the first position is returned. -/
theorem error_ring_fifo_small :
    Always (KeepsCode (smallMount 0)) (ErrorRun.call (smallMount 0)) ErrorRun.lawful
      [.register .badClusterError, .last, .last] ⟨zeroFS (oneFile 2 0), [], True⟩ ∧
    KeepsCode (smallMount 0) ⟨zeroFS (oneFile 2 0), [], True⟩ (.register .badClusterError) :=
  ⟨error_ring_fifo ⟨fun _ _ _ _ => rfl, fun _ _ _ _ => rfl⟩ (by decide) _ _
    ⟨by decide, by decide, by decide, rfl, rfl⟩, .of_inside (by decide), by decide⟩

/-! ### A position behind the sector -/

/-- The small volume after fifteen codes were registered and returned. -/
def ringAtEnd : FS :=
  { zeroFS (oneFile 2 0) with errors := { firstError := 16, current := 16, lastError := 16 } }

/-- The sixteenth code is not stored: `errors_last_error` returns `NO_ERROR` for it. -/
theorem code_behind_sector_lost : EmptyRing (smallMount 0) ringAtEnd ∧
    ¬ Always (fun _ _ => True) (ErrorRun.call (smallMount 0)) ErrorRun.lawful
      [.register .badClusterError, .last] ⟨ringAtEnd, [], True⟩ := by
  have hw : (smallMount 0).Works := ⟨fun _ _ _ _ => rfl, fun _ _ _ _ => rfl⟩
  refine ⟨⟨by decide, by decide, by decide, rfl, rfl⟩, ?_⟩
  intro hrun
  -- the write to the sixteenth position leaves the sector as it was
  obtain ⟨d, he, hd⟩ := writeError_cells hw 16 ErrorCode.badClusterError.toU32 ringAtEnd
  have hmem : getErrorsSector 0 (smallMount 0).fi.totalSectors ∈ errorSectors (smallMount 0) :=
    List.mem_cons_self
  have hcell : cell 0 (smallMount 0).sectorSize d.bytes
      (getErrorsSector 0 (smallMount 0).fi.totalSectors) (errorOffset 16)
      (packMemory (bytesOfU32 ErrorCode.badClusterError.toU32)).length
        = List.replicate (packMemory (bytesOfU32 ErrorCode.badClusterError.toU32)).length 0 := by
    rw [hd, cell_putAll_self hmem]
    exact clip_of_ge (by decide)
  rw [length_packError] at hcell
  have hwrite : writeError (smallMount 0) ringAtEnd.errors.current
      ErrorCode.badClusterError.toU32 ringAtEnd = (true, { ringAtEnd with medium := d }) := he
  have hregister : (errorsRegisterError (smallMount 0) .badClusterError ringAtEnd).2
      = { ringAtEnd with
          medium := (writeError (smallMount 0) 0 (packInfoEntry 16 17)
            { ringAtEnd with medium := d, errors := ⟨16, 17, 17⟩ }).2.medium
          errors := ⟨16, 17, 17⟩ } := by
    rw [errorsRegisterError, hwrite]
    exact congrArg Prod.snd (writeError_works hw 0 (packInfoEntry 16 17) _)
  -- so it reads as zero
  have hzero : ∀ i, i < 1 → errorAt (smallMount 0)
      (errorsRegisterError (smallMount 0) .badClusterError ringAtEnd).2.medium 16 i = 0 := by
    intro i hi
    obtain rfl : i = 0 := Nat.lt_one_iff.mp hi
    rw [hregister, errorAt_writeError_other hw _ (by decide) (by decide) (by decide), errorAt,
      hcell]
    decide
  have hreturn : ∀ x : ErrorRun, (x.next (smallMount 0) .last).lawful =
      (x.lawful ∧ (errorsLastError (smallMount 0) x.fs).1 = oldest x.pending) := fun _ => rfl
  have hlast := ((hrun.next trivial (ErrorRun.call_eq _ _ _)).next trivial
    (ErrorRun.call_eq _ _ _)).now
  rw [hreturn] at hlast
  have hpending : oldest (Ring.push (ringSize (smallMount 0) - 1) [] ErrorCode.badClusterError)
      = ErrorCode.badClusterError.toU32 := by decide
  have hret := hlast.2.trans hpending
  rw [ErrorRun.next] at hret
  have hread := readError_agree hw (p := 16) (by decide) hzero (by decide)
  generalize (errorsRegisterError (smallMount 0) .badClusterError ringAtEnd).2 = s
    at hregister hread hret
  have hfirst : s.errors.firstError = 16 := by rw [hregister]
  have hne : s.errors.firstError ≠ s.errors.lastError := by
    rw [hregister]
    show (16 : Nat) ≠ 17
    decide
  rw [← hfirst] at hread
  rw [errorsLastError_pending hne hread] at hret
  exact absurd hret (by decide)

end NiFat32
