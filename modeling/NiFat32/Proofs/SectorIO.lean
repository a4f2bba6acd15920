import NiFat32.Core.Disk
import NiFat32.Proofs.Volume

/-!
# `Proofs.SectorIO`: the callback requests of sector-spanning I/O

`sectorRequests` are the requests that the loops of `DSK_readoff_sectors` and
`DSK_writeoff_sectors` make; `readoffLoop_serves` and `writeoffLoop_serves` say that the loops serve
them in order until one fails.

A loop skips a sector only while the offset is larger than the sector size. An offset that is a
multiple of the sector size therefore ends on the sector before the range, with a request for no
byte behind its last one. Some platforms refuse it: a call of `pread` for no byte returns `0`.
`dsk_spans_flat_iff` says that this is the only case in which the calls are not flat byte I/O.
-/

set_option autoImplicit false

namespace NiFat32

open ByteStore

/-- What a callback is asked for. -/
structure SectorRequest where
  sa : Nat
  offset : Nat
  len : Nat
  deriving DecidableEq

variable {m : Mount} {d : Medium} {r : SectorRequest} {rs : List SectorRequest}
  {ss sc sa offset size : Nat} {data : List UInt8}

/-- The requests of a sector loop when none of them fails. -/
def sectorRequests (ss : Nat) : (sc sa offset size : Nat) → List SectorRequest
  | 0, _, _, _ => []
  | sc + 1, sa, offset, size =>
    if size = 0 then []
    else if ss < offset then sectorRequests ss sc (sa + 1) (offset - ss) size
    else
      let len := min size (ss - offset)
      { sa, offset, len } :: sectorRequests ss sc (sa + 1) 0 (size - len)

/-- Read requests in order until one fails: those that were made, and the bytes read. -/
def serveReads (m : Mount) (d : Medium) :
    List SectorRequest → List SectorRequest × Option (List UInt8)
  | [] => ([], some [])
  | r :: rs =>
    match readSector m d r.sa r.offset r.len with
    | none => ([r], none)
    | some bs => (r :: (serveReads m d rs).1, (serveReads m d rs).2.map (bs ++ ·))

/-- Write requests in order until one fails: those that were made, the result and the device. -/
def serveWrites (m : Mount) :
    List SectorRequest → List UInt8 → Medium → List SectorRequest × Bool × Medium
  | [], _, d => ([], true, d)
  | r :: rs, data, d =>
    match writeSector m d r.sa r.offset (data.take r.len) with
    | (false, d) => ([r], false, d)
    | (true, d) =>
      (r :: (serveWrites m rs (data.drop r.len) d).1, (serveWrites m rs (data.drop r.len) d).2)

/-- The loop of `DSK_readoff_sectors` serves its requests. -/
theorem readoffLoop_serves (m : Mount) (d : Medium) (sc sa offset size : Nat) :
    readoffLoop m d sc sa offset size
      = (serveReads m d (sectorRequests m.sectorSize sc sa offset size)).2 := by
  induction sc generalizing sa offset size with
  | zero => rfl
  | succ sc ih =>
    rw [readoffLoop, sectorRequests]
    by_cases hsize : size = 0
    · rw [if_pos hsize, if_pos hsize]
      rfl
    · rw [if_neg hsize, if_neg hsize]
      by_cases hskip : m.sectorSize < offset
      · rw [if_pos hskip, if_pos hskip]
        exact ih (sa + 1) (offset - m.sectorSize) size
      · rw [if_neg hskip, if_neg hskip, serveReads]
        simp only
        cases readSector m d sa offset (min size (m.sectorSize - offset)) with
        | none => rfl
        | some bs =>
          simp only
          rw [ih]

/-- The loop of `DSK_writeoff_sectors` serves its requests. -/
theorem writeoffLoop_serves (m : Mount) (sc sa offset : Nat) (data : List UInt8) (d : Medium) :
    writeoffLoop m sc sa offset data d
      = (serveWrites m (sectorRequests m.sectorSize sc sa offset data.length) data d).2 := by
  induction sc generalizing sa offset data d with
  | zero => rfl
  | succ sc ih =>
    rw [writeoffLoop, sectorRequests]
    by_cases hsize : data.length = 0
    · rw [if_pos hsize, if_pos hsize]
      rfl
    · rw [if_neg hsize, if_neg hsize]
      by_cases hskip : m.sectorSize < offset
      · rw [if_pos hskip, if_pos hskip]
        exact ih (sa + 1) (offset - m.sectorSize) data d
      · rw [if_neg hskip, if_neg hskip, serveWrites]
        simp only
        cases writeSector m d sa offset (data.take (min data.length (m.sectorSize - offset))) with
        | mk ok d' =>
          cases ok with
          | false => rfl
          | true =>
            simp only
            rw [ih, List.length_drop]

/-! ### The requests -/

theorem serveReads_subset (h : r ∈ (serveReads m d rs).1) : r ∈ rs := by
  induction rs with
  | nil => cases h
  | cons x rs ih =>
    rw [serveReads] at h
    split at h
    · rw [List.mem_singleton] at h
      exact h ▸ List.mem_cons_self
    · rcases List.mem_cons.mp h with heq | hrest
      · exact heq ▸ List.mem_cons_self
      · exact List.mem_cons_of_mem x (ih hrest)

theorem serveWrites_subset (h : r ∈ (serveWrites m rs data d).1) : r ∈ rs := by
  induction rs generalizing data d with
  | nil => cases h
  | cons x rs ih =>
    rw [serveWrites] at h
    split at h
    · rw [List.mem_singleton] at h
      exact h ▸ List.mem_cons_self
    · rcases List.mem_cons.mp h with heq | hrest
      · exact heq ▸ List.mem_cons_self
      · exact List.mem_cons_of_mem x (ih hrest)

/-- The first request is made, whatever the callbacks do. -/
theorem serveReads_first : r ∈ (serveReads m d (r :: rs)).1 := by
  rw [serveReads]
  split
  · exact List.mem_singleton_self r
  · exact List.mem_cons_self

/-- The request is not empty and lies inside one sector of the area. -/
structure SectorRequest.Inside (ss sa sc : Nat) (r : SectorRequest) : Prop where
  off_lt : r.offset < ss
  nonempty : 1 ≤ r.len
  end_le : r.offset + r.len ≤ ss
  le_sector : sa ≤ r.sa
  sector_lt : r.sa < sa + sc

/-- The area of the sectors behind the first one is a part of the area. -/
theorem SectorRequest.Inside.tail (h : r.Inside ss (sa + 1) sc) : r.Inside ss sa (sc + 1) where
  off_lt := h.off_lt
  nonempty := h.nonempty
  end_le := h.end_le
  le_sector := Nat.le_of_succ_le h.le_sector
  sector_lt := by
    have := h.sector_lt
    omega

/-- A transfer from a sector stops at its end. -/
theorem SectorRequest.inside_at (hlt : offset < ss) (hsize : size ≠ 0) :
    SectorRequest.Inside ss sa (sc + 1) ⟨sa, offset, min size (ss - offset)⟩ where
  off_lt := hlt
  nonempty := by
    simp only
    omega
  end_le := by
    simp only
    omega
  le_sector := Nat.le_refl sa
  sector_lt := by
    simp only
    omega

/-- No byte is to be transferred, or the offset does not lie behind the last byte of a sector. -/
def MeetsSector (ss offset size : Nat) : Prop := size = 0 ∨ offset = 0 ∨ ¬ ss ∣ offset

/-- The sector that the loop is at, when it transfers from it: the condition keeps the offset off
the end of the sector. -/
theorem MeetsSector.lt (h : MeetsSector ss offset size) (hss : 0 < ss) (hsize : size ≠ 0)
    (hskip : ¬ ss < offset) : offset < ss := by
  rcases h with hzero | hfirst | hdiv
  · exact absurd hzero hsize
  · omega
  · by_contra hge
    have heq : offset = ss := by omega
    exact hdiv (heq ▸ Nat.dvd_refl ss)

/-- A skipped sector keeps the condition. -/
theorem MeetsSector.skip (h : MeetsSector ss offset size) (hskip : ss < offset) :
    MeetsSector ss (offset - ss) size := by
  rcases h with hzero | hfirst | hdiv
  · exact Or.inl hzero
  · omega
  · refine Or.inr (Or.inr fun hrest => hdiv ?_)
    have hsum := Nat.dvd_add hrest (Nat.dvd_refl ss)
    rw [Nat.sub_add_cancel (Nat.le_of_lt hskip)] at hsum
    exact hsum

theorem MeetsSector.start : MeetsSector ss 0 size := Or.inr (Or.inl rfl)

/-- Every request of the loop lies inside a sector. -/
theorem sectorRequests_inside (hss : 0 < ss) (h : MeetsSector ss offset size)
    (hr : r ∈ sectorRequests ss sc sa offset size) : r.Inside ss sa sc := by
  induction sc generalizing sa offset size with
  | zero => cases hr
  | succ sc ih =>
    rw [sectorRequests] at hr
    split at hr
    · cases hr
    split at hr
    · exact (ih (h.skip ‹_›) hr).tail
    · have hlt := h.lt hss ‹_› ‹_›
      rcases List.mem_cons.mp hr with heq | hrest
      · rw [heq]
        exact SectorRequest.inside_at hlt ‹_›
      · exact (ih MeetsSector.start hrest).tail

/-- Without the condition the first request is the empty one at the end of a sector. -/
theorem sectorRequests_empty (h : ¬ MeetsSector ss offset size) (hfits : offset < sc * ss) :
    ∃ sa' rest, sectorRequests ss sc sa offset size = ⟨sa', ss, 0⟩ :: rest := by
  have hsize : size ≠ 0 := fun h0 => h (Or.inl h0)
  have hoffset : offset ≠ 0 := fun h0 => h (Or.inr (Or.inl h0))
  have hdiv : ss ∣ offset := Classical.not_not.mp fun hn => h (Or.inr (Or.inr hn))
  obtain ⟨k, rfl⟩ := hdiv
  -- the induction is on the sectors that are skipped
  induction sc generalizing sa k with
  | zero => omega
  | succ sc ih =>
    have hsc : (sc + 1) * ss = sc * ss + ss := Nat.succ_mul sc ss
    rw [sectorRequests, if_neg hsize]
    by_cases hskip : ss < ss * k
    · have hk : ss * k - ss = ss * (k - 1) := by rw [Nat.mul_sub_one]
      rw [if_pos hskip, hk]
      have hne : ss * (k - 1) ≠ 0 := by omega
      refine ih (k - 1) ?_ (by omega) hne
      rintro (hzero | hfirst | hnot)
      · exact hsize hzero
      · exact hne hfirst
      · exact hnot (Nat.dvd_mul_right ss (k - 1))
    · have heq : ss * k = ss := by
        have hpos : 0 < k := Nat.pos_of_ne_zero fun h0 => hoffset (by rw [h0, Nat.mul_zero])
        have := Nat.le_mul_of_pos_right ss hpos
        omega
      rw [if_neg hskip, heq, Nat.sub_self, Nat.min_zero]
      exact ⟨sa, _, rfl⟩

/-! ### Flat byte I/O -/

/-- The callbacks serve every request inside a sector of the area as a byte store. -/
structure ServesInside (m : Mount) (sa sc : Nat) : Prop where
  read : ∀ writes (r : SectorRequest), r.Inside m.sectorSize sa sc →
    m.readOk writes r.sa r.offset r.len = true
  write : ∀ writes (r : SectorRequest), r.Inside m.sectorSize sa sc →
    m.writeOk writes r.sa r.offset r.len = true

theorem ServesInside.tail (h : ServesInside m sa (sc + 1)) : ServesInside m (sa + 1) sc where
  read := fun writes r hr => h.read writes r hr.tail
  write := fun writes r hr => h.write writes r hr.tail

/-- The mount with callbacks that serve every request. -/
def Mount.served (m : Mount) : Mount :=
  { m with readOk := fun _ _ _ _ => true, writeOk := fun _ _ _ _ => true }

theorem Mount.served_works (m : Mount) : m.served.Works := ⟨fun _ _ _ _ => rfl, fun _ _ _ _ => rfl⟩

@[simp] theorem Mount.served_sectorSize (m : Mount) : m.served.sectorSize = m.sectorSize := rfl

theorem readSector_served (h : ServesInside m sa sc) (hr : r.Inside m.sectorSize sa sc) :
    readSector m d r.sa r.offset r.len = readSector m.served d r.sa r.offset r.len := by
  rw [readSector, readSector, if_pos (h.read d.writes r hr)]
  rfl

theorem writeSector_served (h : ServesInside m sa sc) (hr : r.Inside m.sectorSize sa sc)
    (hlen : data.length = r.len) :
    writeSector m d r.sa r.offset data = writeSector m.served d r.sa r.offset data := by
  rw [writeSector, writeSector, hlen, if_pos (h.write d.writes r hr)]
  rfl

/-- A read of requests inside their sectors succeeds. -/
theorem readoffLoop_served (hss : 0 < m.sectorSize) (h : MeetsSector m.sectorSize offset size)
    (hserves : ServesInside m sa sc) :
    readoffLoop m d sc sa offset size = readoffLoop m.served d sc sa offset size := by
  induction sc generalizing sa offset size with
  | zero => rfl
  | succ sc ih =>
    rw [readoffLoop, readoffLoop]
    by_cases hsize : size = 0
    · rw [if_pos hsize, if_pos hsize]
    · rw [if_neg hsize, if_neg hsize]
      by_cases hskip : m.sectorSize < offset
      · rw [if_pos hskip, Mount.served_sectorSize, if_pos hskip]
        exact ih (h.skip hskip) hserves.tail
      · have hinside := @SectorRequest.inside_at _ sc sa _ _ (h.lt hss hsize hskip) hsize
        rw [if_neg hskip, Mount.served_sectorSize, if_neg hskip]
        simp only
        rw [readSector_served hserves hinside, ih MeetsSector.start hserves.tail]

/-- A write of requests inside their sectors succeeds. -/
theorem writeoffLoop_served (hss : 0 < m.sectorSize)
    (h : MeetsSector m.sectorSize offset data.length) (hserves : ServesInside m sa sc) :
    writeoffLoop m sc sa offset data d = writeoffLoop m.served sc sa offset data d := by
  induction sc generalizing sa offset data d with
  | zero => rfl
  | succ sc ih =>
    rw [writeoffLoop, writeoffLoop]
    by_cases hsize : data.length = 0
    · rw [if_pos hsize, if_pos hsize]
    · rw [if_neg hsize, if_neg hsize]
      by_cases hskip : m.sectorSize < offset
      · rw [if_pos hskip, Mount.served_sectorSize, if_pos hskip]
        exact ih (h.skip hskip) hserves.tail
      · have hinside := @SectorRequest.inside_at _ sc sa _ _ (h.lt hss hsize hskip) hsize
        have hlen : (data.take (min data.length (m.sectorSize - offset))).length
            = min data.length (m.sectorSize - offset) := by
          rw [List.length_take]
          omega
        rw [if_neg hskip, Mount.served_sectorSize, if_neg hskip]
        simp only
        rw [writeSector_served hserves hinside hlen]
        cases writeSector m.served d sa offset
          (data.take (min data.length (m.sectorSize - offset))) with
        | mk ok d' =>
          cases ok with
          | false => rfl
          | true => exact ih MeetsSector.start hserves.tail

/-- The requests of a read of `data.length` bytes and of a write of `data` lie inside one sector
each; served as a byte store, the read returns the range and the write stores the data there. -/
structure SpansFlat (m : Mount) (d : Medium) (sa sc offset : Nat) (data : List UInt8) : Prop where
  reads_inside : ∀ r ∈ (serveReads m d (sectorRequests m.sectorSize sc sa offset data.length)).1,
    r.Inside m.sectorSize sa sc
  writes_inside : ∀ r ∈
    (serveWrites m (sectorRequests m.sectorSize sc sa offset data.length) data d).1,
    r.Inside m.sectorSize sa sc
  read : ServesInside m sa sc → dskReadoffSectors m d sa offset data.length sc
    = some (read d.bytes (sa * m.sectorSize + offset) data.length)
  write : ServesInside m sa sc → (dskWriteoffSectors m d sa offset data sc).1 = true ∧
    (dskWriteoffSectors m d sa offset data sc).2.bytes
      = write d.bytes (sa * m.sectorSize + offset) data

/-- I/O over sectors is flat byte I/O exactly when there is nothing to transfer or the offset is
not a positive multiple of the sector size. -/
theorem dsk_spans_flat_iff (hss : 1 ≤ m.sectorSize)
    (hfits : offset + data.length ≤ sc * m.sectorSize) :
    SpansFlat m d sa sc offset data ↔
      (data.length = 0 ∨ offset = 0 ∨ ¬ m.sectorSize ∣ offset) := by
  constructor
  · intro h
    by_contra hnot
    have hlt : offset < sc * m.sectorSize := by
      have : data.length ≠ 0 := fun h0 => hnot (Or.inl h0)
      omega
    obtain ⟨sa', rest, hreqs⟩ := @sectorRequests_empty _ _ sa _ _ hnot hlt
    have hreads := h.reads_inside
    rw [hreqs] at hreads
    exact Nat.lt_irrefl _ (hreads _ serveReads_first).off_lt
  · intro h
    have hmeets : MeetsSector m.sectorSize offset data.length := h
    have hread := readoffLoop_eq m.served_works d sc sa offset data.length hfits
    have hwrite := writeoffLoop_eq m.served_works sc sa offset data d hfits
    refine ⟨?_, ?_, ?_, ?_⟩
    · exact fun r hr => sectorRequests_inside hss hmeets (serveReads_subset hr)
    · exact fun r hr => sectorRequests_inside hss hmeets (serveWrites_subset hr)
    · intro hserves
      exact (readoffLoop_served hss hmeets hserves).trans hread
    · intro hserves
      rw [dskWriteoffSectors, writeoffLoop_served hss hmeets hserves]
      exact hwrite

/-- A write of two bytes across the end of a sector of 128 bytes. -/
theorem dsk_spans_flat_across :
    let d : Medium := { bytes := fun _ => 0, writes := 0, log := [] }
    SpansFlat (smallMount 0) d 3 2 127 [0xAB, 0xCD] ↔
      ([0xAB, 0xCD].length = 0 ∨ 127 = 0 ∨ ¬ (smallMount 0).sectorSize ∣ 127) :=
  dsk_spans_flat_iff (by decide) (by decide)

/-- The small volume on callbacks that, like `pread` and `pwrite`, report a request for no byte as
failed. -/
def preadMount : Mount :=
  { smallMount 0 with
    readOk := fun _ _ _ len => decide (0 < len)
    writeOk := fun _ _ _ len => decide (0 < len) }

theorem preadMount_serves (sa sc : Nat) : ServesInside preadMount sa sc where
  read := fun _ _ hr => decide_eq_true hr.nonempty
  write := fun _ _ hr => decide_eq_true hr.nonempty

/-- One byte at the start of the second sector is behind an empty request at the end of the first
one. With `pread` that request fails, and the read with it. -/
theorem not_dsk_spans_flat :
    let d : Medium := { bytes := fun _ => 0, writes := 0, log := [] }
    ServesInside preadMount 3 2 ∧
    (serveReads preadMount d (sectorRequests 128 2 3 128 1)).1 = [⟨3, 128, 0⟩] ∧
    dskReadoffSectors preadMount d 3 128 1 2 = none ∧
    ¬ SpansFlat preadMount d 3 2 128 [0xAB] := by
  have hread : dskReadoffSectors preadMount ⟨fun _ => 0, 0, []⟩ 3 128 1 2 = none := by decide
  refine ⟨preadMount_serves 3 2, by decide, hread, fun h => ?_⟩
  have hflat := h.read (preadMount_serves 3 2)
  rw [show [(0xAB : UInt8)].length = 1 from rfl, hread] at hflat
  cases hflat

end NiFat32
