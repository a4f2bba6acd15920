import NiFat32.Core.IoGuard

/-!
# `Proofs.IoGuard`: the sector locks are exclusive and none is lost

A slot is released by the start and the count of its area, so a thread may clear the slot of
another one. `guardTable_lawful` says why this does no harm: two threads that hold areas with the
same start and count overlap, so both hold read locks, and the two slots are equal.

Each call gives back its areas on every path, `dskCall_owes`. The two facts together give
`lockTable_sound`, for any number of threads and every interleaving of their steps.
-/

set_option autoImplicit false

namespace NiFat32.IoGuard

open Holders (Prog Owes Sound Lawful giveBack)

variable {r a b : IoArea} {areas : List IoArea} {t t' : IoTable} {sa sc : Nat} {size : Int}
  {ro : Bool}

/-- The area has sectors, and ends on the device. -/
structure Good (r : IoArea) : Prop where
  pos : 1 ≤ r.count
  fits : r.start + r.count < 2 ^ 32

/-- The areas have a sector in common. -/
def Overlap (a b : IoArea) : Prop :=
  (a.start : Int) < b.start + b.count ∧ (b.start : Int) < a.start + a.count

/-- Areas that overlap are only read. -/
def Compatible (a b : IoArea) : Prop := Overlap a b → a.ro = READ_LOCK ∧ b.ro = READ_LOCK

theorem Compatible.symm (h : Compatible a b) : Compatible b a := fun hov => (h ⟨hov.2, hov.1⟩).symm

/-- The areas of two holders with the same start and count are one. -/
theorem Compatible.eq (h : Compatible a b) (ha : Good a) (hb : Good b) (hkey : a.key = b.key) :
    a = b := by
  obtain ⟨hstart, hcount⟩ := Prod.mk.inj hkey
  have hpos := ha.pos
  have hov : Overlap a b := by
    constructor
    · rw [← hstart, ← hcount]
      omega
    · rw [← hstart]
      omega
  obtain ⟨hra, hrb⟩ := h hov
  cases a
  cases b
  simp_all

theorem areaEnd_eq (h : Good a) : (areaEnd a.start a.count : Int) = a.start + a.count := by
  have hpos := h.pos
  have hfits := h.fits
  unfold areaEnd
  omega

/-! ### The slots -/

/-- Taking a free slot adds a record. -/
theorem filter_set_perm {i : Nat} (hi : areas[i]? = some a) (ha : a.count = -1)
    (hr : r.count ≠ -1) :
    ((areas.set i r).filter fun a => a.count ≠ -1).Perm
      (r :: areas.filter fun a => a.count ≠ -1) := by
  obtain ⟨hlt, hget⟩ := List.getElem?_eq_some_iff.mp hi
  have hset := (List.set_perm_cons_eraseIdx hlt r).filter fun a => a.count ≠ -1
  have hold := (List.getElem_cons_eraseIdx_perm hlt).filter fun a => a.count ≠ -1
  rw [hget, List.filter_cons_of_neg (by simpa using ha)] at hold
  rw [List.filter_cons_of_pos (by simpa using hr)] at hset
  exact hset.trans (hold.cons r)

/-- What `_lock_area` finds, when it does not meet a conflict: a slot that is free, and no area that
the new one overlaps in another way than reading with it. -/
theorem lockScan_found {i j : Nat} {found : Option Nat}
    (h : lockScan sa size ro i found areas = (some j, false)) :
    (found = some j ∨ ∃ k a, j = i + k ∧ areas[k]? = some a ∧ a.count = -1) ∧
    ∀ a ∈ areas, a.count ≠ -1 → ¬ (a.start < areaEnd sa size ∧ sa < areaEnd a.start a.count ∧
      (ro = false ∨ a.ro = false)) := by
  induction areas generalizing i found with
  | nil =>
    have hfound : found = some j := (Prod.mk.inj h).1
    exact ⟨.inl hfound, fun a ha => absurd ha List.not_mem_nil⟩
  | cons x areas ih =>
    unfold lockScan at h
    split at h
    next hfree =>
      obtain ⟨hslot, hrest⟩ := ih h
      constructor
      · cases hslot with
        | inl hor =>
          cases found with
          | some k => exact .inl hor
          | none => exact .inr ⟨0, x, (Option.some.inj hor).symm, rfl, hfree⟩
        | inr hlater =>
          obtain ⟨k, a, hj, hget, ha⟩ := hlater
          exact .inr ⟨k + 1, a, by omega, hget, ha⟩
      · intro a ha hcount
        cases List.mem_cons.mp ha with
        | inl heq => exact absurd (heq ▸ hfree) hcount
        | inr hmem => exact hrest a hmem hcount
    next hheld =>
      split at h
      · cases h
      next hno =>
        obtain ⟨hslot, hrest⟩ := ih h
        constructor
        · refine hslot.imp_right fun hlater => ?_
          obtain ⟨k, a, hj, hget, ha⟩ := hlater
          exact ⟨k + 1, a, by omega, hget, ha⟩
        · intro a ha hcount
          cases List.mem_cons.mp ha with
          | inl heq => exact heq ▸ hno
          | inr hmem => exact hrest a hmem hcount

/-- A lock that is granted is recorded, and compatible with all that are recorded. -/
theorem lockArea_some (hgood : ∀ x ∈ t.records, Good x) (hr : Good r)
    (h : lockArea r t = some t') :
    t'.records.Perm (r :: t.records) ∧ ∀ x ∈ t.records, Compatible r x := by
  have hpos := hr.pos
  unfold lockArea at h
  split at h
  next i hscan =>
    cases h
    obtain ⟨hslot, hclear⟩ := lockScan_found hscan
    constructor
    · obtain ⟨k, a, hk, hget, ha⟩ := hslot.resolve_left fun h => by cases h
      obtain rfl : i = k := by omega
      exact filter_set_perm hget ha (by omega)
    · intro x hx hov
      obtain ⟨hmem, hcount⟩ := List.mem_filter.mp hx
      have hno := hclear x hmem (of_decide_eq_true hcount)
      have hend := areaEnd_eq hr
      have hend' := areaEnd_eq (hgood x hx)
      have hro : ¬ (r.ro = false ∨ x.ro = false) :=
        fun hro => hno ⟨by have := hov.2; omega, by have := hov.1; omega, hro⟩
      rw [not_or, Bool.not_eq_false, Bool.not_eq_false] at hro
      exact hro
  next => cases h

/-- Releasing drops the first record with the start and the count. -/
theorem unlockScan_perm {c : Nat × Int} (hc : c.2 ≠ -1) (h : ∃ a ∈ areas, a.key = c) :
    ∃ a, a.key = c ∧ (areas.filter fun a => a.count ≠ -1).Perm
      (a :: (unlockScan c areas).filter fun a => a.count ≠ -1) := by
  induction areas with
  | nil =>
    obtain ⟨a, ha, -⟩ := h
    cases ha
  | cons x areas ih =>
    unfold unlockScan
    split
    next hkey =>
      have hx : x.count ≠ -1 := by rw [hkey.2]; exact hc
      refine ⟨x, Prod.ext hkey.1 hkey.2, ?_⟩
      rw [List.filter_cons_of_pos (by simpa using hx), List.filter_cons_of_neg (by simp [noArea])]
    next hkey =>
      obtain ⟨a, ha, heq⟩ := h
      have hmem : a ∈ areas := by
        cases List.mem_cons.mp ha with
        | inl hax => exact absurd (Prod.mk.inj (hax ▸ heq)) hkey
        | inr hmem => exact hmem
      obtain ⟨y, hy, hperm⟩ := ih ⟨a, hmem, heq⟩
      refine ⟨y, hy, ?_⟩
      by_cases hx : x.count = -1
      · rw [List.filter_cons_of_neg (by simpa using hx),
          List.filter_cons_of_neg (by simpa using hx)]
        exact hperm
      · rw [List.filter_cons_of_pos (by simpa using hx),
          List.filter_cons_of_pos (by simpa using hx)]
        exact (hperm.cons x).trans (List.Perm.swap y x _)

/-- The slots are a table that records what it grants. -/
theorem guardTable_lawful : Lawful guardTable Compatible Good IoArea.key where
  symm := fun _ _ => Compatible.symm
  key_inj := fun _ _ ha hb h => h.eq ha hb
  granted := fun _ _ _ hgood hr h => lockArea_some hgood hr h
  released := by
    intro c t hgood hex
    obtain ⟨r, hr, hkey⟩ := hex
    have hpos := (hgood r hr).pos
    have hc : c.2 ≠ -1 := by
      rw [← hkey]
      show r.count ≠ -1
      omega
    exact unlockScan_perm hc ⟨r, (List.mem_filter.mp hr).1, hkey⟩

/-! ### The calls -/

/-- Giving back the only area. -/
theorem owes_unlock (v : Int) :
    Owes Good IoArea.key (.unlock (sa, size) (.ret v) : DskProg) [⟨sa, size, ro⟩] := by
  refine ⟨⟨_, List.mem_singleton_self _, rfl⟩, ?_⟩
  simp [Owes, giveBack, IoArea.key]

theorem good_area (ro : Bool) (pos : 1 ≤ sc) (fits : sa + sc < 2 ^ 32) : Good ⟨sa, sc, ro⟩ := by
  constructor
  · show (1 : Int) ≤ sc
    omega
  · show (sa : Int) + sc < 2 ^ 32
    omega

/-- One sector: the area is given back whatever the callback returns. -/
theorem sectorCall_owes (fits : sa + 1 < 2 ^ 32) (ro : Bool) (size : Int) :
    Owes Good IoArea.key (sectorCall ro sa size) [] :=
  ⟨good_area ro (Nat.le_refl 1) fits, fun v => owes_unlock v, rfl⟩

/-- The loop leaves through its end, the end of the data or a callback that fails; the area is given
back on each way. -/
theorem offsetLoop_owes (sectorSize : Int) (left i : Nat) (offset size : Int) :
    Owes Good IoArea.key (offsetLoop sectorSize ro sa sc left i offset size)
      [⟨sa, sc, ro⟩] := by
  induction left generalizing i offset size with
  | zero => exact owes_unlock 1
  | succ left ih =>
    unfold offsetLoop
    split
    · exact owes_unlock 1
    split
    · exact ih _ _ _
    · intro result
      dsimp only
      split
      · exact owes_unlock 0
      · exact ih _ _ _

theorem offsetCall_owes (pos : 1 ≤ sc) (fits : sa + sc < 2 ^ 32) (sectorSize : Int) (ro : Bool)
    (offset size : Int) :
    Owes Good IoArea.key (offsetCall sectorSize ro sa sc offset size) [] :=
  ⟨good_area ro pos fits, offsetLoop_owes _ _ _ _ _, rfl⟩

section Copy

variable {src dst : Nat}

/-- A copy gives back the destination first. The source may be the same area, but is not: a write
lock on what the call reads is refused. -/
theorem copyReturn_owes (v : Int) :
    Owes Good IoArea.key (copyReturn src dst sc v)
      [⟨dst, sc, WRITE_LOCK⟩, ⟨src, sc, READ_LOCK⟩] := by
  refine ⟨⟨_, List.mem_cons_self, rfl⟩, ?_⟩
  rw [giveBack, List.eraseP_cons_of_pos (by simp [IoArea.key])]
  exact owes_unlock v

theorem copyLoop_owes (buffSize : Int) (left i : Nat) (copyResult : Int) :
    Owes Good IoArea.key (copyLoop src dst sc buffSize left i copyResult)
      [⟨dst, sc, WRITE_LOCK⟩, ⟨src, sc, READ_LOCK⟩] := by
  induction left generalizing i copyResult with
  | zero => exact copyReturn_owes _
  | succ left ih =>
    unfold copyLoop
    intro readden
    dsimp only
    split
    · exact copyReturn_owes 0
    · intro written
      dsimp only
      split
      · exact copyReturn_owes 0
      · exact ih _ _

theorem dskCopySectors_owes (pos : 1 ≤ sc) (srcFits : src + sc < 2 ^ 32)
    (dstFits : dst + sc < 2 ^ 32) (buffSize : Int) :
    Owes Good IoArea.key (dskCopySectors src dst sc buffSize) [] := by
  refine ⟨good_area READ_LOCK pos srcFits, ?_, rfl⟩
  exact ⟨good_area WRITE_LOCK pos dstFits, copyLoop_owes _ _ _ _, owes_unlock 0⟩

end Copy

/-- Every call gives back what it locks, on all its paths. -/
theorem dskCall_owes (sectorSize : Int) (call : DskCall) :
    Owes Good IoArea.key (call.prog sectorSize) [] := by
  cases call with
  | readSector sa buffSize fits => exact sectorCall_owes fits _ _
  | readoffSectors sa offset buffSize sc pos fits => exact offsetCall_owes pos fits _ _ _ _
  | writeSector sa dataSize fits => exact sectorCall_owes fits _ _
  | writeoffSectors sa offset dataSize sc pos fits => exact offsetCall_owes pos fits _ _ _ _
  | copySectors src dst sc buffSize pos srcFits dstFits =>
    exact dskCopySectors_owes pos srcFits dstFits _

/-! ### Every interleaving -/

/-- The lock table is exclusive and leak-free. -/
structure LockTableSound (s : DskSys) : Prop where
  exclusive : ∀ (i j : Nat) (a b : IoArea), i ≠ j → s.table.areas[i]? = some a →
    s.table.areas[j]? = some b → a.count ≠ -1 → b.count ≠ -1 → Overlap a b →
      a.ro = READ_LOCK ∧ b.ro = READ_LOCK
  owned : s.table.records.Perm (s.parties.flatMap fun thread => thread.held)
  returned : ∀ thread ∈ s.parties, thread.Idle → thread.held = []
  unused : (∀ thread ∈ s.parties, thread.Idle) → ∀ a ∈ s.table.areas, a.count = -1

theorem dskStart_sound (n : Nat) : Sound guardTable Compatible Good IoArea.key (dskStart n) := by
  have hrecords : guardTable.records (dskStart n).table = [] :=
    List.filter_eq_nil_iff.mpr fun a ha => by rw [List.eq_of_mem_replicate ha]; decide
  have hheld : (dskStart n).parties.flatMap Holders.Party.held = [] := by
    refine List.flatMap_eq_nil_iff.mpr fun thread hthread => ?_
    rw [List.eq_of_mem_replicate hthread]
  constructor
  · rw [hrecords, hheld]
  · rw [hrecords]
    exact List.Pairwise.nil
  · rw [hrecords]
    exact fun r hr => absurd hr List.not_mem_nil
  · intro thread hthread
    rw [List.eq_of_mem_replicate hthread]
    rfl

/-- Two slots that are recorded. -/
theorem exclusive_slots (h : (areas.filter fun a => a.count ≠ -1).Pairwise Compatible) {i j : Nat}
    (hij : i ≠ j) (hi : areas[i]? = some a) (hj : areas[j]? = some b) (ha : a.count ≠ -1)
    (hb : b.count ≠ -1) : Compatible a b := by
  obtain ⟨hilt, rfl⟩ := List.getElem?_eq_some_iff.mp hi
  obtain ⟨hjlt, rfl⟩ := List.getElem?_eq_some_iff.mp hj
  have hslots := List.pairwise_iff_getElem.mp (List.pairwise_filter.mp h)
  cases Nat.lt_or_gt_of_ne hij with
  | inl hlt =>
    exact hslots i j hilt hjlt hlt (decide_eq_true ha) (decide_eq_true hb)
  | inr hgt =>
    exact (hslots j i hjlt hilt hgt (decide_eq_true hb) (decide_eq_true ha)).symm

/-- In every state that the threads reach, however their calls interleave and whatever the callbacks
return, the lock table is exclusive and leak-free. -/
theorem lockTable_sound (sectorSize : Int) (n : Nat) (acts : List DskAct) :
    LockTableSound (dskRun sectorSize n acts) := by
  have hsound : Sound guardTable Compatible Good IoArea.key (dskRun sectorSize n acts) :=
    (dskStart_sound n).run guardTable_lawful (dskCall_owes sectorSize) acts
  constructor
  · intro i j a b hij hi hj ha hb
    exact exclusive_slots hsound.exclusive hij hi hj ha hb
  · exact hsound.owned
  · exact fun thread hthread hidle => hsound.idle_held hthread hidle
  · intro hidle a ha
    have hnil : (dskRun sectorSize n acts).table.records = [] := hsound.records_nil hidle
    have hnone := List.filter_eq_nil_iff.mp hnil a ha
    simpa using hnone

end NiFat32.IoGuard
