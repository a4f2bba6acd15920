import NiFat32.Core.Init
import NiFat32.Lib.Relational

/-!
# `Proofs.Logs`: relations that the two logs respect

The error ring and the journal keep their positions in static variables and their records on the
device. `LogBisim` says when two states are alike for them: the device is the same, and so are the
positions of a log that has a copy on the device. A log without a copy writes nothing, and its
positions decide nothing.
-/

set_option autoImplicit false

namespace NiFat32

open Relational

variable {m : Mount} {R : FS → FS → Prop} {s t : FS}

/-- The logs read the same in related states, and their updates lead to related states. -/
structure LogBisim (m : Mount) (R : FS → FS → Prop) : Prop where
  medium : ∀ {s t}, R s t → s.medium = t.medium
  setMedium : ∀ {s t}, R s t → ∀ d, R { s with medium := d } { t with medium := d }
  errors : ∀ {s t}, R s t → s.errors = t.errors ∨
    m.fi.errorsCount = 0 ∧ ∀ r r', R { s with errors := r } { t with errors := r' }
  setErrors : ∀ {s t}, R s t → ∀ r, R { s with errors := r } { t with errors := r }
  journalIndex : ∀ {s t}, R s t → m.fi.journalsCount = 0 ∨ s.journalIndex = t.journalIndex
  setJournalIndex : ∀ {s t}, R s t → ∀ i,
    R { s with journalIndex := i } { t with journalIndex := i }
  setAdded : ∀ {s t}, R s t → ∀ n, R { s with journalAdded := n } { t with journalAdded := n }
  setSolving : ∀ {s t}, R s t → ∀ n, R { s with journalSolving := n } { t with journalSolving := n }

/-! ### The positions of the ring -/

theorem writeError_errors (m : Mount) (index : Nat) (c : UInt32) (s : FS) :
    (writeError m index c s).2.errors = s.errors := by
  rw [writeError]
  suffices hkept : ∀ (is : List Nat) (acc : Bool × FS), (is.foldl (fun acc i =>
      ((writeErrorCopy m index c i acc.2).1 && acc.1, (writeErrorCopy m index c i acc.2).2))
        acc).2.errors = acc.2.errors from hkept _ (true, s)
  intro is
  induction is with
  | nil => exact fun _ => rfl
  | cons i is ih => exact fun acc => ih _

theorem readError_errors (m : Mount) (index : Nat) (s : FS) :
    (readError m index s).2.errors = s.errors := by
  rw [readError]
  match voteError m index s with
  | (b, none) => rfl
  | (b, some i) =>
    simp only
    split
    · exact writeError_errors m index b.val s
    · rfl

/-! ### Logs without a copy -/

theorem writeError_none (hcount : m.fi.errorsCount = 0) (index : Nat) (c : UInt32) (s : FS) :
    writeError m index c s = (true, s) := by
  rw [writeError, hcount]
  rfl

/-- Without a copy an error moves the positions of the ring and nothing else. -/
theorem registerError_none (hcount : m.fi.errorsCount = 0) (c : ErrorCode) (s : FS) :
    ∃ r, registerError m c s = { s with errors := r } := by
  simp only [registerError, errorsRegisterError, dumpInfo, writeError_none hcount]
  exact ⟨_, rfl⟩

theorem errorsLastError_none (hcount : m.fi.errorsCount = 0) (s : FS) :
    errorsLastError m s = (0xFFFFFFFF, s) := by
  have hread : readError m s.errors.firstError s = (none, s) := by
    rw [readError, voteError, hcount]
    rfl
  rw [errorsLastError, hread]
  split <;> rfl

namespace LogBisim

variable (hb : LogBisim m R)

include hb

/-! ### The error ring -/

theorem writeErrorCopy (h : R s t) (index : Nat) (c : UInt32) (i : Nat) :
    Pairs R (writeErrorCopy m index c i s) (writeErrorCopy m index c i t) := by
  simp only [NiFat32.writeErrorCopy, hb.medium h]
  exact Pairs.mk _ (hb.setMedium h _)

theorem writeError (h : R s t) (index : Nat) (c : UInt32) :
    Pairs R (writeError m index c s) (writeError m index c t) := by
  refine Pairs.foldl _ ?_ (Pairs.mk true h)
  intro p q i hpq
  obtain ⟨ok, s', t', rfl, rfl, h'⟩ := hpq
  obtain ⟨written, s'', t'', hs, ht, h''⟩ := hb.writeErrorCopy h' index c i
  simp only [hs, ht]
  exact Pairs.mk _ h''

theorem error (h : R s t) (c : ErrorCode) : R (registerError m c s) (registerError m c t) := by
  rcases hb.errors h with hring | ⟨hcount, hfree⟩
  · -- the code goes to the current position, then the positions go to the first cell
    have hkept := writeError_errors m t.errors.current c.toU32
    obtain ⟨ok, s', t', hs, ht, h'⟩ := hb.writeError h t.errors.current c.toU32
    have hring' : s'.errors = t'.errors := by
      have hkept' := hkept t
      replace hkept := hkept s
      rw [hs] at hkept
      rw [ht] at hkept'
      exact hkept.trans (hring.trans hkept'.symm)
    simp only [registerError, errorsRegisterError, hring, hs, ht]
    cases ok with
    | false => exact h'
    | true =>
      simp only [dumpInfo, hring']
      exact (hb.writeError (hb.setErrors h' _) _ _).snd
  · obtain ⟨r, hs⟩ := registerError_none hcount c s
    obtain ⟨r', ht⟩ := registerError_none hcount c t
    rw [hs, ht]
    exact hfree r r'

theorem readError (h : R s t) (index : Nat) :
    Pairs R (readError m index s) (readError m index t) := by
  have hcopy : ∀ i, readErrorCopy m index i s = readErrorCopy m index i t := by
    intro i
    rw [readErrorCopy, readErrorCopy, hb.medium h]
  have hvote : voteError m index s = voteError m index t := by
    simp only [voteError, hcopy]
  rw [NiFat32.readError, NiFat32.readError, hvote]
  rcases voteError m index t with ⟨b, _ | i⟩
  · exact Pairs.mk none h
  · simp only
    split
    · exact Pairs.mk _ (hb.writeError h index b.val).snd
    · exact Pairs.mk _ h

/-- Reading the ring keeps its positions. -/
theorem readError_ring (h : R s t) (hring : s.errors = t.errors) (index : Nat) :
    Pairs (fun s t => R s t ∧ s.errors = t.errors) (NiFat32.readError m index s)
      (NiFat32.readError m index t) := by
  obtain ⟨code, s', t', hs, ht, h'⟩ := hb.readError h index
  have hkept := readError_errors m index s
  have hkept' := readError_errors m index t
  rw [hs] at hkept
  rw [ht] at hkept'
  exact ⟨code, s', t', hs, ht, h', hkept.trans (hring.trans hkept'.symm)⟩

theorem lastError (h : R s t) : Pairs R (errorsLastError m s) (errorsLastError m t) := by
  rcases hb.errors h with hring | ⟨hcount, -⟩
  · obtain ⟨code, s', t', hs, ht, h', hring'⟩ := hb.readError_ring h hring t.errors.firstError
    rw [errorsLastError, errorsLastError, hring, hs, ht]
    split
    · exact Pairs.mk _ h
    cases code with
    | none => exact Pairs.mk _ h'
    | some c =>
      simp only [dumpInfo, hring']
      exact Pairs.mk c (hb.writeError (hb.setErrors h' _) _ _).snd
  · rw [errorsLastError_none hcount, errorsLastError_none hcount]
    exact Pairs.mk _ h

/-! ### The journal -/

theorem writeJournalCopy (h : R s t) (index : Nat) (j : JournalEntry) (i : Nat) :
    Pairs R (writeJournalCopy m index j i s) (writeJournalCopy m index j i t) := by
  simp only [NiFat32.writeJournalCopy, hb.medium h]
  cases dskWriteoffSectors m t.medium (getJournalSector i m.fi.totalSectors)
    (u32 (index * (2 * JOURNAL_ENTRY_SIZE))) (packMemory j.bytes) 1 with
  | mk ok d =>
    cases ok with
    | false => exact Pairs.mk _ (hb.error (hb.setMedium h d) _)
    | true => exact Pairs.mk _ (hb.setMedium h d)

theorem writeJournal (h : R s t) (index : Nat) (j : JournalEntry) :
    R (writeJournal m index j s) (writeJournal m index j t) := by
  apply foldl_related (R := R) _ _ h
  intro s t i h'
  exact (hb.writeJournalCopy h' index j i).snd

theorem readJournalCopy (h : R s t) (index i : Nat) :
    Pairs R (readJournalCopy m index i s) (readJournalCopy m index i t) := by
  rw [NiFat32.readJournalCopy, NiFat32.readJournalCopy, hb.medium h]
  split
  · exact Pairs.mk none (hb.error h _)
  · exact Pairs.mk _ h

theorem voteJournal (h : R s t) (index : Nat) :
    Same R (fun (r : Vote.Ballot UInt32 × Option Nat) u => (r.1, r.2, u)) (voteJournal m index s)
      (voteJournal m index t) := by
  rw [NiFat32.voteJournal, NiFat32.voteJournal]
  generalize List.range m.fi.journalsCount = is
  generalize hballot : Vote.start (0xFFFFFFFF : UInt32) = ballot
  generalize (none : Option Nat) = elected
  clear hballot
  induction is generalizing s t ballot elected with
  | nil => exact ⟨(ballot, elected), s, t, rfl, rfl, h⟩
  | cons i is ih =>
    obtain ⟨record, s', t', hs, ht, h'⟩ := hb.readJournalCopy h index i
    simp only [List.foldl_cons, hs, ht]
    exact ih h' _ _

theorem readJournal (h : R s t) (index : Nat) (prev : JournalEntry) :
    Pairs R (readJournal m index prev s) (readJournal m index prev t) := by
  obtain ⟨⟨b, elected⟩, s', t', hs, ht, h'⟩ := hb.voteJournal h index
  rw [NiFat32.readJournal, NiFat32.readJournal, hs, ht]
  cases elected with
  | none => exact Pairs.mk prev h'
  | some i =>
    obtain ⟨record, s'', t'', hs', ht', h''⟩ := hb.readJournalCopy h' index i
    simp only [hs', ht']
    split
    · exact Pairs.mk _ (hb.writeJournal h'' index _)
    · exact Pairs.mk _ h''

section Journaled

variable (hcount : m.fi.journalsCount ≠ 0)

include hcount

theorem index_eq (h : R s t) : s.journalIndex = t.journalIndex :=
  (hb.journalIndex h).resolve_left hcount

theorem journalAddLoop (j : JournalEntry) (delay : Nat) : ∀ {s t : FS}, R s t →
    Pairs R (journalAddLoop m j delay s) (journalAddLoop m j delay t) := by
  induction delay with
  | zero =>
    intro s t h
    exact Pairs.mk _ h
  | succ delay ih =>
    intro s t h
    have hmoved := hb.setJournalIndex h ((t.journalIndex + 1) % 256)
    obtain ⟨record, s', t', hs, ht, h'⟩ := hb.readJournal hmoved
      (t.journalIndex % journalSlots m) (.ofBytes (m.junk 2 delay))
    simp only [NiFat32.journalAddLoop, hb.index_eq hcount h, hs, ht]
    split
    · exact Pairs.mk _ (hb.writeJournal h' _ j)
    · exact ih h'

theorem restoreLoop (fuel : Nat) : ∀ {s t : FS}, R s t → ∀ pass,
    Ends R (fun (_ : Unit) u => u) (restoreLoop m fuel pass s) (restoreLoop m fuel pass t) := by
  induction fuel with
  | zero =>
    intro s t _ pass
    exact Ends.none
  | succ fuel ih =>
    intro s t h pass
    rw [NiFat32.restoreLoop, NiFat32.restoreLoop, hb.index_eq hcount h]
    split
    swap
    · exact Ends.some () h
    obtain ⟨j, s', t', hs, ht, h'⟩ := hb.readJournal h t.journalIndex (.ofBytes (m.junk 0 pass))
    -- the record is written over its slot and then crossed out
    have hreplay : ∀ e, R (replayRecord m j e s') (replayRecord m j e t') := by
      intro e
      simp only [replayRecord, writeoffCluster, hb.medium h']
      split
      · exact hb.setMedium h' _
      split
      · exact hb.setMedium h' _
      · exact h'
    simp only [hs, ht, hb.index_eq hcount h']
    by_cases hop : j.op = NO_OP
    · simp only [if_pos hop, hb.index_eq hcount h']
      exact ih (hb.setJournalIndex h' _) (pass + 1)
    · have hdone := hb.writeJournal (hreplay (unsqueezeEntry j.entry
        (DirEntry.fieldAt (m.junk 1 pass) 0))) t'.journalIndex { j with op := NO_OP }
      simp only [if_neg hop, hb.index_eq hcount hdone]
      exact ih (hb.setJournalIndex hdone _) (pass + 1)

end Journaled

theorem journalAdd (h : R s t) (op : UInt8) (ca offset : Nat) (e : DirEntry) :
    Pairs R (journalAddOperation m op ca offset e s) (journalAddOperation m op ca offset e t) := by
  rw [journalAddOperation, journalAddOperation]
  by_cases hcount : m.fi.journalsCount = 0
  · rw [if_pos hcount, if_pos hcount]
    exact Pairs.mk _ h
  rw [if_neg hcount, if_neg hcount]
  generalize JournalEntry.mk op (UInt32.ofNat ca) (UInt8.ofNat offset) (squeezeEntry e) 0 = j
  obtain ⟨index, s', t', hs, ht, h'⟩ := hb.journalAddLoop hcount j 100 h
  have hlog : s'.medium.log.length = t'.medium.log.length := by rw [hb.medium h']
  simp only [hs, ht, hlog]
  exact Pairs.mk index (hb.setAdded h' _)

theorem journalSolve (h : R s t) (index : Int) :
    R (journalSolveOperation m index s) (journalSolveOperation m index t) := by
  have hlog : s.medium.log.length = t.medium.log.length := by rw [hb.medium h]
  rw [journalSolveOperation, journalSolveOperation, hlog]
  split
  · exact h
  · exact hb.writeJournal (hb.setSolving h _) _ _

/-- The replay sets the journal index before it reads it. -/
theorem restoreFromJournal (h : R s t) (fuel : Nat) :
    Ends R Prod.mk (restoreFromJournal m fuel s) (restoreFromJournal m fuel t) := by
  rw [NiFat32.restoreFromJournal, NiFat32.restoreFromJournal]
  by_cases hcount : m.fi.journalsCount = 0
  · rw [if_pos hcount, if_pos hcount]
    exact Ends.some _ h
  rw [if_neg hcount, if_neg hcount]
  refine (hb.restoreLoop hcount fuel (hb.setJournalIndex h 0) 0).map ?_
  intro _ s' t' h'
  exact ⟨true, _, _, rfl, rfl, hb.setJournalIndex h' 0⟩

end LogBisim

end NiFat32
