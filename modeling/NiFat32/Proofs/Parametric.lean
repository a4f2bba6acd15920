import NiFat32.Core.NiFat32
import NiFat32.Lib.Relational

/-!
# `Proofs.Parametric`: relations that every operation respects

`Bisim m R` says that two related states agree on what the operations read below the content
table, and that the relation survives the few ways in which they change a state. Then every
operation below the content table does the same in both states: it returns the same value, and
the states that it leaves are related again.

`withTable` adds to the relation that both content tables stay what they are. A property that the
operations keep is the case of a relation between a state and itself (`StepInvariant`).
-/

set_option autoImplicit false

namespace NiFat32

open Relational

variable {m : Mount} {R : FS → FS → Prop} {s t : FS}

/-- The handler does the same in related states. -/
def Handler.Respects {σ : Type} (handler : Handler σ) (R : FS → FS → Prop) : Prop :=
  ∀ info e ctx s t, R s t →
    Ends R (fun (r : Bool × DirEntry × σ) u => (r.1, r.2.1, r.2.2, u)) (handler info e ctx s)
      (handler info e ctx t)

/-- `_fat[ca] = x` where there is a cache. -/
def FS.cacheFat (ca x : Nat) (s : FS) : FS :=
  { s with fat := s.fat.map fun f k => if k = ca then x else f k }

/-- What the operations on the table read is the same in related states, and the steps that they
are made of lead to related states. The caches compare at the clusters of the volume. -/
structure FatBisim (m : Mount) (R : FS → FS → Prop) : Prop where
  medium : ∀ {s t}, R s t → s.medium = t.medium
  setMedium : ∀ {s t}, R s t → ∀ d, R { s with medium := d } { t with medium := d }
  error : ∀ {s t}, R s t → ∀ c, R (registerError m c s) (registerError m c t)
  cached : ∀ {s t}, R s t → ∀ {ca}, ca < m.fi.totalClusters → cachedFat ca s = cachedFat ca t
  cache : ∀ {s t}, R s t → ∀ {ca}, ca < m.fi.totalClusters →
    ∀ x, R (s.cacheFat ca x) (t.cacheFat ca x)
  mapSet : ∀ {s t}, R s t → ∀ {ca}, ca < m.fi.totalClusters →
    R (fatmapSet ca s) (fatmapSet ca t)
  mapUnset : ∀ {s t}, R s t → ∀ {ca}, ca < m.fi.totalClusters →
    R (fatmapUnset ca s) (fatmapUnset ca t)

/-- The same for the allocator, the index trees and the journal. -/
structure Bisim (m : Mount) (R : FS → FS → Prop) : Prop extends FatBisim m R where
  findFree : ∀ {s t}, R s t → ∀ offset size,
    fatmapFindFree m offset size s = fatmapFindFree m offset size t
  lastAllocated : ∀ {s t}, R s t → s.lastAllocatedCluster = t.lastAllocatedCluster
  offset : ∀ {s t}, R s t → Pairs R (getClusterOffset m s) (getClusterOffset m t)
  moved : ∀ {s t u u'}, R s t → R u u' → ∀ x,
    R (moveOffset (getClusterOffset m u).1 x s) (moveOffset (getClusterOffset m u).1 x t)
  allocated : ∀ {s t}, R s t → ∀ ca,
    R { s with allocs := s.allocs ++ [ca] } { t with allocs := t.allocs ++ [ca] }
  heap : ∀ {s t}, R s t → s.heap = t.heap
  mallocs : ∀ {s t}, R s t → s.mallocs = t.mallocs
  setHeap : ∀ {s t}, R s t → ∀ h, R { s with heap := h } { t with heap := h }
  malloced : ∀ {s t}, R s t →
    R { s with mallocs := s.mallocs + 1 } { t with mallocs := t.mallocs + 1 }
  journalAdd : ∀ {s t}, R s t → ∀ op ca offset e,
    Pairs R (journalAddOperation m op ca offset e s) (journalAddOperation m op ca offset e t)
  journalSolve : ∀ {s t}, R s t → ∀ index,
    R (journalSolveOperation m index s) (journalSolveOperation m index t)

/-! ### What the logs touch -/

/-- The states differ in the device and in the positions of the logs alone. -/
structure SameStatics (s s' : FS) : Prop where
  fat : s'.fat = s.fat
  bitmap : s'.bitmap = s.bitmap
  lastAllocated : s'.lastAllocatedCluster = s.lastAllocatedCluster
  contents : s'.contents = s.contents
  heap : s'.heap = s.heap
  mallocs : s'.mallocs = s.mallocs
  allocs : s'.allocs = s.allocs

namespace SameStatics

variable {s' s'' : FS}

theorem refl (s : FS) : SameStatics s s := ⟨rfl, rfl, rfl, rfl, rfl, rfl, rfl⟩

theorem trans (h : SameStatics s s') (h' : SameStatics s' s'') : SameStatics s s'' where
  fat := h'.fat.trans h.fat
  bitmap := h'.bitmap.trans h.bitmap
  lastAllocated := h'.lastAllocated.trans h.lastAllocated
  contents := h'.contents.trans h.contents
  heap := h'.heap.trans h.heap
  mallocs := h'.mallocs.trans h.mallocs
  allocs := h'.allocs.trans h.allocs

/-- A loop over the state, whose other value the function `g` forgets. -/
theorem foldl {α β : Type} (g : β → FS) {f : β → α → β} (hf : ∀ b a, SameStatics (g b) (g (f b a)))
    (xs : List α) (b : β) : SameStatics (g b) (g (xs.foldl f b)) := by
  induction xs generalizing b with
  | nil => exact refl (g b)
  | cons a xs ih => exact (hf b a).trans (ih (f b a))

end SameStatics

variable (m)

theorem writeError_statics (index : Nat) (c : UInt32) (s : FS) :
    SameStatics s (writeError m index c s).2 := by
  have hcopy : ∀ i (u : FS), SameStatics u (writeErrorCopy m index c i u).2 :=
    fun _ _ => ⟨rfl, rfl, rfl, rfl, rfl, rfl, rfl⟩
  rw [writeError]
  refine SameStatics.foldl (fun b : Bool × FS => b.2) ?_ (List.range m.fi.errorsCount) (true, s)
  intro b i
  exact hcopy i b.2

theorem registerError_statics (c : ErrorCode) (s : FS) : SameStatics s (registerError m c s) := by
  have hwrite := writeError_statics m s.errors.current c.toU32 s
  simp only [registerError, errorsRegisterError]
  generalize writeError m s.errors.current c.toU32 s = written at hwrite ⊢
  cases written with
  | mk ok s' =>
    cases ok with
    | false => exact hwrite
    | true =>
      -- the positions are set, then written to the first cell
      simp only [dumpInfo]
      refine hwrite.trans (SameStatics.trans ?_ (writeError_statics m _ _ _))
      exact ⟨rfl, rfl, rfl, rfl, rfl, rfl, rfl⟩

theorem writeJournalCopy_statics (index : Nat) (j : JournalEntry) (i : Nat) (s : FS) :
    SameStatics s (writeJournalCopy m index j i s).2 := by
  rw [writeJournalCopy]
  cases dskWriteoffSectors m s.medium (getJournalSector i m.fi.totalSectors)
    (u32 (index * (2 * JOURNAL_ENTRY_SIZE))) (packMemory j.bytes) 1 with
  | mk ok d =>
    cases ok with
    | false =>
      refine SameStatics.trans ?_ (registerError_statics m _ _)
      exact ⟨rfl, rfl, rfl, rfl, rfl, rfl, rfl⟩
    | true => exact ⟨rfl, rfl, rfl, rfl, rfl, rfl, rfl⟩

theorem writeJournal_statics (index : Nat) (j : JournalEntry) (s : FS) :
    SameStatics s (writeJournal m index j s) :=
  SameStatics.foldl id (fun u i => writeJournalCopy_statics m index j i u) _ s

theorem readJournalCopy_statics (index i : Nat) (s : FS) :
    SameStatics s (readJournalCopy m index i s).2 := by
  rw [readJournalCopy]
  split
  · exact registerError_statics m _ s
  · exact SameStatics.refl s

theorem readJournal_statics (index : Nat) (prev : JournalEntry) (s : FS) :
    SameStatics s (readJournal m index prev s).2 := by
  have hvote : SameStatics s (voteJournal m index s).2.2 := by
    rw [voteJournal]
    refine SameStatics.foldl (fun b : Vote.Ballot UInt32 × Option Nat × FS => b.2.2) ?_
      (List.range m.fi.journalsCount) (Vote.start 0xFFFFFFFF, none, s)
    intro b i
    exact readJournalCopy_statics m index i b.2.2
  rw [readJournal]
  generalize voteJournal m index s = vote at hvote ⊢
  match vote with
  | (_, none, s') => exact hvote
  | (b, some i, s') =>
    have hread := hvote.trans (readJournalCopy_statics m index i s')
    simp only
    split
    · exact hread.trans (writeJournal_statics m index _ _)
    · exact hread

theorem journalAddLoop_statics (j : JournalEntry) (n : Nat) : ∀ s : FS,
    SameStatics s (journalAddLoop m j n s).2 := by
  induction n with
  | zero => exact SameStatics.refl
  | succ n ih =>
    intro s
    have hmoved : SameStatics s { s with journalIndex := (s.journalIndex + 1) % 256 } :=
      ⟨rfl, rfl, rfl, rfl, rfl, rfl, rfl⟩
    have hread := hmoved.trans
      (readJournal_statics m (s.journalIndex % journalSlots m) (.ofBytes (m.junk 2 n)) _)
    simp only [journalAddLoop]
    split
    · exact hread.trans (writeJournal_statics m _ j _)
    · exact hread.trans (ih _)

theorem journalAddOperation_statics (op : UInt8) (ca offset : Nat) (e : DirEntry) (s : FS) :
    SameStatics s (journalAddOperation m op ca offset e s).2 := by
  rw [journalAddOperation]
  split
  · exact SameStatics.refl s
  · exact (journalAddLoop_statics m _ 100 s).trans ⟨rfl, rfl, rfl, rfl, rfl, rfl, rfl⟩

theorem journalSolveOperation_statics (index : Int) (s : FS) :
    SameStatics s (journalSolveOperation m index s) := by
  rw [journalSolveOperation]
  split
  · exact SameStatics.refl s
  · refine SameStatics.trans ?_ (writeJournal_statics m _ _ _)
    exact ⟨rfl, rfl, rfl, rfl, rfl, rfl, rfl⟩

theorem getClusterOffset_contents (s : FS) : (getClusterOffset m s).2.contents = s.contents := by
  rw [getClusterOffset]
  split <;> rfl

variable {m}

theorem moveOffset_contents (offt x : Nat) (s : FS) :
    (moveOffset offt x s).contents = s.contents := by
  rw [moveOffset]
  split <;> rfl

namespace Bisim

/-- The operations below the content table leave the two tables as they are. -/
theorem withTable (hb : Bisim m R) (c c' : Nat → Content) :
    Bisim m fun s t => R s t ∧ s.contents = c ∧ t.contents = c' where
  medium h := hb.medium h.1
  setMedium h d := ⟨hb.setMedium h.1 d, h.2⟩
  error h code := by
    exact ⟨hb.error h.1 code, (registerError_statics m code _).contents.trans h.2.1,
      (registerError_statics m code _).contents.trans h.2.2⟩
  cached h _ hca := hb.cached h.1 hca
  cache h _ hca x := ⟨hb.cache h.1 hca x, h.2⟩
  mapSet h _ hca := ⟨hb.mapSet h.1 hca, h.2⟩
  mapUnset h _ hca := ⟨hb.mapUnset h.1 hca, h.2⟩
  findFree h := hb.findFree h.1
  lastAllocated h := hb.lastAllocated h.1
  offset {s t} h := by
    obtain ⟨offt, s', t', hs, ht, h'⟩ := hb.offset h.1
    have hkept := getClusterOffset_contents m s
    have hkept' := getClusterOffset_contents m t
    rw [hs] at hkept
    rw [ht] at hkept'
    exact ⟨offt, s', t', hs, ht, h', hkept.trans h.2.1, hkept'.trans h.2.2⟩
  moved h hu x := ⟨hb.moved h.1 hu.1 x, (moveOffset_contents _ x _).trans h.2.1,
    (moveOffset_contents _ x _).trans h.2.2⟩
  allocated h ca := ⟨hb.allocated h.1 ca, h.2⟩
  heap h := hb.heap h.1
  mallocs h := hb.mallocs h.1
  setHeap h heap := ⟨hb.setHeap h.1 heap, h.2⟩
  malloced h := ⟨hb.malloced h.1, h.2⟩
  journalAdd {s t} h op ca offset e := by
    obtain ⟨ji, s', t', hs, ht, h'⟩ := hb.journalAdd h.1 op ca offset e
    have hkept := (journalAddOperation_statics m op ca offset e s).contents
    have hkept' := (journalAddOperation_statics m op ca offset e t).contents
    rw [hs] at hkept
    rw [ht] at hkept'
    exact ⟨ji, s', t', hs, ht, h', hkept.trans h.2.1, hkept'.trans h.2.2⟩
  journalSolve h index :=
    ⟨hb.journalSolve h.1 index, (journalSolveOperation_statics m index _).contents.trans h.2.1,
      (journalSolveOperation_statics m index _).contents.trans h.2.2⟩

end Bisim

/-- A property of the state that every step below the content table keeps. -/
structure StepInvariant (m : Mount) (P : FS → Prop) : Prop where
  logs : ∀ {s s'}, P s → SameStatics s s' → P s'
  cache : ∀ {s}, P s → ∀ {ca}, ca < m.fi.totalClusters → ∀ x, P (s.cacheFat ca x)
  mapSet : ∀ {s}, P s → ∀ {ca}, ca < m.fi.totalClusters → P (fatmapSet ca s)
  mapUnset : ∀ {s}, P s → ∀ {ca}, ca < m.fi.totalClusters → P (fatmapUnset ca s)
  offset : ∀ {s}, P s → P (getClusterOffset m s).2
  moved : ∀ {s u}, P s → P u → ∀ x, P (moveOffset (getClusterOffset m u).1 x s)
  allocated : ∀ {s}, P s → ∀ ca, P { s with allocs := s.allocs ++ [ca] }
  setHeap : ∀ {s}, P s → ∀ h, P { s with heap := h }
  malloced : ∀ {s}, P s → P { s with mallocs := s.mallocs + 1 }

/-- An invariant relates the states that it holds of to themselves. -/
theorem StepInvariant.bisim {P : FS → Prop} (hP : StepInvariant m P) :
    Bisim m fun s t => s = t ∧ P s where
  medium h := congrArg FS.medium h.1
  setMedium := by
    rintro s _ ⟨rfl, h⟩ d
    exact ⟨rfl, hP.logs h ⟨rfl, rfl, rfl, rfl, rfl, rfl, rfl⟩⟩
  error := by
    rintro s _ ⟨rfl, h⟩ c
    exact ⟨rfl, hP.logs h (registerError_statics m c s)⟩
  cached := by
    rintro s _ ⟨rfl, -⟩ ca -
    rfl
  cache := by
    rintro s _ ⟨rfl, h⟩ ca hca x
    exact ⟨rfl, hP.cache h hca x⟩
  mapSet := by
    rintro s _ ⟨rfl, h⟩ ca hca
    exact ⟨rfl, hP.mapSet h hca⟩
  mapUnset := by
    rintro s _ ⟨rfl, h⟩ ca hca
    exact ⟨rfl, hP.mapUnset h hca⟩
  findFree := by
    rintro s _ ⟨rfl, -⟩ offset size
    rfl
  lastAllocated h := congrArg FS.lastAllocatedCluster h.1
  offset := by
    rintro s _ ⟨rfl, h⟩
    exact ⟨_, _, _, rfl, rfl, rfl, hP.offset h⟩
  moved := by
    rintro s _ u _ ⟨rfl, h⟩ ⟨-, hu⟩ x
    exact ⟨rfl, hP.moved h hu x⟩
  allocated := by
    rintro s _ ⟨rfl, h⟩ ca
    exact ⟨rfl, hP.allocated h ca⟩
  heap h := congrArg FS.heap h.1
  mallocs h := congrArg FS.mallocs h.1
  setHeap := by
    rintro s _ ⟨rfl, h⟩ heap
    exact ⟨rfl, hP.setHeap h heap⟩
  malloced := by
    rintro s _ ⟨rfl, h⟩
    exact ⟨rfl, hP.malloced h⟩
  journalAdd := by
    rintro s _ ⟨rfl, h⟩ op ca offset e
    exact ⟨_, _, _, rfl, rfl, rfl, hP.logs h (journalAddOperation_statics m op ca offset e s)⟩
  journalSolve := by
    rintro s _ ⟨rfl, h⟩ index
    exact ⟨rfl, hP.logs h (journalSolveOperation_statics m index s)⟩

/-- A property that does not speak of the caches and the allocation pointer. -/
theorem StepInvariant.of_statics {P : FS → Prop} (hlogs : ∀ {s s'}, P s → SameStatics s s' → P s')
    (hfat : ∀ {s}, P s → ∀ f, P { s with fat := f })
    (hbitmap : ∀ {s}, P s → ∀ b, P { s with bitmap := b })
    (hlast : ∀ {s}, P s → ∀ ca, P { s with lastAllocatedCluster := ca })
    (hheap : ∀ {s}, P s → ∀ h, P { s with heap := h })
    (hmallocs : ∀ {s}, P s → P { s with mallocs := s.mallocs + 1 })
    (hallocs : ∀ {s}, P s → ∀ ca, P { s with allocs := s.allocs ++ [ca] }) :
    StepInvariant m P where
  logs := hlogs
  cache h _ _ _ := hfat h _
  mapSet h _ _ := hbitmap h _
  mapUnset h _ _ := hbitmap h _
  offset {s} h := by
    rw [getClusterOffset]
    split
    · exact h
    · exact hlast h _
  moved {s u} h _ x := by
    rw [moveOffset]
    split
    · exact hlast h x
    · exact h
  allocated := hallocs
  setHeap := hheap
  malloced := hmallocs

/-! ### The table -/

namespace FatBisim

variable (hb : FatBisim m R)

include hb

theorem readFatCopy (h : R s t) (ca i : Nat) :
    Pairs R (readFatCopy m ca i s) (readFatCopy m ca i t) := by
  simp only [NiFat32.readFatCopy, hb.medium h]
  cases dskReadoffSectors m t.medium (fatEntryPos m ca i).1 (fatEntryPos m ca i).2 8 1 with
  | none => exact Pairs.mk _ (hb.error h _)
  | some bs => exact Pairs.mk _ h

theorem writeFatCopy (h : R s t) (ca x i : Nat) :
    Pairs R (writeFatCopy m ca x i s) (writeFatCopy m ca x i t) := by
  simp only [NiFat32.writeFatCopy, hb.medium h]
  cases dskWriteoffSectors m t.medium (fatEntryPos m ca i).1 (fatEntryPos m ca i).2
    (packMemory (bytesOfU32 (UInt32.ofNat x))) 1 with
  | mk ok d =>
    cases ok with
    | false => exact Pairs.mk _ (hb.error (hb.setMedium h d) _)
    | true => exact Pairs.mk _ (hb.setMedium h d)

theorem noteFat (h : R s t) {ca : Nat} (hca : ca < m.fi.totalClusters) (x : Nat) :
    R (noteFat ca x s) (noteFat ca x t) := by
  have hcache := hb.cache h hca x
  simp only [NiFat32.noteFat]
  split
  · exact hb.mapSet hcache hca
  · exact hb.mapUnset hcache hca

theorem writeFatLocked (h : R s t) {ca : Nat} (hca : ca < m.fi.totalClusters) (x : Nat) :
    Pairs R (writeFatLocked m ca x s) (writeFatLocked m ca x t) := by
  refine Pairs.foldl _ ?_ (Pairs.mk true (hb.noteFat h hca x))
  intro p q i hpq
  obtain ⟨ok, s', t', rfl, rfl, h'⟩ := hpq
  obtain ⟨written, s'', t'', hs, ht, h''⟩ := hb.writeFatCopy h' ca x i
  simp only [hs, ht]
  exact Pairs.mk _ h''

theorem writeFat (h : R s t) (ca x : Nat) : Pairs R (writeFat m ca x s) (writeFat m ca x t) := by
  rw [NiFat32.writeFat, NiFat32.writeFat]
  split
  · exact Pairs.mk _ (hb.error h _)
  · next hin => exact hb.writeFatLocked h (Nat.not_le.mp (not_or.mp hin).2) x

theorem voteFat (h : R s t) (ca : Nat) : Pairs R (voteFat m ca s) (voteFat m ca t) := by
  refine Pairs.foldl _ ?_ (Pairs.mk _ h)
  intro p q i hpq
  obtain ⟨b, s', t', rfl, rfl, h'⟩ := hpq
  obtain ⟨x, s'', t'', hs, ht, h''⟩ := hb.readFatCopy h' ca i
  simp only [hs, ht]
  exact Pairs.mk _ h''

theorem readFat (h : R s t) (ca : Nat) : Pairs R (readFat m ca s) (readFat m ca t) := by
  rw [NiFat32.readFat, NiFat32.readFat]
  by_cases hout : ca < m.fi.extRootCluster ∨ m.fi.totalClusters ≤ ca
  · rw [if_pos hout, if_pos hout]
    exact Pairs.mk _ (hb.error h _)
  have hca : ca < m.fi.totalClusters := Nat.not_le.mp (not_or.mp hout).2
  rw [if_neg hout, if_neg hout, hb.cached h hca]
  cases cachedFat ca t with
  | some x => exact Pairs.mk _ h
  | none =>
    obtain ⟨b, s', t', hs, ht, h'⟩ := hb.voteFat h ca
    have hnote := hb.noteFat h' hca b.val
    simp only [hs, ht]
    split
    · exact Pairs.mk _ (hb.writeFatLocked hnote hca b.val).snd
    · exact Pairs.mk _ hnote

theorem fatRepair (h : R s t) : Pairs R (fatRepair m s) (fatRepair m t) := by
  apply Pairs.mk true
  apply foldl_related (R := R) _ _ h
  intro s t ca h'
  exact (hb.readFat h' ca).snd

/-- The load of the cache reads every cluster and notes it in the bitmap. -/
theorem fatCacheHload (h : R s t) (hfat : s.fat.isNone = t.fat.isNone) :
    Pairs R (fatCacheHload m s) (fatCacheHload m t) := by
  rw [NiFat32.fatCacheHload, NiFat32.fatCacheHload, hfat]
  split
  · exact Pairs.mk _ h
  apply Pairs.mk true
  apply foldl_range_related _ _ h
  intro s t ca hca h'
  obtain ⟨x, s', t', hs, ht, h''⟩ := hb.readFat h' ca
  simp only [hs, ht]
  split
  · exact hb.mapSet h'' hca
  · exact hb.mapUnset h'' hca

end FatBisim

namespace Bisim

variable (hb : Bisim m R)

include hb

/-! ### Clusters -/

section Alloc

variable {offt : Nat} (hmove : ∀ {s t}, R s t → ∀ x, R (moveOffset offt x s) (moveOffset offt x t))

include hmove

theorem claimCluster (h : R s t) (ca : Nat) :
    Pairs R (claimCluster m offt ca s) (claimCluster m offt ca t) := by
  obtain ⟨ok, s', t', hs, ht, h'⟩ := hb.writeFat h ca FAT_CLUSTER_RESERVED
  simp only [NiFat32.claimCluster, hs, ht]
  cases ok with
  | false => exact Pairs.mk _ h'
  | true => exact Pairs.mk _ (hmove h' (ca + 1))

theorem allocScan (passes : Nat) : ∀ {s t : FS}, R s t → ∀ ca skip,
    Pairs R (allocScan m offt passes ca skip s) (allocScan m offt passes ca skip t) := by
  induction passes with
  | zero =>
    intro s t h ca skip
    exact Pairs.mk _ (hmove h _)
  | succ passes ih =>
    intro s t h ca skip
    obtain ⟨status, s', t', hs, ht, h'⟩ := hb.readFat h ca
    simp only [NiFat32.allocScan, hs, ht]
    split
    · exact Pairs.mk _ (hmove h _)
    split
    · exact hb.claimCluster hmove h' ca
    split
    · exact ih h' _ _
    · exact ih h' _ _

theorem allocSearch (h : R s t) : Pairs R (allocSearch m offt s) (allocSearch m offt t) := by
  simp only [NiFat32.allocSearch, hb.lastAllocated h, hb.findFree h]
  generalize (if offt = NO_CLUSTER_OFFSET then t.lastAllocatedCluster else offt) = curr
  split
  · exact hb.allocScan hmove _ h curr 0
  · obtain ⟨status, s', t', hs, ht, h'⟩ := hb.readFat h (fatmapFindFree m curr 1 t)
    simp only [hs, ht]
    split
    · exact hb.claimCluster hmove h' _
    · exact hb.allocScan hmove _ h' curr 0

end Alloc

theorem allocNext (h : R s t) : Pairs R (allocNext m s) (allocNext m t) := by
  obtain ⟨offt, s', t', hs, ht, h'⟩ := hb.offset h
  have hmove : ∀ {u u'}, R u u' → ∀ x, R (moveOffset offt x u) (moveOffset offt x u') := by
    intro u u' hu x
    have hmoved := hb.moved hu h x
    rwa [hs] at hmoved
  obtain ⟨ca, s'', t'', hs', ht', h''⟩ := hb.allocSearch hmove h'
  simp only [NiFat32.allocNext, allocCluster, hs, ht, hs', ht']
  exact Pairs.mk ca (hb.allocated h'' ca)

theorem setClusterEnd (h : R s t) (ca : Nat) :
    Pairs R (setClusterEnd m ca s) (setClusterEnd m ca t) := hb.writeFat h ca _

theorem deallocCluster (h : R s t) (ca : Nat) :
    Pairs R (deallocCluster m ca s) (deallocCluster m ca t) := by
  obtain ⟨status, s', t', hs, ht, h'⟩ := hb.readFat h ca
  obtain ⟨ok, s'', t'', hs', ht', h''⟩ := hb.writeFat h' ca FAT_CLUSTER_FREE
  simp only [NiFat32.deallocCluster, setClusterFree, hs, ht, hs', ht']
  split
  · exact Pairs.mk _ h'
  cases ok with
  | false => exact Pairs.mk _ (hb.error h'' _)
  | true => exact Pairs.mk _ h''

theorem deallocChain (fuel : Nat) : ∀ {s t : FS}, R s t → ∀ ca,
    Ends R Prod.mk (deallocChain m fuel ca s) (deallocChain m fuel ca t) := by
  induction fuel with
  | zero =>
    intro s t _ ca
    exact Ends.none
  | succ fuel ih =>
    intro s t h ca
    obtain ⟨next, s', t', hs, ht, h'⟩ := hb.readFat h ca
    obtain ⟨ok, s'', t'', hs', ht', h''⟩ := hb.deallocCluster h' ca
    cases ok with
    | false =>
      simp only [NiFat32.deallocChain, hs, ht, hs', ht']
      exact Ends.some _ (hb.error h'' _)
    | true =>
      simp only [NiFat32.deallocChain, hs, ht, hs', ht']
      split
      · exact Ends.some _ h''
      · exact ih h'' next

theorem readoffCluster (h : R s t) (ca offset size : Nat) :
    readoffCluster m ca offset size s = readoffCluster m ca offset size t := by
  rw [NiFat32.readoffCluster, NiFat32.readoffCluster, hb.medium h]

theorem writeoffCluster (h : R s t) (ca offset : Nat) (xs : List UInt8) :
    Pairs R (writeoffCluster m ca offset xs s) (writeoffCluster m ca offset xs t) := by
  simp only [NiFat32.writeoffCluster, hb.medium h]
  exact Pairs.mk _ (hb.setMedium h _)

theorem writeCluster (h : R s t) (ca : Nat) (xs : List UInt8) :
    Pairs R (writeCluster m ca xs s) (writeCluster m ca xs t) := hb.writeoffCluster h ca 0 xs

theorem copyCluster (h : R s t) (src dst size : Nat) :
    Pairs R (copyCluster m src dst size s) (copyCluster m src dst size t) := by
  simp only [NiFat32.copyCluster, hb.medium h]
  exact Pairs.mk _ (hb.setMedium h _)

/-! ### Directories -/

theorem ecacheInsert (h : R s t) (fuel root : Nat) (hash : UInt32) (isDir : Bool) (ca : Nat) :
    Ends R Prod.mk (ecacheInsert m fuel root hash isDir ca s)
      (ecacheInsert m fuel root hash isDir ca t) := by
  have hcalled := hb.malloced h
  simp only [NiFat32.ecacheInsert, hb.mallocs h, hb.heap h] at hcalled ⊢
  split
  · exact Ends.some _ hcalled
  split
  · exact Ends.none
  · exact Ends.some _ (hb.setHeap hcalled _)
  · -- the tree is rebuilt from the heap alone
    generalize fixInsert _ _ _ _ = rebuilt
    cases rebuilt with
    | none => exact Ends.none
    | some out => exact Ends.some _ (hb.setHeap hcalled _)

theorem readEncodedCluster (h : R s t) (ca : Nat) :
    Pairs R (readEncodedCluster m ca s) (readEncodedCluster m ca t) := by
  simp only [NiFat32.readEncodedCluster, readCluster, hb.readoffCluster h]
  split
  · exact Pairs.mk _ (hb.error h _)
  cases NiFat32.readoffCluster m ca 0 m.fi.clusterSize t with
  | none => exact Pairs.mk _ (hb.error h _)
  | some enc => exact Pairs.mk _ h

section Iterate

variable {σ : Type} {handler : Handler σ} (hh : handler.Respects R)

include hh

omit hb in
theorem slotLoop (ca : Nat) (es : List DirEntry) : ∀ {s t : FS}, R s t → ∀ i ctx,
    Ends R (fun (r : Bool × List DirEntry × σ) u => (r.1, r.2.1, r.2.2, u))
      (slotLoop handler ca i es ctx s) (slotLoop handler ca i es ctx t) := by
  induction es with
  | nil =>
    intro s t h i ctx
    exact Ends.some (false, [], ctx) h
  | cons e es ih =>
    intro s t h i ctx
    rw [NiFat32.slotLoop, NiFat32.slotLoop]
    split
    · exact Ends.some (false, e :: es, ctx) h
    rcases hh ⟨ca, i⟩ e ctx s t h with ⟨hs, ht⟩ | ⟨⟨exit, e', ctx'⟩, s', t', hs, ht, h'⟩
    · rw [hs, ht]
      exact Ends.none
    rw [hs, ht]
    cases exit with
    | true => exact Ends.some (true, e' :: es, ctx') h'
    | false =>
      refine (ih h' (i + 1) ctx').map ?_
      intro r s'' t'' h''
      exact ⟨(r.1, e' :: r.2.1, r.2.2), s'', t'', rfl, rfl, h''⟩

theorem entryIterate (fuel : Nat) : ∀ {s t : FS}, R s t → ∀ ca ctx,
    Ends R (fun (r : Bool × σ) u => (r.1, r.2, u)) (entryIterate m handler fuel ca ctx s)
      (entryIterate m handler fuel ca ctx t) := by
  induction fuel with
  | zero =>
    intro s t _ ca ctx
    exact Ends.none
  | succ fuel ih =>
    intro s t h ca ctx
    obtain ⟨read, s', t', hs, ht, h'⟩ := hb.readEncodedCluster h ca
    rw [NiFat32.entryIterate, NiFat32.entryIterate, hs, ht]
    cases read with
    | none => exact Ends.some (false, ctx) h'
    | some bufs =>
      rcases slotLoop hh ca (slotsOf (entriesPerCluster m) bufs.2) h' 0 ctx with
        ⟨hl, hl'⟩ | ⟨⟨exit, slots, ctx'⟩, s'', t'', hl, hl', h''⟩
      · simp only [hl, hl']
        exact Ends.none
      simp only [hl, hl']
      -- the cluster goes back, and the walk follows its link
      obtain ⟨ok, s₁, t₁, hw, hw', h₁⟩ :=
        hb.writeCluster h'' ca (repackCluster m bufs.1 bufs.2 slots)
      cases ok with
      | false =>
        simp only [hw, hw']
        exact Ends.some (exit, ctx') (hb.error h₁ _)
      | true =>
        obtain ⟨next, s₂, t₂, hr, hr', h₂⟩ := hb.readFat h₁ ca
        simp only [hw, hw', hr, hr']
        split
        · exact ih h₂ next ctx'
        · exact Ends.some (exit, ctx') h₂

end Iterate

omit hb in
/-- An invariant of the state and the context that the handler keeps, over the slots of a
cluster. -/
theorem slotLoop_invariant {σ : Type} {handler : Handler σ} {I : σ → FS → Prop}
    (hh : ∀ {info e ctx s exit e' ctx' s'}, I ctx s →
      handler info e ctx s = some (exit, e', ctx', s') → I ctx' s') {ca : Nat}
    (es : List DirEntry) : ∀ {i ctx} {s s' : FS} {exit es' ctx'}, I ctx s →
      NiFat32.slotLoop handler ca i es ctx s = some (exit, es', ctx', s') → I ctx' s' := by
  induction es with
  | nil =>
    intro i ctx s s' exit es' ctx' h hrun
    cases hrun
    exact h
  | cons e es ih =>
    intro i ctx s s' exit es' ctx' h hrun
    rw [NiFat32.slotLoop] at hrun
    split at hrun
    · cases hrun
      exact h
    cases hstep : handler ⟨ca, i⟩ e ctx s with
    | none =>
      rw [hstep] at hrun
      cases hrun
    | some out =>
      obtain ⟨stop, e', ctx₁, s₁⟩ := out
      have h₁ := hh h hstep
      rw [hstep] at hrun
      cases stop with
      | true =>
        cases hrun
        exact h₁
      | false =>
        obtain ⟨⟨exit', es₁, ctx₂, s₂⟩, hrest, hout⟩ := Option.map_eq_some_iff.mp hrun
        cases hout
        exact ih h₁ hrest

omit hb in
/-- An invariant of the state and the context that the handler keeps, over a directory. -/
theorem entryIterate_invariant {σ : Type} {handler : Handler σ} {I : σ → FS → Prop}
    (hI : ∀ ctx, Bisim m fun s t => s = t ∧ I ctx s)
    (hh : ∀ {info e ctx s exit e' ctx' s'}, I ctx s →
      handler info e ctx s = some (exit, e', ctx', s') → I ctx' s') (fuel : Nat) :
    ∀ {ca ctx} {s s' : FS} {exit ctx'}, I ctx s →
      NiFat32.entryIterate m handler fuel ca ctx s = some (exit, ctx', s') → I ctx' s' := by
  induction fuel with
  | zero =>
    intro ca ctx s s' exit ctx' _ hrun
    cases hrun
  | succ fuel ih =>
    intro ca ctx s s' exit ctx' h hrun
    have h₁ := ((hI ctx).readEncodedCluster ⟨rfl, h⟩ ca).snd.2
    rw [NiFat32.entryIterate] at hrun
    generalize NiFat32.readEncodedCluster m ca s = read at h₁ hrun
    match read with
    | (none, s₁) =>
      cases hrun
      exact h₁
    | (some bufs, s₁) =>
      simp only at hrun
      cases hslots :
        NiFat32.slotLoop handler ca 0 (slotsOf (entriesPerCluster m) bufs.2) ctx s₁ with
      | none =>
        rw [hslots] at hrun
        cases hrun
      | some out =>
        obtain ⟨stop, slots, ctx₁, s₂⟩ := out
        have h₂ := slotLoop_invariant hh _ h₁ hslots
        have h₃ := ((hI ctx₁).writeCluster ⟨rfl, h₂⟩ ca
          (repackCluster m bufs.1 bufs.2 slots)).snd.2
        simp only [hslots] at hrun
        generalize NiFat32.writeCluster m ca (repackCluster m bufs.1 bufs.2 slots) s₂ = written
          at h₃ hrun
        match written with
        | (false, s₃) =>
          cases hrun
          exact ((hI _).error ⟨rfl, h₃⟩ _).2
        | (true, s₃) =>
          have h₄ := ((hI ctx₁).readFat ⟨rfl, h₃⟩ ca).snd.2
          simp only at hrun
          split at hrun
          · exact ih h₄ hrun
          · cases hrun
            exact h₄

theorem indexHandler (fuel : Nat) : (indexHandler m fuel).Respects R := by
  intro info e root s t h
  rw [NiFat32.indexHandler, NiFat32.indexHandler]
  cases validateEntry e with
  | mk valid e =>
    simp only
    split
    · exact Ends.some (false, e, root) h
    refine (hb.ecacheInsert h fuel root _ _ _).map ?_
    intro root' s' t' h'
    exact ⟨(false, e, root'), s', t', rfl, rfl, h'⟩

theorem entryIndex (h : R s t) (fuel ca root : Nat) :
    Ends R Prod.mk (entryIndex m fuel ca root s) (entryIndex m fuel ca root t) := by
  refine (hb.entryIterate (hb.indexHandler fuel) fuel h ca root).map ?_
  intro r s' t' h'
  exact ⟨r.2, s', t', rfl, rfl, h'⟩

omit hb in
theorem searchHandler (name : Name) : (searchHandler name).Respects R := by
  intro info e found s t h
  rw [NiFat32.searchHandler, NiFat32.searchHandler]
  cases validateEntry e with
  | mk valid e =>
    simp only
    split
    · exact Ends.some (false, e, found) h
    split
    · exact Ends.some (false, e, found) h
    split
    · exact Ends.some (false, e, found) h
    · exact Ends.some (true, e, some { e with rca := UInt32.ofNat info.ca }) h

theorem entrySearch (h : R s t) (fuel : Nat) (name : Name) (ca cache : Nat) :
    Ends R Prod.mk (entrySearch m fuel name ca cache s) (entrySearch m fuel name ca cache t) := by
  simp only [NiFat32.entrySearch, hb.heap h]
  generalize (if cache = 0 then some 0 else ecacheFind (hashName name) t.heap fuel cache) = found
  cases found with
  | none => exact Ends.none
  | some node =>
    simp only
    split
    · exact Ends.some _ h
    refine (hb.entryIterate (searchHandler name) fuel h ca none).map ?_
    intro r s' t' h'
    exact ⟨if r.1 then r.2 else none, s', t', rfl, rfl, h'⟩

theorem editHandler (fuel : Nat) (name : Name) (dst : DirEntry) (cache : Nat) :
    (editHandler m fuel name dst cache).Respects R := by
  intro info e ji s t h
  rw [NiFat32.editHandler, NiFat32.editHandler]
  cases validateEntry e with
  | mk valid e =>
    simp only
    split
    · exact Ends.some (false, e, ji) h
    split
    · exact Ends.some (false, e, ji) h
    split
    · exact Ends.some (false, e, ji) h
    obtain ⟨ji', s', t', hs, ht, h'⟩ := hb.journalAdd h EDIT_OP info.ca info.offset dst
    simp only [hs, ht, hb.heap h']
    split
    · exact Ends.some (true, dst, ji') h'
    cases ecacheDelete fuel cache (hashName name) t'.heap with
    | none => exact Ends.none
    | some out =>
      refine (hb.ecacheInsert (hb.setHeap h' out.2) fuel cache _ _ _).map ?_
      intro root s'' t'' h''
      exact ⟨(true, dst, ji'), s'', t'', rfl, rfl, h''⟩

/-- A walk that leaves a journal index is followed by the end of the journaled operation. -/
theorem solved {f : Option (Bool × Int × FS)} {g : Option (Bool × Int × FS)}
    (h : Ends R (fun (r : Bool × Int) u => (r.1, r.2, u)) f g) :
    Ends R Prod.mk
      (f.map fun (result, ji, s) => (result, if 0 ≤ ji then journalSolveOperation m ji s else s))
      (g.map fun (result, ji, s) =>
        (result, if 0 ≤ ji then journalSolveOperation m ji s else s)) := by
  refine h.map ?_
  intro r s' t' h'
  refine ⟨r.1, _, _, rfl, rfl, ?_⟩
  show R (if 0 ≤ r.2 then _ else _) (if 0 ≤ r.2 then _ else _)
  split
  · exact hb.journalSolve h' r.2
  · exact h'

theorem entryEdit (h : R s t) (fuel ca cache : Nat) (name : Name) (dst : DirEntry) :
    Ends R Prod.mk (entryEdit m fuel ca cache name dst s)
      (entryEdit m fuel ca cache name dst t) :=
  hb.solved (hb.entryIterate (hb.editHandler fuel name dst cache) fuel h ca (-1))

theorem addNextCluster (h : R s t) (ca : Nat) :
    Pairs R (addNextCluster m ca s) (addNextCluster m ca t) := by
  obtain ⟨next, s₁, t₁, hs, ht, h₁⟩ := hb.readFat h ca
  simp only [NiFat32.addNextCluster, hs, ht]
  split
  · exact Pairs.mk _ (hb.error h₁ _)
  split
  · obtain ⟨nca, s₂, t₂, hs, ht, h₂⟩ := hb.allocNext h₁
    simp only [hs, ht]
    split
    · exact Pairs.mk _ (hb.error h₂ _)
    obtain ⟨ok, s₃, t₃, hs, ht, h₃⟩ := hb.setClusterEnd h₂ nca
    rw [hs, ht]
    cases ok with
    | false => exact Pairs.mk _ (hb.error h₃ _)
    | true =>
      obtain ⟨ok, s₄, t₄, hs, ht, h₄⟩ := hb.writeFat h₃ ca nca
      simp only [hs, ht]
      cases ok with
      | false => exact Pairs.mk _ (hb.error h₄ _)
      | true => exact Pairs.mk _ h₄
  · exact Pairs.mk _ h₁

theorem addToSlot (h : R s t) (fuel ca cache i : Nat) (e : DirEntry) (enc dec : List UInt8)
    (slots : List DirEntry) :
    Ends R (fun (r : Int × DirEntry) u => (r.1, r.2, u))
      (addToSlot m fuel ca cache i e enc dec slots s)
      (addToSlot m fuel ca cache i e enc dec slots t) := by
  obtain ⟨ji, s₁, t₁, hs, ht, h₁⟩ := hb.journalAdd h ADD_OP ca i e
  have hindexed : Ends R (fun (_ : Unit) u => u)
      (if cache = 0 then some s₁
        else (NiFat32.ecacheInsert m fuel cache (hashName (storedIn e ca).fileName)
          (!(storedIn e ca).isDir) (storedIn e ca).dca.toNat s₁).map (·.2))
      (if cache = 0 then some t₁
        else (NiFat32.ecacheInsert m fuel cache (hashName (storedIn e ca).fileName)
          (!(storedIn e ca).isDir) (storedIn e ca).dca.toNat t₁).map (·.2)) := by
    split
    · exact Ends.some () h₁
    refine (hb.ecacheInsert h₁ fuel cache _ _ _).map ?_
    intro root s' t' h'
    exact ⟨(), s', t', rfl, rfl, h'⟩
  simp only [NiFat32.addToSlot, hs, ht]
  rcases hindexed with ⟨hs, ht⟩ | ⟨_, s₂, t₂, hs, ht, h₂⟩
  · simp only [hs, ht]
    exact Ends.none
  obtain ⟨ok, s₃, t₃, hs', ht', h₃⟩ :=
    hb.writeCluster h₂ ca (repackCluster m enc dec (putSlot slots i (storedIn e ca)))
  simp only [hs, ht, hs', ht']
  cases ok with
  | false => exact Ends.some (-6, storedIn e ca) (hb.error h₃ _)
  | true => exact Ends.some (1, storedIn e ca) (hb.journalSolve h₃ ji)

theorem entryAdd (fuel : Nat) : ∀ {s t : FS}, R s t → ∀ ca cache e,
    Ends R (fun (r : Int × DirEntry) u => (r.1, r.2, u)) (entryAdd m fuel ca cache e s)
      (entryAdd m fuel ca cache e t) := by
  induction fuel with
  | zero =>
    intro s t _ ca cache e
    exact Ends.none
  | succ fuel ih =>
    intro s t h ca cache e
    obtain ⟨read, s₁, t₁, hs, ht, h₁⟩ := hb.readEncodedCluster h ca
    rw [NiFat32.entryAdd, NiFat32.entryAdd, hs, ht]
    cases read with
    | none => exact Ends.some (-1, e) h₁
    | some bufs =>
      simp only
      cases (slotsOf (entriesPerCluster m) bufs.2).findIdx? addable with
      | some i => exact hb.addToSlot h₁ fuel ca cache i e bufs.1 bufs.2 _
      | none =>
        obtain ⟨next, s₂, t₂, hs, ht, h₂⟩ := hb.addNextCluster h₁ ca
        simp only [hs, ht]
        cases next with
        | none => exact Ends.some (-1, e) h₂
        | some next =>
          simp only
          split
          · exact Ends.some (-1, e) h₂
          · exact ih h₂ next cache e

/-- The recursive call of `_entry_erase_rec` does the same in related states. -/
theorem eraseSlots {eraseRec : Nat → Bool → FS → Option (Int × FS)}
    (hrec : ∀ {s t}, R s t → ∀ ca file,
      Ends R Prod.mk (eraseRec ca file s) (eraseRec ca file t)) (es : List DirEntry) :
    ∀ {s t : FS}, R s t →
      Ends R (fun (_ : Unit) u => u) (eraseSlots m eraseRec es s) (eraseSlots m eraseRec es t) := by
  induction es with
  | nil =>
    intro s t h
    exact Ends.some () h
  | cons e es ih =>
    intro s t h
    rw [NiFat32.eraseSlots, NiFat32.eraseSlots]
    split
    · exact Ends.some () h
    split
    · rcases hrec h e.dca.toNat (!e.isDir) with ⟨hs, ht⟩ | ⟨result, s', t', hs, ht, h'⟩
      · rw [hs, ht]
        exact Ends.none
      simp only [hs, ht]
      split
      · exact ih (hb.error h' _)
      · exact ih h'
    · exact ih h

theorem eraseClusters {eraseRec : Nat → Bool → FS → Option (Int × FS)}
    (hrec : ∀ {s t}, R s t → ∀ ca file,
      Ends R Prod.mk (eraseRec ca file s) (eraseRec ca file t)) (fuel : Nat) :
    ∀ {s t : FS}, R s t → ∀ ca, Ends R (fun (_ : Unit) u => u)
      (eraseClusters m eraseRec fuel ca s) (eraseClusters m eraseRec fuel ca t) := by
  induction fuel with
  | zero =>
    intro s t _ ca
    exact Ends.none
  | succ fuel ih =>
    intro s t h ca
    obtain ⟨read, s₁, t₁, hs, ht, h₁⟩ := hb.readEncodedCluster h ca
    rw [NiFat32.eraseClusters, NiFat32.eraseClusters, hs, ht]
    cases read with
    | none => exact Ends.some () h₁
    | some bufs =>
      obtain ⟨nca, s₂, t₂, hs, ht, h₂⟩ := hb.readFat h₁ ca
      simp only [hs, ht]
      rcases hb.eraseSlots hrec (slotsOf (entriesPerCluster m) bufs.2) h₂ with
        ⟨hs, ht⟩ | ⟨_, s₃, t₃, hs, ht, h₃⟩
      · rw [hs, ht]
        exact Ends.none
      obtain ⟨ok, s₄, t₄, hs', ht', h₄⟩ := hb.deallocCluster h₃ ca
      have h₅ : R (if ok then s₄ else registerError m .clusterDeallocationError s₄)
          (if ok then t₄ else registerError m .clusterDeallocationError t₄) := by
        split
        · exact h₄
        · exact hb.error h₄ _
      simp only [hs, ht, hs', ht']
      split
      · exact ih h₅ nca
      · exact Ends.some () h₅

theorem entryEraseRec (fuel : Nat) : ∀ {s t : FS}, R s t → ∀ ca file,
    Ends R Prod.mk (entryEraseRec m fuel ca file s) (entryEraseRec m fuel ca file t) := by
  induction fuel with
  | zero =>
    intro s t _ ca file
    exact Ends.none
  | succ fuel ih =>
    intro s t h ca file
    cases file with
    | true =>
      refine (hb.deallocChain fuel h ca).map ?_
      intro ok s' t' h'
      exact ⟨if ok then 1 else 0, s', t', rfl, rfl, h'⟩
    | false =>
      refine (hb.eraseClusters ih fuel h ca).map ?_
      intro _ s' t' h'
      exact ⟨1, s', t', rfl, rfl, h'⟩

theorem removeHandler (fuel : Nat) (name : Name) (cache : Nat) :
    (removeHandler m fuel name cache).Respects R := by
  intro info e ji s t h
  rw [NiFat32.removeHandler, NiFat32.removeHandler]
  cases validateEntry e with
  | mk valid e =>
    simp only
    split
    · exact Ends.some (false, e, ji) h
    split
    · exact Ends.some (false, e, ji) h
    have hdone : ∀ {s₁ t₁ : FS} (ji' result : Int), R s₁ t₁ → Ends R
        (fun (r : Bool × DirEntry × Int) u => (r.1, r.2.1, r.2.2, u))
        (if result < 0 then
          some (true, e, ji', NiFat32.registerError m .clusterChainDeletionError s₁)
          else some (true, e.setFirst ENTRY_FREE, ji', s₁))
        (if result < 0 then
          some (true, e, ji', NiFat32.registerError m .clusterChainDeletionError t₁)
          else some (true, e.setFirst ENTRY_FREE, ji', t₁)) := by
      intro s₁ t₁ ji' result h₁
      split
      · exact Ends.some (true, e, ji') (hb.error h₁ _)
      · exact Ends.some (true, e.setFirst ENTRY_FREE, ji') h₁
    -- the journal record and the erase, after the index update
    have herase : ∀ {s₁ t₁ : FS}, R s₁ t₁ → ∃ ji' s₂ t₂,
        NiFat32.journalAddOperation m DEL_OP info.ca info.offset e s₁ = (ji', s₂) ∧
        NiFat32.journalAddOperation m DEL_OP info.ca info.offset e t₁ = (ji', t₂) ∧
        Ends R Prod.mk (NiFat32.entryEraseRec m fuel e.dca.toNat (!e.isDir) s₂)
          (NiFat32.entryEraseRec m fuel e.dca.toNat (!e.isDir) t₂) := by
      intro s₁ t₁ h₁
      obtain ⟨ji', s₂, t₂, hs, ht, h₂⟩ := hb.journalAdd h₁ DEL_OP info.ca info.offset e
      exact ⟨ji', s₂, t₂, hs, ht, hb.entryEraseRec fuel h₂ e.dca.toNat (!e.isDir)⟩
    rw [hb.heap h]
    by_cases h0 : cache = 0
    · obtain ⟨ji', s₂, t₂, hs, ht, hends⟩ := herase h
      simp only [if_pos h0, hs, ht]
      rcases hends with ⟨hs, ht⟩ | ⟨result, s₃, t₃, hs, ht, h₃⟩
      · rw [hs, ht]
        exact Ends.none
      · rw [hs, ht]
        exact hdone ji' result h₃
    · cases ecacheDelete fuel cache (hashName name) t.heap with
      | none =>
        simp only [if_neg h0, Option.map_none]
        exact Ends.none
      | some out =>
        obtain ⟨ji', s₂, t₂, hs, ht, hends⟩ := herase (hb.setHeap h out.2)
        simp only [if_neg h0, Option.map_some, hs, ht]
        rcases hends with ⟨hs, ht⟩ | ⟨result, s₃, t₃, hs, ht, h₃⟩
        · rw [hs, ht]
          exact Ends.none
        · rw [hs, ht]
          exact hdone ji' result h₃

theorem entryRemove (h : R s t) (fuel ca : Nat) (name : Name) (cache : Nat) :
    Ends R Prod.mk (entryRemove m fuel ca name cache s) (entryRemove m fuel ca name cache t) :=
  hb.solved (hb.entryIterate (hb.removeHandler fuel name cache) fuel h ca (-1))

/-! ### Chains of clusters -/

theorem readLoop (fuel : Nat) : ∀ {s t : FS}, R s t → ∀ ca offset size total buffer,
    Ends R (fun (r : Nat × List UInt8) u => (r.1, r.2, u))
      (readLoop m fuel ca offset size total buffer s)
      (readLoop m fuel ca offset size total buffer t) := by
  induction fuel with
  | zero =>
    intro s t _ ca offset size total buffer
    exact Ends.none
  | succ fuel ih =>
    intro s t h ca offset size total buffer
    simp only [NiFat32.readLoop, hb.readoffCluster h]
    generalize (if m.fi.clusterSize < offset then _ else _) = step
    cases step with
    | none => exact Ends.some (0, buffer) (hb.error h _)
    | some step =>
      obtain ⟨next, s', t', hs, ht, h'⟩ := hb.readFat h ca
      simp only [hs, ht]
      split
      · exact ih h' _ _ _ _ _
      · exact Ends.some (step.2.2.1, step.2.2.2) h'

theorem addClusterToChain (h : R s t) (hca : Nat) :
    Pairs R (addClusterToChain m hca s) (addClusterToChain m hca t) := by
  obtain ⟨nca, s₁, t₁, hs, ht, h₁⟩ := hb.allocNext h
  simp only [NiFat32.addClusterToChain, hs, ht]
  split
  · exact Pairs.mk _ (hb.error h₁ _)
  obtain ⟨ok, s₂, t₂, hs, ht, h₂⟩ := hb.setClusterEnd h₁ nca
  simp only [hs, ht]
  cases ok with
  | false => exact Pairs.mk _ (hb.deallocCluster (hb.error h₂ _) nca).snd
  | true =>
    obtain ⟨ok, s₃, t₃, hs, ht, h₃⟩ := hb.writeFat h₂ hca nca
    simp only [hs, ht]
    cases ok with
    | false => exact Pairs.mk _ (hb.deallocCluster (hb.error h₃ _) nca).snd
    | true => exact Pairs.mk _ h₃

theorem lastClusterLoop (n : Nat) : ∀ {s t : FS}, R s t → ∀ cluster lca,
    Pairs R (lastClusterLoop m n cluster lca s) (lastClusterLoop m n cluster lca t) := by
  induction n with
  | zero =>
    intro s t h cluster lca
    rw [NiFat32.lastClusterLoop, NiFat32.lastClusterLoop]
    split
    · exact Pairs.mk _ h
    · exact Pairs.mk _ h
  | succ n ih =>
    intro s t h cluster lca
    obtain ⟨next, s', t', hs, ht, h'⟩ := hb.readFat h cluster
    rw [NiFat32.lastClusterLoop, NiFat32.lastClusterLoop]
    split
    · exact Pairs.mk _ h
    · simp only [hs, ht]
      exact ih h' next cluster

theorem addClusterToContent {ci : Int}
    (hci : ∀ {s t}, R s t → getContentDataCa ci s = getContentDataCa ci t) (h : R s t)
    (lca : Nat) : Pairs R (addClusterToContent m ci lca s) (addClusterToContent m ci lca t) := by
  rw [NiFat32.addClusterToContent, NiFat32.addClusterToContent, hci h]
  split
  · obtain ⟨r, s', t', hs, ht, h'⟩ :=
      hb.lastClusterLoop m.fi.totalClusters h (getContentDataCa ci t) lca
    rw [hs, ht]
    match r with
    | none => exact Pairs.mk _ (hb.error h' _)
    | some (0, _) => exact Pairs.mk _ (hb.error h' _)
    | some (_ + 1, lca) => exact hb.addClusterToChain h' lca
  · exact hb.addClusterToChain h lca

theorem writeLoop (fuel : Nat) : ∀ {s t : FS}, R s t → ∀ ca offset data total,
    Ends R Prod.mk (writeLoop m fuel ca offset data total s)
      (writeLoop m fuel ca offset data total t) := by
  induction fuel with
  | zero =>
    intro s t _ ca offset data total
    exact Ends.none
  | succ fuel ih =>
    intro s t h ca offset data total
    generalize hn : min data.length (m.fi.clusterSize - offset) = writable
    simp only [NiFat32.writeLoop, hn]
    by_cases hskip : m.fi.clusterSize < offset
    · -- the cluster is passed
      simp only [if_pos hskip]
      obtain ⟨next, s₁, t₁, hs, ht, h₁⟩ := hb.readFat h ca
      simp only [hs, ht]
      split
      · exact ih h₁ _ _ _ _
      · exact Ends.some _ h₁
    -- the bytes of one cluster, then the link
    obtain ⟨ok, s₁, t₁, hs, ht, h₁⟩ := hb.writeoffCluster h ca offset (data.take writable)
    simp only [if_neg hskip, hs, ht]
    cases ok with
    | false => exact Ends.some _ (hb.error h₁ _)
    | true =>
      obtain ⟨next, s₂, t₂, hs, ht, h₂⟩ := hb.readFat h₁ ca
      simp only [hs, ht]
      split
      · exact ih h₂ _ _ _ _
      · exact Ends.some _ h₂

theorem appendLoop {ci : Int}
    (hci : ∀ {s t}, R s t → getContentDataCa ci s = getContentDataCa ci t) (fuel : Nat) :
    ∀ {s t : FS}, R s t → ∀ ca offset data total,
      Ends R Prod.mk (appendLoop m ci fuel ca offset data total s)
        (appendLoop m ci fuel ca offset data total t) := by
  induction fuel with
  | zero =>
    intro s t _ ca offset data total
    exact Ends.none
  | succ fuel ih =>
    intro s t h ca offset data total
    rw [NiFat32.appendLoop, NiFat32.appendLoop]
    split
    · exact Ends.some _ h
    obtain ⟨nca, s₁, t₁, hs, ht, h₁⟩ := hb.addClusterToContent hci h ca
    simp only [hs, ht]
    split
    · exact Ends.some _ h₁
    split
    · exact ih h₁ _ _ _ _
    · exact ih (hb.writeoffCluster h₁ nca offset _).snd _ _ _ _

theorem truncateLoop (fuel : Nat) : ∀ {s t : FS}, R s t → ∀ ca offset size startCa endCa,
    Ends R Prod.mk (truncateLoop m fuel ca offset size startCa endCa s)
      (truncateLoop m fuel ca offset size startCa endCa t) := by
  induction fuel with
  | zero =>
    intro s t _ ca offset size startCa endCa
    exact Ends.none
  | succ fuel ih =>
    intro s t h ca offset size startCa endCa
    -- the link of the cluster is followed after the cluster was given back, passed over or kept
    have hlink : ∀ {s t : FS}, R s t → ∀ offset size startCa endCa, Ends R Prod.mk
        (if (NiFat32.readFat m ca s).1 ≠ FAT_CLUSTER_END ∧
            (NiFat32.readFat m ca s).1 ≠ FAT_CLUSTER_BAD then
          NiFat32.truncateLoop m fuel (NiFat32.readFat m ca s).1 offset size startCa endCa
            (NiFat32.readFat m ca s).2
        else some (startCa, (NiFat32.readFat m ca s).2))
        (if (NiFat32.readFat m ca t).1 ≠ FAT_CLUSTER_END ∧
            (NiFat32.readFat m ca t).1 ≠ FAT_CLUSTER_BAD then
          NiFat32.truncateLoop m fuel (NiFat32.readFat m ca t).1 offset size startCa endCa
            (NiFat32.readFat m ca t).2
        else some (startCa, (NiFat32.readFat m ca t).2)) := by
      intro s t h offset size startCa endCa
      obtain ⟨next, s', t', hs, ht, h'⟩ := hb.readFat h ca
      simp only [hs, ht]
      split
      · exact ih h' next offset size startCa endCa
      · exact Ends.some _ h'
    have hfreed := (hb.deallocCluster h ca).snd
    rw [NiFat32.truncateLoop, NiFat32.truncateLoop]
    by_cases hpast : endCa ≠ FAT_CLUSTER_BAD
    · simp only [if_pos hpast]
      exact hlink hfreed offset size startCa endCa
    by_cases hbefore : m.fi.clusterSize < offset
    · simp only [if_neg hpast, if_pos hbefore]
      exact hlink hfreed (offset - m.fi.clusterSize) size startCa endCa
    generalize (if startCa = FAT_CLUSTER_BAD then ca else startCa) = start
    by_cases hlast : subSize size m.fi.clusterSize < 0
    · obtain ⟨ok, s', t', hs, ht, h'⟩ := hb.setClusterEnd h ca
      simp only [if_neg hpast, if_neg hbefore, if_pos hlast, hs, ht]
      cases ok with
      | true => exact hlink h' offset (subSize size m.fi.clusterSize) start ca
      | false => exact hlink h' offset (subSize size m.fi.clusterSize) start endCa
    · simp only [if_neg hpast, if_neg hbefore, if_neg hlast]
      exact hlink h offset (subSize size m.fi.clusterSize) start endCa

theorem reserveLoop (n : Nat) : ∀ {s t : FS}, R s t → ∀ lca,
    R (reserveLoop m n lca s) (reserveLoop m n lca t) := by
  induction n with
  | zero =>
    intro s t h lca
    exact h
  | succ n ih =>
    intro s t h lca
    obtain ⟨nca, s', t', hs, ht, h'⟩ := hb.addClusterToChain h lca
    simp only [NiFat32.reserveLoop, hs, ht]
    exact ih h' nca

theorem copyChain (fuel : Nat) : ∀ {s t : FS}, R s t → ∀ src dst,
    Ends R Prod.mk (copyChain m fuel src dst s) (copyChain m fuel src dst t) := by
  induction fuel with
  | zero =>
    intro s t _ src dst
    exact Ends.none
  | succ fuel ih =>
    intro s t h src dst
    obtain ⟨copied, s₁, t₁, hs, ht, h₁⟩ := hb.copyCluster h src dst m.fi.bytesPerSector
    simp only [NiFat32.copyChain, hs, ht]
    split
    · exact Ends.some _ (hb.error h₁ _)
    obtain ⟨next, s₂, t₂, hs, ht, h₂⟩ := hb.readFat h₁ src
    obtain ⟨nca, s₃, t₃, hs', ht', h₃⟩ := hb.addClusterToChain h₂ dst
    have hgrown : Pairs R
        (if next ≠ FAT_CLUSTER_END then NiFat32.addClusterToChain m dst s₂ else (dst, s₂))
        (if next ≠ FAT_CLUSTER_END then NiFat32.addClusterToChain m dst t₂ else (dst, t₂)) := by
      split
      · exact ⟨nca, s₃, t₃, hs', ht', h₃⟩
      · exact Pairs.mk _ h₂
    obtain ⟨dst', s₄, t₄, hs', ht', h₄⟩ := hgrown
    simp only [hs, ht, hs', ht']
    split
    · exact ih h₄ next dst'
    · exact Ends.some _ h₄

theorem abortCopy (h : R s t) (fuel hca : Nat) :
    Ends R (fun (_ : Unit) u => u) (abortCopy m fuel hca s) (abortCopy m fuel hca t) := by
  refine (hb.deallocChain fuel h hca).map ?_
  intro ok s' t' h'
  cases ok with
  | true => exact ⟨(), s', t', rfl, rfl, h'⟩
  | false => exact ⟨(), _, _, rfl, rfl, hb.error h' _⟩

theorem deepcopyHandler (fuel : Nat) : (deepcopyHandler m fuel).Respects R := by
  induction fuel with
  | zero =>
    intro info e ctx s t _
    exact Ends.none
  | succ fuel ih =>
    intro info e ctx s t h
    obtain ⟨hca, s₁, t₁, hs, ht, h₁⟩ := hb.allocNext h
    obtain ⟨ok, s₂, t₂, hs', ht', h₂⟩ := hb.setClusterEnd h₁ hca
    have hcopied : Ends R Prod.mk
        (if ok then NiFat32.copyChain m fuel e.dca.toNat hca s₂ else some (true, s₂))
        (if ok then NiFat32.copyChain m fuel e.dca.toNat hca t₂ else some (true, t₂)) := by
      split
      · exact hb.copyChain fuel h₂ e.dca.toNat hca
      · exact Ends.some true h₂
    simp only [NiFat32.deepcopyHandler, hs, ht, hs', ht']
    rcases hcopied with ⟨hs, ht⟩ | ⟨copied, s₃, t₃, hs, ht, h₃⟩
    · simp only [hs, ht]
      exact Ends.none
    simp only [hs, ht]
    cases copied with
    | false =>
      refine (hb.abortCopy h₃ fuel hca).map ?_
      intro _ s' t' h'
      exact ⟨(false, e, ()), s', t', rfl, rfl, h'⟩
    | true =>
      generalize DirEntry.mk e.fileName _ _ _ _ _ (murmur3 _ 0) = copy
      simp only
      split
      · refine (hb.entryIterate ih fuel h₃ hca ()).map ?_
        intro _ s' t' h'
        exact ⟨(false, copy, ()), s', t', rfl, rfl, h'⟩
      · exact Ends.some (false, copy, ()) h₃

theorem repairHandler (fuel : Nat) : (repairHandler m fuel).Respects R := by
  induction fuel with
  | zero =>
    intro info e ctx s t _
    exact Ends.none
  | succ fuel ih =>
    intro info e ctx s t h
    simp only [NiFat32.repairHandler]
    split
    · refine (hb.entryIterate ih fuel h e.dca.toNat ()).map ?_
      intro _ s' t' h'
      exact ⟨(false, e, ()), s', t', rfl, rfl, h'⟩
    · exact Ends.some (false, e, ()) h

/-! ### Paths -/

theorem createOnPath (h : R s t) (fuel : Nat) (name : Name) (isDir : Bool) (active cache : Nat) :
    Ends R Prod.mk (createOnPath m fuel name isDir active cache s)
      (createOnPath m fuel name isDir active cache t) := by
  obtain ⟨nca, s₁, t₁, hs, ht, h₁⟩ := hb.allocNext h
  obtain ⟨ok, s₂, t₂, hs', ht', h₂⟩ := hb.setClusterEnd h₁ nca
  simp only [NiFat32.createOnPath, hs, ht, hs', ht']
  cases ok with
  | false => exact Ends.some _ (hb.error h₂ _)
  | true =>
    simp only
    rcases hb.entryAdd fuel h₂ active cache (createEntry name isDir nca m.fi.clusterSize) with
      ⟨hs, ht⟩ | ⟨⟨result, e⟩, s₃, t₃, hs, ht, h₃⟩
    · rw [hs, ht]
      exact Ends.none
    simp only [hs, ht]
    split
    · exact Ends.some _ (hb.error (hb.deallocCluster h₃ _).snd _)
    · exact Ends.some _ h₃

theorem pathStep {currCi : Int}
    (hcache : ∀ {s t}, R s t → getContentEcache currCi s = getContentEcache currCi t) (h : R s t)
    (fuel : Nat) (mode : UInt8) (component : List UInt8) (more : Bool) (active : Nat) :
    Ends R Prod.mk (pathStep m fuel mode component more currCi active s)
      (pathStep m fuel mode component more currCi active t) := by
  rw [NiFat32.pathStep, NiFat32.pathStep, hcache h]
  split
  · exact Ends.some _ h
  simp only
  generalize getContentEcache currCi t = cache
  rcases hb.entrySearch h fuel (nameToFatname component) active cache with
    ⟨hs, ht⟩ | ⟨found, s', t', hs, ht, h'⟩
  · rw [hs, ht]
    exact Ends.none
  rw [hs, ht]
  cases found with
  | some e => exact Ends.some _ h'
  | none =>
    simp only
    split
    · exact hb.createOnPath h' fuel _ _ active cache
    · exact Ends.some _ h'

theorem pathLoop (fuel : Nat) (mode : UInt8) (comps : List (List UInt8)) : ∀ {currCi : Int},
    (∀ {s t}, R s t → getContentEcache currCi s = getContentEcache currCi t) →
    ∀ {s t : FS}, R s t → ∀ active,
      Ends R Prod.mk (pathLoop m fuel mode comps currCi active s)
        (pathLoop m fuel mode comps currCi active t) := by
  induction comps with
  | nil =>
    intro currCi _ s t h active
    exact Ends.some _ h
  | cons comp comps ih =>
    intro currCi hcache s t h active
    rw [NiFat32.pathLoop, NiFat32.pathLoop]
    rcases hb.pathStep hcache h fuel mode comp (comps ≠ []) active with
      ⟨hs, ht⟩ | ⟨found, s', t', hs, ht, h'⟩
    · rw [hs, ht]
      exact Ends.none
    rw [hs, ht]
    cases found with
    | none => exact Ends.some _ h'
    | some e =>
      simp only
      split
      · exact Ends.some _ h'
      · -- the components behind the first are looked up without an index
        exact ih (fun _ => rfl) h' _

end Bisim

end NiFat32
