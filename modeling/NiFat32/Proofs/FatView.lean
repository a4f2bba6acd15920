import NiFat32.Proofs.FatCache
import NiFat32.Proofs.Parametric

/-!
# `Proofs.FatView`: the FAT as `read_fat` sees it

The copies of an entry may disagree, and the cache may hold another value than the vote. `viewFat`
is what `read_fat` returns in such a state: the value of the cache where there is one, and the vote
otherwise. `Views` says that the view is an array, whatever the copies, the cache and the bitmap
hold. A read does not change the array, and a write updates it.

`NotedFat` is about the statics alone, so it holds for every device: a read that is not cached and
a write note their value in the cache and in the bitmap, and touch no other static variable.
-/

set_option autoImplicit false

namespace NiFat32

variable {m : Mount} {s s' : FS} {ca k x : Nat} {f : Nat → Nat}

/-! ### The statics -/

/-- The caches note the value `x` of `ca`, and the other statics stay. -/
structure NotedFat (ca x : Nat) (s s' : FS) : Prop where
  fat : s'.fat = s.fat.map fun f k => if k = ca then x else f k
  bitmap : s'.bitmap = s.bitmap.map fun b k => if k = ca then decide (x ≠ FAT_CLUSTER_FREE) else b k
  lastAllocated : s'.lastAllocatedCluster = s.lastAllocatedCluster
  contents : s'.contents = s.contents
  heap : s'.heap = s.heap
  mallocs : s'.mallocs = s.mallocs
  allocs : s'.allocs = s.allocs

theorem noteFat_noted (ca x : Nat) (s : FS) : NotedFat ca x s (noteFat ca x s) := by
  rw [noteFat]
  by_cases hx : x = FAT_CLUSTER_FREE
  · simp only [if_pos hx]
    refine ⟨rfl, ?_, rfl, rfl, rfl, rfl, rfl⟩
    simp [fatmapSet, hx]
  · simp only [if_neg hx]
    refine ⟨rfl, ?_, rfl, rfl, rfl, rfl, rfl⟩
    simp [fatmapUnset, hx]

theorem NotedFat.statics {s'' : FS} (h : NotedFat ca x s s') (h' : SameStatics s' s'') :
    NotedFat ca x s s'' where
  fat := h'.fat.trans h.fat
  bitmap := h'.bitmap.trans h.bitmap
  lastAllocated := h'.lastAllocated.trans h.lastAllocated
  contents := h'.contents.trans h.contents
  heap := h'.heap.trans h.heap
  mallocs := h'.mallocs.trans h.mallocs
  allocs := h'.allocs.trans h.allocs

theorem NotedFat.of_statics {s'' : FS} (h : SameStatics s s') (h' : NotedFat ca x s' s'') :
    NotedFat ca x s s'' where
  fat := h'.fat.trans (congrArg _ h.fat)
  bitmap := h'.bitmap.trans (congrArg _ h.bitmap)
  lastAllocated := h'.lastAllocated.trans h.lastAllocated
  contents := h'.contents.trans h.contents
  heap := h'.heap.trans h.heap
  mallocs := h'.mallocs.trans h.mallocs
  allocs := h'.allocs.trans h.allocs

/-- A value that is noted twice. -/
theorem NotedFat.again {s'' : FS} (h : NotedFat ca x s s') (h' : NotedFat ca x s' s'') :
    NotedFat ca x s s'' where
  fat := by
    rw [h'.fat, h.fat, Option.map_map]
    apply congrFun (congrArg Option.map _)
    funext f k
    simp only [Function.comp]
    split <;> rfl
  bitmap := by
    rw [h'.bitmap, h.bitmap, Option.map_map]
    apply congrFun (congrArg Option.map _)
    funext b k
    simp only [Function.comp]
    split <;> rfl
  lastAllocated := h'.lastAllocated.trans h.lastAllocated
  contents := h'.contents.trans h.contents
  heap := h'.heap.trans h.heap
  mallocs := h'.mallocs.trans h.mallocs
  allocs := h'.allocs.trans h.allocs

theorem writeFatCopy_statics (m : Mount) (ca x i : Nat) (s : FS) :
    SameStatics s (writeFatCopy m ca x i s).2 := by
  rw [writeFatCopy]
  simp only
  cases dskWriteoffSectors m s.medium (fatEntryPos m ca i).1 (fatEntryPos m ca i).2
    (packMemory (bytesOfU32 (UInt32.ofNat x))) 1 with
  | mk ok d =>
    cases ok with
    | false =>
      refine SameStatics.trans ?_ (registerError_statics m _ _)
      exact ⟨rfl, rfl, rfl, rfl, rfl, rfl, rfl⟩
    | true => exact ⟨rfl, rfl, rfl, rfl, rfl, rfl, rfl⟩

theorem voteFat_statics (m : Mount) (ca : Nat) (s : FS) : SameStatics s (voteFat m ca s).2 := by
  have hcopy : ∀ i (u : FS), SameStatics u (readFatCopy m ca i u).2 := by
    intro i u
    rw [readFatCopy]
    simp only
    split
    · exact registerError_statics m _ u
    · exact SameStatics.refl u
  rw [voteFat]
  refine SameStatics.foldl (fun b : Vote.Ballot Nat × FS => b.2) ?_ (List.range m.fi.fatCount)
    (Vote.start FAT_CLUSTER_BAD, s)
  intro b i
  exact hcopy i b.2

theorem writeFatLocked_noted (m : Mount) (ca x : Nat) (s : FS) :
    NotedFat ca x s (writeFatLocked m ca x s).2 := by
  refine (noteFat_noted ca x s).statics ?_
  rw [writeFatLocked]
  refine SameStatics.foldl (fun b : Bool × FS => b.2) ?_ (List.range m.fi.fatCount)
    (true, noteFat ca x s)
  intro b i
  exact writeFatCopy_statics m ca x i b.2

theorem writeFat_noted (hca : InVol m ca) (x : Nat) (s : FS) :
    NotedFat ca x s (writeFat m ca x s).2 := by
  rw [writeFat, if_neg (not_inVol_iff.not.mpr (not_not.mpr hca))]
  exact writeFatLocked_noted m ca x s

theorem writeFat_refused (hca : ¬ InVol m ca) (x : Nat) (s : FS) :
    writeFat m ca x s = (false, registerError m .writeFatError s) := by
  rw [writeFat, if_pos (not_inVol_iff.mpr hca)]

theorem readFat_refused (hca : ¬ InVol m ca) (s : FS) :
    readFat m ca s = (FAT_CLUSTER_BAD, registerError m .readFatError s) := by
  rw [readFat, if_pos (not_inVol_iff.mpr hca)]

theorem readFat_cached (hca : InVol m ca) (hcache : cachedFat ca s = some x) :
    readFat m ca s = (x, s) := by
  rw [readFat, if_neg (not_inVol_iff.not.mpr (not_not.mpr hca)), hcache]

/-- A read that is not cached notes what it returns. -/
theorem readFat_noted (hca : InVol m ca) (hcache : cachedFat ca s = none) :
    NotedFat ca (readFat m ca s).1 s (readFat m ca s).2 := by
  have hvote := voteFat_statics m ca s
  rw [readFat, if_neg (not_inVol_iff.not.mpr (not_not.mpr hca)), hcache]
  simp only
  have hnote :=
      NotedFat.of_statics hvote (noteFat_noted ca (voteFat m ca s).1.val (voteFat m ca s).2)
  split
  · exact hnote.again (writeFatLocked_noted m ca _ _)
  · exact hnote

/-! ### The view -/

/-- What `read_fat` returns for a cluster of the volume. -/
def viewFat (m : Mount) (s : FS) (ca : Nat) : Nat :=
  (cachedFat ca s).getD (votedFat m s.medium ca)

/-- The view of the FAT is the array. -/
def Views (m : Mount) (s : FS) (f : Nat → Nat) : Prop := ∀ ca, InVol m ca → viewFat m s ca = f ca

theorem cachedFat_noted (h : NotedFat ca x s s') :
    cachedFat k s' = if k = ca then
        (s.fat.bind fun _ => if x = FAT_CLUSTER_BAD then none else some x)
      else cachedFat k s := by
  rw [cachedFat, cachedFat, h.fat]
  cases s.fat with
  | none => simp
  | some f =>
    simp only [Option.map_some, Option.bind_some]
    split <;> rfl

theorem cachedFat_statics (h : SameStatics s s') : cachedFat k s' = cachedFat k s := by
  rw [cachedFat, cachedFat, h.fat]

/-- A read keeps what the cache holds of the other clusters. -/
theorem cachedFat_readFat_ne (hne : k ≠ ca) :
    cachedFat k (readFat m ca s).2 = cachedFat k s := by
  by_cases hca : InVol m ca
  · cases hcache : cachedFat ca s with
    | some x => rw [readFat_cached hca hcache]
    | none => rw [cachedFat_noted (readFat_noted hca hcache), if_neg hne]
  · rw [readFat_refused hca]
    exact cachedFat_statics (registerError_statics m _ s)

/-- What a written value reads back as: the cache keeps it, and an entry keeps its low 28 bits. -/
def keptFat (s : FS) (x : Nat) : Nat :=
  if s.fat.isSome ∧ x ≠ FAT_CLUSTER_BAD then x else x % 2 ^ 28

theorem keptFat_of_lt (s : FS) (hx : x < 2 ^ 28) : keptFat s x = x := by
  rw [keptFat, Nat.mod_eq_of_lt hx]
  split <;> rfl

/-- A write is what is read afterwards. -/
theorem Views.write (h : Views m s f) (harea : FatArea m) (hin : EntriesInside m)
    (hca : InVol m ca) (x : Nat) :
    Views m (writeFatLocked m ca x s).2 (Function.update f ca (keptFat s x)) := by
  obtain ⟨hself, hother⟩ := harea.voted_write hin hca x s
  have hcached := fun k => cachedFat_noted (k := k) (writeFatLocked_noted m ca x s)
  intro k hk
  rw [viewFat, hcached]
  by_cases hne : k = ca
  · rw [hne, Function.update_self, if_pos rfl, hself, keptFat]
    cases s.fat with
    | none => rfl
    | some g =>
      simp only [Option.bind_some]
      by_cases hx : x = FAT_CLUSTER_BAD <;> simp [hx]
  · rw [Function.update_of_ne hne, if_neg hne, hother k hk hne]
    exact h k hk

theorem Views.registerError (h : Views m s f) (harea : FatArea m) (code : ErrorCode) :
    Views m (registerError m code s) f := by
  intro k hk
  rw [viewFat, cachedFat_statics (registerError_statics m code s),
    harea.voted_registerError hk code s]
  exact h k hk

/-- The caches do not matter beyond what they hold of the FAT. -/
theorem Views.congr (h : Views m s f) (hfat : s'.fat = s.fat) (hmedium : s'.medium = s.medium) :
    Views m s' f := by
  intro k hk
  rw [viewFat, cachedFat, hfat, hmedium]
  exact h k hk

/-- Every state has a view. -/
theorem views_self (m : Mount) (s : FS) : Views m s (viewFat m s) := fun _ _ => rfl

/-- A read returns the view and does not change it. -/
theorem Views.read (h : Views m s f) (harea : FatArea m) (hin : EntriesInside m) (ca : Nat) :
    (readFat m ca s).1 = (if InVol m ca then f ca else FAT_CLUSTER_BAD) ∧
      Views m (readFat m ca s).2 f := by
  by_cases hca : InVol m ca
  · rw [if_pos hca]
    cases hcache : cachedFat ca s with
    | some x =>
      have hf := h ca hca
      rw [viewFat, hcache] at hf
      rw [readFat_cached hca hcache]
      exact ⟨hf, h⟩
    | none =>
      have hf := h ca hca
      rw [viewFat, hcache] at hf
      -- the vote is noted, and then written back where it was close
      have hval : (fatBallot m s.medium ca).val = f ca := hf
      have hlt : f ca < 2 ^ 28 := by
        rw [← hval]
        exact votedFat_lt m s.medium ca
      have hnote : Views m (noteFat ca (f ca) s) f := by
        intro k hk
        rw [viewFat, cachedFat_noted (noteFat_noted ca (f ca) s), noteFat_medium]
        by_cases hne : k = ca
        · rw [hne, if_pos rfl]
          have hvoted : votedFat m s.medium ca = f ca := hval
          rw [hvoted]
          cases s.fat with
          | none => rfl
          | some g =>
            simp only [Option.bind_some]
            split <;> rfl
        · rw [if_neg hne]
          exact h k hk
      rw [readFat, if_neg (not_inVol_iff.not.mpr (not_not.mpr hca)), hcache]
      simp only [voteFat_works harea.works, hval]
      split
      · have hrepair := hnote.write harea hin hca (f ca)
        rw [keptFat_of_lt _ hlt, Function.update_eq_self] at hrepair
        exact ⟨rfl, hrepair⟩
      · exact ⟨rfl, hnote⟩
  · rw [readFat_refused hca, if_neg hca]
    exact ⟨rfl, h.registerError harea .readFatError⟩

/-- A write to a cluster of the volume succeeds. -/
theorem Views.writeFat (h : Views m s f) (harea : FatArea m) (hin : EntriesInside m)
    (hca : InVol m ca) (x : Nat) : (writeFat m ca x s).1 = true ∧
      Views m (writeFat m ca x s).2 (Function.update f ca (keptFat s x)) := by
  rw [NiFat32.writeFat, if_neg (not_inVol_iff.not.mpr (not_not.mpr hca))]
  refine ⟨?_, h.write harea hin hca x⟩
  obtain ⟨d, he, -⟩ := writeFatLocked_works harea.works ca x s
  rw [he]

/-- In every state `read_fat` returns the view. -/
theorem readFat_view (harea : FatArea m) (hin : EntriesInside m) (hca : InVol m ca) (s : FS) :
    (readFat m ca s).1 = viewFat m s ca := by
  have hread := ((views_self m s).read harea hin ca).1
  rw [if_pos hca] at hread
  exact hread

/-! ### The FAT as an array -/

/-- `R s f` says that in the state `s` the FAT is the array `f`: a read returns the value of the
array, and a write of a value that fits into an entry updates it. -/
structure ArrayModel (m : Mount) (R : FS → (Nat → Nat) → Prop) : Prop where
  read : ∀ {s f}, R s f → ∀ ca,
    (readFat m ca s).1 = (if InVol m ca then f ca else FAT_CLUSTER_BAD) ∧
    R (readFat m ca s).2 f
  write : ∀ {s f ca x}, R s f → InVol m ca → x < 2 ^ 28 →
    (writeFat m ca x s).1 = true ∧ R (writeFat m ca x s).2 (Function.update f ca x)
  error : ∀ {s f}, R s f → ∀ code, R (registerError m code s) f
  offset : ∀ {s f}, R s f → ∀ x, R { s with lastAllocatedCluster := x } f
  allocs : ∀ {s f}, R s f → ∀ cs, R { s with allocs := cs } f

theorem views_arrayModel (harea : FatArea m) (hin : EntriesInside m) :
    ArrayModel m (Views m) where
  read := fun h ca => h.read harea hin ca
  write := by
    intro s f ca x h hca hx
    have hwrite := h.writeFat harea hin hca x
    rw [keptFat_of_lt s hx] at hwrite
    exact hwrite
  error := fun h code => h.registerError harea code
  offset := fun h _ => h.congr rfl rfl
  allocs := fun h _ => h.congr rfl rfl

/-! ### The values that `read_fat` returns -/

/-- What `read_fat` returns for a cluster. -/
def fatValue (m : Mount) (s : FS) (ca : Nat) : Nat := (readFat m ca s).1

theorem fatValue_outside (hca : ¬ InVol m ca) (s : FS) : fatValue m s ca = FAT_CLUSTER_BAD := by
  rw [fatValue, readFat_refused hca]

theorem views_fatValue (harea : FatArea m) (hin : EntriesInside m) (s : FS) :
    Views m s (fatValue m s) := by
  intro k hk
  exact (readFat_view harea hin hk s).symm

/-- The view is what a read returns. -/
theorem Views.fatValue_eq (h : Views m s f) (harea : FatArea m) (hin : EntriesInside m)
    (hout : ∀ k, ¬ InVol m k → f k = FAT_CLUSTER_BAD) : fatValue m s = f := by
  funext k
  rw [fatValue, (h.read harea hin k).1]
  by_cases hk : InVol m k
  · rw [if_pos hk]
  · rw [if_neg hk, hout k hk]

/-- The values behind a write of one entry. -/
theorem Views.fatValue_update (harea : FatArea m) (hin : EntriesInside m) (hca : InVol m ca)
    (h : Views m s' (Function.update (fatValue m s) ca x)) :
    fatValue m s' = Function.update (fatValue m s) ca x := by
  apply h.fatValue_eq harea hin
  intro k hk
  have hne : k ≠ ca := fun heq => hk (heq ▸ hca)
  rw [Function.update_of_ne hne]
  exact fatValue_outside hk s

/-- The values behind a step that changes none. -/
theorem Views.fatValue_same (harea : FatArea m) (hin : EntriesInside m)
    (h : Views m s' (fatValue m s)) : fatValue m s' = fatValue m s :=
  h.fatValue_eq harea hin fun _ hk => fatValue_outside hk s

end NiFat32
