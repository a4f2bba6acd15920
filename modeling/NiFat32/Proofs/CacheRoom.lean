import NiFat32.Proofs.Requests

/-!
# `Proofs.CacheRoom`: the blocks of the two caches

An index into a cache is inside the block that was allocated for it when the memory behind the block
neither decides what an operation does nor is changed by it. `WithinCaches` says that for every
contents of this memory. Where the blocks have an element for each cluster, every request stays
inside: `read_fat` and `write_fat` check their cluster, and `fatmap_find_free` ends at the last one.
-/

set_option autoImplicit false

namespace NiFat32

open Relational

variable {m : Mount} {s t : FS} {fatRoom mapRoom : Nat} {g : Nat → Nat} {b : Nat → Bool}

/-- The state with `g` and `b` in the memory behind the two blocks. -/
def FS.behind (fatRoom mapRoom : Nat) (g : Nat → Nat) (b : Nat → Bool) (s : FS) : FS :=
  { s with
    fat := s.fat.map fun f k => if k < fatRoom then f k else g k
    bitmap := s.bitmap.map fun f k => if k / BITS_PER_WORD < mapRoom then f k else b k }

/-- Every index of the operation into the two blocks lies inside them: what is behind the blocks
decides nothing, and stays as it is. -/
def WithinCaches {ρ : Type} (fatRoom mapRoom : Nat) (f : FS → Option (ρ × FS)) (s : FS) : Prop :=
  ∀ g b, f (s.behind fatRoom mapRoom g b)
    = (f s).map fun r => (r.1, r.2.behind fatRoom mapRoom g b)

/-- A block that is there has an element for each cluster. -/
structure Roomy (m : Mount) (fatRoom mapRoom : Nat) (s : FS) : Prop where
  fat : s.fat.isSome → m.fi.totalClusters ≤ fatRoom
  map : s.bitmap.isSome → m.fi.totalClusters ≤ BITS_PER_WORD * mapRoom

/-- The second state has other memory behind the blocks. -/
def Behind (m : Mount) (fatRoom mapRoom : Nat) (g : Nat → Nat) (b : Nat → Bool) (s t : FS) : Prop :=
  t = s.behind fatRoom mapRoom g b ∧ Roomy m fatRoom mapRoom s

/-! ### The memory behind the blocks -/

section Behind

theorem Roomy.of_some {s' : FS} (h : Roomy m fatRoom mapRoom s)
    (hfat : s'.fat.isSome = s.fat.isSome) (hmap : s'.bitmap.isSome = s.bitmap.isSome) :
    Roomy m fatRoom mapRoom s' where
  fat hsome := h.fat (hfat ▸ hsome)
  map hsome := h.map (hmap ▸ hsome)

/-- The logs do not touch the caches. -/
theorem behind_logs : LogBisim m (Behind m fatRoom mapRoom g b) where
  medium := by
    rintro s _ ⟨rfl, -⟩
    rfl
  setMedium := by
    rintro s _ ⟨rfl, h⟩ d
    exact ⟨rfl, h.of_some rfl rfl⟩
  errors := by
    rintro s _ ⟨rfl, -⟩
    exact Or.inl rfl
  setErrors := by
    rintro s _ ⟨rfl, h⟩ r
    exact ⟨rfl, h.of_some rfl rfl⟩
  journalIndex := by
    rintro s _ ⟨rfl, -⟩
    exact Or.inr rfl
  setJournalIndex := by
    rintro s _ ⟨rfl, h⟩ i
    exact ⟨rfl, h.of_some rfl rfl⟩
  setAdded := by
    rintro s _ ⟨rfl, h⟩ n
    exact ⟨rfl, h.of_some rfl rfl⟩
  setSolving := by
    rintro s _ ⟨rfl, h⟩ n
    exact ⟨rfl, h.of_some rfl rfl⟩

variable {ca : Nat}

theorem cachedFat_behind (hca : s.fat.isSome → ca < fatRoom) :
    cachedFat ca (s.behind fatRoom mapRoom g b) = cachedFat ca s := by
  rw [cachedFat, cachedFat, FS.behind]
  cases hfat : s.fat with
  | none => rfl
  | some f =>
    have hin : ca < fatRoom := hca (hfat ▸ rfl)
    simp only [Option.map_some, Option.bind_some, if_pos hin]

/-- An update of an element inside the block. -/
theorem cacheFat_behind (hca : s.fat.isSome → ca < fatRoom) (x : Nat) :
    (s.behind fatRoom mapRoom g b).cacheFat ca x
    = (s.cacheFat ca x).behind fatRoom mapRoom g b := by
  simp only [FS.cacheFat, FS.behind, FS.mk.injEq, true_and, and_true]
  cases hfat : s.fat with
  | none => rfl
  | some f =>
    have hin : ca < fatRoom := hca (hfat ▸ rfl)
    apply congrArg some
    funext k
    by_cases hk : k = ca
    · simp only [hk, if_true, if_pos hin]
    · simp only [if_neg hk]

/-- An update of a bit of a word inside the block. -/
theorem mapBit_behind (hca : s.bitmap.isSome → ca / BITS_PER_WORD < mapRoom) (x : Bool) :
    ({ s.behind fatRoom mapRoom g b with
      bitmap := (s.behind fatRoom mapRoom g b).bitmap.map fun f k =>
        if k = ca then x else f k } : FS)
      = FS.behind fatRoom mapRoom g b
          { s with bitmap := s.bitmap.map fun f k => if k = ca then x else f k } := by
  simp only [FS.behind, FS.mk.injEq, true_and, and_true]
  cases hmap : s.bitmap with
  | none => rfl
  | some f =>
    have hin : ca / BITS_PER_WORD < mapRoom := hca (hmap ▸ rfl)
    apply congrArg some
    funext k
    by_cases hk : k = ca
    · simp only [hk, if_true, if_pos hin]
    · simp only [if_neg hk]

/-! The search of the bitmap reads the bits of clusters only. -/

theorem fatmapRun_congr {f f' : Nat → Bool} {i limit : Nat} (hsame : ∀ k < limit, f k = f' k) :
    ∀ left j, i + j + left ≤ limit → fatmapRun f i left j = fatmapRun f' i left j := by
  intro left
  induction left with
  | zero =>
    intro j _
    rfl
  | succ left ih =>
    intro j hj
    rw [fatmapRun, fatmapRun, hsame (i + j) (by omega), ih (j + 1) (by omega)]

theorem fatmapScan_congr {f f' : Nat → Bool} {size limit n : Nat} (hn : limit + size ≤ n)
    (hsame : ∀ k < n, f k = f' k) :
    ∀ passes i, fatmapScan f size limit passes i = fatmapScan f' size limit passes i := by
  intro passes
  induction passes with
  | zero =>
    intro i
    rfl
  | succ passes ih =>
    intro i
    rw [fatmapScan, fatmapScan]
    by_cases hend : limit < i
    · rw [if_pos hend, if_pos hend]
    · rw [if_neg hend, if_neg hend, fatmapRun_congr hsame size 0 (by omega)]
      cases fatmapRun f' i size 0 with
      | none => rfl
      | some bit => exact ih (bit + 1)

theorem fatmapFindFree_behind
    (hroom : s.bitmap.isSome → m.fi.totalClusters ≤ BITS_PER_WORD * mapRoom) (offset size : Nat) :
    fatmapFindFree m offset size s
      = fatmapFindFree m offset size (s.behind fatRoom mapRoom g b) := by
  rw [fatmapFindFree, fatmapFindFree, FS.behind]
  cases hmap : s.bitmap with
  | none => rfl
  | some f =>
    have hroom' := hroom (hmap ▸ rfl)
    simp only [Option.map_some]
    by_cases hout : size = 0 ∨ m.fi.totalClusters ≤ offset ∨ m.fi.totalClusters - offset < size
    · rw [if_pos hout, if_pos hout]
    · rw [if_neg hout, if_neg hout]
      have hlast : m.fi.totalClusters - size + size ≤ m.fi.totalClusters := by omega
      refine fatmapScan_congr hlast ?_ _ offset
      intro k hk
      exact (if_pos (Nat.div_lt_of_lt_mul (Nat.lt_of_lt_of_le hk hroom'))).symm

theorem behind_bisim : Bisim m (Behind m fatRoom mapRoom g b) where
  medium := behind_logs.medium
  setMedium := behind_logs.setMedium
  error h c := behind_logs.error h c
  cached := by
    rintro s _ ⟨rfl, h⟩ ca hca
    exact (cachedFat_behind fun hsome => Nat.lt_of_lt_of_le hca (h.fat hsome)).symm
  cache := by
    rintro s _ ⟨rfl, h⟩ ca hca x
    refine ⟨cacheFat_behind (fun hsome => Nat.lt_of_lt_of_le hca (h.fat hsome)) x, ?_⟩
    exact h.of_some Option.isSome_map rfl
  mapSet := by
    rintro s _ ⟨rfl, h⟩ ca hca
    refine ⟨mapBit_behind (fun hsome => ?_) false, h.of_some rfl Option.isSome_map⟩
    exact Nat.div_lt_of_lt_mul (Nat.lt_of_lt_of_le hca (h.map hsome))
  mapUnset := by
    rintro s _ ⟨rfl, h⟩ ca hca
    refine ⟨mapBit_behind (fun hsome => ?_) true, h.of_some rfl Option.isSome_map⟩
    exact Nat.div_lt_of_lt_mul (Nat.lt_of_lt_of_le hca (h.map hsome))
  findFree := by
    rintro s _ ⟨rfl, h⟩ offset size
    exact fatmapFindFree_behind h.map offset size
  lastAllocated := by
    rintro s _ ⟨rfl, -⟩
    rfl
  offset := by
    rintro s _ ⟨rfl, h⟩
    rw [getClusterOffset, getClusterOffset]
    split
    · exact Pairs.mk _ ⟨rfl, h⟩
    · exact Pairs.mk _ ⟨rfl, h.of_some rfl rfl⟩
  moved := by
    rintro s _ u _ ⟨rfl, h⟩ - x
    rw [moveOffset, moveOffset]
    split
    · exact ⟨rfl, h.of_some rfl rfl⟩
    · exact ⟨rfl, h⟩
  allocated := by
    rintro s _ ⟨rfl, h⟩ ca
    exact ⟨rfl, h.of_some rfl rfl⟩
  heap := by
    rintro s _ ⟨rfl, -⟩
    rfl
  mallocs := by
    rintro s _ ⟨rfl, -⟩
    rfl
  setHeap := by
    rintro s _ ⟨rfl, h⟩ heap
    exact ⟨rfl, h.of_some rfl rfl⟩
  malloced := by
    rintro s _ ⟨rfl, h⟩
    exact ⟨rfl, h.of_some rfl rfl⟩
  journalAdd := behind_logs.journalAdd
  journalSolve := behind_logs.journalSolve

theorem behind_table : TableBisim m (Behind m fatRoom mapRoom g b) fun _ c c' => c = c' where
  bisim := behind_bisim
  table := by
    rintro s _ ⟨rfl, -⟩ i
    rfl
  setContent := by
    rintro s _ ⟨rfl, h⟩ i c _ rfl
    exact ⟨rfl, h.of_some rfl rfl⟩
  contentType h := congrArg _ h
  indexRoot h := congrArg _ h
  emptied h := congrArg _ h
  taken h := congrArg _ h
  filled := by
    rintro i c _ rfl isDir name e mode
    rfl
  moved := by
    rintro i c _ rfl ca
    rfl

end Behind

/-! ### Every request stays inside -/

/-- What a relation with the memory behind the blocks says of one operation. -/
theorem WithinCaches.of_ends {ρ : Type} {f : FS → Option (ρ × FS)}
    (h : ∀ g b, Ends (Behind m fatRoom mapRoom g b) Prod.mk (f s)
      (f (s.behind fatRoom mapRoom g b))) : WithinCaches fatRoom mapRoom f s := by
  intro g b
  rcases h g b with ⟨hs, ht⟩ | ⟨a, s', _, hs, ht, rfl, -⟩
  · rw [hs, ht]
    rfl
  · rw [hs, ht]
    rfl

theorem serve_inside (h : Roomy m fatRoom mapRoom s) (q : Request) (fuel : Nat) :
    WithinCaches fatRoom mapRoom (serve m q fuel) s := by
  apply WithinCaches.of_ends (m := m)
  intro g b
  apply behind_table.serve behind_logs _ _ ⟨rfl, h⟩
  · -- the tables are equal
    intro c _
    exact c.readsSame_of_table rfl
  · rintro i c _ rfl root
    rfl
  · rintro s _ ⟨rfl, -⟩ i info
    rfl

theorem fatCacheHload_inside (h : Roomy m fatRoom mapRoom s) :
    WithinCaches fatRoom mapRoom (fun s => some (fatCacheHload m s)) s := by
  apply WithinCaches.of_ends (m := m)
  intro g b
  have hfat : s.fat.isNone = (s.behind fatRoom mapRoom g b).fat.isNone :=
    (Option.isNone_map).symm
  obtain ⟨ok, s', t', hs, ht, h'⟩ := behind_bisim.fatCacheHload ⟨rfl, h⟩ hfat
  rw [hs, ht]
  exact Ends.some ok h'

end NiFat32
