import NiFat32.Proofs.Touched

/-!
# `Proofs.ScanEnds`: when a scan of a directory ends

The handlers of search, edit and remove pass over the slots until they meet their entry, where they
end the walk. `ScanRuns` is such a walk on the volume alone. It has a derivation exactly when the
walk ends inside the volume (`ScanRuns.stays`, `scanRuns_of_stays`), whatever the FAT and the slots
hold: a circle of links and a link out of the volume have none.

The index handler meets no entry of its own. Its walk ends where, besides, the insertions into the
index return (`ScanRuns.index_stays`, `scanRuns_of_index`).
-/

set_option autoImplicit false

namespace NiFat32

variable {m : Mount} {s : FS} {v : Vol} {ca : Nat} {σ : Type} {handler : Handler σ}
  {inner : Touches σ} {ctx : σ} {p : DirEntry → Bool} {es : List DirEntry}
  {r : Option (Vol × DirEntry)}

/-- A walk from a cluster up to the first slot that ends a scan with `p`: the entries of the
clusters it goes through, and, where it meets such a slot, the volume at that moment and the entry
there. -/
inductive ScanRuns (m : Mount) (p : DirEntry → Bool) :
    Vol → Nat → List DirEntry → Option (Vol × DirEntry) → Prop
  | bad {v : Vol} : ScanRuns m p v FAT_CLUSTER_BAD [] none
  | hit {v : Vol} {c : Nat} {e : DirEntry} (hc : InVol m c)
      (h : scanHit p (v.slots m c) = some e) : ScanRuns m p v c [] (some (v, e))
  | last {v : Vol} {c : Nat} (hc : InVol m c) (h : scanHit p (v.slots m c) = none)
      (hend : v.fat c = FAT_CLUSTER_END) : ScanRuns m p v c (v.live m c) none
  | next {v : Vol} {c : Nat} {es : List DirEntry} {r : Option (Vol × DirEntry)} (hc : InVol m c)
      (h : scanHit p (v.slots m c) = none) (hend : v.fat c ≠ FAT_CLUSTER_END)
      (hrest : ScanRuns m p (v.scanned m p c) (v.fat c) es r) :
      ScanRuns m p v c (v.live m c ++ es) r

/-- A walk has one course. -/
theorem ScanRuns.unique (L : Layout m) {es' : List DirEntry} {r' : Option (Vol × DirEntry)}
    (h : ScanRuns m p v ca es r) (h' : ScanRuns m p v ca es' r') : es' = es ∧ r' = r := by
  induction h generalizing es' r' with
  | bad =>
    cases h' with
    | bad => exact ⟨rfl, rfl⟩
    | hit hc => exact absurd hc L.not_inVol_bad
    | last hc => exact absurd hc L.not_inVol_bad
    | next hc => exact absurd hc L.not_inVol_bad
  | hit hc hhit =>
    cases h' with
    | bad => exact absurd hc L.not_inVol_bad
    | hit _ hhit' =>
      rw [hhit] at hhit'
      cases hhit'
      exact ⟨rfl, rfl⟩
    | last _ hmiss =>
      rw [hhit] at hmiss
      cases hmiss
    | next _ hmiss =>
      rw [hhit] at hmiss
      cases hmiss
  | last hc hmiss hend =>
    cases h' with
    | bad => exact absurd hc L.not_inVol_bad
    | hit _ hhit =>
      rw [hmiss] at hhit
      cases hhit
    | last => exact ⟨rfl, rfl⟩
    | next _ _ hne => exact absurd hend hne
  | next hc hmiss hend _ ih =>
    cases h' with
    | bad => exact absurd hc L.not_inVol_bad
    | hit _ hhit =>
      rw [hmiss] at hhit
      cases hhit
    | last _ _ heq => exact absurd heq hend
    | next _ _ _ hrest =>
      obtain ⟨rfl, rfl⟩ := ih hrest
      exact ⟨rfl, rfl⟩

/-! ### One cluster -/

/-- The handler looks for an entry with `p`: it passes over the other slots, touching nothing, and
ends the walk at the entry. -/
structure ScansFor (handler : Handler σ) (inner : Touches σ) (ctx : σ) (p : DirEntry → Bool) :
    Prop where
  pass : Passes handler ctx p
  quiet : ∀ e, (e.Valid → e.first ≠ ENTRY_FREE → p e = false) → ∀ info s, inner info e ctx s = []
  exits : ∀ e, Stops p e → ∀ info s out, handler info e ctx s = some out → out.1 = true

/-- A slot that does not end the scan is passed over. -/
theorem not_stops {e : DirEntry} (h : ¬ Stops p e) : e.Valid → e.first ≠ ENTRY_FREE →
    p e = false := by
  intro hv hf
  by_contra hp
  exact h ⟨hv, hf, Bool.eq_true_of_not_eq_false hp⟩

/-- What the handler touches in a cluster without its entry. -/
theorem ScansFor.touched_miss (hs : ScansFor handler inner ctx p) {slots : List DirEntry}
    (h : scanHit p slots = none) (i : Nat) : slotTouched handler inner ca i slots ctx s = [] := by
  induction slots generalizing i with
  | nil => rfl
  | cons e es ih =>
    unfold scanHit at h
    unfold slotTouched
    by_cases hend : e.first = ENTRY_END
    · rw [if_pos hend]
    · rw [if_neg hend] at h ⊢
      by_cases hstop : Stops p e
      · rw [if_pos hstop] at h
        cases h
      · rw [if_neg hstop] at h
        have hmiss := not_stops hstop
        rw [hs.quiet e hmiss, hs.pass e hmiss ⟨ca, i⟩ s]
        exact ih h (i + 1)

/-- The cluster of the entry: the walk ends where the handler returns at the entry. -/
theorem ScansFor.loop_hit (hs : ScansFor handler inner ctx p) {slots : List DirEntry} {e : DirEntry}
    (h : scanHit p slots = some e) (i : Nat) (s : FS) :
    Stops p e ∧ ∃ info, slotTouched handler inner ca i slots ctx s = inner info e ctx s ∧
      ((handler info e ctx s = none ∧ slotLoop handler ca i slots ctx s = none) ∨
        handler info e ctx s ≠ none ∧
          ∃ slots' ctx' s', slotLoop handler ca i slots ctx s = some (true, slots', ctx', s')) := by
  induction slots generalizing i with
  | nil => cases h
  | cons d es ih =>
    unfold scanHit at h
    unfold slotTouched slotLoop
    by_cases hend : d.first = ENTRY_END
    · rw [if_pos hend] at h
      cases h
    · rw [if_neg hend] at h
      rw [if_neg hend, if_neg hend]
      by_cases hstop : Stops p d
      · rw [if_pos hstop] at h
        cases h
        refine ⟨hstop, ⟨ca, i⟩, ?_⟩
        cases hrun : handler ⟨ca, i⟩ e ctx s with
        | none => exact ⟨List.append_nil _, Or.inl ⟨rfl, rfl⟩⟩
        | some out =>
          obtain ⟨exit, e', ctx', s'⟩ := out
          obtain rfl : exit = true := hs.exits e hstop _ _ _ hrun
          exact ⟨List.append_nil _, Or.inr ⟨Option.some_ne_none _, _, _, _, rfl⟩⟩
      · -- the slot is passed over
        rw [if_neg hstop] at h
        have hmiss := not_stops hstop
        obtain ⟨hat, info, htouched, hcases⟩ := ih h (i + 1)
        rw [hs.quiet d hmiss, hs.pass d hmiss ⟨ca, i⟩ s]
        refine ⟨hat, info, htouched, ?_⟩
        rcases hcases with ⟨hnone, hloop⟩ | ⟨hsome, slots', ctx', s', hloop⟩
        · exact Or.inl ⟨hnone, by simp only [hloop, Option.map_none]⟩
        · refine Or.inr ⟨hsome, cleaned d :: slots', ctx', s', ?_⟩
          simp only [hloop, Option.map_some]

/-! ### The walk -/

/-- The handler returns at the entry and stays in the volume. -/
def StaysAt (m : Mount) (handler : Handler σ) (inner : Touches σ) (ctx : σ) (e : DirEntry)
    (info : EntryInfo) (s : FS) : Prop := Stays m (handler info e ctx s) (inner info e ctx s)

section Walk

variable (L : Layout m) (harea : FatArea m)

include L harea

/-- A cluster without the entry. -/
theorem ScansFor.step_miss (hs : ScansFor handler inner ctx p) (h : Reads m s v) (hca : InVol m ca)
    (hmiss : scanHit p (v.slots m ca) = none) :
    ∃ s', Reads m s' (v.scanned m p ca) ∧ Keeps [] s s' ∧ ∀ fuel,
      (Stays m (entryIterate m handler (fuel + 1) ca ctx s)
          (touched m handler inner (fuel + 1) ca ctx s) ↔
        (v.fat ca ≠ FAT_CLUSTER_END → Stays m (entryIterate m handler fuel (v.fat ca) ctx s')
          (touched m handler inner fuel (v.fat ca) ctx s'))) := by
  obtain ⟨s', hs', hk', hstep⟩ := stays_next L h hca harea
    (slotLoop_miss hs.pass hmiss 0) h
  refine ⟨s', hs', hk', fun fuel => ?_⟩
  rw [hstep fuel, hs.touched_miss hmiss]
  refine and_iff_right ?_
  exact fun c hc => absurd hc List.not_mem_nil

variable (σ) in
/-- A walk that has a course ends inside the volume when its handler does at the entry. -/
theorem ScanRuns.stays (hw : ScanRuns m p v ca es r) : ∃ n, ∀ fuel ≥ n,
    ∀ {handler : Handler σ} {inner : Touches σ} {ctx : σ}, ScansFor handler inner ctx p →
      ∀ s, Reads m s v →
        (∀ y e, r = some (y, e) → Stops p e → ∀ info s', Reads m s' y → Keeps [] s s' →
          StaysAt m handler inner ctx e info s') →
        Stays m (entryIterate m handler fuel ca ctx s) (touched m handler inner fuel ca ctx s) := by
  induction hw with
  | bad =>
    refine ⟨1, fun fuel hfuel handler inner ctx hs s h hat => ?_⟩
    obtain ⟨k, rfl⟩ : ∃ k, fuel = k + 1 := ⟨fuel - 1, by omega⟩
    exact stays_bad k
  | @hit v c e hc hhit =>
    refine ⟨1, fun fuel hfuel handler inner ctx hs s h hat => ?_⟩
    obtain ⟨k, rfl⟩ : ∃ k, fuel = k + 1 := ⟨fuel - 1, by omega⟩
    obtain ⟨hstop, info, htouched, hcases⟩ := hs.loop_hit hhit 0 s
    obtain ⟨hreturns, hin⟩ := hat v e rfl hstop info s h (Keeps.refl s)
    rcases hcases with ⟨hnone, -⟩ | ⟨-, slots', ctx', s', hloop⟩
    · exact absurd hnone hreturns
    · rw [stays_last L h hc hloop k, htouched]
      exact hin
  | last hc hmiss hend =>
    refine ⟨1, fun fuel hfuel handler inner ctx hs s h hat => ?_⟩
    obtain ⟨k, rfl⟩ : ∃ k, fuel = k + 1 := ⟨fuel - 1, by omega⟩
    obtain ⟨s', -, -, hstep⟩ := hs.step_miss L harea h hc hmiss
    rw [hstep k]
    exact fun hne => absurd hend hne
  | next hc hmiss hend _ ih =>
    obtain ⟨n, hn⟩ := ih
    refine ⟨n + 1, fun fuel hfuel handler inner ctx hs s h hat => ?_⟩
    obtain ⟨k, rfl⟩ : ∃ k, fuel = k + 1 := ⟨fuel - 1, by omega⟩
    obtain ⟨s', hs', hk', hstep⟩ := hs.step_miss L harea h hc hmiss
    rw [hstep k]
    refine fun _ => hn k (by omega) hs s' hs' fun y e hr hstop info s'' hs'' hk'' => ?_
    exact hat y e hr hstop info s'' hs'' (hk'.nil_trans hk'')

/-- A walk that ends inside the volume has a course, and its handler returns at the entry. -/
theorem scanRuns_of_stays (hs : ScansFor handler inner ctx p) (fuel : Nat) (h : Reads m s v)
    (hstays : Stays m (entryIterate m handler fuel ca ctx s)
      (touched m handler inner fuel ca ctx s)) :
    ∃ es r, ScanRuns m p v ca es r ∧ ∀ y e, r = some (y, e) → Stops p e ∧
      ∃ info s', Reads m s' y ∧ Keeps [] s s' ∧ StaysAt m handler inner ctx e info s' := by
  induction fuel generalizing ca s v with
  | zero => exact absurd rfl hstays.1
  | succ fuel ih =>
    rcases hstays.inVol with rfl | hca
    · refine ⟨[], none, .bad, fun y e hr => ?_⟩
      cases hr
    · cases hscan : scanHit p (v.slots m ca) with
      | some e =>
        -- the walk has met its entry, and the handler returned there
        obtain ⟨hstop, info, htouched, hcases⟩ := hs.loop_hit hscan 0 s
        rcases hcases with ⟨-, hloop⟩ | ⟨hreturns, slots', ctx', s', hloop⟩
        · exact absurd (iterate_stuck L h hca hloop fuel) hstays.1
        · rw [stays_last L h hca hloop fuel, htouched] at hstays
          refine ⟨[], some (v, e), .hit hca hscan, fun y d hr => ?_⟩
          cases hr
          exact ⟨hstop, info, s, h, Keeps.refl s, hreturns, hstays⟩
      | none =>
        obtain ⟨s', hs', hk', hstep⟩ := hs.step_miss L harea h hca hscan
        rw [hstep fuel] at hstays
        by_cases hend : v.fat ca = FAT_CLUSTER_END
        · refine ⟨_, none, .last hca hscan hend, fun y e hr => ?_⟩
          cases hr
        · obtain ⟨es, r, hrest, hat⟩ := ih hs' (hstays hend)
          refine ⟨_, r, .next hca hscan hend hrest, fun y e hr => ?_⟩
          obtain ⟨hstop, info, s'', hs'', hk'', hreturns⟩ := hat y e hr
          exact ⟨hstop, info, s'', hs'', hk'.nil_trans hk'', hreturns⟩

end Walk

/-! ### The index -/

/-- No slot ends the walk of the index handler. -/
def never : DirEntry → Bool := fun _ => false

/-- The entries go into the index one after the other. -/
def insertEntries (m : Mount) (fuel : Nat) : (root : Nat) → List DirEntry → FS → Option (Nat × FS)
  | root, [], s => some (root, s)
  | root, e :: es, s =>
    match ecacheInsert m fuel root (hashName e.fileName) (!e.isDir) e.dca.toNat s with
    | none => none
    | some (root, s) => insertEntries m fuel root es s

theorem insertEntries_append (n root : Nat) (es ds : List DirEntry) (s : FS) :
    insertEntries m n root (es ++ ds) s
      = (insertEntries m n root es s).bind fun x => insertEntries m n x.1 ds x.2 := by
  induction es generalizing root s with
  | nil => rfl
  | cons e es ih =>
    rw [List.cons_append, insertEntries, insertEntries]
    cases ecacheInsert m n root (hashName e.fileName) (!e.isDir) e.dca.toNat s with
    | none => rfl
    | some x => exact ih x.1 x.2

/-- Insertions work on the heap only. -/
theorem insertEntries_frame {n root : Nat} {x : Nat × FS}
    (h : insertEntries m n root es s = some x) :
    x.2 = { s with heap := x.2.heap, mallocs := x.2.mallocs } := by
  induction es generalizing root s with
  | nil =>
    cases h
    rfl
  | cons e es ih =>
    rw [insertEntries] at h
    cases hins : ecacheInsert m n root (hashName e.fileName) (!e.isDir) e.dca.toNat s with
    | none =>
      rw [hins] at h
      cases h
    | some y =>
      obtain ⟨root', s'⟩ := y
      rw [hins] at h
      have hrest := ih h
      rw [ecacheInsert_frame hins] at hrest
      exact hrest

/-- An insertion sees the heap only. -/
theorem ecacheInsert_congr {t : FS} (hheap : t.heap = s.heap) (hmallocs : t.mallocs = s.mallocs)
    (n root : Nat) (hash : UInt32) (isDir : Bool) (ca : Nat) :
    ecacheInsert m n root hash isDir ca t = (ecacheInsert m n root hash isDir ca s).map
      fun x => (x.1, { t with heap := x.2.heap, mallocs := x.2.mallocs }) := by
  unfold ecacheInsert
  rw [hheap, hmallocs]
  simp only
  by_cases hz : m.malloc s.mallocs = 0
  · rw [if_pos hz, if_pos hz, Option.map_some, ← hheap]
  · rw [if_neg hz, if_neg hz]
    split
    · rfl
    · rfl
    · rw [Option.map_map]
      rfl

theorem insertEntries_congr {t : FS} (hheap : t.heap = s.heap) (hmallocs : t.mallocs = s.mallocs)
    (n root : Nat) : insertEntries m n root es t = none ↔ insertEntries m n root es s = none := by
  induction es generalizing root s t with
  | nil => exact iff_of_false (Option.some_ne_none _) (Option.some_ne_none _)
  | cons e es ih =>
    rw [insertEntries, insertEntries, ecacheInsert_congr hheap hmallocs]
    cases ecacheInsert m n root (hashName e.fileName) (!e.isDir) e.dca.toNat s with
    | none => exact Iff.rfl
    | some x =>
      simp only [Option.map_some]
      refine ih ?_ ?_ x.1
      · rfl
      · rfl

/-- Nothing ends the walk of the index handler. -/
theorem scanHit_never (slots : List DirEntry) : scanHit never slots = none := by
  induction slots with
  | nil => rfl
  | cons e es ih =>
    unfold scanHit
    rw [ih, if_neg fun h : Stops never e => Bool.false_ne_true h.2.2]
    split <;> rfl

/-- The index handler over a cluster. -/
theorem slotLoop_indexes (n i root : Nat) (slots : List DirEntry) (s : FS) :
    slotLoop (indexHandler m n) ca i slots root s
      = (insertEntries m n root (live slots) s).map
        fun x => (false, scanSlots never slots, x.1, x.2) := by
  induction slots generalizing i root s with
  | nil => rfl
  | cons e es ih =>
    unfold slotLoop scanSlots
    by_cases hend : e.first = ENTRY_END
    · rw [if_pos hend, live_cons_end hend]
      simp only [insertEntries, Option.map_some, if_pos hend]
    · rw [if_neg hend]
      simp only [if_neg hend, if_neg fun h : Stops never e => Bool.false_ne_true h.2.2]
      by_cases hlive : e.Valid ∧ e.first ≠ ENTRY_FREE
      · obtain ⟨hv, hf⟩ := hlive
        rw [live_cons hend hv hf, insertEntries, indexHandler, validateEntry_eq,
          cleaned_of_valid hv, decide_eq_true hv]
        simp only
        rw [if_neg (by simp [hf])]
        cases ecacheInsert m n root (hashName e.fileName) (!e.isDir) e.dca.toNat s with
        | none => rfl
        | some x =>
          simp only [Option.map_some]
          rw [ih, Option.map_map]
          rfl
      · rw [live_cons_hole hend hlive, indexHandler, validateEntry_eq]
        have hdead : decide e.Valid = false ∨ (cleaned e).first = ENTRY_FREE := by
          rw [first_cleaned]
          by_cases hv : e.Valid
          · exact Or.inr (not_not.mp fun hf => hlive ⟨hv, hf⟩)
          · exact Or.inl (decide_eq_false hv)
        simp only [if_pos hdead]
        rw [ih, Option.map_map]
        rfl

/-- A handler that touches no cluster. -/
abbrev untouched : Touches σ := fun _ _ _ _ => []

theorem slotTouched_untouched (i : Nat) (slots : List DirEntry) (s : FS) :
    slotTouched handler untouched ca i slots ctx s = [] := by
  induction slots generalizing i ctx s with
  | nil => rfl
  | cons e es ih =>
    unfold slotTouched
    split
    · rfl
    · cases handler ⟨ca, i⟩ e ctx s with
      | none => rfl
      | some out =>
        obtain ⟨exit, e', ctx', s'⟩ := out
        cases exit with
        | true => rfl
        | false => exact ih (i + 1) _

section Index

variable (L : Layout m) (harea : FatArea m) {n root : Nat}

include L harea

/-- One cluster of the index walk. -/
theorem index_step (h : Reads m s v) (hca : InVol m ca) {x : Nat × FS}
    (hins : insertEntries m n root (v.live m ca) s = some x) :
    ∃ s', Reads m s' (v.scanned m never ca) ∧ Keeps [] x.2 s' ∧ ∀ fuel,
      (Stays m (entryIterate m (indexHandler m n) (fuel + 1) ca root s)
          (touched m (indexHandler m n) untouched (fuel + 1) ca root s) ↔
        (v.fat ca ≠ FAT_CLUSTER_END →
          Stays m (entryIterate m (indexHandler m n) fuel (v.fat ca) x.1 s')
            (touched m (indexHandler m n) untouched fuel (v.fat ca) x.1 s'))) := by
  have hloop : slotLoop (indexHandler m n) ca 0 (v.slots m ca) root s
      = (insertEntries m n root (v.live m ca) s).map _ := slotLoop_indexes n 0 root _ s
  rw [hins, Option.map_some] at hloop
  have hx : Reads m x.2 v := by
    rw [insertEntries_frame hins]
    exact h.heap _ _
  obtain ⟨s', hs', hk', hstep⟩ := stays_next L h hca harea hloop hx
  refine ⟨s', hs', hk', fun fuel => ?_⟩
  rw [hstep fuel, slotTouched_untouched]
  refine and_iff_right ?_
  exact fun c hc => absurd hc List.not_mem_nil

/-- The index walk ends inside the volume where the walk has a course and the insertions return. -/
theorem ScanRuns.index_stays (hw : ScanRuns m never v ca es r) : ∃ k, ∀ fuel ≥ k, ∀ n root s,
    Reads m s v → insertEntries m n root es s ≠ none →
      Stays m (entryIterate m (indexHandler m n) fuel ca root s)
        (touched m (indexHandler m n) untouched fuel ca root s) := by
  induction hw with
  | bad =>
    refine ⟨1, fun fuel hfuel n root s h hins => ?_⟩
    obtain ⟨k, rfl⟩ : ∃ k, fuel = k + 1 := ⟨fuel - 1, by omega⟩
    exact stays_bad k
  | hit _ hhit =>
    -- the index handler ends no walk
    rw [scanHit_never] at hhit
    cases hhit
  | last hc hmiss hend =>
    refine ⟨1, fun fuel hfuel n root s h hins => ?_⟩
    obtain ⟨k, rfl⟩ : ∃ k, fuel = k + 1 := ⟨fuel - 1, by omega⟩
    obtain ⟨x, hx⟩ := Option.ne_none_iff_exists'.mp hins
    obtain ⟨s', -, -, hstep⟩ := index_step L harea h hc hx
    rw [hstep k]
    exact fun hne => absurd hend hne
  | next hc hmiss hend _ ih =>
    obtain ⟨k₀, hk₀⟩ := ih
    refine ⟨k₀ + 1, fun fuel hfuel n root s h hins => ?_⟩
    obtain ⟨k, rfl⟩ : ∃ k, fuel = k + 1 := ⟨fuel - 1, by omega⟩
    rw [insertEntries_append] at hins
    obtain ⟨y, hy⟩ := Option.ne_none_iff_exists'.mp hins
    obtain ⟨x, hx, hrest⟩ := Option.bind_eq_some_iff.mp hy
    obtain ⟨s', hs', hk', hstep⟩ := index_step L harea h hc hx
    rw [hstep k]
    refine fun _ => hk₀ k (by omega) n x.1 s' hs' ?_
    rw [Ne, insertEntries_congr hk'.heap hk'.mallocs, hrest]
    exact Option.some_ne_none _

/-- The course of an index walk that ends inside the volume. -/
theorem scanRuns_of_index (fuel : Nat) (h : Reads m s v)
    (hstays : Stays m (entryIterate m (indexHandler m n) fuel ca root s)
      (touched m (indexHandler m n) untouched fuel ca root s)) :
    ∃ es, ScanRuns m never v ca es none ∧ insertEntries m n root es s ≠ none := by
  induction fuel generalizing ca s v root with
  | zero => exact absurd rfl hstays.1
  | succ fuel ih =>
    rcases hstays.inVol with rfl | hca
    · exact ⟨[], .bad, Option.some_ne_none _⟩
    · cases hins : insertEntries m n root (v.live m ca) s with
      | none =>
        refine absurd (iterate_stuck L h hca ?_ fuel) hstays.1
        rw [slotLoop_indexes, show live (v.slots m ca) = v.live m ca from rfl, hins]
        rfl
      | some x =>
        obtain ⟨s', hs', hk', hstep⟩ := index_step L harea h hca hins
        rw [hstep fuel] at hstays
        by_cases hend : v.fat ca = FAT_CLUSTER_END
        · refine ⟨_, .last hca (scanHit_never _) hend, ?_⟩
          rw [hins]
          exact Option.some_ne_none _
        · obtain ⟨es, hrest, hmore⟩ := ih hs' (hstays hend)
          refine ⟨_, .next hca (scanHit_never _) hend hrest, ?_⟩
          rw [insertEntries_append, hins, Option.bind_some]
          rwa [Ne, insertEntries_congr hk'.heap hk'.mallocs] at hmore

end Index

end NiFat32
