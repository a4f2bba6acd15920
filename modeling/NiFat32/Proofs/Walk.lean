import NiFat32.Proofs.Slots

/-!
# `Proofs.Walk`: walks over a directory

`entryIterate_miss` is a walk in which the handler passes over every slot of the chain, and
`entryIterate_hit` one that ends at a slot. Both rewrite the clusters they visit, and
`SameView` says that what a walk sees has not changed.

The journal writes of the handlers go to the log sectors (`journalAddOperation_logOnly`,
`journalSolveOperation_logOnly`).
-/

set_option autoImplicit false

namespace NiFat32

variable {m : Mount} {s s' : FS} {v v' v'' : Vol} {ca : Nat} {cs : List Nat}

/-! ### The journal does not touch the volume -/

theorem writeJournalCopy_logOnly (hw : m.Works) (index : Nat) (j : JournalEntry) {i : Nat}
    (hi : i < m.fi.journalsCount) (s : FS) :
    LogOnly m s (writeJournalCopy m index j i s).2 := by
  have h := LogOnly.writeoff hw (Or.inr ⟨i, hi, rfl⟩) (u32 (index * (2 * JOURNAL_ENTRY_SIZE)))
    (packMemory j.bytes) s
  unfold writeJournalCopy
  cases hd : dskWriteoffSectors m s.medium (getJournalSector i m.fi.totalSectors)
      (u32 (index * (2 * JOURNAL_ENTRY_SIZE))) (packMemory j.bytes) 1 with
  | mk ok d =>
    rw [hd] at h
    obtain ⟨rfl, hl⟩ := h
    exact hl

theorem writeJournal_logOnly (hw : m.Works) (index : Nat) (j : JournalEntry) (s : FS) :
    LogOnly m s (writeJournal m index j s) := by
  have h : ∀ (is : List Nat) (s : FS), (∀ i ∈ is, i < m.fi.journalsCount) →
      LogOnly m s (is.foldl (fun s i => (writeJournalCopy m index j i s).2) s) := by
    intro is
    induction is with
    | nil => exact fun s _ => LogOnly.refl s
    | cons i is ih =>
      intro s his
      exact (writeJournalCopy_logOnly hw index j (his i List.mem_cons_self) s).trans
        (ih _ fun k hk => his k (List.mem_cons_of_mem i hk))
  exact h _ s fun i hi => List.mem_range.mp hi

/-- A journal copy is always readable, and reading it changes nothing. -/
theorem readoffLoop_isSome (hw : m.Works) (d : Medium) (sc sa offset size : Nat) :
    (readoffLoop m d sc sa offset size).isSome := by
  induction sc generalizing sa offset size with
  | zero => rfl
  | succ sc ih =>
    unfold readoffLoop
    split
    · rfl
    split
    · exact ih _ _ _
    · simp only [readSector_eq hw]
      rw [Option.isSome_map]
      exact ih _ _ _

theorem readJournalCopy_state (hw : m.Works) (index i : Nat) (s : FS) :
    (readJournalCopy m index i s).2 = s := by
  have h := readoffLoop_isSome hw s.medium 1 (getJournalSector i m.fi.totalSectors)
    (u32 (index * (2 * JOURNAL_ENTRY_SIZE))) (2 * JOURNAL_ENTRY_SIZE)
  unfold readJournalCopy dskReadoffSectors
  cases hd : readoffLoop m s.medium 1 (getJournalSector i m.fi.totalSectors)
      (u32 (index * (2 * JOURNAL_ENTRY_SIZE))) (2 * JOURNAL_ENTRY_SIZE) with
  | none => rw [hd] at h; cases h
  | some bs => rfl

theorem voteJournal_state (hw : m.Works) (index : Nat) (s : FS) :
    (voteJournal m index s).2.2 = s := by
  have h : ∀ (is : List Nat) (b : Vote.Ballot UInt32) (p : Option Nat),
      (is.foldl (fun (acc : Vote.Ballot UInt32 × Option Nat × FS) i =>
        let read := readJournalCopy m index i acc.2.2
        let sum := (read.1.getD .zero).checksum
        (Vote.step acc.1 sum, if Vote.elects acc.1 sum then some i else acc.2.1, read.2))
        (b, p, s)).2.2 = s := by
    intro is
    induction is with
    | nil => exact fun b p => rfl
    | cons i is ih =>
      intro b p
      rw [List.foldl_cons]
      have hs := readJournalCopy_state hw index i s
      show (is.foldl _ (_, _, (readJournalCopy m index i s).2)).2.2 = s
      rw [hs]
      exact ih _ _
  exact h _ _ _

theorem readJournal_logOnly (hw : m.Works) (index : Nat) (prev : JournalEntry) (s : FS) :
    LogOnly m s (readJournal m index prev s).2 := by
  have hv := voteJournal_state hw index s
  unfold readJournal
  cases hvote : voteJournal m index s with
  | mk b rest =>
    obtain ⟨pos, s₁⟩ := rest
    rw [hvote] at hv
    obtain rfl : s₁ = s := hv
    cases pos with
    | none => exact LogOnly.refl s₁
    | some pos =>
      have hr := readJournalCopy_state hw index pos s₁
      cases hcopy : readJournalCopy m index pos s₁ with
      | mk j s₂ =>
        rw [hcopy] at hr
        obtain rfl : s₂ = s₁ := hr
        simp only [hcopy]
        split
        · exact writeJournal_logOnly hw index _ s₂
        · exact LogOnly.refl s₂

theorem journalAddLoop_logOnly (hw : m.Works) (j : JournalEntry) (delay : Nat) (s : FS) :
    LogOnly m s (journalAddLoop m j delay s).2 := by
  induction delay generalizing s with
  | zero => exact LogOnly.refl s
  | succ delay ih =>
    unfold journalAddLoop
    simp only
    have hmove : LogOnly m s { s with journalIndex := (s.journalIndex + 1) % 256 } :=
      ⟨fun _ _ => rfl, rfl, ⟨rfl, rfl, rfl, (List.append_nil _).symm⟩⟩
    have hread := readJournal_logOnly hw (s.journalIndex % journalSlots m)
      (.ofBytes (m.junk 2 delay)) { s with journalIndex := (s.journalIndex + 1) % 256 }
    cases hr : readJournal m (s.journalIndex % journalSlots m) (.ofBytes (m.junk 2 delay))
        { s with journalIndex := (s.journalIndex + 1) % 256 } with
    | mk curr s₁ =>
      rw [hr] at hread
      simp only
      split
      · exact hmove.trans (hread.trans (writeJournal_logOnly hw _ j s₁))
      · exact hmove.trans (hread.trans (ih s₁))

/-- Adding a journal record touches the log sectors only. -/
theorem journalAddOperation_logOnly (hw : m.Works) (op : UInt8) (ca offset : Nat) (e : DirEntry)
    (s : FS) : LogOnly m s (journalAddOperation m op ca offset e s).2 := by
  unfold journalAddOperation
  split
  · exact LogOnly.refl s
  · have h := journalAddLoop_logOnly hw ⟨op, UInt32.ofNat ca, UInt8.ofNat offset,
      squeezeEntry e, 0⟩ 100 s
    exact ⟨h.bytes, h.fat, h.keeps.contents, h.keeps.heap, h.keeps.mallocs, h.keeps.allocs⟩

/-- Clearing a journal record touches the log sectors only. -/
theorem journalSolveOperation_logOnly (hw : m.Works) (index : Int) (s : FS) :
    LogOnly m s (journalSolveOperation m index s) := by
  unfold journalSolveOperation
  split
  · exact LogOnly.refl s
  · refine LogOnly.trans ?_ (writeJournal_logOnly hw index.toNat .zero _)
    exact ⟨fun _ _ => rfl, rfl, ⟨rfl, rfl, rfl, (List.append_nil _).symm⟩⟩

theorem journalAddOperation_shows (L : Layout m) (h : Shows m s v) (op : UInt8) (ca offset : Nat)
    (e : DirEntry) : Shows m (journalAddOperation m op ca offset e s).2 v ∧
      Keeps [] s (journalAddOperation m op ca offset e s).2 :=
  have hl := journalAddOperation_logOnly L.works op ca offset e s
  ⟨h.of_logOnly L hl, hl.keeps⟩

theorem journalSolveOperation_shows (L : Layout m) (h : Shows m s v) (index : Int) :
    Shows m (journalSolveOperation m index s) v ∧
      Keeps [] s (journalSolveOperation m index s) :=
  have hl := journalSolveOperation_logOnly L.works index s
  ⟨h.of_logOnly L hl, hl.keeps⟩

/-- The clearing of the record at the end of an operation, made or not. -/
theorem solve_shows (L : Layout m) (h : Shows m s v) (ji : Int) :
    Shows m (if 0 ≤ ji then journalSolveOperation m ji s else s) v ∧
      Keeps [] s (if 0 ≤ ji then journalSolveOperation m ji s else s) := by
  split
  · exact journalSolveOperation_shows L h ji
  · exact ⟨h, Keeps.refl s⟩

/-! ### The slots of a volume -/

/-- The slots of a cluster. -/
def Vol.slots (v : Vol) (m : Mount) (c : Nat) : List DirEntry := slotsIn m (v.raw c)

/-- What a walk sees of a cluster. -/
def Vol.scan (v : Vol) (m : Mount) (c : Nat) : List (Option DirEntry) := NiFat32.scan (v.slots m c)

/-- The entries of a cluster. -/
def Vol.live (v : Vol) (m : Mount) (c : Nat) : List DirEntry := NiFat32.live (v.slots m c)

theorem Vol.slots_congr {c : Nat} (h : v'.raw c = v.raw c) : v'.slots m c = v.slots m c := by
  unfold Vol.slots
  rw [h]

theorem Vol.live_of_scan {c : Nat} (h : v'.scan m c = v.scan m c) : v'.live m c = v.live m c :=
  congrArg List.reduceOption h

/-- The clusters `cs` were rewritten by walks: their bytes may differ in slots that a walk does
not see, nothing else has changed. -/
structure SameView (m : Mount) (v v' : Vol) (cs : List Nat) : Prop where
  fat : v'.fat = v.fat
  raw : ∀ c, c ∉ cs → v'.raw c = v.raw c
  scan : ∀ c, v'.scan m c = v.scan m c
  sound : ∀ c, Sound (v.slots m c) → Sound (v'.slots m c)

namespace SameView

theorem refl (v : Vol) (cs : List Nat) : SameView m v v cs :=
  ⟨rfl, fun _ _ => rfl, fun _ => rfl, fun _ h => h⟩

theorem trans (h : SameView m v v' cs) (h' : SameView m v' v'' cs) : SameView m v v'' cs where
  fat := h'.fat.trans h.fat
  raw := fun c hc => (h'.raw c hc).trans (h.raw c hc)
  scan := fun c => (h'.scan c).trans (h.scan c)
  sound := fun c hc => h'.sound c (h.sound c hc)

theorem mono {ds : List Nat} (h : SameView m v v' cs) (hsub : cs ⊆ ds) : SameView m v v' ds where
  fat := h.fat
  raw := fun c hc => h.raw c fun hm => hc (hsub hm)
  scan := h.scan
  sound := h.sound

theorem live (h : SameView m v v' cs) (c : Nat) : v'.live m c = v.live m c :=
  Vol.live_of_scan (h.scan c)

theorem chain {ds : List Nat} (h : SameView m v v' cs) (hc : HasChain m v ca ds) :
    HasChain m v' ca ds := hc.congr fun c _ => by rw [h.fat]

end SameView

/-! ### One cluster of a walk -/

theorem readEncodedCluster_shows (L : Layout m) (h : Shows m s v) (hca : InVol m ca) :
    readEncodedCluster m ca s
      = (some (v.raw ca, unpackMemory (v.raw ca) (decodedLen m)), s) := by
  unfold readEncodedCluster
  rw [if_neg (L.ne_bad hca), readCluster_shows L h hca]

/-- The volume with new slots in a cluster. -/
def Vol.setSlots (v : Vol) (m : Mount) (c : Nat) (bytes : List UInt8) (slots : List DirEntry) :
    Vol :=
  v.setRaw c (repackCluster m bytes (unpackMemory bytes (decodedLen m)) slots)

theorem Vol.setSlots_raw_ne {c k : Nat} (bytes : List UInt8) (slots : List DirEntry) (h : k ≠ c) :
    (v.setSlots m c bytes slots).raw k = v.raw k := Vol.setRaw_raw_ne v _ h

@[simp] theorem Vol.setSlots_fat (c : Nat) (bytes : List UInt8) (slots : List DirEntry) :
    (v.setSlots m c bytes slots).fat = v.fat := rfl

theorem Vol.slots_setSlots_self {c : Nat} {bytes : List UInt8} {slots : List DirEntry}
    (hlen : slots.length = entriesPerCluster m) (hb : bytes.length = m.fi.clusterSize) :
    (v.setSlots m c bytes slots).slots m c = slots := by
  unfold Vol.setSlots Vol.slots
  rw [Vol.setRaw_raw_self, slotsIn_repackCluster hlen hb]

theorem Vol.slots_setSlots_ne {c k : Nat} (bytes : List UInt8) (slots : List DirEntry) (h : k ≠ c) :
    (v.setSlots m c bytes slots).slots m k = v.slots m k :=
  Vol.slots_congr (Vol.setSlots_raw_ne bytes slots h)

theorem writeSlots_shows (L : Layout m) (h : Shows m s v) (hca : InVol m ca) {bytes : List UInt8}
    {slots : List DirEntry} (hlen : slots.length = entriesPerCluster m)
    (hb : bytes.length = m.fi.clusterSize) :
    ∃ s', writeCluster m ca (repackCluster m bytes (unpackMemory bytes (decodedLen m)) slots) s
        = (true, s') ∧ Shows m s' (v.setSlots m ca bytes slots) ∧ Keeps [] s s' :=
  writeCluster_shows L h hca (length_repackCluster hlen hb)

/-- A cluster whose visible slots were validated looks the same. -/
theorem SameView.clean {c : Nat} (hs : Sound (v.slots m c))
    (hb : (v.raw c).length = m.fi.clusterSize) :
    SameView m v (v.setSlots m c (v.raw c) (cleanSlots (v.slots m c))) [c] where
  fat := rfl
  raw := fun k hk => Vol.setSlots_raw_ne _ _ (by simpa using hk)
  scan := fun k => by
    have hlen : (cleanSlots (v.slots m c)).length = entriesPerCluster m := by
      rw [length_cleanSlots]
      exact length_slotsIn _
    unfold Vol.scan
    by_cases hk : k = c
    · subst hk
      rw [Vol.slots_setSlots_self hlen hb, scan_cleanSlots hs]
    · rw [Vol.slots_setSlots_ne _ _ hk]
  sound := fun k hk => by
    have hlen : (cleanSlots (v.slots m c)).length = entriesPerCluster m := by
      rw [length_cleanSlots]
      exact length_slotsIn _
    by_cases heq : k = c
    · subst heq
      rw [Vol.slots_setSlots_self hlen hb]
      exact sound_cleanSlots hk
    · rw [Vol.slots_setSlots_ne _ _ heq]
      exact hk

/-! ### Walks over a chain -/

section Iterate

variable {σ : Type} {handler : Handler σ} {ctx : σ}

/-- Every cluster of a directory is sound. -/
def SoundDir (m : Mount) (v : Vol) (cs : List Nat) : Prop := ∀ c ∈ cs, Sound (v.slots m c)

/-- The handler passes over every slot of the clusters `cs`. -/
def SkipsAll (m : Mount) (v : Vol) (handler : Handler σ) (ctx : σ) (cs : List Nat) : Prop :=
  ∀ c ∈ cs, ∀ e ∈ visible (v.slots m c), Skips handler ctx e

/-- A walk in which the handler passes over every slot. -/
theorem entryIterate_miss (L : Layout m) {fuel : Nat} (hfuel : cs.length ≤ fuel)
    (hc : HasChain m v ca cs) (h : Shows m s v) (hsound : SoundDir m v cs)
    (hskip : SkipsAll m v handler ctx cs) :
    ∃ s' v', entryIterate m handler fuel ca ctx s = some (false, ctx, s') ∧ Shows m s' v' ∧
      Keeps [] s s' ∧ SameView m v v' cs := by
  induction fuel generalizing ca cs s v with
  | zero =>
    exact absurd (List.length_eq_zero_iff.mp (Nat.le_zero.mp hfuel)) (hc.ne_nil L)
  | succ fuel ih =>
    have hin := hc.head
    have hmem := hc.head_mem L
    have hb := h.length_raw hin
    have hlen : (cleanSlots (v.slots m ca)).length = entriesPerCluster m := by
      rw [length_cleanSlots]
      exact length_slotsIn _
    obtain ⟨s₁, he₁, hs₁, hk₁⟩ := writeSlots_shows L h hin hlen hb
    obtain ⟨s₂, he₂, hs₂, hk₂⟩ := readFat_shows L hs₁ ca
    have hview := SameView.clean (hsound ca hmem) hb
    unfold entryIterate
    rw [readEncodedCluster_shows L h hin]
    simp only
    rw [show slotsOf (entriesPerCluster m) (unpackMemory (v.raw ca) (decodedLen m))
      = v.slots m ca from rfl, slotLoop_skips (hskip ca hmem)]
    simp only [he₁, he₂, Vol.setSlots_fat]
    cases hc.cases_head L with
    | inl hlast =>
      obtain ⟨rfl, hend⟩ := hlast
      rw [hend, if_neg (by simp)]
      exact ⟨s₂, _, rfl, hs₂, hk₁.nil_trans hk₂, hview⟩
    | inr hrest =>
      obtain ⟨rest, rfl, hrest⟩ := hrest
      have hnot : ca ∉ rest := (List.nodup_cons.mp (hc.nodup L)).1
      rw [if_pos ⟨L.ne_end hrest.head, trivial⟩]
      have hslots : ∀ c ∈ rest, (v.setSlots m ca (v.raw ca) (cleanSlots (v.slots m ca))).slots m c
          = v.slots m c := fun c hcm => Vol.slots_setSlots_ne _ _ fun heq => hnot (heq ▸ hcm)
      obtain ⟨s₃, v₃, he₃, hs₃, hk₃, hview₃⟩ := ih (by simp at hfuel; omega)
        (hview.chain hrest) hs₂
        (fun c hcm => by rw [hslots c hcm]; exact hsound c (List.mem_cons_of_mem ca hcm))
        (fun c hcm => by rw [hslots c hcm]; exact hskip c (List.mem_cons_of_mem ca hcm))
      refine ⟨s₃, v₃, he₃, hs₃, (hk₁.nil_trans hk₂).nil_trans hk₃, ?_⟩
      exact (hview.mono (by simp)).trans (hview₃.mono (List.subset_cons_self ca rest))

/-- The place of a slot in a directory: the clusters and the slots before and after it. -/
structure Slot where
  pre : List Nat
  c : Nat
  post : List Nat
  vpre : List DirEntry
  e : DirEntry
  vpost : List DirEntry

/-- The directory with the clusters `cs` has the slot `t`, and a walk sees it. -/
structure SlotAt (m : Mount) (v : Vol) (cs : List Nat) (t : Slot) : Prop where
  clusters : cs = t.pre ++ t.c :: t.post
  slots : v.slots m t.c = t.vpre ++ t.e :: t.vpost
  visible : ∀ d ∈ t.vpre, d.first ≠ ENTRY_END
  first : t.e.first ≠ ENTRY_END

/-- A walk that the handler ends at the slot `t`, which becomes `e'`, unless the handler does
not complete there. `P` is what the handler does to the state, the volume and the context. -/
theorem entryIterate_hit (L : Layout m) {fuel : Nat} (hfuel : cs.length ≤ fuel)
    (hc : HasChain m v ca cs) (h : Shows m s v) (hsound : SoundDir m v cs) {t : Slot}
    {e' : DirEntry} (hat : SlotAt m v cs t) (hskip : SkipsAll m v handler ctx t.pre)
    (hvskip : ∀ d ∈ t.vpre, Skips handler ctx d) (stuck : Prop)
    (P : FS → Vol → FS → Vol → σ → Prop)
    (hhit : ∀ s₀ v₀, Shows m s₀ v₀ → SameView m v v₀ t.pre → Keeps [] s s₀ →
      (stuck ∧ handler ⟨t.c, t.vpre.length⟩ t.e ctx s₀ = none) ∨
      ∃ ctx' s₁ v₁, handler ⟨t.c, t.vpre.length⟩ t.e ctx s₀ = some (true, e', ctx', s₁) ∧
        Shows m s₁ v₁ ∧ P s₀ v₀ s₁ v₁ ctx') :
    (stuck ∧ entryIterate m handler fuel ca ctx s = none) ∨
    ∃ ctx' s₀ v₀ s₁ v₁ s' v', entryIterate m handler fuel ca ctx s = some (true, ctx', s') ∧
      Shows m s' v' ∧ Keeps [] s s₀ ∧ Keeps [] s₁ s' ∧ SameView m v v₀ t.pre ∧
      P s₀ v₀ s₁ v₁ ctx' ∧ v'.fat = v₁.fat ∧ (∀ k, k ≠ t.c → v'.raw k = v₁.raw k) ∧
      v'.slots m t.c = t.vpre.map cleaned ++ e' :: t.vpost := by
  obtain ⟨pre, c, post, vpre, e, vpost⟩ := t
  induction fuel generalizing ca cs s v pre with
  | zero =>
    exact absurd (List.length_eq_zero_iff.mp (Nat.le_zero.mp hfuel)) (hc.ne_nil L)
  | succ fuel ih =>
    have hin := hc.head
    have hmem := hc.head_mem L
    have hb := h.length_raw hin
    have hsplit : cs = pre ++ c :: post := hat.clusters
    have hsc : v.slots m c = vpre ++ e :: vpost := hat.slots
    unfold entryIterate
    rw [readEncodedCluster_shows L h hin]
    simp only
    rw [show slotsOf (entriesPerCluster m) (unpackMemory (v.raw ca) (decodedLen m))
      = v.slots m ca from rfl]
    cases pre with
    | nil =>
      -- the slot is in the first cluster
      have hca : ca = c := by
        have hp := hc.path
        rw [hsplit] at hp
        exact hp.head_eq
      subst hca
      rw [hsc]
      obtain hstuck | ⟨ctx', s₁, v₁, hh, hs₁, hP⟩ :=
        hhit s v h (SameView.refl v []) (Keeps.refl s)
      · left
        rw [slotLoop_none hat.visible hvskip hat.first 0 (by rw [Nat.zero_add]; exact hstuck.2)]
        exact ⟨hstuck.1, rfl⟩
      right
      rw [slotLoop_hit hat.visible hvskip hat.first 0 (by rw [Nat.zero_add]; exact hh)]
      have hlen : (vpre.map cleaned ++ e' :: vpost).length = entriesPerCluster m := by
        have hl : (v.slots m ca).length = entriesPerCluster m := length_slotsIn _
        rw [hsc] at hl
        simpa using hl
      obtain ⟨s₂, he₂, hs₂, hk₂⟩ := writeSlots_shows L hs₁ hin hlen hb
      obtain ⟨s₃, he₃, hs₃, hk₃⟩ := readFat_shows L hs₂ ca
      simp only [he₂, he₃]
      rw [if_neg (by simp)]
      exact ⟨ctx', s, v, s₁, v₁, s₃, _, rfl, hs₃, Keeps.refl s, hk₂.nil_trans hk₃,
        SameView.refl v [], hP, rfl, fun k hk => Vol.setSlots_raw_ne _ _ hk,
        Vol.slots_setSlots_self hlen hb⟩
    | cons d pre =>
      have hcd : ca = d := by
        have hp := hc.path
        rw [hsplit] at hp
        exact hp.head_eq
      subst hcd
      have hlen : (cleanSlots (v.slots m ca)).length = entriesPerCluster m := by
        rw [length_cleanSlots]
        exact length_slotsIn _
      obtain ⟨s₁, he₁, hs₁, hk₁⟩ := writeSlots_shows L h hin hlen hb
      obtain ⟨s₂, he₂, hs₂, hk₂⟩ := readFat_shows L hs₁ ca
      have hview := SameView.clean (hsound ca hmem) hb
      rw [slotLoop_skips (hskip ca List.mem_cons_self)]
      simp only [he₁, he₂, Vol.setSlots_fat]
      cases hc.cases_head L with
      | inl hlast =>
        rw [hsplit] at hlast
        simp at hlast
      | inr hrest =>
        obtain ⟨rest, hcs, hrest⟩ := hrest
        rw [hcs] at hc hsound hfuel
        have hnot : ca ∉ rest := (List.nodup_cons.mp (hc.nodup L)).1
        have hrsplit : rest = pre ++ c :: post := by
          rw [hcs] at hsplit
          exact (List.cons.inj hsplit).2
        rw [if_pos ⟨L.ne_end hrest.head, trivial⟩]
        have hslots : ∀ k ∈ rest,
            (v.setSlots m ca (v.raw ca) (cleanSlots (v.slots m ca))).slots m k = v.slots m k :=
          fun k hk => Vol.slots_setSlots_ne _ _ fun heq => hnot (heq ▸ hk)
        have hcrest : c ∈ rest := by rw [hrsplit]; simp
        have hpre : ∀ k ∈ pre, k ∈ rest := fun k hk => by
          rw [hrsplit]
          exact List.mem_append_left _ hk
        have hih := ih (by simp at hfuel; omega) (hview.chain hrest) hs₂
          (fun k hk => by rw [hslots k hk]; exact hsound k (List.mem_cons_of_mem ca hk)) pre
          ⟨hrsplit, by rw [hslots c hcrest]; exact hsc, hat.visible, hat.first⟩
          (fun k hk => by
            rw [hslots k (hpre k hk)]
            exact hskip k (List.mem_cons_of_mem ca hk)) hvskip
          (fun s₀ v₀ hs₀ hv₀ hk₀ => hhit s₀ v₀ hs₀
            ((hview.mono (by simp)).trans (hv₀.mono (List.subset_cons_self ca pre)))
            ((hk₁.nil_trans hk₂).nil_trans hk₀))
        cases hih with
        | inl hstuck => exact Or.inl hstuck
        | inr hdone =>
          right
          obtain ⟨ctx', s₀, v₀, s₁', v₁, s', v', he', hs', hk₀, hk', hv₀, hP, hrest'⟩ := hdone
          exact ⟨ctx', s₀, v₀, s₁', v₁, s', v', he', hs', (hk₁.nil_trans hk₂).nil_trans hk₀, hk',
            (hview.mono (by simp)).trans (hv₀.mono (List.subset_cons_self ca pre)), hP, hrest'⟩

/-- Either no entry of the directory satisfies `p`, or there is a first one. -/
theorem exists_first_slot (m : Mount) (v : Vol) (cs : List Nat) (p : DirEntry → Bool) :
    (∀ c ∈ cs, ∀ e ∈ v.live m c, p e = false) ∨
    ∃ t, SlotAt m v cs t ∧ (∀ k ∈ t.pre, ∀ d ∈ v.live m k, p d = false) ∧
      (∀ d ∈ t.vpre, d.Valid → d.first ≠ ENTRY_FREE → p d = false) ∧ t.e.Valid ∧
      t.e.first ≠ ENTRY_FREE ∧ p t.e = true := by
  induction cs with
  | nil => exact Or.inl fun c hc => absurd hc List.not_mem_nil
  | cons c cs ih =>
    cases exists_first_live (v.slots m c) p with
    | inr hhit =>
      right
      obtain ⟨vpre, e, vpost, hsplit, hvis, hmiss, hend, hfree, hp⟩ := hhit
      exact ⟨⟨[], c, cs, vpre, e, vpost⟩, ⟨rfl, hsplit, hvis, hend⟩,
        fun k hk => absurd hk List.not_mem_nil, hmiss, hfree, hp⟩
    | inl hnone =>
      cases ih with
      | inl hall =>
        left
        intro k hk
        cases List.mem_cons.mp hk with
        | inl heq => rw [heq]; exact hnone
        | inr hk => exact hall k hk
      | inr hsome =>
        right
        obtain ⟨t, hat, hpre, hrest⟩ := hsome
        refine ⟨{ t with pre := c :: t.pre },
          ⟨by rw [hat.clusters]; rfl, hat.slots, hat.visible, hat.first⟩, ?_, hrest⟩
        intro j hj
        cases List.mem_cons.mp hj with
        | inl heq => rw [heq]; exact hnone
        | inr hj => exact hpre j hj

end Iterate

/-! ### The entries of a directory -/

/-- The entries of a directory with the clusters they lie in, in the order of a walk. -/
def Vol.entries (v : Vol) (m : Mount) (cs : List Nat) : List (Nat × DirEntry) :=
  cs.flatMap fun c => (v.live m c).map fun e => (c, e)

namespace Vol

@[simp] theorem entries_nil (v : Vol) : v.entries m [] = [] := rfl

theorem entries_cons (v : Vol) (c : Nat) (cs : List Nat) :
    v.entries m (c :: cs) = (v.live m c).map (fun e => (c, e)) ++ v.entries m cs := rfl

theorem entries_append (v : Vol) (cs ds : List Nat) :
    v.entries m (cs ++ ds) = v.entries m cs ++ v.entries m ds := List.flatMap_append

theorem entries_congr (h : ∀ c ∈ cs, v'.live m c = v.live m c) :
    v'.entries m cs = v.entries m cs := by
  induction cs with
  | nil => rfl
  | cons c cs ih =>
    rw [entries_cons, entries_cons, h c List.mem_cons_self,
      ih fun d hd => h d (List.mem_cons_of_mem c hd)]

theorem mem_entries {c : Nat} {e : DirEntry} :
    (c, e) ∈ v.entries m cs ↔ c ∈ cs ∧ e ∈ v.live m c := by
  unfold Vol.entries
  rw [List.mem_flatMap]
  constructor
  · rintro ⟨d, hd, hm⟩
    obtain ⟨x, hx, heq⟩ := List.mem_map.mp hm
    obtain ⟨rfl, rfl⟩ := Prod.mk.inj heq
    exact ⟨hd, hx⟩
  · rintro ⟨hc, he⟩
    exact ⟨c, hc, List.mem_map.mpr ⟨e, he, rfl⟩⟩

end Vol

theorem SameView.entries (h : SameView m v v' cs) (ds : List Nat) :
    v'.entries m ds = v.entries m ds := Vol.entries_congr fun c _ => h.live c

namespace Slot

/-- The entries before the slot. -/
def before (t : Slot) (m : Mount) (v : Vol) : List (Nat × DirEntry) :=
  v.entries m t.pre ++ (t.vpre.map slotView).reduceOption.map fun e => (t.c, e)

/-- The entries after the slot. -/
def after (t : Slot) (m : Mount) (v : Vol) : List (Nat × DirEntry) :=
  (NiFat32.live t.vpost).map (fun e => (t.c, e)) ++ v.entries m t.post

end Slot

/-- The entries of a directory, around one of them. -/
theorem SlotAt.entries_eq {t : Slot} (hat : SlotAt m v cs t) (hv : t.e.Valid)
    (hfree : t.e.first ≠ ENTRY_FREE) :
    v.entries m cs = t.before m v ++ (t.c, t.e) :: t.after m v := by
  have hlive : v.live m t.c
      = (t.vpre.map slotView).reduceOption ++ t.e :: NiFat32.live t.vpost := by
    unfold Vol.live
    rw [hat.slots, live_append hat.visible, live_cons hat.first hv hfree]
  rw [hat.clusters, Vol.entries_append, Vol.entries_cons, hlive]
  unfold Slot.before Slot.after
  simp only [List.map_append, List.map_cons, List.append_assoc, List.cons_append]

/-- The entries of the directory after the slot became `e'`. -/
theorem SlotAt.entries_replace {t : Slot} {e' : DirEntry} (hat : SlotAt m v cs t)
    (hnodup : cs.Nodup) (hsound : Sound (v.slots m t.c))
    (hslots : v'.slots m t.c = t.vpre.map cleaned ++ e' :: t.vpost)
    (hother : ∀ k ∈ cs, k ≠ t.c → v'.live m k = v.live m k) (hend : e'.first ≠ ENTRY_END) :
    v'.entries m cs
      = t.before m v ++ ([slotView e'].reduceOption.map (fun e => (t.c, e)) ++ t.after m v) := by
  have hvalid : ∀ d ∈ t.vpre, d.first ≠ ENTRY_FREE → d.Valid ∨ d.computedChecksum ≠ 0 :=
    fun d hd => by
      refine hsound d ?_
      rw [hat.slots, visible_append hat.visible]
      exact List.mem_append_left _ hd
  have hvis : ∀ d ∈ t.vpre.map cleaned, d.first ≠ ENTRY_END := fun d hd => by
    obtain ⟨x, hx, rfl⟩ := List.mem_map.mp hd
    rw [first_cleaned]
    exact hat.visible x hx
  have hlive : v'.live m t.c = (t.vpre.map slotView).reduceOption
      ++ ([slotView e'].reduceOption ++ NiFat32.live t.vpost) := by
    unfold Vol.live
    rw [hslots, live_append hvis, map_slotView_cleaned hvalid]
    unfold NiFat32.live
    rw [scan_cons hend, ← List.singleton_append, List.reduceOption_append]
  have hns := hnodup
  rw [hat.clusters, List.nodup_append] at hns
  obtain ⟨_, hpost, hdisj⟩ := hns
  have hpre' : v'.entries m t.pre = v.entries m t.pre := Vol.entries_congr fun k hk =>
    hother k (by rw [hat.clusters]; exact List.mem_append_left _ hk) fun heq =>
      hdisj k hk t.c List.mem_cons_self heq
  have hpost' : v'.entries m t.post = v.entries m t.post := Vol.entries_congr fun k hk =>
    hother k (by rw [hat.clusters]; exact List.mem_append_right _ (List.mem_cons_of_mem _ hk))
      fun heq => (List.nodup_cons.mp hpost).1 (heq ▸ hk)
  rw [hat.clusters, Vol.entries_append, Vol.entries_cons, hlive, hpre', hpost']
  unfold Slot.before Slot.after
  simp only [List.map_append, List.append_assoc]

end NiFat32
