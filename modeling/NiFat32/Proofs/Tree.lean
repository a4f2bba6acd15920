import NiFat32.Proofs.Walk

/-!
# `Proofs.Tree`: the clusters that a content owns

`Owns m v depth ca isDir S` says that the content with the first cluster `ca` is a tree of at
most `depth` levels whose chains make up the list `S`: a file owns its chain, a directory owns
its chain and what its entries own. No chain of the tree shares a cluster with another one
when `S` has no duplicates.

`Owns.congr` is the frame rule, `Owns.focus` takes a content out of the tree around it and puts
a changed one back, and `entryEraseRec_shows` is the recursive erase: it frees exactly `S`.
-/

set_option autoImplicit false

namespace NiFat32

variable {m : Mount} {s : FS} {v v' : Vol} {ca : Nat} {cs : List Nat}

/-- What the entries `es` own together, when `P` says what one content owns. -/
def OwnsAll (P : Nat → Bool → List Nat → Prop) : List (Nat × DirEntry) → List Nat → Prop
  | [], S => S = []
  | x :: es, S => ∃ K T, P x.2.dca.toNat x.2.isDir K ∧ OwnsAll P es T ∧ S = K ++ T

/-- The content with the first cluster `ca` owns the clusters `S`. -/
def Owns (m : Mount) (v : Vol) : (depth ca : Nat) → (isDir : Bool) → List Nat → Prop
  | 0, _, _, _ => False
  | _ + 1, ca, false, S => HasChain m v ca S
  | depth + 1, ca, true, S => ∃ cs T, HasChain m v ca cs ∧ SoundDir m v cs ∧
      OwnsAll (Owns m v depth) (v.entries m cs) T ∧ S = cs ++ T

/-! ### Lists of contents -/

namespace OwnsAll

variable {P Q : Nat → Bool → List Nat → Prop} {es fs : List (Nat × DirEntry)} {S : List Nat}

theorem append_iff : OwnsAll P (es ++ fs) S ↔
    ∃ A B, OwnsAll P es A ∧ OwnsAll P fs B ∧ S = A ++ B := by
  induction es generalizing S with
  | nil =>
    constructor
    · intro h
      exact ⟨[], S, rfl, h, rfl⟩
    · rintro ⟨A, B, rfl, hB, rfl⟩
      exact hB
  | cons x es ih =>
    constructor
    · rintro ⟨K, T, hK, hT, rfl⟩
      obtain ⟨A, B, hA, hB, rfl⟩ := ih.mp hT
      exact ⟨K ++ A, B, ⟨K, A, hK, hA, rfl⟩, hB, (List.append_assoc _ _ _).symm⟩
    · rintro ⟨A, B, ⟨K, T, hK, hT, rfl⟩, hB, rfl⟩
      exact ⟨K, T ++ B, hK, ih.mpr ⟨T, B, hT, hB, rfl⟩, List.append_assoc _ _ _⟩

/-- The clusters that one entry among others owns. -/
theorem focus {A B : List (Nat × DirEntry)} {x : Nat × DirEntry} (h : OwnsAll P (A ++ x :: B) S) :
    ∃ SA K SB, OwnsAll P A SA ∧ P x.2.dca.toNat x.2.isDir K ∧ OwnsAll P B SB ∧
      S = SA ++ (K ++ SB) := by
  obtain ⟨SA, T, hA, ⟨K, SB, hK, hB, rfl⟩, rfl⟩ := append_iff.mp h
  exact ⟨SA, K, SB, hA, hK, hB, rfl⟩

theorem unfocus {A B : List (Nat × DirEntry)} {x : Nat × DirEntry} {SA K SB : List Nat}
    (hA : OwnsAll P A SA) (hK : P x.2.dca.toNat x.2.isDir K) (hB : OwnsAll P B SB) :
    OwnsAll P (A ++ x :: B) (SA ++ (K ++ SB)) :=
  append_iff.mpr ⟨SA, K ++ SB, hA, ⟨K, SB, hK, hB, rfl⟩, rfl⟩

theorem imp (h : OwnsAll P es S)
    (hPQ : ∀ ca isDir K, K ⊆ S → P ca isDir K → Q ca isDir K) : OwnsAll Q es S := by
  induction es generalizing S with
  | nil => exact h
  | cons x es ih =>
    obtain ⟨K, T, hK, hT, rfl⟩ := h
    exact ⟨K, T, hPQ _ _ K (List.subset_append_left K T) hK,
      ih hT fun ca isDir K' hsub => hPQ ca isDir K' fun c hc =>
        List.mem_append_right K (hsub hc), rfl⟩

theorem unique {S' : List Nat} (h : OwnsAll P es S) (h' : OwnsAll Q es S')
    (hPQ : ∀ ca isDir K K', P ca isDir K → Q ca isDir K' → K = K') : S = S' := by
  induction es generalizing S S' with
  | nil => rw [h, h']
  | cons x es ih =>
    obtain ⟨K, T, hK, hT, rfl⟩ := h
    obtain ⟨K', T', hK', hT', rfl⟩ := h'
    rw [hPQ _ _ K K' hK hK', ih hT hT']

/-- The entries own clusters of their own only. -/
theorem mem {c : Nat} (h : OwnsAll P es S) (hc : c ∈ S) :
    ∃ x ∈ es, ∃ K, P x.2.dca.toNat x.2.isDir K ∧ c ∈ K := by
  induction es generalizing S with
  | nil =>
    rw [show S = [] from h] at hc
    exact absurd hc List.not_mem_nil
  | cons x es ih =>
    obtain ⟨K, T, hK, hT, rfl⟩ := h
    cases List.mem_append.mp hc with
    | inl hcK => exact ⟨x, List.mem_cons_self, K, hK, hcK⟩
    | inr hcT =>
      obtain ⟨y, hy, hrest⟩ := ih hT hcT
      exact ⟨y, List.mem_cons_of_mem x hy, hrest⟩

end OwnsAll

/-! ### One content -/

/-- Two volumes agree on the clusters `S`: their links, and the entries in them. -/
def Agree (m : Mount) (v v' : Vol) (S : List Nat) : Prop :=
  ∀ c ∈ S, v'.fat c = v.fat c ∧ v'.live m c = v.live m c ∧
    (Sound (v.slots m c) → Sound (v'.slots m c))

namespace Agree

theorem mono {S T : List Nat} (h : Agree m v v' S) (hsub : T ⊆ S) : Agree m v v' T :=
  fun c hc => h c (hsub hc)

theorem of_raw {S : List Nat} (h : ∀ c ∈ S, v'.fat c = v.fat c ∧ v'.raw c = v.raw c) :
    Agree m v v' S := fun c hc => by
  have hslots : v'.slots m c = v.slots m c := Vol.slots_congr (h c hc).2
  refine ⟨(h c hc).1, congrArg live hslots, fun hs => ?_⟩
  rw [hslots]
  exact hs

theorem of_view {S ds : List Nat} (h : SameView m v v' ds) : Agree m v v' S := fun c _ =>
  ⟨by rw [h.fat], h.live c, h.sound c⟩

theorem sound {S : List Nat} (h : Agree m v v' S) (hs : SoundDir m v S) : SoundDir m v' S :=
  fun c hc => (h c hc).2.2 (hs c hc)

theorem entries {S : List Nat} (h : Agree m v v' S) : v'.entries m S = v.entries m S :=
  Vol.entries_congr fun c hc => (h c hc).2.1

end Agree

namespace Owns

variable {d d' : Nat} {k : Bool} {S : List Nat}

/-- A content as a file or as a directory, at a positive depth. -/
theorem depth_pos (h : Owns m v d ca k S) : ∃ n, d = n + 1 := by
  cases d with
  | zero => exact absurd h id
  | succ n => exact ⟨n, rfl⟩

/-- The frame rule: what a content owns depends on its own clusters only. -/
theorem congr (h : Owns m v d ca k S) (ha : Agree m v v' S) : Owns m v' d ca k S := by
  induction d generalizing ca k S with
  | zero => exact h
  | succ d ih =>
    cases k with
    | false => exact HasChain.congr h fun c hc => (ha c hc).1
    | true =>
      obtain ⟨cs, T, hc, hs, hT, rfl⟩ := h
      have hacs := ha.mono (List.subset_append_left cs T)
      refine ⟨cs, T, hc.congr fun c hcm => (hacs c hcm).1, hacs.sound hs, ?_, rfl⟩
      rw [hacs.entries]
      exact hT.imp fun ca k K hsub hK =>
        ih hK (ha.mono fun c hcK => List.mem_append_right cs (hsub hcK))

/-- A deeper bound does no harm. -/
theorem mono (h : Owns m v d ca k S) (hd : d ≤ d') : Owns m v d' ca k S := by
  induction d generalizing d' ca k S with
  | zero => exact absurd h id
  | succ d ih =>
    obtain ⟨d', rfl⟩ : ∃ n, d' = n + 1 := ⟨d' - 1, by omega⟩
    cases k with
    | false => exact h
    | true =>
      obtain ⟨cs, T, hc, hs, hT, rfl⟩ := h
      exact ⟨cs, T, hc, hs, hT.imp fun ca k K _ hK => ih hK (by omega), rfl⟩

/-- The clusters of a content are determined by the volume. -/
theorem unique {S' : List Nat} (L : Layout m) (h : Owns m v d ca k S)
    (h' : Owns m v d' ca k S') : S = S' := by
  induction d generalizing d' ca k S S' with
  | zero => exact absurd h id
  | succ d ih =>
    obtain ⟨d', rfl⟩ := h'.depth_pos
    cases k with
    | false => exact HasChain.unique h h' L
    | true =>
      obtain ⟨cs, T, hc, _, hT, rfl⟩ := h
      obtain ⟨cs', T', hc', _, hT', rfl⟩ := h'
      obtain rfl := hc.unique hc' L
      rw [hT.unique hT' fun ca k K K' hK hK' => ih hK hK']

/-- Every cluster that a content owns carries a link. -/
theorem fat_ne {c : Nat} (L : Layout m) (h : Owns m v d ca k S) (hc : c ∈ S) :
    InVol m c ∧ v.fat c ≠ FAT_CLUSTER_FREE ∧ v.fat c ≠ FAT_CLUSTER_RESERVED ∧
      v.fat c ≠ FAT_CLUSTER_BAD := by
  induction d generalizing ca k S with
  | zero => exact absurd h id
  | succ d ih =>
    cases k with
    | false => exact ⟨HasChain.inVol h c hc, HasChain.fat_ne h L hc⟩
    | true =>
      obtain ⟨cs, T, hch, _, hT, rfl⟩ := h
      cases List.mem_append.mp hc with
      | inl hcs => exact ⟨hch.inVol c hcs, hch.fat_ne L hcs⟩
      | inr hcT =>
        obtain ⟨_, _, K, hK, hcK⟩ := hT.mem hcT
        exact ih hK hcK

/-- The first cluster of a content is one of its clusters. -/
theorem head_mem (L : Layout m) (h : Owns m v d ca k S) : ca ∈ S := by
  obtain ⟨d, rfl⟩ := h.depth_pos
  cases k with
  | false => exact HasChain.head_mem h L
  | true =>
    obtain ⟨cs, T, hc, _, _, rfl⟩ := h
    exact List.mem_append_left T (hc.head_mem L)

end Owns

/-! ### A content inside another one -/

/-- The content `(hd, hk)` lies in the tree below the content `(ca, k)`. -/
inductive Inside (m : Mount) (v : Vol) (hd : Nat) (hk : Bool) : Nat → Bool → Prop
  | here : Inside m v hd hk hd hk
  | child {ca : Nat} {cs : List Nat} {x : Nat × DirEntry} : HasChain m v ca cs →
      x ∈ v.entries m cs → Inside m v hd hk x.2.dca.toNat x.2.isDir → Inside m v hd hk ca true

/-- A content can be taken out of the tree around it, and a changed one with the same first
cluster put back, as long as the other clusters of the tree stay as they are. -/
theorem Owns.focus {hd : Nat} {hk : Bool} {k : Bool} {d : Nat} {S : List Nat} (L : Layout m)
    (hin : Inside m v hd hk ca k) (h : Owns m v d ca k S) :
    ∃ T R d', S.Perm (T ++ R) ∧ Owns m v d' hd hk T ∧
      ∀ v' d'' T', Agree m v v' R → Owns m v' d'' hd hk T' →
        ∃ e S', Owns m v' e ca k S' ∧ S'.Perm (T' ++ R) := by
  induction hin generalizing d S with
  | here =>
    refine ⟨S, [], d, by rw [List.append_nil], h, fun v' d'' T' _ hT' => ⟨d'', T', hT', ?_⟩⟩
    rw [List.append_nil]
  | @child ca cs x hc hx _ ih =>
    obtain ⟨d, rfl⟩ := h.depth_pos
    obtain ⟨cs', W, hc', hs, hW, rfl⟩ := h
    obtain rfl := hc.unique hc' L
    obtain ⟨A, B, hAB⟩ := List.append_of_mem hx
    rw [hAB] at hW
    obtain ⟨SA, K, SB, hSA, hK, hSB, rfl⟩ := hW.focus
    obtain ⟨T, R, d', hperm, hT, hput⟩ := ih hK
    refine ⟨T, cs ++ SA ++ SB ++ R, d', ?_, hT, fun v' d'' T' hag hT' => ?_⟩
    · refine List.perm_iff_count.mpr fun a => ?_
      have hcount := hperm.count_eq a
      simp only [List.count_append] at hcount ⊢
      omega
    · -- the context of the content at its parent, and the parent's in the tree
      obtain ⟨e, K', hK', hperm'⟩ := hput v' d'' T' (hag.mono (by intro c hcR; simp [hcR])) hT'
      have hcs : Agree m v v' cs := hag.mono (by intro c hcm; simp [hcm])
      have hsub : ∀ {es : List (Nat × DirEntry)} {U : List Nat}, OwnsAll (Owns m v d) es U →
          U ⊆ cs ++ SA ++ SB ++ R → OwnsAll (Owns m v' (max d e)) es U := fun hes hU =>
        hes.imp fun ca k J hJ hown =>
          (hown.congr (hag.mono fun c hcJ => hU (hJ hcJ))).mono (le_max_left d e)
      refine ⟨max d e + 1, cs ++ (SA ++ (K' ++ SB)), ⟨cs, SA ++ (K' ++ SB),
        hc.congr fun c hcm => (hcs c hcm).1, hcs.sound hs, ?_, rfl⟩, ?_⟩
      · rw [hcs.entries, hAB]
        exact OwnsAll.unfocus (hsub hSA (by intro c hcm; simp [hcm])) (hK'.mono (le_max_right d e))
          (hsub hSB (by intro c hcm; simp [hcm]))
      · refine List.perm_iff_count.mpr fun a => ?_
        have hcount := hperm'.count_eq a
        simp only [List.count_append] at hcount ⊢
        omega

/-! ### Freeing clusters -/

/-- The volume after the clusters `S` were freed. -/
def Vol.freeAll (v : Vol) (S : List Nat) : Vol :=
  { v with fat := fun k => if k ∈ S then FAT_CLUSTER_FREE else v.fat k }

namespace Vol

@[simp] theorem freeAll_raw (v : Vol) (S : List Nat) : (v.freeAll S).raw = v.raw := rfl

@[simp] theorem freeAll_nil (v : Vol) : v.freeAll [] = v := by
  unfold freeAll
  simp only [List.not_mem_nil, if_false]

theorem freeAll_fat_ne (v : Vol) {S : List Nat} {c : Nat} (h : c ∉ S) :
    (v.freeAll S).fat c = v.fat c := if_neg h

/-- Only the set of clusters matters. -/
theorem freeAll_congr (v : Vol) {S T : List Nat} (h : ∀ c, c ∈ S ↔ c ∈ T) :
    v.freeAll S = v.freeAll T := by
  unfold freeAll
  simp only [h]

theorem freeAll_append (v : Vol) (S T : List Nat) :
    v.freeAll (S ++ T) = (v.freeAll S).freeAll T := by
  unfold freeAll
  congr 1
  funext k
  simp only [List.mem_append]
  by_cases hT : k ∈ T
  · simp [hT]
  · simp [hT]

theorem freeAll_cons (v : Vol) (c : Nat) (S : List Nat) :
    v.freeAll (c :: S) = (v.setFat c FAT_CLUSTER_FREE).freeAll S := by
  have h : v.setFat c FAT_CLUSTER_FREE = v.freeAll [c] := by
    unfold freeAll setFat
    simp only [List.mem_singleton]
  rw [h, ← freeAll_append, List.singleton_append]

end Vol

/-- Clusters that are not freed look as before. -/
theorem Agree.freeAll {S T : List Nat} (h : ∀ c ∈ T, c ∉ S) : Agree m v (v.freeAll S) T :=
  .of_raw fun c hc => ⟨v.freeAll_fat_ne (h c hc), rfl⟩

/-- `dealloc_chain` frees the clusters of a chain. -/
theorem deallocChain_shows (L : Layout m) {fuel : Nat} (hfuel : cs.length ≤ fuel)
    (hc : HasChain m v ca cs) (h : Shows m s v) :
    ∃ s', deallocChain m fuel ca s = some (true, s') ∧ Shows m s' (v.freeAll cs) ∧
      Keeps [] s s' := by
  induction fuel generalizing ca cs s v with
  | zero => exact absurd (List.length_eq_zero_iff.mp (Nat.le_zero.mp hfuel)) (hc.ne_nil L)
  | succ fuel ih =>
    obtain ⟨s₁, he₁, hs₁, hk₁⟩ := readFat_shows L h ca
    obtain ⟨s₂, he₂, hs₂, hk₂⟩ := deallocCluster_shows L hs₁ hc.head
    unfold deallocChain
    rw [he₁]
    simp only [he₂]
    cases hc.cases_head L with
    | inl hlast =>
      obtain ⟨rfl, hend⟩ := hlast
      rw [hend, if_pos (Or.inl rfl)]
      refine ⟨s₂, rfl, ?_, hk₁.nil_trans hk₂⟩
      rw [Vol.freeAll_cons, Vol.freeAll_nil]
      exact hs₂
    | inr hrest =>
      obtain ⟨rest, rfl, hrest⟩ := hrest
      have hin := hrest.head
      have hnot : ca ∉ rest := (List.nodup_cons.mp (hc.nodup L)).1
      rw [if_neg (by
        rintro (hx | hx | hx)
        · exact L.ne_end hin hx
        · exact L.ne_bad hin hx
        · exact L.ne_free hin hx)]
      have hrest' : HasChain m (v.setFat ca FAT_CLUSTER_FREE) (v.fat ca) rest :=
        hrest.congr fun c hcm => Vol.setFat_fat_ne _ _ fun heq => hnot (heq ▸ hcm)
      obtain ⟨s₃, he₃, hs₃, hk₃⟩ := ih (by simp at hfuel; omega) hrest' hs₂
      refine ⟨s₃, he₃, ?_, (hk₁.nil_trans hk₂).nil_trans hk₃⟩
      rw [Vol.freeAll_cons]
      exact hs₃

section Erase

variable {erase : (ca : Nat) → (file : Bool) → FS → Option (Int × FS)} {d : Nat}

/-- The routine `erase` frees what a content of at most `d` levels owns. -/
def Erases (m : Mount) (erase : (ca : Nat) → (file : Bool) → FS → Option (Int × FS))
    (d : Nat) : Prop :=
  ∀ {v : Vol} {ca : Nat} {k : Bool} {S : List Nat} {s : FS}, Owns m v d ca k S → S.Nodup →
    Shows m s v → ∃ s', erase ca (!k) s = some (1, s') ∧ Shows m s' (v.freeAll S) ∧ Keeps [] s s'

theorem eraseSlots_shows (hr : Erases m erase d) {slots : List DirEntry} {c : Nat}
    {T : List Nat} (hT : OwnsAll (Owns m v d) ((live slots).map fun e => (c, e)) T)
    (hnodup : T.Nodup) (h : Shows m s v) :
    ∃ s', eraseSlots m erase slots s = some s' ∧ Shows m s' (v.freeAll T) ∧ Keeps [] s s' := by
  induction slots generalizing s v T with
  | nil =>
    obtain rfl : T = [] := hT
    exact ⟨s, rfl, by rwa [Vol.freeAll_nil], Keeps.refl s⟩
  | cons e es ih =>
    unfold eraseSlots
    by_cases hend : e.first = ENTRY_END
    · rw [live_cons_end hend] at hT
      obtain rfl : T = [] := hT
      rw [if_pos hend]
      exact ⟨s, rfl, by rwa [Vol.freeAll_nil], Keeps.refl s⟩
    · rw [if_neg hend]
      by_cases hl : e.Valid ∧ e.first ≠ ENTRY_FREE
      · rw [if_pos hl]
        rw [live_cons hend hl.1 hl.2] at hT
        obtain ⟨K, U, hK, hU, rfl⟩ := hT
        obtain ⟨hnK, hnU, hdisj⟩ := List.nodup_append.mp hnodup
        obtain ⟨s₁, he₁, hs₁, hk₁⟩ := hr hK hnK h
        have hU' : OwnsAll (Owns m (v.freeAll K) d) ((live es).map fun e => (c, e)) U :=
          hU.imp fun ca k J hJ hown => hown.congr
            (Agree.freeAll fun x hx hxK => hdisj x hxK x (hJ hx) rfl)
        obtain ⟨s₂, he₂, hs₂, hk₂⟩ := ih hU' hnU hs₁
        rw [he₁]
        simp only
        rw [if_neg (by decide), he₂]
        refine ⟨s₂, rfl, ?_, hk₁.nil_trans hk₂⟩
        rw [Vol.freeAll_append]
        exact hs₂
      · -- a hole is passed over
        rw [if_neg hl]
        rw [live_cons_hole hend hl] at hT
        exact ih hT hnodup h

theorem eraseClusters_shows (L : Layout m) (hr : Erases m erase d) {fuel : Nat}
    (hfuel : cs.length ≤ fuel) {T : List Nat} (hc : HasChain m v ca cs)
    (hs : SoundDir m v cs) (hT : OwnsAll (Owns m v d) (v.entries m cs) T)
    (hnodup : (cs ++ T).Nodup) (h : Shows m s v) :
    ∃ s', eraseClusters m erase fuel ca s = some s' ∧ Shows m s' (v.freeAll (cs ++ T)) ∧
      Keeps [] s s' := by
  induction fuel generalizing ca cs s v T with
  | zero => exact absurd (List.length_eq_zero_iff.mp (Nat.le_zero.mp hfuel)) (hc.ne_nil L)
  | succ fuel ih =>
    have hmem := hc.head_mem L
    obtain ⟨rest, hcs⟩ : ∃ rest, cs = ca :: rest := by
      cases hc.cases_head L with
      | inl hlast => exact ⟨[], hlast.1⟩
      | inr hrest => exact ⟨hrest.choose, hrest.choose_spec.1⟩
    subst hcs
    rw [Vol.entries_cons] at hT
    obtain ⟨A, B, hA, hB, rfl⟩ := OwnsAll.append_iff.mp hT
    obtain ⟨hncs, hnAB, hdisj⟩ := List.nodup_append.mp hnodup
    obtain ⟨hnA, hnB, hdisjAB⟩ := List.nodup_append.mp hnAB
    obtain ⟨hcar, hnrest⟩ := List.nodup_cons.mp hncs
    obtain ⟨s₁, he₁, hs₁, hk₁⟩ := readFat_shows L h ca
    obtain ⟨s₂, he₂, hs₂, hk₂⟩ := eraseSlots_shows hr hA hnA hs₁
    obtain ⟨s₃, he₃, hs₃, hk₃⟩ := deallocCluster_shows L hs₂ hc.head
    have hk := (hk₁.nil_trans hk₂).nil_trans hk₃
    -- what the rest of the directory holds has not been touched
    have hv₃ : (v.freeAll A).setFat ca FAT_CLUSTER_FREE = v.freeAll (A ++ [ca]) := by
      rw [Vol.freeAll_append, Vol.freeAll_cons, Vol.freeAll_nil]
    rw [hv₃] at hs₃
    have hout : ∀ c, c ∈ rest ∨ c ∈ B → c ∉ A ++ [ca] := by
      intro c hcm hcA
      have hca : ca ∈ ca :: rest := List.mem_cons_self
      cases List.mem_append.mp hcA with
      | inl hcA =>
        cases hcm with
        | inl hr => exact hdisj c (List.mem_cons_of_mem ca hr) c (List.mem_append_left B hcA) rfl
        | inr hB' => exact hdisjAB c hcA c hB' rfl
      | inr hcA =>
        rw [List.mem_singleton] at hcA
        subst hcA
        cases hcm with
        | inl hr => exact hcar hr
        | inr hB' => exact hdisj c hca c (List.mem_append_right A hB') rfl
    unfold eraseClusters
    rw [readEncodedCluster_shows L h hc.head]
    simp only [he₁]
    rw [show slotsOf (entriesPerCluster m) (unpackMemory (v.raw ca) (decodedLen m))
      = v.slots m ca from rfl, he₂]
    simp only [he₃, if_true]
    cases hc.cases_head L with
    | inl hlast =>
      obtain ⟨heq, hend⟩ := hlast
      obtain rfl : rest = [] := (List.cons.inj heq).2
      rw [hend, if_neg (by simp)]
      obtain rfl : B = [] := hB
      refine ⟨s₃, rfl, ?_, hk⟩
      rw [v.freeAll_congr fun c => (by simp; exact Or.comm : c ∈ [ca] ++ (A ++ []) ↔ c ∈ A ++ [ca])]
      exact hs₃
    | inr hrest =>
      obtain ⟨rest', heq, hrest⟩ := hrest
      obtain rfl : rest = rest' := (List.cons.inj heq).2
      rw [if_pos (L.ne_end hrest.head)]
      have hag : Agree m v (v.freeAll (A ++ [ca])) rest :=
        Agree.freeAll fun c hcm => hout c (Or.inl hcm)
      obtain ⟨s₄, he₄, hs₄, hk₄⟩ := ih (by simp at hfuel; omega)
        (hrest.congr fun c hcm => (hag c hcm).1)
        (hag.sound fun c hcm => hs c (List.mem_cons_of_mem ca hcm))
        (by
          rw [hag.entries]
          exact hB.imp fun ca' k J hJ hown => hown.congr
            (Agree.freeAll fun x hx => hout x (Or.inr (hJ hx))))
        (List.nodup_append.mpr ⟨hnrest, hnB, fun a ha b hb =>
          hdisj a (List.mem_cons_of_mem ca ha) b (List.mem_append_right A hb)⟩) hs₃
      refine ⟨s₄, he₄, ?_, hk.nil_trans hk₄⟩
      rw [← Vol.freeAll_append] at hs₄
      rw [v.freeAll_congr fun c => (by simp; tauto :
        c ∈ (ca :: rest) ++ (A ++ B) ↔ c ∈ A ++ [ca] ++ (rest ++ B))]
      exact hs₄

/-- The recursive erase frees exactly the clusters that the content owns. -/
theorem entryEraseRec_erases (L : Layout m) {d fuel : Nat}
    (hfuel : d + m.fi.totalClusters + 1 ≤ fuel) : Erases m (entryEraseRec m fuel) d := by
  induction d generalizing fuel with
  | zero => exact fun h => absurd h id
  | succ d ih =>
    intro v ca k S s hown hnodup h
    obtain ⟨fuel, rfl⟩ : ∃ n, fuel = n + 1 := ⟨fuel - 1, by omega⟩
    cases k with
    | false =>
      have hc : HasChain m v ca S := hown
      have hlen := hc.length_le L
      have hle : S.length ≤ fuel := by omega
      obtain ⟨s', he, hs, hk⟩ := deallocChain_shows L hle hc h
      unfold entryEraseRec
      simp only [Bool.not_false, he]
      exact ⟨s', rfl, hs, hk⟩
    | true =>
      obtain ⟨cs, T, hc, hs, hT, rfl⟩ := hown
      have hlen := hc.length_le L
      have hle : cs.length ≤ fuel := by omega
      have hbelow : d + m.fi.totalClusters + 1 ≤ fuel := by omega
      obtain ⟨s', he, hs', hk⟩ := eraseClusters_shows L (ih hbelow) hle hc hs hT hnodup h
      unfold entryEraseRec
      simp only [Bool.not_true, he]
      exact ⟨s', rfl, hs', hk⟩

end Erase

end NiFat32
