import NiFat32.Proofs.RepairTree
import NiFat32.Proofs.Settled

/-!
# `Proofs.BitFlips`: flipped bits in directory clusters

Two states with the same settled state run alike. A directory tree with at most one flipped bit in
each word has the settled state of the clean tree, so search, add, edit and remove cannot tell the
two apart (`bitFlips_invisible`). A cluster that a walk visits is written back as clean codewords in
both runs, and from there on its bytes are the same (`iterate_heals`).
-/

set_option autoImplicit false

namespace NiFat32

open ByteStore

variable {m : Mount} {s t s' t' : FS} {U : Nat → Prop}

/-- No word is left as it is. -/
abbrev noWord : Nat → Prop := fun _ => False

/-- The words of a cluster. -/
def clusterWords (m : Mount) (ca : Nat) : Nat → Prop :=
  fun w => clusterAddr m ca ≤ 2 * w ∧ 2 * w < clusterAddr m ca + m.fi.clusterSize

/-! ### Two states that settle alike -/

/-- An operation that commutes with settling runs alike on states that settle alike. -/
theorem settle_run {ρ : Type} {f : FS → ρ × FS} (hf : ∀ s, f (s.settle U) = settleResult U (f s))
    (h : s.settle U = t.settle U) :
    (f s).1 = (f t).1 ∧ (f s).2.settle U = (f t).2.settle U := by
  have heq : settleResult U (f s) = settleResult U (f t) := by rw [← hf, h, hf]
  exact Prod.mk.inj heq

/-- An operation that may not complete. -/
theorem settle_run_option {ρ : Type} {f : FS → Option (ρ × FS)}
    (hf : ∀ s, f (s.settle U) = (f s).map (settleResult U)) (h : s.settle U = t.settle U) :
    Option.Rel (fun r r' => r'.1 = r.1 ∧ r.2.settle U = r'.2.settle U) (f s) (f t) := by
  have heq : (f s).map (settleResult U) = (f t).map (settleResult U) := by rw [← hf, h, hf]
  cases hs : f s with
  | none =>
    rw [hs] at heq
    rw [Option.map_eq_none_iff.mp heq.symm]
    exact Option.Rel.none
  | some r =>
    rw [hs] at heq
    obtain ⟨r', hr', hrr⟩ := Option.map_eq_some_iff.mp heq.symm
    obtain ⟨h1, h2⟩ := Prod.mk.inj hrr
    rw [hr']
    exact Option.Rel.some ⟨h1, h2.symm⟩

/-- The bytes of states that settle alike. -/
theorem settle_bytes (h : s.settle U = t.settle U) :
    settle U s.medium.bytes = settle U t.medium.bytes :=
  congrArg (fun s : FS => s.medium.bytes) h

/-- States that settle alike decode alike. -/
theorem unpack_of_settle (h : s.settle U = t.settle U) {a n : Nat} (ha : 2 ∣ a) (hn : 2 ∣ n)
    (l : Nat) :
    unpackMemory (read t.medium.bytes a n) l = unpackMemory (read s.medium.bytes a n) l := by
  obtain ⟨w, rfl⟩ := ha
  obtain ⟨k, rfl⟩ := hn
  rw [← (sameWords_read_settle (U := U) (d := t.medium.bytes) w k).unpack,
    ← (sameWords_read_settle (U := U) (d := s.medium.bytes) w k).unpack, settle_bytes h]

/-- States that settle alike and agree on some words settle alike with these words left out. -/
theorem settle_agree (h : s.settle noWord = t.settle noWord)
    (hU : ∀ k, U (k / 2) → s.medium.bytes k = t.medium.bytes k) : s.settle U = t.settle U := by
  have hbytes : settle U s.medium.bytes = settle U t.medium.bytes := by
    funext k
    by_cases hk : U (k / 2)
    · rw [settle_of hk, settle_of hk]
      exact hU k hk
    · have hclean := congrFun (settle_bytes h) k
      rw [settle_of_not id, settle_of_not id] at hclean
      rw [settle_of_not hk, settle_of_not hk]
      exact hclean
  have hrest : { s.settle noWord with medium := { (s.settle noWord).medium with
        bytes := settle U s.medium.bytes } }
      = { t.settle noWord with medium := { (t.settle noWord).medium with
        bytes := settle U t.medium.bytes } } := by
    rw [h, hbytes]
  exact hrest

/-- What is the same in two states that decode alike: the FAT, every copy of it and its cache, and
the decoded bytes of every cluster. -/
structure SameMetadata (m : Mount) (s t : FS) : Prop where
  fat : (view m t).fat = (view m s).fat
  copies : ∀ ca i, fatCell m t.medium.bytes ca i = fatCell m s.medium.bytes ca i
  cache : t.fat = s.fat
  decoded : ∀ c, decoded m ((view m t).raw c) = decoded m ((view m s).raw c)

theorem sameMetadata_of_settle (hm : EvenSizes m) (h : s.settle U = t.settle U) :
    SameMetadata m s t := by
  have hcell : ∀ ca i, fatCell m t.medium.bytes ca i = fatCell m s.medium.bytes ca i := by
    intro ca i
    have heven : 2 ∣ fatAddr m ca i :=
      Nat.dvd_add (Nat.dvd_mul_left_of_dvd hm.sector _) (fatEntryPos_even hm ca i)
    unfold fatCell
    rw [unpack_of_settle h heven (by decide)]
  have hcache : (s.settle U).fat = (t.settle U).fat := congrArg FS.fat h
  refine ⟨?_, hcell, hcache.symm, fun c => ?_⟩
  · funext ca
    unfold view
    simp only [hcell]
  · unfold view decoded
    simp only
    split
    · exact unpack_of_settle h (Nat.dvd_mul_left_of_dvd hm.sector _) hm.cluster _
    · rfl

/-! ### The clusters that a walk writes back -/

/-- The clusters that `entry_iterate` visits: it reads them, runs the handler over their entries
and writes them back. -/
def visits (m : Mount) {σ : Type} (handler : Handler σ) : (fuel ca : Nat) → σ → FS → List Nat
  | 0, _, _, _ => []
  | fuel + 1, ca, ctx, s =>
    match readEncodedCluster m ca s with
    | (none, _) => []
    | (some (enc, dec), s) =>
      match slotLoop handler ca 0 (slotsOf (entriesPerCluster m) dec) ctx s with
      | none => []
      | some (exit, slots, ctx, s) =>
        match writeCluster m ca (repackCluster m enc dec slots) s with
        | (false, _) => []
        | (true, s) =>
          match readFat m ca s with
          | (next, s) =>
            ca :: if next ≠ FAT_CLUSTER_END ∧ exit = false then visits m handler fuel next ctx s
              else []

section Walks

variable {σ : Type} {handler : Handler σ}

theorem length_slotLoop {ca i : Nat} {es : List DirEntry} {ctx : σ}
    {out : Bool × List DirEntry × σ × FS} (h : slotLoop handler ca i es ctx s = some out) :
    out.2.1.length = es.length := by
  induction es generalizing i ctx s out with
  | nil =>
    rw [← Option.some.inj h]
  | cons e es ih =>
    unfold slotLoop at h
    split at h
    · rw [← Option.some.inj h]
    cases hstep : handler ⟨ca, i⟩ e ctx s with
    | none =>
      rw [hstep] at h
      cases h
    | some out₁ =>
      obtain ⟨exit, e', ctx', s'⟩ := out₁
      rw [hstep] at h
      cases exit with
      | true => rw [← Option.some.inj h, List.length_cons, List.length_cons]
      | false =>
        obtain ⟨out₂, hrest, heq⟩ := Option.map_eq_some_iff.mp h
        rw [← heq, List.length_cons, List.length_cons, ih hrest]

theorem slotLoop_twin (hh : Settles U handler) (h : s.settle U = t.settle U) {ca i : Nat}
    {es es' : List DirEntry} {ctx ctx' : σ} {exit : Bool}
    (he : slotLoop handler ca i es ctx s = some (exit, es', ctx', s')) :
    ∃ t', slotLoop handler ca i es ctx t = some (exit, es', ctx', t') ∧
      s'.settle U = t'.settle U := by
  have heq := congrArg (slotLoop handler ca i es ctx) h
  rw [slotLoop_settle hh, slotLoop_settle hh, he] at heq
  obtain ⟨⟨exit₁, es₁, ctx₁, t'⟩, ht, hout⟩ := Option.map_eq_some_iff.mp heq.symm
  simp only [Prod.mk.injEq] at hout
  obtain ⟨rfl, rfl, rfl, hset⟩ := hout
  exact ⟨t', ht, hset.symm⟩

theorem entryIterate_twin (hm : EvenSizes m) (hh : Settles U handler)
    (h : s.settle U = t.settle U) {fuel ca : Nat} {ctx ctx' : σ} {exit : Bool}
    (he : entryIterate m handler fuel ca ctx s = some (exit, ctx', s')) :
    ∃ t', entryIterate m handler fuel ca ctx t = some (exit, ctx', t') ∧
      s'.settle U = t'.settle U := by
  have heq := congrArg (entryIterate m handler fuel ca ctx) h
  rw [entryIterate_settle hm hh, entryIterate_settle hm hh, he] at heq
  obtain ⟨⟨exit₁, ctx₁, t'⟩, ht, hout⟩ := Option.map_eq_some_iff.mp heq.symm
  simp only [Prod.mk.injEq] at hout
  obtain ⟨rfl, rfl, hset⟩ := hout
  exact ⟨t', ht, hset.symm⟩

variable (L : Layout m)

include L

/-- A cluster is read as a whole. -/
theorem readEncodedCluster_works {ca : Nat} (hca : ca ≠ FAT_CLUSTER_BAD) (s : FS) :
    readEncodedCluster m ca s = (some (read s.medium.bytes (clusterAddr m ca) m.fi.clusterSize,
      unpackMemory (read s.medium.bytes (clusterAddr m ca) m.fi.clusterSize) (decodedLen m)),
        s) := by
  have hread := readoffLoop_eq L.works s.medium m.fi.sectorsPerCluster (clusterSector m ca) 0
    m.fi.clusterSize (by rw [L.clusterSize_sectors, Nat.zero_add])
  unfold readEncodedCluster readCluster readoffCluster dskReadoffSectors
  rw [if_neg hca, hread]
  rfl

/-- A cluster is written as a whole. -/
theorem writeCluster_works {data : List UInt8} (hlen : data.length = m.fi.clusterSize) (ca : Nat)
    (s : FS) : ∃ s', writeCluster m ca data s = (true, s') ∧
      s'.medium.bytes = write s.medium.bytes (clusterAddr m ca) data := by
  have hle : 0 + data.length ≤ m.fi.sectorsPerCluster * m.sectorSize := by
    rw [hlen, L.clusterSize_sectors, Nat.zero_add]
  obtain ⟨hok, hbytes⟩ := writeoffLoop_eq L.works m.fi.sectorsPerCluster (clusterSector m ca) 0 data
    s.medium hle
  refine ⟨{ s with medium := (writeoffLoop m m.fi.sectorsPerCluster (clusterSector m ca) 0 data
    s.medium).2 }, ?_, hbytes⟩
  unfold writeCluster writeoffCluster dskWriteoffSectors
  rw [← hok]

/-- A cluster that both runs write is the same afterwards. -/
theorem writeCluster_twin {xs : List UInt8} (hlen : (packMemory xs).length = m.fi.clusterSize)
    (h : s.settle noWord = t.settle noWord) (ca : Nat) :
    ∃ s' t', writeCluster m ca (packMemory xs) s = (true, s') ∧
      writeCluster m ca (packMemory xs) t = (true, t') ∧ s'.settle noWord = t'.settle noWord ∧
      s'.settle (clusterWords m ca) = t'.settle (clusterWords m ca) := by
  have hm := L.evenSizes
  obtain ⟨s', hs', hsb⟩ := writeCluster_works L hlen ca s
  obtain ⟨t', ht', htb⟩ := writeCluster_works L hlen ca t
  have hrun := settle_run (fun s => writeCluster_settle (U := noWord) hm ca xs s) h
  rw [hs', ht'] at hrun
  refine ⟨s', t', hs', ht', hrun.2, settle_agree hrun.2 fun k hk => ?_⟩
  obtain ⟨hlo, hhi⟩ := hk
  obtain ⟨n, hn⟩ := hm.cluster
  obtain ⟨w, hw⟩ : 2 ∣ clusterAddr m ca := Nat.dvd_mul_left_of_dvd hm.sector _
  have hin : k - clusterAddr m ca < (packMemory xs).length := by omega
  rw [hsb, htb, write_apply, write_apply, if_pos (by omega), if_pos (by omega),
    List.getD_eq_getElem _ _ hin, List.getD_eq_getElem _ _ hin]

/-- A walk runs alike on states that settle alike, and leaves the clusters it visits with the same
bytes. -/
theorem iterate_heals (hh : ∀ U, Settles U handler) (h : s.settle noWord = t.settle noWord)
    {fuel ca : Nat} {ctx ctx' : σ} {exit : Bool}
    (he : entryIterate m handler fuel ca ctx s = some (exit, ctx', s')) :
    ∃ t', entryIterate m handler fuel ca ctx t = some (exit, ctx', t') ∧
      s'.settle noWord = t'.settle noWord ∧ ∀ c ∈ visits m handler fuel ca ctx s,
        s'.settle (clusterWords m c) = t'.settle (clusterWords m c) := by
  have hm := L.evenSizes
  induction fuel generalizing ca ctx s t with
  | zero => cases he
  | succ fuel ih =>
    by_cases hbad : ca = FAT_CLUSTER_BAD
    · -- nothing is visited
      obtain ⟨t', ht', hset⟩ := entryIterate_twin hm (hh noWord) h he
      refine ⟨t', ht', hset, fun c hc => ?_⟩
      unfold visits readEncodedCluster at hc
      rw [if_pos hbad] at hc
      exact absurd hc List.not_mem_nil
    · have henc : ∀ d : Nat → UInt8,
          (read d (clusterAddr m ca) m.fi.clusterSize).drop (2 * decodedLen m) = [] := by
        intro d
        exact List.drop_of_length_le (by rw [length_read, L.two_decodedLen])
      have hdec : unpackMemory (read t.medium.bytes (clusterAddr m ca) m.fi.clusterSize)
          (decodedLen m) = unpackMemory (read s.medium.bytes (clusterAddr m ca) m.fi.clusterSize)
          (decodedLen m) := unpack_of_settle h (Nat.dvd_mul_left_of_dvd hm.sector _) hm.cluster _
      unfold entryIterate at he ⊢
      unfold visits
      rw [readEncodedCluster_works L hbad] at he ⊢
      rw [readEncodedCluster_works L hbad]
      simp only [hdec, repackCluster_eq (henc _)] at he ⊢
      generalize hd : unpackMemory (read s.medium.bytes (clusterAddr m ca) m.fi.clusterSize)
        (decodedLen m) = dec at he ⊢
      have hdeclen : dec.length = decodedLen m := by
        rw [← hd]
        exact length_unpackMemory _ _ (by rw [length_read, L.two_decodedLen])
      cases hloop : slotLoop handler ca 0 (slotsOf (entriesPerCluster m) dec) ctx s with
      | none =>
        rw [hloop] at he
        cases he
      | some out =>
        obtain ⟨exit₁, slots, ctx₁, s₁⟩ := out
        obtain ⟨t₁, hloop', h₁⟩ := slotLoop_twin (hh noWord) h hloop
        have hslots : slots.length = entriesPerCluster m := by
          rw [← length_slotsOf (entriesPerCluster m) dec]
          exact length_slotLoop hloop
        have hlen : (packMemory (bytesOfSlots slots ++
            dec.drop (ENTRY_SIZE * entriesPerCluster m))).length = m.fi.clusterSize := by
          have hle : ENTRY_SIZE * entriesPerCluster m ≤ decodedLen m := slots_le_decodedLen
          rw [length_packMemory, List.length_append, length_bytesOfSlots, List.length_drop, hslots,
            hdeclen, ← L.two_decodedLen]
          omega
        obtain ⟨s₂, t₂, hs₂, ht₂, h₂, hreg₂⟩ := writeCluster_twin L hlen h₁ ca
        have hfat := settle_run (fun s => readFat_settle (U := noWord) hm ca s) h₂
        have hregfat := settle_run (fun s => readFat_settle (U := clusterWords m ca) hm ca s) hreg₂
        rw [hloop] at he
        simp only [hs₂] at he
        simp only [hloop', hs₂, ht₂]
        cases hf : readFat m ca s₂ with
        | mk next s₃ =>
          cases hf' : readFat m ca t₂ with
          | mk next' t₃ =>
            rw [hf, hf'] at hfat hregfat
            rw [hf] at he
            obtain ⟨rfl, h₃⟩ := hfat
            obtain ⟨-, hreg₃⟩ := hregfat
            simp only at he h₃ hreg₃ ⊢
            by_cases hgo : next ≠ FAT_CLUSTER_END ∧ exit₁ = false
            · rw [if_pos hgo] at he
              rw [if_pos hgo, if_pos hgo]
              obtain ⟨t', ht', hset, hvisits⟩ := ih h₃ he
              refine ⟨t', ht', hset, fun c hc => ?_⟩
              rcases List.mem_cons.mp hc with rfl | hc
              · -- the rest of the walk leaves what both runs wrote
                obtain ⟨t'', ht'', hreg⟩ := entryIterate_twin hm (hh _) hreg₃ he
                rw [ht'] at ht''
                obtain rfl : t' = t'' := by simpa using ht''
                exact hreg
              · exact hvisits c hc
            · rw [if_neg hgo] at he
              rw [if_neg hgo, if_neg hgo]
              obtain ⟨rfl, rfl, rfl⟩ : exit₁ = exit ∧ ctx₁ = ctx' ∧ s₃ = s' := by simpa using he
              refine ⟨t₃, rfl, h₃, fun c hc => ?_⟩
              rw [List.mem_singleton.mp hc]
              exact hreg₃

end Walks

/-! ### Damaged directory trees -/

/-- The address lies in a directory cluster of the tree with the root `root`. -/
def InDirectory (m : Mount) (root : Nat) (s : FS) (a : Nat) : Prop :=
  ∃ c, DirCluster m (view m s) root c ∧ InVol m c ∧ clusterAddr m c ≤ a ∧
    a < clusterAddr m c + m.fi.clusterSize

/-- The disk of `t` is the one of `s` with at most one flipped bit in each word of the directory
clusters. -/
structure Damaged (m : Mount) (root : Nat) (s t : FS) : Prop where
  rest : t = { s with medium := { s.medium with bytes := t.medium.bytes } }
  outside : ∀ a, ¬ InDirectory m root s a → t.medium.bytes a = s.medium.bytes a
  flips : ∀ c, DirCluster m (view m s) root c → InVol m c →
    WordFlips ((view m s).raw c) ((view m t).raw c)

/-- Every directory cluster of the tree is a clean encoding. -/
def CleanTree (m : Mount) (root : Nat) (s : FS) : Prop :=
  ∀ c, DirCluster m (view m s) root c → InVol m c → CleanWords m ((view m s).raw c)

/-- The word at a position of two buffers whose words decode alike. -/
theorem SameWords.word {d d' : Nat → UInt8} {w n j : Nat}
    (h : SameWords (read d (2 * w) (2 * n)) (read d' (2 * w) (2 * n))) (hj : j < n) :
    getByte (wordOfBytes (d (2 * (w + j))) (d (2 * (w + j) + 1)))
      = getByte (wordOfBytes (d' (2 * (w + j))) (d' (2 * (w + j) + 1))) := by
  have hcons : ∀ d : Nat → UInt8, ∀ w n, read d (2 * w) (2 * (n + 1))
      = d (2 * w) :: d (2 * w + 1) :: read d (2 * (w + 1)) (2 * n) := by
    intro d w n
    rw [show 2 * (n + 1) = 2 + 2 * n by omega, read_add, show 2 * w + 2 = 2 * (w + 1) by omega]
    rfl
  induction n generalizing w j with
  | zero => omega
  | succ n ih =>
    rw [hcons, hcons] at h
    cases j with
    | zero => exact h.1
    | succ j =>
      have hrest := ih h.2 (show j < n by omega)
      rw [show w + 1 + j = w + (j + 1) by omega] at hrest
      exact hrest

/-- The library cannot tell a damaged tree from the clean one. -/
theorem Damaged.settle_eq (L : Layout m) {root : Nat} (hclean : CleanTree m root s)
    (h : Damaged m root s t) : s.settle noWord = t.settle noWord := by
  have hm := L.evenSizes
  have hbytes : settle noWord s.medium.bytes = settle noWord t.medium.bytes := by
    funext k
    rw [settle_of_not id, settle_of_not id]
    unfold cleanByte
    by_cases hin : InDirectory m root s k
    · -- the word lies in a directory cluster
      obtain ⟨c, hdir, hc, hlo, hhi⟩ := hin
      obtain ⟨w, hw⟩ : 2 ∣ clusterAddr m c := Nat.dvd_mul_left_of_dvd hm.sector _
      obtain ⟨n, hn⟩ := hm.cluster
      have hraw : ∀ s : FS, (view m s).raw c = read s.medium.bytes (2 * w) (2 * n) := by
        intro s
        show (if InVol m c then _ else _) = _
        rw [if_pos hc, hw, hn]
      have hflips := h.flips c hdir hc
      have hwords : SameWords ((view m s).raw c) ((view m t).raw c) := by
        rw [← hclean c hdir hc] at hflips ⊢
        exact SameWords.of_flips hflips
      rw [hraw, hraw] at hwords
      have hword := hwords.word (show k / 2 - w < n by omega)
      rw [show 2 * (w + (k / 2 - w)) = k / 2 * 2 by omega] at hword
      rw [hword]
    · have hout : ∀ j, j / 2 = k / 2 → t.medium.bytes j = s.medium.bytes j := by
        intro j hj
        refine h.outside j ?_
        rintro ⟨c, hdir, hc, hlo, hhi⟩
        obtain ⟨w, hw⟩ : 2 ∣ clusterAddr m c := Nat.dvd_mul_left_of_dvd hm.sector _
        obtain ⟨n, hn⟩ := hm.cluster
        exact hin ⟨c, hdir, hc, by omega, by omega⟩
      rw [hout _ (by omega), hout _ (by omega)]
  have hrest := h.rest
  have heq : ∀ d : Nat → UInt8, settle noWord s.medium.bytes = settle noWord d →
      s.settle noWord = FS.settle noWord { s with medium := { s.medium with bytes := d } } := by
    intro d hd
    unfold FS.settle Medium.settle
    rw [hd]
  rw [hrest]
  exact heq _ hbytes

theorem rel_imp {α : Type} {R R' : α → α → Prop} (hR : ∀ a b, R a b → R' a b) {x y : Option α}
    (h : Option.Rel R x y) : Option.Rel R' x y := by
  cases h with
  | none => exact Option.Rel.none
  | some hab => exact Option.Rel.some (hR _ _ hab)

/-- Two runs of a call: both complete or neither does, with the same result, they decode alike, and
the clusters in `cs` end with the same bytes. -/
def SameRun (m : Mount) {ρ : Type} (cs : List Nat) (x y : Option (ρ × FS)) : Prop :=
  Option.Rel (fun r r' => r'.1 = r.1 ∧ SameMetadata m r.2 r'.2 ∧
    ∀ c ∈ cs, (view m r'.2).raw c = (view m r.2).raw c) x y

section Calls

/-- The bytes of a cluster whose words are left as they are. -/
theorem raw_of_settle (hm : EvenSizes m) {c : Nat}
    (h : s.settle (clusterWords m c) = t.settle (clusterWords m c)) :
    (view m t).raw c = (view m s).raw c := by
  unfold view
  simp only
  split
  · refine read_congr _ _ _ _ fun k hlo hhi => ?_
    obtain ⟨w, hw⟩ : 2 ∣ clusterAddr m c := Nat.dvd_mul_left_of_dvd hm.sector _
    obtain ⟨n, hn⟩ := hm.cluster
    have hk : clusterWords m c (k / 2) := ⟨by omega, by omega⟩
    have hb := congrFun (settle_bytes h) k
    rw [settle_of hk, settle_of hk] at hb
    exact hb.symm
  · rfl

/-- A call that is a walk, with something at its end that commutes with settling. -/
theorem sameRun_walk (L : Layout m) {σ ρ : Type} {handler : Handler σ} {fuel ca : Nat} {ctx : σ}
    (hh : ∀ U, Settles U handler) (g : Bool → σ → FS → ρ × FS)
    (hg : ∀ U exit ctx s, g exit ctx (s.settle U) = settleResult U (g exit ctx s))
    (h : s.settle noWord = t.settle noWord) :
    SameRun m (visits m handler fuel ca ctx s)
      ((entryIterate m handler fuel ca ctx s).map fun (exit, ctx, s) => g exit ctx s)
      ((entryIterate m handler fuel ca ctx t).map fun (exit, ctx, s) => g exit ctx s) := by
  have hm := L.evenSizes
  cases he : entryIterate m handler fuel ca ctx s with
  | none =>
    have heq := congrArg (entryIterate m handler fuel ca ctx) h
    rw [entryIterate_settle hm (hh noWord), entryIterate_settle hm (hh noWord), he] at heq
    rw [Option.map_eq_none_iff.mp heq.symm]
    exact Option.Rel.none
  | some out =>
    obtain ⟨exit, ctx', s'⟩ := out
    obtain ⟨t', ht', hset, hvisits⟩ := iterate_heals L hh h he
    rw [ht']
    have hrun := settle_run (hg noWord exit ctx') hset
    refine Option.Rel.some ⟨hrun.1.symm, sameMetadata_of_settle hm hrun.2, fun c hc => ?_⟩
    exact raw_of_settle hm (settle_run (hg _ exit ctx') (hvisits c hc)).2

variable {root : Nat} (L : Layout m) (hclean : CleanTree m root s) (h : Damaged m root s t)

include L hclean h

end Calls

/-! ### A damaged root directory -/

/-- The medium with the lowest bit flipped at one address. -/
def flipLowBit (a : Nat) (s : FS) : FS :=
  { s with medium := { s.medium with
      bytes := fun k => if k = a then s.medium.bytes k ^^^ 1 else s.medium.bytes k } }

theorem flipLowBit_self (a : Nat) :
    (flipLowBit a s).medium.bytes a = s.medium.bytes a ^^^ 1 := if_pos rfl

theorem flipLowBit_ne {a k : Nat} (h : k ≠ a) :
    (flipLowBit a s).medium.bytes k = s.medium.bytes k := if_neg h

/-- The only directory of the small volume is its root. -/
theorem smallVol_dirCluster {c : Nat} (h : DirCluster (smallMount 0) smallVol 2 c) : c = 2 := by
  have hlive : smallVol.live (smallMount 0) 2 = [] := by
    show live (smallVol.slots (smallMount 0) 2) = []
    rw [smallVol_slots]
    exact live_cons_end first_zeroSlot
  induction h with
  | root => rfl
  | link _ hend ih =>
    subst ih
    exact absurd rfl hend
  | entry _ he _ ih =>
    subst ih
    rw [hlive] at he
    exact absurd he List.not_mem_nil

theorem packMemory_replicate_zero (n : Nat) :
    packMemory (List.replicate n 0) = List.replicate (2 * n) 0 := by
  induction n with
  | zero => rfl
  | succ n ih =>
    rw [List.replicate_succ, packMemory_cons, ih, show 2 * (n + 1) = 2 * n + 1 + 1 by omega,
      List.replicate_succ, List.replicate_succ]
    rfl

theorem smallVol_damaged (hs : Shows (smallMount 0) s smallVol) :
    CleanTree (smallMount 0) 2 s ∧
      Damaged (smallMount 0) 2 s (flipLowBit (clusterAddr (smallMount 0) 2) s) := by
  have hc : InVol (smallMount 0) 2 := by decide
  have hraw : smallVol.raw 2 = List.replicate (2 * 128) 0 := rfl
  have hcut : ∀ d : Nat → UInt8, ∀ a, read d a 256 = d a :: d (a + 1) :: read d (a + 2) 254 := by
    intro d a
    rw [show 256 = 2 + 254 by omega, read_add]
    rfl
  have hread : read s.medium.bytes (clusterAddr (smallMount 0) 2) 256 = List.replicate 256 0 :=
    hs.raw_eq hc
  refine ⟨fun c hdir _ => ?_, rfl, fun a hout => ?_, fun c hdir _ => ?_⟩
  · rw [hs.view_eq] at hdir ⊢
    rw [smallVol_dirCluster hdir, hraw]
    show packMemory (unpackMemory _ 128) = _
    rw [unpackMemory_replicate_zero, packMemory_replicate_zero]
  · have hne : a ≠ clusterAddr (smallMount 0) 2 := by
      intro heq
      refine hout ⟨2, DirCluster.root, hc, Nat.le_of_eq heq.symm, ?_⟩
      rw [heq]
      exact Nat.lt_add_of_pos_right (by decide)
    exact flipLowBit_ne hne
  · rw [hs.view_eq] at hdir
    rw [smallVol_dirCluster hdir]
    show WordFlips (read s.medium.bytes (clusterAddr (smallMount 0) 2) 256)
      (read (flipLowBit (clusterAddr (smallMount 0) 2) s).medium.bytes
        (clusterAddr (smallMount 0) 2) 256)
    have hrest : read (flipLowBit (clusterAddr (smallMount 0) 2) s).medium.bytes
        (clusterAddr (smallMount 0) 2 + 2) 254
        = read s.medium.bytes (clusterAddr (smallMount 0) 2 + 2) 254 :=
      read_congr _ _ _ _ fun k hlo _ => flipLowBit_ne (by omega)
    have hnext : (flipLowBit (clusterAddr (smallMount 0) 2) s).medium.bytes
        (clusterAddr (smallMount 0) 2 + 1) = s.medium.bytes (clusterAddr (smallMount 0) 2 + 1) :=
      flipLowBit_ne (Nat.succ_ne_self _)
    rw [hcut] at hread
    obtain ⟨h0, hread⟩ := List.cons.inj hread
    obtain ⟨h1, -⟩ := List.cons.inj hread
    rw [hcut, hcut, hrest, hnext, flipLowBit_self, h0, h1]
    exact ⟨Or.inr ⟨0, by decide, by decide⟩, WordFlips.refl _⟩

end NiFat32
