import Mathlib.Logic.Relation
import NiFat32.Proofs.Reencode
import NiFat32.Proofs.Rename

/-!
# `Proofs.RepairTree`: the repair of directories

`NIFAT32_repair_content` walks over a directory with the handler `NULL`, or with one that walks
into every entry with the directory attribute. `Reaches` are the clusters that such a walk visits,
and `Ends` says that it ends there without calling a missing handler. A walk that completes leaves
the volume with the clusters it reaches encoded again (`iterate_reencodes`), and a walk that ends
completes (`iterate_completes`).
-/

set_option autoImplicit false

namespace NiFat32

open Run

variable {m : Mount} {s s₀ : FS} {v : Vol} {rec : Prop} {ca : Nat}

/-! ### Where the repair goes -/

/-- The walk goes on from the cluster `c` to `c'`: over the link, or into an entry that has the
directory attribute, valid or not. -/
def Leads (m : Mount) (v : Vol) (rec : Prop) (c c' : Nat) : Prop :=
  InVol m c ∧ (v.fat c ≠ FAT_CLUSTER_END ∧ c' = v.fat c ∨
    rec ∧ ∃ e ∈ visible (v.slots m c), e.isDir ∧ c' = e.dca.toNat)

/-- The walk from `ca` visits the cluster `c`. -/
def Reaches (m : Mount) (v : Vol) (rec : Prop) (ca c : Nat) : Prop :=
  Relation.ReflTransGen (Leads m v rec) ca c

/-- The walk from `ca` stays in the volume. -/
def StaysIn (m : Mount) (v : Vol) (rec : Prop) (ca : Nat) : Prop :=
  ∀ c, Reaches m v rec ca c → InVol m c ∨ c = FAT_CLUSTER_BAD

/-- The walk from a cluster ends, and every entry it meets has a handler. -/
inductive Ends (m : Mount) (v : Vol) (rec : Prop) : Nat → Prop
  | bad : Ends m v rec FAT_CLUSTER_BAD
  | cluster {c : Nat} (hc : InVol m c) (hhandler : ∀ e ∈ visible (v.slots m c), rec)
      (hentries : ∀ e ∈ visible (v.slots m c), e.isDir → Ends m v rec e.dca.toNat)
      (hlink : v.fat c ≠ FAT_CLUSTER_END → Ends m v rec (v.fat c)) : Ends m v rec c

theorem reaches_self : Reaches m v rec ca ca := Relation.ReflTransGen.refl

/-- A step, then the rest of the walk. -/
theorem Leads.reaches {b c : Nat} (h : Leads m v rec ca b) (hr : Reaches m v rec b c) :
    Reaches m v rec ca c := Relation.ReflTransGen.head h hr

/-- The walk visits `c` through an entry of the cluster `ca`. -/
def Enters (m : Mount) (v : Vol) (rec : Prop) (ca c : Nat) : Prop :=
  ∃ e ∈ visible (v.slots m ca), rec ∧ e.isDir ∧ Reaches m v rec e.dca.toNat c

/-- What a walk visits: its first cluster, what its entries lead to, and what its link leads
to. -/
theorem reaches_iff {c : Nat} (hca : InVol m ca) : Reaches m v rec ca c ↔
    (Enters m v rec ca c ∨ c = ca) ∨
      (v.fat ca ≠ FAT_CLUSTER_END ∧ Reaches m v rec (v.fat ca) c) := by
  constructor
  · intro h
    rcases Relation.ReflTransGen.cases_head h with heq | ⟨b, hlead, hrest⟩
    · exact Or.inl (Or.inr heq.symm)
    · obtain ⟨-, hlink | hentry⟩ := hlead
      · obtain ⟨hend, rfl⟩ := hlink
        exact Or.inr ⟨hend, hrest⟩
      · obtain ⟨hrec, e, he, hdir, rfl⟩ := hentry
        exact Or.inl (Or.inl ⟨e, he, hrec, hdir, hrest⟩)
  · rintro ((⟨e, he, hrec, hdir, hrest⟩ | rfl) | ⟨hend, hrest⟩)
    · exact Leads.reaches ⟨hca, Or.inr ⟨hrec, e, he, hdir, rfl⟩⟩ hrest
    · exact reaches_self
    · exact Leads.reaches ⟨hca, Or.inl ⟨hend, rfl⟩⟩ hrest

theorem reaches_of_end {c : Nat} (hca : InVol m ca) (hend : v.fat ca = FAT_CLUSTER_END) :
    Reaches m v rec ca c ↔ Enters m v rec ca c ∨ c = ca := by
  rw [reaches_iff hca]
  simp [hend]

theorem reaches_of_link {c : Nat} (hca : InVol m ca) (hend : v.fat ca ≠ FAT_CLUSTER_END) :
    Reaches m v rec ca c ↔ (Enters m v rec ca c ∨ c = ca) ∨ Reaches m v rec (v.fat ca) c := by
  rw [reaches_iff hca]
  simp [hend]

/-- Nothing follows a bad cluster. -/
theorem reaches_bad {c : Nat} (L : Layout m) (h : Reaches m v rec FAT_CLUSTER_BAD c) :
    c = FAT_CLUSTER_BAD := by
  rcases Relation.ReflTransGen.cases_head h with heq | ⟨b, hlead, -⟩
  · exact heq.symm
  · exact absurd hlead.1 L.not_inVol_bad

theorem StaysIn.entry (h : StaysIn m v rec ca) (hca : InVol m ca) (hrec : rec) {e : DirEntry}
    (he : e ∈ visible (v.slots m ca)) (hdir : e.isDir) : StaysIn m v rec e.dca.toNat :=
  fun c hc => h c (Leads.reaches ⟨hca, Or.inr ⟨hrec, e, he, hdir, rfl⟩⟩ hc)

theorem StaysIn.link (h : StaysIn m v rec ca) (hca : InVol m ca)
    (hend : v.fat ca ≠ FAT_CLUSTER_END) : StaysIn m v rec (v.fat ca) :=
  fun c hc => h c (Leads.reaches ⟨hca, Or.inl ⟨hend, rfl⟩⟩ hc)

/-- A walk that ends stays in the volume. -/
theorem Ends.staysIn (L : Layout m) (h : Ends m v rec ca) : StaysIn m v rec ca := by
  induction h with
  | bad => exact fun c hc => Or.inr (reaches_bad L hc)
  | cluster hca hhandler hentries hlink ih ihlink =>
    intro c hc
    rcases (reaches_iff hca).mp hc with (⟨e, he, -, hdir, hrest⟩ | heq) | ⟨hend, hrest⟩
    · exact ih e he hdir c hrest
    · rw [heq]
      exact Or.inl hca
    · exact ihlink hend c hrest

/-! ### What a walk leaves -/

/-- What the handler does with an entry: it goes into a directory, and it completes only where
that walk ends. -/
def HandlesEntry (m : Mount) (v : Vol) (rec : Prop) (handler : Handler Unit) (e : DirEntry) :
    Prop :=
  (rec → e.isDir → StaysIn m v rec e.dca.toNat) → ∀ info X s out, Shows m s (v.reencoded m X) →
    handler info e () s = some out →
    ∃ s', out = (false, e, (), s') ∧
      Shows m s' (v.reencoded m fun c => X c ∨ rec ∧ e.isDir ∧ Reaches m v rec e.dca.toNat c) ∧
      rec ∧ (e.isDir → Ends m v rec e.dca.toNat)

/-- The entries of one cluster. -/
theorem slotLoop_reencodes {handler : Handler Unit} {es : List DirEntry}
    (hh : ∀ e ∈ visible es, HandlesEntry m v rec handler e)
    (hin : ∀ e ∈ visible es, rec → e.isDir → StaysIn m v rec e.dca.toNat) (i : Nat) {X : Nat → Prop}
    {out : Bool × List DirEntry × Unit × FS} (h : Shows m s (v.reencoded m X))
    (hrun : slotLoop handler ca i es () s = some out) :
    ∃ s', out = (false, es, (), s') ∧
      Shows m s' (v.reencoded m fun c => X c ∨
        ∃ e ∈ visible es, rec ∧ e.isDir ∧ Reaches m v rec e.dca.toNat c) ∧
      ∀ e ∈ visible es, rec ∧ (e.isDir → Ends m v rec e.dca.toNat) := by
  induction es generalizing i s X out with
  | nil =>
    obtain rfl := Option.some.inj hrun
    refine ⟨s, rfl, ?_, fun e he => absurd he List.not_mem_nil⟩
    simpa [visible] using h
  | cons e es ih =>
    unfold slotLoop at hrun
    by_cases hend : e.first = ENTRY_END
    · rw [if_pos hend] at hrun
      obtain rfl := Option.some.inj hrun
      rw [visible_cons_end hend]
      refine ⟨s, rfl, ?_, fun e he => absurd he List.not_mem_nil⟩
      simpa using h
    · rw [if_neg hend] at hrun
      rw [visible_cons hend] at hh hin ⊢
      cases hstep : handler ⟨ca, i⟩ e () s with
      | none =>
        rw [hstep] at hrun
        cases hrun
      | some out₁ =>
        obtain ⟨s₁, rfl, hs₁, hrec, hends⟩ := hh e List.mem_cons_self (hin e List.mem_cons_self)
          _ X s out₁ h hstep
        rw [hstep] at hrun
        obtain ⟨out₂, hrest, rfl⟩ := Option.map_eq_some_iff.mp hrun
        obtain ⟨s₂, rfl, hs₂, hall⟩ := ih (fun d hd => hh d (List.mem_cons_of_mem e hd))
          (fun d hd => hin d (List.mem_cons_of_mem e hd)) (i + 1) hs₁ hrest
        refine ⟨s₂, rfl, ?_, ?_⟩
        · have hset : (fun c => (X c ∨ rec ∧ e.isDir ∧ Reaches m v rec e.dca.toNat c) ∨
              ∃ d ∈ visible es, rec ∧ d.isDir ∧ Reaches m v rec d.dca.toNat c)
              = fun c => X c ∨ ∃ d ∈ e :: visible es, rec ∧ d.isDir ∧
                Reaches m v rec d.dca.toNat c := by
            funext c
            simp [or_assoc]
          rw [hset] at hs₂
          exact hs₂
        · intro d hd
          cases List.mem_cons.mp hd with
          | inl heq =>
            rw [heq]
            exact ⟨hrec, hends⟩
          | inr hmem => exact hall d hmem

section Cluster

variable {handler : Handler Unit} {X : Nat → Prop} (L : Layout m) (h₀ : Shows m s₀ v)

include L h₀

/-- The slots that a walk over `ca` goes through. -/
theorem iterate_slots (hca : InVol m ca) (h : Shows m s (v.reencoded m X)) (fuel : Nat)
    (hnone : slotLoop handler ca 0 (v.slots m ca) () s = none) :
    entryIterate m handler (fuel + 1) ca () s = none := by
  have hslots : slotsOf (entriesPerCluster m) (unpackMemory ((v.reencoded m X).raw ca)
      (decodedLen m)) = v.slots m ca := Vol.slots_reencoded h₀ ca
  unfold entryIterate
  rw [readEncodedCluster_shows L h hca]
  simp only [hslots, hnone]

/-- A cluster whose slots the walk went through is written back, and the walk goes on over the
link. -/
theorem iterate_cluster (hh : ∀ e, HandlesEntry m v rec handler e) (hca : InVol m ca)
    (hin : StaysIn m v rec ca) (h : Shows m s (v.reencoded m X)) (fuel : Nat)
    (hsome : slotLoop handler ca 0 (v.slots m ca) () s ≠ none) :
    ∃ s', Shows m s' (v.reencoded m fun c => (X c ∨ Enters m v rec ca c) ∨ c = ca) ∧
      (∀ e ∈ visible (v.slots m ca), rec ∧ (e.isDir → Ends m v rec e.dca.toNat)) ∧
      entryIterate m handler (fuel + 1) ca () s =
        if v.fat ca ≠ FAT_CLUSTER_END then entryIterate m handler fuel (v.fat ca) () s'
        else some (false, (), s') := by
  have hslots : slotsOf (entriesPerCluster m) (unpackMemory ((v.reencoded m X).raw ca)
      (decodedLen m)) = v.slots m ca := Vol.slots_reencoded h₀ ca
  obtain ⟨out, hloop⟩ := Option.ne_none_iff_exists'.mp hsome
  obtain ⟨s₁, rfl, hs₁, hall⟩ := slotLoop_reencodes (fun e _ => hh e)
    (fun e he hrec hdir => hin.entry hca hrec he hdir) 0 h hloop
  -- what is written back are the clean words of the cluster
  have hwrite : repackCluster m ((v.reencoded m X).raw ca)
      (unpackMemory ((v.reencoded m X).raw ca) (decodedLen m)) (v.slots m ca)
      = reencode m (v.raw ca) := by
    rw [← Vol.reencode_reencoded h₀ ca, ← repackCluster_slotsIn (h.length_raw hca), ← hslots]
    rfl
  obtain ⟨s₂, he₂, hs₂, -⟩ := writeCluster_shows L hs₁ hca (length_reencode (h₀.length_raw hca))
  obtain ⟨s₃, he₃, hs₃, -⟩ := readFat_shows L hs₂ ca
  rw [Vol.setRaw_reencoded] at hs₃
  refine ⟨s₃, hs₃, hall, ?_⟩
  conv_lhs => unfold entryIterate
  rw [readEncodedCluster_shows L h hca]
  simp only [hslots, hloop, hwrite, he₂, he₃, Vol.setRaw_fat, Vol.reencoded_fat, and_true]

/-- The clusters of a walk that completes. -/
theorem iterate_reencodes (hh : ∀ e, HandlesEntry m v rec handler e) (fuel : Nat)
    {out : Bool × Unit × FS} (hin : StaysIn m v rec ca) (h : Shows m s (v.reencoded m X))
    (hrun : entryIterate m handler fuel ca () s = some out) :
    ∃ s', out = (false, (), s') ∧
      Shows m s' (v.reencoded m fun c => X c ∨ Reaches m v rec ca c) ∧ Ends m v rec ca := by
  induction fuel generalizing ca s X out with
  | zero => cases hrun
  | succ fuel ih =>
    rcases hin ca reaches_self with hca | rfl
    · have hsome : slotLoop handler ca 0 (v.slots m ca) () s ≠ none := by
        intro hnone
        rw [iterate_slots L h₀ hca h fuel hnone] at hrun
        cases hrun
      obtain ⟨s₁, hs₁, hall, hgo⟩ := iterate_cluster L h₀ hh hca hin h fuel hsome
      rw [hgo] at hrun
      by_cases hend : v.fat ca = FAT_CLUSTER_END
      · rw [if_neg (not_not.mpr hend)] at hrun
        obtain rfl := Option.some.inj hrun
        refine ⟨s₁, rfl, ?_, ?_⟩
        · have hset : (fun c => (X c ∨ Enters m v rec ca c) ∨ c = ca)
              = fun c => X c ∨ Reaches m v rec ca c := by
            funext c
            rw [reaches_of_end hca hend, or_assoc]
          rw [← hset]
          exact hs₁
        · exact .cluster hca (fun e he => (hall e he).1) (fun e he => (hall e he).2)
            fun hne => absurd hend hne
      · rw [if_pos hend] at hrun
        obtain ⟨s₂, rfl, hs₂, hends⟩ := ih (hin.link hca hend) hs₁ hrun
        refine ⟨s₂, rfl, ?_, ?_⟩
        · have hset : (fun c => ((X c ∨ Enters m v rec ca c) ∨ c = ca) ∨
              Reaches m v rec (v.fat ca) c) = fun c => X c ∨ Reaches m v rec ca c := by
            funext c
            rw [reaches_of_link hca hend, or_assoc, or_assoc, or_assoc]
          rw [← hset]
          exact hs₂
        · exact .cluster hca (fun e he => (hall e he).1) (fun e he => (hall e he).2) fun _ => hends
    · -- the bad cluster is not read
      unfold entryIterate readEncodedCluster at hrun
      rw [if_pos rfl] at hrun
      obtain rfl := Option.some.inj hrun
      refine ⟨_, rfl, ?_, .bad⟩
      have hset : (fun c => X c ∨ Reaches m v rec FAT_CLUSTER_BAD c)
          = fun c => X c ∨ c = FAT_CLUSTER_BAD := by
        funext c
        have hiff : Reaches m v rec FAT_CLUSTER_BAD c ↔ c = FAT_CLUSTER_BAD :=
          ⟨reaches_bad L, fun heq => heq ▸ reaches_self⟩
        rw [hiff]
      rw [hset, Vol.reencoded_outside h₀ L.not_inVol_bad]
      exact (registerError_shows L h .badClusterError).1

end Cluster

/-! ### The handlers -/

/-- The handler of `NIFAT32_repair_content`. -/
def repairHandlerFor (m : Mount) (rec : Int) (fuel : Nat) : Handler Unit :=
  if rec = 0 then nullHandler else repairHandler m fuel

theorem repairHandler_handles (L : Layout m) (h₀ : Shows m s₀ v) (hrec : rec) (fuel : Nat)
    (e : DirEntry) : HandlesEntry m v rec (repairHandler m fuel) e := by
  induction fuel generalizing e with
  | zero =>
    intro hin info X s out h hrun
    cases hrun
  | succ fuel ih =>
    intro hin info X s out h hrun
    unfold repairHandler at hrun
    by_cases hdir : e.isDir
    · rw [if_pos hdir] at hrun
      obtain ⟨out₁, hwalk, rfl⟩ := Option.map_eq_some_iff.mp hrun
      obtain ⟨s', rfl, hs', hends⟩ := iterate_reencodes L h₀ ih fuel (hin hrec hdir) h hwalk
      refine ⟨s', rfl, ?_, hrec, fun _ => hends⟩
      simpa [hrec, hdir] using hs'
    · rw [if_neg hdir] at hrun
      obtain rfl := Option.some.inj hrun
      refine ⟨s, rfl, ?_, hrec, fun h => absurd h hdir⟩
      simpa [hdir] using h

theorem repairHandlerFor_handles (L : Layout m) (h₀ : Shows m s₀ v) (rec : Int) (fuel : Nat)
    (e : DirEntry) : HandlesEntry m v (rec ≠ 0) (repairHandlerFor m rec fuel) e := by
  unfold repairHandlerFor
  by_cases hrec : rec = 0
  · rw [if_pos hrec]
    intro hin info X s out h hrun
    cases hrun
  · rw [if_neg hrec]
    exact repairHandler_handles L h₀ hrec fuel e

/-! ### Walks that end complete -/

/-- A bound for each member of a list is a bound for all of them. -/
theorem exists_common_bound {α : Type} {P : α → Nat → Prop}
    (hmono : ∀ a n k, n ≤ k → P a n → P a k) (l : List α) (h : ∀ a ∈ l, ∃ n, P a n) :
    ∃ n, ∀ a ∈ l, P a n := by
  induction l with
  | nil => exact ⟨0, fun a ha => absurd ha List.not_mem_nil⟩
  | cons a l ih =>
    obtain ⟨n, hn⟩ := h a List.mem_cons_self
    obtain ⟨k, hk⟩ := ih fun b hb => h b (List.mem_cons_of_mem a hb)
    refine ⟨max n k, fun b hb => ?_⟩
    cases List.mem_cons.mp hb with
    | inl heq => exact heq ▸ hmono a n _ (Nat.le_max_left n k) hn
    | inr hmem => exact hmono b k _ (Nat.le_max_right n k) (hk b hmem)

/-- The walk from `ca` completes, on the volume with any clusters encoded again already. -/
def Completes (m : Mount) (v : Vol) (handler : Handler Unit) (fuel ca : Nat) : Prop :=
  ∀ X s, Shows m s (v.reencoded m X) → entryIterate m handler fuel ca () s ≠ none

/-- The entries of one cluster. -/
theorem slotLoop_completes {handler : Handler Unit} {es : List DirEntry}
    (hh : ∀ e ∈ visible es, HandlesEntry m v rec handler e)
    (hin : ∀ e ∈ visible es, rec → e.isDir → StaysIn m v rec e.dca.toNat)
    (hdone : ∀ e ∈ visible es, ∀ info X s, Shows m s (v.reencoded m X) →
      handler info e () s ≠ none) (i : Nat) {X : Nat → Prop} (h : Shows m s (v.reencoded m X)) :
    slotLoop handler ca i es () s ≠ none := by
  induction es generalizing i s X with
  | nil => exact Option.some_ne_none _
  | cons e es ih =>
    unfold slotLoop
    by_cases hend : e.first = ENTRY_END
    · rw [if_pos hend]
      exact Option.some_ne_none _
    · rw [if_neg hend]
      rw [visible_cons hend] at hh hin hdone
      cases hstep : handler ⟨ca, i⟩ e () s with
      | none => exact absurd hstep (hdone e List.mem_cons_self _ X s h)
      | some out₁ =>
        obtain ⟨s₁, rfl, hs₁, -⟩ := hh e List.mem_cons_self (hin e List.mem_cons_self) _ X s out₁ h
          hstep
        have hrest := ih (fun d hd => hh d (List.mem_cons_of_mem e hd))
          (fun d hd => hin d (List.mem_cons_of_mem e hd))
          (fun d hd => hdone d (List.mem_cons_of_mem e hd)) (i + 1) hs₁
        show Option.map _ _ ≠ none
        rw [Ne, Option.map_eq_none_iff]
        exact hrest

/-- A walk that ends completes when there is enough fuel. -/
theorem iterate_completes (L : Layout m) (h₀ : Shows m s₀ v) (rec : Int)
    (h : Ends m v (rec ≠ 0) ca) :
    ∃ n, ∀ fuel ≥ n, ∀ fuel' ≥ n, Completes m v (repairHandlerFor m rec fuel) fuel' ca := by
  induction h with
  | bad =>
    refine ⟨1, fun fuel _ fuel' hfuel' X s hs => ?_⟩
    obtain ⟨k, rfl⟩ : ∃ k, fuel' = k + 1 := ⟨fuel' - 1, by omega⟩
    unfold entryIterate readEncodedCluster
    rw [if_pos rfl]
    exact Option.some_ne_none _
  | @cluster c hc hhandler hentries hlink ih ihlink =>
    have hin := (Ends.cluster hc hhandler hentries hlink).staysIn L
    -- one bound for the entries and one for the link
    obtain ⟨n₁, hn₁⟩ := exists_common_bound
      (P := fun e n => e.isDir → ∀ fuel ≥ n, ∀ fuel' ≥ n,
        Completes m v (repairHandlerFor m rec fuel) fuel' e.dca.toNat)
      (by
        intro e n k hnk hn hdir fuel hf fuel' hf'
        exact hn hdir fuel (Nat.le_trans hnk hf) fuel' (Nat.le_trans hnk hf'))
      (visible (v.slots m c))
      (by
        intro e he
        by_cases hdir : e.isDir
        · obtain ⟨n, hn⟩ := ih e he hdir
          exact ⟨n, fun _ => hn⟩
        · exact ⟨0, fun h => absurd h hdir⟩)
    obtain ⟨n₂, hn₂⟩ : ∃ n, v.fat c ≠ FAT_CLUSTER_END → ∀ fuel ≥ n, ∀ fuel' ≥ n,
        Completes m v (repairHandlerFor m rec fuel) fuel' (v.fat c) := by
      by_cases hend : v.fat c = FAT_CLUSTER_END
      · exact ⟨0, fun h => absurd hend h⟩
      · obtain ⟨n, hn⟩ := ihlink hend
        exact ⟨n, fun _ => hn⟩
    refine ⟨max n₁ n₂ + 1, fun fuel hfuel fuel' hfuel' X s hs => ?_⟩
    obtain ⟨k, rfl⟩ : ∃ k, fuel = k + 1 := ⟨fuel - 1, by omega⟩
    obtain ⟨k', rfl⟩ : ∃ k', fuel' = k' + 1 := ⟨fuel' - 1, by omega⟩
    have hh := repairHandlerFor_handles L h₀ rec (k + 1)
    have hdone : ∀ e ∈ visible (v.slots m c), ∀ info X s, Shows m s (v.reencoded m X) →
        repairHandlerFor m rec (k + 1) info e () s ≠ none := by
      intro e he info X s hs
      have hrec := hhandler e he
      have hnext := hn₁ e he
      unfold repairHandlerFor at hnext ⊢
      simp only [if_neg hrec] at hnext ⊢
      unfold repairHandler
      by_cases hdir : e.isDir
      · rw [if_pos hdir, Ne, Option.map_eq_none_iff]
        exact hnext hdir k (by omega) k (by omega) X s hs
      · rw [if_neg hdir]
        exact Option.some_ne_none _
    have hsome : slotLoop (repairHandlerFor m rec (k + 1)) c 0 (v.slots m c) () s ≠ none :=
      slotLoop_completes (fun e _ => hh e) (fun e he hrec hdir => hin.entry hc hrec he hdir)
        hdone 0 hs
    obtain ⟨s', hs', -, hgo⟩ := iterate_cluster L h₀ hh hc hin hs k' hsome
    rw [hgo]
    by_cases hend : v.fat c = FAT_CLUSTER_END
    · rw [if_neg (not_not.mpr hend)]
      exact Option.some_ne_none _
    · rw [if_pos hend]
      exact hn₂ hend (k + 1) (by omega) k' (by omega) _ s' hs'

/-! ### What the repair owes -/

/-- The repair of the directory `ci` completes and only repairs, in the tree with the root
`root`. -/
def RepairsOnly (m : Mount) (root : Nat) (ci rec : Int) (s : FS) (v : Vol) : Prop :=
  Ensures (fun fuel => repairContent m fuel ci rec s) fun r => r.1 = true ∧
    (∀ c, FileCluster m v root c → (view m r.2).raw c = v.raw c) ∧
    (∀ c, DirCluster m v root c → decoded m ((view m r.2).raw c) = decoded m (v.raw c)) ∧
    ∀ c, DirCluster m v root c → InVol m c → Reaches m v (rec ≠ 0) (getContentDataCa ci s) c →
      CleanWords m ((view m r.2).raw c)

/-- The repair goes nowhere it should not: it ends, every entry it meets has a handler, and the
clusters of files that it visits hold clean words already. -/
structure RepairSafe (m : Mount) (root : Nat) (ci rec : Int) (s : FS) (v : Vol) : Prop where
  ends : Ends m v (rec ≠ 0) (getContentDataCa ci s)
  files : ∀ c, FileCluster m v root c → InVol m c →
    Reaches m v (rec ≠ 0) (getContentDataCa ci s) c → CleanWords m (v.raw c)

section Main

variable {root : Nat} {ci rec : Int}

/-- The repair is the walk from the first cluster of the directory. -/
theorem repairContent_eq (hdir : getContentType ci s = .directory) (fuel : Nat) :
    repairContent m fuel ci rec s = (entryIterate m (repairHandlerFor m rec fuel) fuel
      (getContentDataCa ci s) () s).map fun (_, _, s) => (true, s) := by
  unfold repairContent
  rw [if_neg (not_not.mpr hdir)]
  rfl

/-- The volume before the repair, as one of which nothing is encoded again. -/
theorem Shows.reencoded_none (h : Shows m s v) : Shows m s (v.reencoded m fun _ => False) := by
  rw [Vol.reencoded_none fun c hc => hc]
  exact h

/-- What a repair that completes leaves. -/
theorem repairContent_leaves (L : Layout m) (h : Shows m s v)
    (hdir : getContentType ci s = .directory)
    (hin : StaysIn m v (rec ≠ 0) (getContentDataCa ci s)) {fuel : Nat} {r : Bool} {s' : FS}
    (hrun : repairContent m fuel ci rec s = some (r, s')) :
    Ends m v (rec ≠ 0) (getContentDataCa ci s) ∧
      Shows m s'
        (v.reencoded m fun c => False ∨ Reaches m v (rec ≠ 0) (getContentDataCa ci s) c) := by
  rw [repairContent_eq hdir] at hrun
  obtain ⟨out, hwalk, heq⟩ := Option.map_eq_some_iff.mp hrun
  obtain ⟨s₁, rfl, hs₁, hends⟩ := iterate_reencodes L h (repairHandlerFor_handles L h rec fuel) fuel
    hin h.reencoded_none hwalk
  obtain rfl : s₁ = s' := congrArg (fun x : Bool × FS => x.2) heq
  exact ⟨hends, hs₁⟩

/-- A safe repair only repairs. -/
theorem RepairSafe.repairsOnly (L : Layout m) (h : Shows m s v)
    (hdir : getContentType ci s = .directory) (hsafe : RepairSafe m root ci rec s v) :
    RepairsOnly m root ci rec s v := by
  obtain ⟨n, hn⟩ := iterate_completes L h rec hsafe.ends
  refine ⟨n, fun fuel hfuel => ?_⟩
  have hsome := hn fuel hfuel fuel hfuel _ s h.reencoded_none
  obtain ⟨out, hrun⟩ := Option.ne_none_iff_exists'.mp hsome
  obtain ⟨s', rfl, hs', -⟩ := iterate_reencodes L h (repairHandlerFor_handles L h rec fuel) fuel
    (hsafe.ends.staysIn L) h.reencoded_none hrun
  refine ⟨(true, s'), ?_, rfl, ?_, ?_, ?_⟩
  · show repairContent m fuel ci rec s = _
    rw [repairContent_eq hdir, hrun]
    rfl
  · intro c hfile
    rw [hs'.view_eq]
    by_cases hc : InVol m c
    · by_cases hreach : Reaches m v (rec ≠ 0) (getContentDataCa ci s) c
      · rw [Vol.reencoded_raw_of (Or.inr hreach)]
        exact (reencode_eq_self_iff L (h.length_raw hc)).mpr (hsafe.files c hfile hc hreach)
      · rw [Vol.reencoded_raw_of_not (by simpa using hreach)]
    · rw [hs'.raw_outside hc, h.raw_outside hc]
  · intro c _
    rw [hs'.view_eq]
    exact Vol.decoded_reencoded h c
  · intro c _ hc hreach
    rw [hs'.view_eq, Vol.reencoded_raw_of (Or.inr hreach)]
    exact cleanWords_reencode L (h.length_raw hc)

end Main

/-! ### A directory with one file -/

/-- A content table of handles of the directory in cluster `2`. -/
def rootTable : Nat → Content := fun _ => {
  directoryName := [], fileName := [], fileExtension := [], indexRoot := NO_ECACHE
  parentCluster := FAT_CLUSTER_BAD, dataCluster := 2, entry := DirEntry.ofBytes []
  contentType := .directory, mode := R_MODE ||| W_MODE }

/-- The walk over a directory of one cluster, without a handler, stays there. -/
theorem oneEntryVol_staysIn (e : DirEntry) :
    StaysIn (smallMount 0) (oneEntryVol e) ((0 : Int) ≠ 0) 2 := by
  intro c hc
  rw [reaches_of_end (by decide) rfl] at hc
  rcases hc with ⟨d, -, hrec, -⟩ | rfl
  · exact absurd rfl hrec
  · exact Or.inl (by decide)

end NiFat32
