import NiFat32.Lib.Pool
import NiFat32.Lib.Refine
import NiFat32.Proofs.Tree

/-!
# `Proofs.ClusterPool`: the clusters of a volume as a pool

Whoever makes a file or a directory takes a cluster from `alloc_cluster` and marks it with
`set_cluster_end`. Chains grow by `_add_cluster_to_chain`, and `dealloc_chain` gives them back. The
specification is a `Pool`: it leaves open which free cluster is handed out, and when the allocator
gives up.

`HoldsPool` connects a state with a pool, and `poolCall_simulates` keeps that. So in every run no
cluster is lost, handed out twice, or left behind by a release (`clusters_conserved`).
-/

set_option autoImplicit false

namespace NiFat32

open Run

variable {m : Mount} {s s' : FS} {v v' v₀ : Vol} {p : Pool Nat} {T : Nat → Prop} {ca : Nat}

/-! ### The calls -/

/-- The calls on chains. A chain grows at its last cluster, and is released at its first. -/
inductive PoolCall where
  | take
  | grow (last : Nat)
  | release (head : Nat)

/-- Their answers: the cluster that was handed out, or none. -/
inductive PoolAnswer where
  | got (c : Nat)
  | refused
  | released (ok : Bool)

/-- A chain grows and is released through its ends. -/
def PoolTakes (p : Pool Nat) : PoolCall → Prop
  | .take => True
  | .grow last => ∃ cs ∈ p.chains, cs.getLast? = some last
  | .release head => ∃ cs ∈ p.chains, cs.head? = some head

/-- What the pool does. -/
def PoolGives (p : Pool Nat) : PoolCall → PoolAnswer → Pool Nat → Prop
  | .take, ans, p' => (ans = .refused ∧ p' = p) ∨
      ∃ c, ans = .got c ∧ p.free c ∧ p' = p.take c
  | .grow last, ans, p' => (ans = .refused ∧ p' = p) ∨
      ∃ A cs B c, p.chains = A ++ cs :: B ∧ cs.getLast? = some last ∧ ans = .got c ∧ p.free c ∧
        p' = p.grow A cs B c
  | .release head, ans, p' => ∃ A cs B, p.chains = A ++ cs :: B ∧ cs.head? = some head ∧
      ans = .released true ∧ p' = p.release A cs B

/-- The specification of the calls on chains. -/
def poolSpec : Spec (Pool Nat) PoolCall PoolAnswer where
  pre := PoolTakes
  post := PoolGives

/-- The first cluster of something new, as the creating calls take it. -/
def newChain (m : Mount) (s : FS) : Option Nat × FS :=
  match allocNext m s with
  | (nca, s) =>
    match setClusterEnd m nca s with
    | (true, s) => (some nca, s)
    | (false, s) => (none, registerError m .setClusterEndError s)

/-- A call on chains, with its answer. -/
def callPool (m : Mount) : PoolCall → FS → (fuel : Nat) → Option (PoolAnswer × FS)
  | .take, s, _ =>
    match newChain m s with
    | (some c, s) => some (.got c, s)
    | (none, s) => some (.refused, s)
  | .grow last, s, _ =>
    match addClusterToChain m last s with
    | (c, s) => some (if c = FAT_CLUSTER_BAD then .refused else .got c, s)
  | .release head, s, fuel => (deallocChain m fuel head s).map fun r => (.released r.1, r.2)

/-! ### The pool of a volume -/

/-- The volume holds the pool: its chains end in `FAT_CLUSTER_END`, its free cells are the free
clusters. What is not of the pool is as it was in `v₀`, and so are all the data. -/
structure Vol.HasPool (m : Mount) (v₀ v : Vol) (p : Pool Nat) (T : Nat → Prop) : Prop where
  whole : p.Whole T
  chain : ∀ cs ∈ p.chains, ∃ ca, HasChain m v ca cs
  free : ∀ c, p.free c ↔ v.fat c = FAT_CLUSTER_FREE
  rest : ∀ c, ¬ T c → v.fat c = v₀.fat c
  raw : v.raw = v₀.raw

/-- The state holds the pool. -/
def HoldsPool (m : Mount) (v₀ : Vol) (T : Nat → Prop) (s : FS) (p : Pool Nat) : Prop :=
  ∃ v, Shows m s v ∧ Vol.HasPool m v₀ v p T

namespace Vol.HasPool

variable {A B : List (List Nat)} {cs : List Nat} {c : Nat}

theorem chain_ends (h : HasPool m v₀ v p T) (hcs : cs ∈ p.chains) {head : Nat}
    (hhead : cs.head? = some head) : HasChain m v head cs := by
  obtain ⟨ca, hc⟩ := h.chain cs hcs
  obtain ⟨rest, rfl⟩ := List.head?_eq_some_iff.mp hhead
  obtain rfl := hc.path.head_eq
  exact hc

/-- A chain keeps its links where the table is the same at its clusters. -/
theorem chain_kept (h : HasPool m v₀ v p T) (hcs : cs ∈ p.chains)
    (hfat : ∀ k ∈ cs, v'.fat k = v.fat k) : ∃ ca, HasChain m v' ca cs := by
  obtain ⟨ca, hc⟩ := h.chain cs hcs
  exact ⟨ca, hc.congr hfat⟩

/-- A cluster of a chain is none of the free ones. -/
theorem ne_of_free (h : HasPool m v₀ v p T) (hcs : cs ∈ p.chains) (hfree : p.free c) {k : Nat}
    (hk : k ∈ cs) : k ≠ c := fun heq =>
  h.whole.held k (List.mem_flatten.mpr ⟨cs, hcs, hk⟩) (heq ▸ hfree)

/-- The clusters outside the pool are none of its clusters. -/
theorem ne_of_outside (h : HasPool m v₀ v p T) {k : Nat} (hk : ¬ T k)
    (hc : p.free c ∨ c ∈ p.chains.flatten) : k ≠ c := fun heq =>
  hk ((h.whole.all k).mpr (heq ▸ hc))

theorem take (h : HasPool m v₀ v p T) (hin : InVol m c) (hfree : p.free c) :
    HasPool m v₀ (v.setFat c FAT_CLUSTER_END) (p.take c) T where
  whole := h.whole.take hfree
  chain cs hcs := by
    cases List.mem_append.mp hcs with
    | inl hcs =>
      exact h.chain_kept hcs fun k hk => Vol.setFat_fat_ne v _ (h.ne_of_free hcs hfree hk)
    | inr hnew =>
      rw [List.mem_singleton.mp hnew]
      exact ⟨c, HasChain.single hin (Vol.setFat_fat_self v c _)⟩
  free k := by
    by_cases heq : k = c
    · subst heq
      rw [Vol.setFat_fat_self]
      exact ⟨fun hf => absurd rfl hf.2, fun hend => absurd hend (by decide)⟩
    · rw [Vol.setFat_fat_ne v _ heq, ← h.free k]
      exact ⟨fun hf => hf.1, fun hf => ⟨hf, heq⟩⟩
  rest k hk := by
    rw [Vol.setFat_fat_ne v _ (h.ne_of_outside hk (Or.inl hfree)), h.rest k hk]
  raw := h.raw

theorem grow (L : Layout m) (h : HasPool m v₀ v p T) (hchains : p.chains = A ++ cs :: B)
    {last : Nat} (hlast : cs.getLast? = some last) (hin : InVol m c) (hfree : p.free c) :
    HasPool m v₀ (v.link last c) (p.grow A cs B c) T := by
  obtain ⟨init, rfl⟩ := List.getLast?_eq_some_iff.mp hlast
  have hmem : init ++ [last] ∈ p.chains := by
    rw [hchains]
    simp
  have hlm : last ∈ init ++ [last] := by simp
  obtain ⟨ca, hc⟩ := h.chain _ hmem
  have hcf := (h.free c).mp hfree
  have hcl : c ≠ last := (h.ne_of_free hmem hfree hlm).symm
  exact {
    whole := h.whole.grow hchains hfree
    chain := fun ds hds => by
      have hother : ds ∈ A ++ B → ∃ ca, HasChain m (v.link last c) ca ds := fun hab => by
        have hdp : ds ∈ p.chains := by
          rw [hchains]
          cases List.mem_append.mp hab with
          | inl ha => exact List.mem_append_left _ ha
          | inr hb => exact List.mem_append_right _ (List.mem_cons_of_mem _ hb)
        refine h.chain_kept hdp fun k hk => Vol.link_fat_ne v ?_ (h.ne_of_free hdp hfree hk)
        exact fun heq => h.whole.apart hchains hab hlm (heq ▸ hk)
      cases List.mem_append.mp hds with
      | inl ha => exact hother (List.mem_append_left _ ha)
      | inr hcb =>
        cases List.mem_cons.mp hcb with
        | inl heq => rw [heq]; exact ⟨ca, hc.link L hin hcf⟩
        | inr hb => exact hother (List.mem_append_right _ hb)
    free := fun k => by
      by_cases hkl : k = last
      · subst hkl
        rw [Vol.link_fat_last]
        exact ⟨fun hf => absurd hf.1 (h.whole.held k (List.mem_flatten.mpr ⟨_, hmem, hlm⟩)),
          fun heq => absurd heq (L.ne_free hin)⟩
      by_cases hkc : k = c
      · subst hkc
        rw [Vol.link_fat_new v hcl]
        exact ⟨fun hf => absurd rfl hf.2, fun hend => absurd hend (by decide)⟩
      · rw [Vol.link_fat_ne v hkl hkc, ← h.free k]
        exact ⟨fun hf => hf.1, fun hf => ⟨hf, hkc⟩⟩
    rest := fun k hk => by
      have hl := h.ne_of_outside hk (Or.inr (List.mem_flatten.mpr ⟨_, hmem, hlm⟩))
      rw [Vol.link_fat_ne v hl (h.ne_of_outside hk (Or.inl hfree)), h.rest k hk]
    raw := h.raw }

theorem release (h : HasPool m v₀ v p T) (hchains : p.chains = A ++ cs :: B) :
    HasPool m v₀ (v.freeAll cs) (p.release A cs B) T where
  whole := h.whole.release hchains
  chain ds hds := by
    have hdp : ds ∈ p.chains := by
      rw [hchains]
      cases List.mem_append.mp hds with
      | inl ha => exact List.mem_append_left _ ha
      | inr hb => exact List.mem_append_right _ (List.mem_cons_of_mem _ hb)
    refine h.chain_kept hdp fun k hk => v.freeAll_fat_ne fun hkc => ?_
    exact h.whole.apart hchains hds hkc hk
  free k := by
    by_cases hk : k ∈ cs
    · exact ⟨fun _ => if_pos hk, fun _ => Or.inr hk⟩
    · rw [v.freeAll_fat_ne hk, ← h.free k]
      exact ⟨fun hf => hf.resolve_right hk, Or.inl⟩
  rest k hk := by
    have hkc : k ∉ cs := fun hm => hk ((h.whole.all k).mpr (Or.inr
      (List.mem_flatten.mpr ⟨cs, by rw [hchains]; simp, hm⟩)))
    rw [v.freeAll_fat_ne hkc, h.rest k hk]
  raw := h.raw

end Vol.HasPool

/-! ### One call -/

theorem take_simulates (L : Layout m) (h : HoldsPool m v₀ T s p) :
    ∃ r, callPool m .take s 0 = some r ∧
      ∃ p', PoolGives p .take r.1 p' ∧ HoldsPool m v₀ T r.2 p' := by
  obtain ⟨v, hs, hp⟩ := h
  obtain ⟨n, s₁, he₁, ha, -⟩ := allocNext_shows L hs
  unfold callPool newChain
  simp only [he₁]
  cases ha with
  | inl hbad =>
    -- the mark cannot be written, and the call that asked fails
    obtain ⟨rfl, hs₁⟩ := hbad
    obtain ⟨s₂, he₂, hs₂, -⟩ := writeFat_outside L hs₁ L.not_inVol_bad FAT_CLUSTER_END
    unfold setClusterEnd
    simp only [he₂]
    exact ⟨_, rfl, p, Or.inl ⟨rfl, rfl⟩, v, (registerError_shows L hs₂ _).1, hp⟩
  | inr hok =>
    obtain ⟨hn, hnfree, hs₁⟩ := hok
    obtain ⟨s₂, he₂, hs₂, -⟩ := setClusterEnd_shows L hs₁ hn
    rw [Vol.setFat_setFat] at hs₂
    simp only [he₂]
    have hfree := (hp.free n).mpr hnfree
    exact ⟨_, rfl, p.take n, Or.inr ⟨n, rfl, hfree, rfl⟩, _, hs₂, hp.take hn hfree⟩

theorem grow_simulates (L : Layout m) (h : HoldsPool m v₀ T s p) {last : Nat}
    (hpre : PoolTakes p (.grow last)) :
    ∃ r, callPool m (.grow last) s 0 = some r ∧
      ∃ p', PoolGives p (.grow last) r.1 p' ∧ HoldsPool m v₀ T r.2 p' := by
  obtain ⟨v, hs, hp⟩ := h
  obtain ⟨cs, hcs, hlast⟩ := hpre
  obtain ⟨A, B, hchains⟩ := List.append_of_mem hcs
  obtain ⟨ca, hc⟩ := hp.chain cs hcs
  obtain ⟨n, s₁, he, -, hgrow⟩ := addClusterToChain_shows L hs
    (hc.inVol last (List.mem_of_getLast? hlast))
  unfold callPool
  simp only [he]
  cases hgrow with
  | inl hbad =>
    obtain ⟨rfl, hs₁⟩ := hbad
    exact ⟨_, rfl, p, Or.inl ⟨by rw [if_pos rfl], rfl⟩, v, hs₁, hp⟩
  | inr hok =>
    obtain ⟨hn, hnfree, hs₁⟩ := hok
    have hfree := (hp.free n).mpr hnfree
    exact ⟨_, rfl, p.grow A cs B n,
      Or.inr ⟨A, cs, B, n, hchains, hlast, by rw [if_neg (L.ne_bad hn)], hfree, rfl⟩, _, hs₁,
      hp.grow L hchains hlast hn hfree⟩

theorem release_simulates (L : Layout m) (h : HoldsPool m v₀ T s p) {head : Nat}
    (hpre : PoolTakes p (.release head)) :
    Ensures (callPool m (.release head) s) fun r =>
      ∃ p', PoolGives p (.release head) r.1 p' ∧ HoldsPool m v₀ T r.2 p' := by
  obtain ⟨v, hs, hp⟩ := h
  obtain ⟨cs, hcs, hhead⟩ := hpre
  obtain ⟨A, B, hchains⟩ := List.append_of_mem hcs
  refine ⟨cs.length, fun fuel hfuel => ?_⟩
  obtain ⟨s₁, he, hs₁, -⟩ := deallocChain_shows L hfuel (hp.chain_ends hcs hhead) hs
  unfold callPool
  simp only [he]
  exact ⟨_, rfl, p.release A cs B, ⟨A, cs, B, hchains, hhead, rfl, rfl⟩, _, hs₁,
    hp.release hchains⟩

/-- Each call on chains does what the pool does. -/
theorem poolCall_simulates (L : Layout m) (v₀ : Vol) (T : Nat → Prop) :
    Simulates poolSpec (callPool m) (HoldsPool m v₀ T) := by
  intro s p c h hpre
  cases c with
  | take => exact ⟨0, fun _ _ => take_simulates L h⟩
  | grow last => exact ⟨0, fun _ _ => grow_simulates L h hpre⟩
  | release head => exact release_simulates L h hpre

end NiFat32
