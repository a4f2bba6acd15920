import NiFat32.Proofs.Chains

/-!
# `Proofs.FileBytes`: file contents as one growable byte array

`readLoop_shows` reads a slice of the bytes of a chain. `writeLoop_shows` splices data into
the clusters that a chain has, and `appendLoop_shows` goes on with the clusters it appends.
`readContent2buffer_shows` and `writeBuffer2content_shows` put them together for an open file.
-/

set_option autoImplicit false

namespace NiFat32

open ByteStore Chain Run

variable {m : Mount} {s : FS} {v v' : Vol} {ca : Nat} {cs : List Nat}

/-! ### Reading -/

/-- The part of a chain that the read loop hands out. -/
theorem readLoop_shows (L : Layout m) {fuel : Nat} (hfuel : cs.length ≤ fuel)
    (hc : HasChain m v ca cs) (offset size total : Nat) (buffer : List UInt8) (h : Shows m s v) :
    ∃ s', readLoop m fuel ca offset size total buffer s
        = some (total + min size ((v.bytesOf cs).length - offset),
            buffer ++ ((v.bytesOf cs).drop offset).take size, s') ∧
      Shows m s' v ∧ Keeps [] s s' := by
  induction fuel generalizing ca cs offset size total buffer s with
  | zero =>
    exact absurd (List.length_eq_zero_iff.mp (Nat.le_zero.mp hfuel)) (hc.ne_nil L)
  | succ fuel ih =>
    have hin := hc.head
    have hraw := h.length_raw hin
    obtain ⟨s₁, he, hs, hk⟩ := readFat_shows L h ca
    unfold readLoop
    by_cases ho : m.fi.clusterSize < offset
    · -- the cluster lies before the request
      simp only [if_pos ho, he]
      cases hc.cases_head L with
      | inl hlast =>
        obtain ⟨rfl, hend⟩ := hlast
        have hlen : (v.bytesOf [ca]).length = m.fi.clusterSize := by
          rw [h.length_bytesOf hc.inVol, List.length_singleton, Nat.one_mul]
        rw [hend, if_neg (by simp)]
        refine ⟨s₁, ?_, hs, hk⟩
        rw [List.drop_of_length_le (by omega), hlen, Nat.sub_eq_zero_of_le (Nat.le_of_lt ho)]
        simp
      | inr hrest =>
        obtain ⟨rest, rfl, hrest⟩ := hrest
        have hdrop : (v.bytesOf (ca :: rest)).drop offset
            = (v.bytesOf rest).drop (offset - m.fi.clusterSize) := by
          rw [Vol.bytesOf_cons, List.drop_append, List.drop_of_length_le (by omega),
            List.nil_append, hraw]
        have hlen : (v.bytesOf (ca :: rest)).length - offset
            = (v.bytesOf rest).length - (offset - m.fi.clusterSize) := by
          rw [Vol.bytesOf_cons, List.length_append, hraw]
          omega
        rw [hdrop, hlen]
        by_cases hsize : 0 < size
        · rw [if_pos ⟨L.ne_end hrest.head, L.ne_bad hrest.head, hsize⟩]
          obtain ⟨s₂, h2, hs2, hk2⟩ := ih (by simp at hfuel; omega) hrest
            (offset - m.fi.clusterSize) size total buffer hs
          exact ⟨s₂, h2, hs2, hk.nil_trans hk2⟩
        · have h0 : size = 0 := by omega
          rw [if_neg fun hcond => hsize hcond.2.2, h0]
          exact ⟨s₁, by simp, hs, hk⟩
    · have hle : offset + min size (m.fi.clusterSize - offset) ≤ m.fi.clusterSize := by omega
      simp only [if_neg ho, readoffCluster_shows L h hin hle, Option.map_some, he]
      have htake : ((v.raw ca).drop offset).take (min size (m.fi.clusterSize - offset))
          = ((v.raw ca).drop offset).take size := by
        rw [← List.take_take, List.take_of_length_le (i := m.fi.clusterSize - offset)]
        rw [List.length_drop, hraw]
      rw [htake]
      cases hc.cases_head L with
      | inl hlast =>
        obtain ⟨rfl, hend⟩ := hlast
        rw [hend, if_neg (by simp)]
        refine ⟨s₁, ?_, hs, hk⟩
        rw [Vol.bytesOf_cons, Vol.bytesOf_nil, List.append_nil, hraw]
      | inr hrest =>
        obtain ⟨rest, rfl, hrest⟩ := hrest
        have hsplit : ((v.bytesOf (ca :: rest)).drop offset).take size
            = ((v.raw ca).drop offset).take size
              ++ (v.bytesOf rest).take (size - min size (m.fi.clusterSize - offset)) := by
          rw [Vol.bytesOf_cons, List.drop_append_of_le_length (by omega), List.take_append,
            List.length_drop, hraw]
          congr 2
          omega
        have hlen : min size ((v.bytesOf (ca :: rest)).length - offset)
            = min size (m.fi.clusterSize - offset)
              + min (size - min size (m.fi.clusterSize - offset)) (v.bytesOf rest).length := by
          rw [Vol.bytesOf_cons, List.length_append, hraw]
          omega
        rw [hsplit, hlen]
        by_cases hleft : 0 < size - min size (m.fi.clusterSize - offset)
        · rw [if_pos ⟨L.ne_end hrest.head, L.ne_bad hrest.head, hleft⟩]
          obtain ⟨s₂, h2, hs2, hk2⟩ := ih (by simp at hfuel; omega) hrest 0
            (size - min size (m.fi.clusterSize - offset))
            (total + min size (m.fi.clusterSize - offset))
            (buffer ++ ((v.raw ca).drop offset).take size) hs
          refine ⟨s₂, ?_, hs2, hk.nil_trans hk2⟩
          rw [h2, List.drop_zero, List.append_assoc, Nat.sub_zero, Nat.add_assoc]
        · have h0 : size - min size (m.fi.clusterSize - offset) = 0 := by omega
          rw [if_neg fun hcond => hleft hcond.2.2, h0]
          exact ⟨s₁, by simp, hs, hk⟩

/-! ### Writing into the clusters a chain has -/

/-- What the first loop leaves: the data not written, and where to go on with it. -/
structure Written (m : Mount) (v v' : Vol) (cs : List Nat) (offset : Nat) (data : List UInt8)
    (k lca offset' : Nat) : Prop where
  le : k ≤ data.length
  eq : k = min data.length ((v.bytesOf cs).length - offset)
  bytes : v'.bytesOf cs = splice (v.bytesOf cs) offset (data.take k)
  fat : v'.fat = v.fat
  frame : ∀ c, c ∉ cs → v'.raw c = v.raw c
  rest : k < data.length → cs.getLast? = some lca ∧ offset' = offset - (v.bytesOf cs).length

/-- The first loop of `NIFAT32_write_buffer2content` writes what fits into the chain. -/
theorem writeLoop_shows (L : Layout m) {fuel : Nat} (hfuel : cs.length ≤ fuel)
    (hc : HasChain m v ca cs) (offset : Nat) (data : List UInt8) (total : Nat)
    (h : Shows m s v) :
    ∃ k lca offset' s' v', writeLoop m fuel ca offset data total s
        = some (some (total + k, lca, offset', data.drop k), s') ∧
      Shows m s' v' ∧ Keeps [] s s' ∧ Written m v v' cs offset data k lca offset' := by
  induction fuel generalizing ca cs offset data total s v with
  | zero =>
    exact absurd (List.length_eq_zero_iff.mp (Nat.le_zero.mp hfuel)) (hc.ne_nil L)
  | succ fuel ih =>
    have hin := hc.head
    have hraw := h.length_raw hin
    unfold writeLoop
    by_cases ho : m.fi.clusterSize < offset
    · -- the cluster lies before the data
      obtain ⟨s₁, he, hs, hk⟩ := readFat_shows L h ca
      simp only [if_pos ho, he]
      cases hc.cases_head L with
      | inl hlast =>
        obtain ⟨rfl, hend⟩ := hlast
        have hlen : (v.bytesOf [ca]).length = m.fi.clusterSize := by
          rw [h.length_bytesOf hc.inVol, List.length_singleton, Nat.one_mul]
        rw [hend, if_neg (by simp)]
        refine ⟨0, ca, offset - m.fi.clusterSize, s₁, v, rfl, hs, hk, ?_⟩
        exact {
          le := Nat.zero_le _
          eq := by omega
          bytes := by rw [List.take_zero, splice_nil]
          fat := rfl
          frame := fun c _ => rfl
          rest := fun _ => ⟨rfl, by rw [hlen]⟩ }
      | inr hrest =>
        obtain ⟨rest, rfl, hrest⟩ := hrest
        have hlen : (v.bytesOf (ca :: rest)).length
            = m.fi.clusterSize + (v.bytesOf rest).length := by
          rw [Vol.bytesOf_cons, List.length_append, hraw]
        by_cases hdata : 0 < data.length
        · rw [if_pos ⟨L.ne_end hrest.head, L.ne_bad hrest.head, hdata⟩]
          obtain ⟨k, lca, offset', s₂, v₂, h2, hs2, hk2, hw⟩ := ih (by simp at hfuel; omega) hrest
            (offset - m.fi.clusterSize) data total hs
          refine ⟨k, lca, offset', s₂, v₂, h2, hs2, hk.nil_trans hk2, ?_⟩
          have hca : v₂.raw ca = v.raw ca := by
            apply hw.frame
            exact (List.nodup_cons.mp (hc.nodup L)).1
          exact {
            le := hw.le
            eq := by rw [hw.eq, hlen]; omega
            bytes := by
              rw [Vol.bytesOf_cons, Vol.bytesOf_cons, hca, hw.bytes,
                splice_append_right _ _ _ _ (by omega), hraw]
            fat := hw.fat
            frame := fun c hcn => hw.frame c fun hm => hcn (List.mem_cons_of_mem ca hm)
            rest := fun hlt => by
              obtain ⟨hl, hof⟩ := hw.rest hlt
              refine ⟨?_, by rw [hof, hlen]; omega⟩
              rw [List.getLast?_cons, hl]
              rfl }
        · have h0 : data = [] := List.length_eq_zero_iff.mp (by omega)
          rw [if_neg fun hcond => hdata hcond.2.2, h0]
          refine ⟨0, ca, offset - m.fi.clusterSize, s₁, v, rfl, hs, hk, ?_⟩
          exact {
            le := Nat.zero_le _
            eq := by rw [List.length_nil]; omega
            bytes := by rw [List.take_zero, splice_nil]
            fat := rfl
            frame := fun c _ => rfl
            rest := fun hlt => absurd hlt (Nat.lt_irrefl 0) }
    · have hw : min data.length (m.fi.clusterSize - offset) ≤ data.length := Nat.min_le_left _ _
      have htl : (data.take (min data.length (m.fi.clusterSize - offset))).length
          = min data.length (m.fi.clusterSize - offset) := by
        rw [List.length_take, Nat.min_eq_left hw]
      obtain ⟨s₁, he, hs, hk⟩ := writeoffCluster_shows L h hin offset
        (data.take (min data.length (m.fi.clusterSize - offset))) (by omega)
      obtain ⟨s₂, he₂, hs₂, hk₂⟩ := readFat_shows L hs ca
      simp only [if_neg ho, he, he₂, Vol.setRaw_fat]
      generalize hwdef : min data.length (m.fi.clusterSize - offset) = w at *
      cases hc.cases_head L with
      | inl hlast =>
        obtain ⟨rfl, hend⟩ := hlast
        rw [hend, if_neg (by simp)]
        refine ⟨w, ca, 0, s₂, _, rfl, hs₂, hk.nil_trans hk₂, ?_⟩
        have hlen : (v.bytesOf [ca]).length = m.fi.clusterSize := by
          rw [h.length_bytesOf hc.inVol, List.length_singleton, Nat.one_mul]
        exact {
          le := hw
          eq := by omega
          bytes := by
            rw [Vol.bytesOf_cons, Vol.bytesOf_cons, Vol.bytesOf_nil, Vol.bytesOf_nil,
              Vol.setRaw_raw_self, List.append_nil, List.append_nil]
          fat := rfl
          frame := fun c hcn => Vol.setRaw_raw_ne v _ (by simpa using hcn)
          rest := fun _ => ⟨rfl, by omega⟩ }
      | inr hrest =>
        obtain ⟨rest, rfl, hrest⟩ := hrest
        have hnot : ca ∉ rest := (List.nodup_cons.mp (hc.nodup L)).1
        have hlen : (v.bytesOf (ca :: rest)).length
            = m.fi.clusterSize + (v.bytesOf rest).length := by
          rw [Vol.bytesOf_cons, List.length_append, hraw]
        -- the write leaves the clusters behind `ca`
        have hbrest : (v.setRaw ca (splice (v.raw ca) offset (data.take w))).bytesOf rest
            = v.bytesOf rest := Vol.bytesOf_congr fun c hcm =>
          Vol.setRaw_raw_ne v _ fun hcc => hnot (hcc ▸ hcm)
        by_cases hdata : 0 < (data.drop w).length
        · rw [if_pos ⟨L.ne_end hrest.head, L.ne_bad hrest.head, hdata⟩]
          rw [List.length_drop] at hdata
          have hrest₂ : HasChain m (v.setRaw ca (splice (v.raw ca) offset (data.take w)))
            (v.fat ca) rest := hrest.congr fun c _ => rfl
          obtain ⟨k, lca, offset', s₃, v₃, h3, hs3, hk3, hw3⟩ := ih (by simp at hfuel; omega)
            hrest₂ 0 (data.drop w) (total + w) hs₂
          refine ⟨w + k, lca, offset', s₃, v₃, ?_, hs3, (hk.nil_trans hk₂).nil_trans hk3, ?_⟩
          · rw [h3, List.drop_drop, Nat.add_assoc]
          have hle := hw3.le
          have heq := hw3.eq
          rw [List.length_drop] at hle heq
          rw [hbrest] at heq
          exact {
            le := by omega
            eq := by rw [hlen]; omega
            bytes := by
              rw [Vol.bytesOf_cons, Vol.bytesOf_cons, hw3.frame ca hnot, hw3.bytes,
                Vol.setRaw_raw_self, hbrest, List.take_add,
                splice_append _ _ _ _ _ (by omega) (Or.inr (by omega))]
            fat := hw3.fat
            frame := fun c hcn => by
              rw [List.mem_cons, not_or] at hcn
              rw [hw3.frame c hcn.2, Vol.setRaw_raw_ne v _ hcn.1]
            rest := fun hlt => by
              obtain ⟨hl, hof⟩ := hw3.rest (by rw [List.length_drop]; omega)
              refine ⟨?_, by rw [hof, hlen]; omega⟩
              rw [List.getLast?_cons, hl]
              rfl }
        · rw [if_neg fun hcond => hdata hcond.2.2]
          rw [List.length_drop] at hdata
          refine ⟨w, ca, 0, s₂, _, rfl, hs₂, hk.nil_trans hk₂, ?_⟩
          exact {
            le := hw
            eq := by rw [hlen]; omega
            bytes := by
              have hsp := splice_append (v.raw ca) (v.bytesOf rest) (data.take w) [] offset
                (by omega) (Or.inl rfl)
              rw [List.append_nil, splice_nil] at hsp
              rw [Vol.bytesOf_cons, Vol.bytesOf_cons, Vol.setRaw_raw_self, hbrest, hsp]
            fat := rfl
            frame := fun c hcn => by
              rw [List.mem_cons, not_or] at hcn
              exact Vol.setRaw_raw_ne v _ hcn.1
            rest := fun hlt => absurd hlt (by omega) }

/-! ### Writing into appended clusters -/

/-- The clusters `added` were free and now prolong the chain `cs`; nothing else changed but
the end of the chain and what the new clusters hold. -/
structure Appended (m : Mount) (v v' : Vol) (ca : Nat) (cs added : List Nat) : Prop where
  chain : HasChain m v' ca (cs ++ added)
  free : ∀ c ∈ added, InVol m c ∧ v.fat c = FAT_CLUSTER_FREE
  fat : ∀ c, c ∉ added → cs.getLast? ≠ some c → v'.fat c = v.fat c
  raw : ∀ c, c ∉ added → v'.raw c = v.raw c

/-- `⌈a / b⌉` -/
def ceilDiv (a b : Nat) : Nat := (a + b - 1) / b

theorem ceilDiv_add_self {b : Nat} (a : Nat) (hb : 0 < b) :
    ceilDiv (b + a) b = ceilDiv a b + 1 := by
  unfold ceilDiv
  rw [show b + a + b - 1 = a + b - 1 + b by omega, Nat.add_div_right _ hb]

theorem ceilDiv_mul_add {b : Nat} (n a : Nat) (hb : 0 < b) :
    ceilDiv (n * b + a) b = ceilDiv a b + n := by
  unfold ceilDiv
  rw [show n * b + a + b - 1 = a + b - 1 + n * b by omega, Nat.add_mul_div_right _ _ hb]

theorem ceilDiv_le {a b n : Nat} (hb : 0 < b) (h : a ≤ n * b) : ceilDiv a b ≤ n := by
  unfold ceilDiv
  apply Nat.le_of_lt_succ
  rw [Nat.div_lt_iff_lt_mul hb, Nat.succ_mul]
  omega

theorem ceilDiv_one {a b : Nat} (ha : 0 < a) (h : a ≤ b) : ceilDiv a b = 1 := by
  unfold ceilDiv
  rw [show a + b - 1 = a - 1 + b by omega, Nat.add_div_right _ (by omega),
    Nat.div_eq_of_lt (by omega)]

/-- The second loop of `NIFAT32_write_buffer2content` appends free clusters and fills them,
until the data is written or an allocation fails. -/
theorem appendLoop_shows (L : Layout m) (ci : Int) {fuel : Nat} {last : Nat} (offset : Nat)
    (data : List UInt8) (total : Nat) (hfuel : offset + data.length < fuel)
    (hc : HasChain m v ca (cs ++ [last])) (h : Shows m s v) :
    ∃ k added al s' v', appendLoop m ci fuel last offset data total s = some (total + k, s') ∧
      Shows m s' v' ∧ Keeps al s s' ∧ Appended m v v' ca (cs ++ [last]) added ∧
      k ≤ data.length ∧ (k < data.length → FAT_CLUSTER_BAD ∈ al) ∧
      (k = data.length → 0 < k → added.length = ceilDiv (offset + data.length) m.fi.clusterSize) ∧
      v'.bytesOf added = splice (v.bytesOf added) offset (data.take k) ∧
      (data = [] → added = []) := by
  induction fuel generalizing s v cs last offset data total with
  | zero => exact absurd hfuel (Nat.not_lt_zero _)
  | succ fuel ih =>
    have hpos := L.clusterSize_pos
    have hlast : InVol m last := hc.inVol last (by simp)
    have hsame : Appended m v v ca (cs ++ [last]) [] := {
      chain := by rw [List.append_nil]; exact hc
      free := fun c hm => absurd hm List.not_mem_nil
      fat := fun c _ _ => rfl
      raw := fun c _ => rfl }
    unfold appendLoop
    by_cases h0 : data.length = 0
    · have hnil : data = [] := List.length_eq_zero_iff.mp h0
      rw [if_pos h0]
      exact ⟨0, [], [], s, v, rfl, h, Keeps.refl s, hsame, Nat.zero_le _,
        fun hlt => absurd hlt (by omega), fun _ hlt => absurd hlt (Nat.lt_irrefl 0),
        by rw [List.take_zero, splice_nil], fun _ => rfl⟩
    have hne : data ≠ [] := fun hnil => h0 (by rw [hnil]; rfl)
    simp only [if_neg h0, addClusterToContent, if_neg (L.ne_bad hlast)]
    obtain ⟨n, s₁, he, hk, hres⟩ := addClusterToChain_shows L h hlast
    rw [he]
    cases hres with
    | inl hbad =>
      -- the allocation failed, nothing more is written
      obtain ⟨rfl, hs⟩ := hbad
      simp only [if_true]
      exact ⟨0, [], [FAT_CLUSTER_BAD], s₁, v, rfl, hs, hk, hsame, Nat.zero_le _,
        fun _ => List.mem_singleton.mpr rfl, fun _ hlt => absurd hlt (Nat.lt_irrefl 0),
        by rw [List.take_zero, splice_nil], fun hnil => absurd hnil hne⟩
    | inr hok =>
      obtain ⟨hn, hfree, hs⟩ := hok
      have hnew : n ∉ cs ++ [last] := fun hm => hc.not_free L hm hfree
      have hchain := hc.link L hn hfree
      have hnl : n ≠ last := fun hnl => hnew (by rw [hnl]; simp)
      -- what a later pass appends behind `n` was free from the start
      have hfrees : ∀ {v₁ v₂ : Vol} {added : List Nat}, v₁.fat = (v.link last n).fat →
          Appended m v₁ v₂ ca (cs ++ [last] ++ [n]) added →
          ∀ c ∈ added, c ≠ n ∧ c ≠ last ∧ InVol m c ∧ v.fat c = FAT_CLUSTER_FREE := by
        intro v₁ v₂ added hv₁ ha c hcm
        obtain ⟨hci, hcf⟩ := ha.free c hcm
        rw [hv₁] at hcf
        have hcn : c ≠ n := by
          intro hcn
          rw [hcn, v.link_fat_new hnl] at hcf
          exact absurd hcf (by decide)
        have hcl : c ≠ last := by
          intro hcl
          rw [hcl, v.link_fat_last] at hcf
          exact L.ne_free hn hcf
        exact ⟨hcn, hcl, hci, by rw [← v.link_fat_ne hcl hcn]; exact hcf⟩
      -- the clusters of a later pass together with `n`
      have hcons : ∀ {v₁ v₂ : Vol} {added : List Nat}, v₁.fat = (v.link last n).fat →
          (∀ c, c ≠ n → v₁.raw c = v.raw c) →
          Appended m v₁ v₂ ca (cs ++ [last] ++ [n]) added →
          Appended m v v₂ ca (cs ++ [last]) (n :: added) := by
        intro v₁ v₂ added hv₁ hraw₁ ha
        refine ⟨?_, ?_, ?_, ?_⟩
        · have hch := ha.chain
          rwa [List.append_assoc] at hch
        · intro c hcm
          cases List.mem_cons.mp hcm with
          | inl hcn => rw [hcn]; exact ⟨hn, hfree⟩
          | inr hcm => exact (hfrees hv₁ ha c hcm).2.2
        · intro c hcm hcl
          rw [List.mem_cons, not_or] at hcm
          have hcl' : c ≠ last := fun hcl' => hcl (by rw [hcl', List.getLast?_concat])
          rw [ha.fat c hcm.2 (by
            rw [List.getLast?_concat]
            intro hcn
            exact hcm.1 (Option.some.inj hcn).symm), hv₁, v.link_fat_ne hcl' hcm.1]
        · intro c hcm
          rw [List.mem_cons, not_or] at hcm
          rw [ha.raw c hcm.2, hraw₁ c hcm.1]
      rw [if_neg (L.ne_bad hn)]
      have hraw : ((v.link last n).raw n).length = m.fi.clusterSize := hs.length_raw hn
      by_cases ho : m.fi.clusterSize < offset
      · rw [if_pos ho]
        obtain ⟨k, added, al, s₂, v₂, h2, hs2, hk2, ha, hle, hal, hcount, hbytes, _⟩ :=
          ih (offset - m.fi.clusterSize) data total (by omega) hchain hs
        have hnadd : n ∉ added := fun hm => (hfrees rfl ha n hm).1 rfl
        refine ⟨k, n :: added, [n] ++ al, s₂, v₂, h2, hs2, hk.trans hk2,
          hcons rfl (fun c _ => rfl) ha, hle, fun hlt => List.mem_append_right _ (hal hlt),
          ?_, ?_, fun hnil => absurd hnil hne⟩
        · intro hkd hkp
          rw [List.length_cons, hcount hkd hkp, ← ceilDiv_add_self _ hpos]
          congr 1
          omega
        · rw [Vol.bytesOf_cons, Vol.bytesOf_cons, ha.raw n hnadd, hbytes, Vol.link_raw,
            splice_append_right _ _ _ _ (by rw [← Vol.link_raw v last n]; omega),
            ← Vol.link_raw v last n, hraw]
          rfl
      · rw [if_neg ho]
        simp only
        have hw : min data.length (m.fi.clusterSize - offset) ≤ data.length := Nat.min_le_left _ _
        have htl : (data.take (min data.length (m.fi.clusterSize - offset))).length
            = min data.length (m.fi.clusterSize - offset) := by
          rw [List.length_take, Nat.min_eq_left hw]
        obtain ⟨s₂, he₂, hs₂, hk₂⟩ := writeoffCluster_shows L hs hn offset
          (data.take (min data.length (m.fi.clusterSize - offset))) (by omega)
        rw [he₂]
        generalize hwdef : min data.length (m.fi.clusterSize - offset) = w at *
        have hdl : (data.drop w).length = data.length - w := List.length_drop
        have hchain₂ : HasChain m ((v.link last n).setRaw n (splice ((v.link last n).raw n) offset
          (data.take w))) ca (cs ++ [last] ++ [n]) := hchain.congr fun c _ => rfl
        obtain ⟨k, added, al, s₃, v₃, h3, hs3, hk3, ha, hle, hal, hcount, hbytes, hnil3⟩ :=
          ih 0 (data.drop w) (total + w) (by omega) hchain₂ hs₂
        have hnadd : n ∉ added := fun hm => (hfrees (Vol.setRaw_fat _ _ _) ha n hm).1 rfl
        have hraw₁ : ∀ c, c ≠ n → ((v.link last n).setRaw n (splice ((v.link last n).raw n) offset
            (data.take w))).raw c = v.raw c := fun c hcn => Vol.setRaw_raw_ne _ _ hcn
        rw [hdl] at hle hal hcount
        refine ⟨w + k, n :: added, [n] ++ al, s₃, v₃, ?_, hs3, (hk.trans_nil hk₂).trans hk3,
          hcons (Vol.setRaw_fat _ _ _) hraw₁ ha, by omega, fun hlt =>
            List.mem_append_right _ (hal (by omega)),
          ?_, ?_, fun hnil => absurd hnil hne⟩
        · rw [h3, Nat.add_assoc]
        · intro hkd hkp
          rw [List.length_cons]
          by_cases hleft : data.length - w = 0
          · have hnil : data.drop w = [] := List.length_eq_zero_iff.mp (by omega)
            rw [hnil3 hnil, List.length_nil, ceilDiv_one (by omega) (by omega)]
          · rw [hcount (by omega) (by omega), ← ceilDiv_add_self _ hpos]
            congr 1
            omega
        · rw [Vol.bytesOf_cons, Vol.bytesOf_cons, ha.raw n hnadd, hbytes, Vol.setRaw_raw_self,
            List.take_add, Vol.link_raw]
          have hrest : ((v.link last n).setRaw n (splice (v.raw n) offset
              (data.take w))).bytesOf added = v.bytesOf added := Vol.bytesOf_congr fun c hcm =>
            Vol.setRaw_raw_ne _ _ fun hcn => hnadd (hcn ▸ hcm)
          rw [hrest]
          refine (splice_append _ _ _ _ _ (by rw [← Vol.link_raw v last n]; omega) ?_).symm
          by_cases hleft : data.length - w = 0
          · left
            rw [List.length_eq_zero_iff.mp (by omega : (data.drop w).length = 0), List.take_nil]
          · right
            rw [← Vol.link_raw v last n]
            omega

/-! ### Open files -/

/-- An open file with read and write access whose chain is `cs`. -/
structure OpenFile (m : Mount) (s : FS) (v : Vol) (ci : Int) (cs : List Nat) : Prop where
  readable : isReadMode (getContentMode ci s) = true
  writable : isWriteMode (getContentMode ci s) = true
  chain : HasChain m v (getContentDataCa ci s) cs

theorem Keeps.getContentMode {l : List Nat} {s s' : FS} (h : Keeps l s s') (ci : Int) :
    getContentMode ci s' = getContentMode ci s := by
  unfold NiFat32.getContentMode
  rw [h.contents]

theorem Keeps.getContentDataCa {l : List Nat} {s s' : FS} (h : Keeps l s s') (ci : Int) :
    getContentDataCa ci s' = getContentDataCa ci s := by
  unfold NiFat32.getContentDataCa
  rw [h.contents]

/-- Reading from `offset` hands out the slice of the bytes of the chain. -/
def ReadsSlice (m : Mount) (s : FS) (v : Vol) (ci : Int) (cs : List Nat) : Prop :=
  ∀ offset len, Ensures (fun fuel => readContent2buffer m fuel ci offset len s) fun r =>
    r.1 = min len ((v.bytesOf cs).length - offset) ∧
    r.2.1 = ((v.bytesOf cs).drop offset).take len ∧ Shows m r.2.2 v

theorem readContent2buffer_shows (L : Layout m) {ci : Int} (h : Shows m s v)
    (hf : OpenFile m s v ci cs) : ReadsSlice m s v ci cs := by
  intro offset len
  refine ⟨cs.length, fun fuel hfuel => ?_⟩
  obtain ⟨s', he, hs, _⟩ := readLoop_shows L hfuel hf.chain offset len 0 [] h
  unfold readContent2buffer
  beta_reduce
  rw [if_pos hf.readable, he]
  exact ⟨_, rfl, Nat.zero_add _, List.nil_append _, hs⟩

/-- What `NIFAT32_write_buffer2content` does with `data` at `offset`: it writes the first `k`
bytes, all of them unless an allocation failed, into a chain that grew by free clusters. -/
structure Spliced (m : Mount) (s s' : FS) (v v' : Vol) (ci : Int) (cs added : List Nat)
    (offset : Nat) (data : List UInt8) (k : Nat) : Prop where
  shows_after : Shows m s' v'
  le : k ≤ data.length
  short : k < data.length → FAT_CLUSTER_BAD ∈ s'.allocs.drop s.allocs.length
  file : OpenFile m s' v' ci (cs ++ added)
  free : ∀ c ∈ added, v.fat c = FAT_CLUSTER_FREE
  count : k = data.length → 0 < k →
    (cs ++ added).length = max cs.length (ceilDiv (offset + data.length) m.fi.clusterSize)
  bytes : v'.bytesOf (cs ++ added) = splice (v.bytesOf (cs ++ added)) offset (data.take k)
  others : ∀ ca ds, HasChain m v ca ds → List.Disjoint cs ds →
    HasChain m v' ca ds ∧ v'.bytesOf ds = v.bytesOf ds

/-- The write of the first loop and the one of the second make up one splice. -/
theorem splice_written {xs ys zs data : List UInt8} {offset k k' : Nat}
    (hk : k = min data.length (xs.length - offset))
    (hxs : ys = splice xs offset (data.take k)) (hpos : k < data.length ∨ k' = 0) :
    ys ++ splice zs (offset - xs.length) ((data.drop k).take k')
      = splice (xs ++ zs) offset (data.take (k + k')) := by
  have hlen : (data.take k).length = k := by
    rw [List.length_take]
    omega
  rw [List.take_add, hxs]
  by_cases ho : offset ≤ xs.length
  · have h0 : offset - xs.length = 0 := by omega
    rw [h0]
    refine (splice_append xs zs _ _ offset (by omega) ?_).symm
    cases hpos with
    | inl hlt => right; omega
    | inr hz => left; rw [hz, List.take_zero]
  · -- the data starts behind the first part, and nothing was written into it
    have h0 : k = 0 := by omega
    rw [h0, List.take_zero, List.nil_append, splice_nil,
      splice_append_right _ _ _ _ (by omega)]

theorem writeBuffer2content_shows (L : Layout m) {ci : Int} (h : Shows m s v)
    (hf : OpenFile m s v ci cs) (offset : Nat) (data : List UInt8) :
    Ensures (fun fuel => writeBuffer2content m fuel ci offset data s) fun r =>
      ∃ v' added, Spliced m s r.2 v v' ci cs added offset data r.1 := by
  refine ⟨cs.length + offset + data.length + 1, fun fuel hfuel => ?_⟩
  obtain ⟨k, lca, offset', s₁, v₁, he, hs, hk, hw⟩ :=
    writeLoop_shows L (show cs.length ≤ fuel by omega) hf.chain offset data 0 h
  unfold writeBuffer2content
  beta_reduce
  rw [if_pos hf.writable, he]
  have hN := h.length_bytesOf hf.chain.inVol
  have hchain₁ : HasChain m v₁ (getContentDataCa ci s) cs :=
    hf.chain.congr fun c _ => by rw [hw.fat]
  have hothers₁ : ∀ ca ds, HasChain m v ca ds → List.Disjoint cs ds →
      HasChain m v₁ ca ds ∧ v₁.bytesOf ds = v.bytesOf ds := fun ca ds hds hdis =>
    ⟨hds.congr fun c _ => by rw [hw.fat],
      Vol.bytesOf_congr fun c hc => hw.frame c fun hm => hdis hm hc⟩
  by_cases hall : k = data.length
  · -- the chain took all of the data, so the second loop does nothing
    have hnil : data.drop k = [] := by rw [hall, List.drop_length]
    obtain ⟨fuel, rfl⟩ : ∃ f, fuel = f + 1 := ⟨fuel - 1, by omega⟩
    refine ⟨(k, s₁), ?_, v₁, [], ?_⟩
    · simp only [hnil, appendLoop, List.length_nil, if_true, Nat.zero_add]
    · exact {
        shows_after := hs
        le := hw.le
        short := fun hlt => absurd hlt (by omega)
        file := ⟨by rw [hk.getContentMode]; exact hf.readable,
          by rw [hk.getContentMode]; exact hf.writable,
          by rw [hk.getContentDataCa, List.append_nil]; exact hchain₁⟩
        free := fun c hc => absurd hc List.not_mem_nil
        count := fun _ hpos => by
          have hle : ceilDiv (offset + data.length) m.fi.clusterSize ≤ cs.length := by
            have heq := hw.eq
            exact ceilDiv_le L.clusterSize_pos (by omega)
          rw [List.append_nil]
          omega
        bytes := by rw [List.append_nil]; exact hw.bytes
        others := hothers₁ }
  · have hlt : k < data.length := Nat.lt_of_le_of_ne hw.le hall
    obtain ⟨hlast, hoff⟩ := hw.rest hlt
    obtain ⟨init, hinit⟩ : ∃ init, cs = init ++ [lca] := by
      rw [List.getLast?_eq_some_iff] at hlast
      exact hlast
    rw [hinit] at hchain₁
    have hfuel₂ : offset' + (data.drop k).length < fuel := by
      rw [List.length_drop, hoff]
      omega
    obtain ⟨k', added, al, s₂, v₂, h2, hs2, hk2, ha, hle, hal, hcount, hbytes, _⟩ :=
      appendLoop_shows L ci offset' (data.drop k) (0 + k) hfuel₂ hchain₁ hs
    rw [← hinit] at ha
    rw [List.length_drop] at hle hal hcount
    have hkk := hk.trans hk2
    rw [List.nil_append] at hkk
    have hfree : ∀ c ∈ added, v.fat c = FAT_CLUSTER_FREE := fun c hc => by
      rw [← hw.fat]
      exact (ha.free c hc).2
    have hdisj : ∀ c ∈ added, c ∉ cs := fun c hc hm =>
      hf.chain.not_free L hm (hfree c hc)
    have hcs : v₂.bytesOf cs = v₁.bytesOf cs := Vol.bytesOf_congr fun c hc =>
      ha.raw c fun hm => hdisj c hm hc
    have hadded : v₁.bytesOf added = v.bytesOf added := Vol.bytesOf_congr fun c hc =>
      hw.frame c (hdisj c hc)
    refine ⟨(k + k', s₂), ?_, v₂, added, ?_⟩
    · show appendLoop m ci fuel lca offset' (data.drop k) (0 + k) s₁ = _
      rw [h2, Nat.zero_add]
    · exact {
        shows_after := hs2
        le := by omega
        short := fun hshort => by
          rw [hkk.allocs, List.drop_left]
          exact hal (by omega)
        file := ⟨by rw [hkk.getContentMode]; exact hf.readable,
          by rw [hkk.getContentMode]; exact hf.writable,
          by rw [hkk.getContentDataCa]; exact ha.chain⟩
        free := hfree
        count := fun hkd hpos => by
          have heq := hw.eq
          have hsum : offset + data.length
              = cs.length * m.fi.clusterSize + (offset' + (data.length - k)) := by
            rw [hoff]
            omega
          rw [List.length_append, hcount (by omega) (by omega), hsum,
            ceilDiv_mul_add _ _ L.clusterSize_pos]
          omega
        bytes := by
          rw [Vol.bytesOf_append, Vol.bytesOf_append, hcs, hbytes, hadded, hoff]
          exact splice_written hw.eq hw.bytes (Or.inl hlt)
        others := fun ca ds hds hdis => by
          obtain ⟨hds₁, hb₁⟩ := hothers₁ ca ds hds hdis
          have hnew : ∀ c ∈ ds, c ∉ added := fun c hc hm => hds.not_free L hc (hfree c hm)
          refine ⟨hds₁.congr fun c hc => ha.fat c (hnew c hc) ?_, ?_⟩
          · intro hcl
            exact hdis (List.mem_of_getLast? hcl) hc
          · rw [← hb₁]
            exact Vol.bytesOf_congr fun c hc => ha.raw c (hnew c hc) }

end NiFat32
