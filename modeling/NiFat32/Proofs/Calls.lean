import NiFat32.Core.Api
import NiFat32.Proofs.Parametric

/-!
# `Proofs.Calls`: relations that every call respects

`Bisim` covers the operations below the content table. `TableBisim` adds the table: `slot i` says
how slot `i` of the two tables compares, and it survives what the calls do to a slot. A call may
read fields that a slot does not have in common with its counterpart, so the lemma of a call that
goes through a handle asks that the two slots agree on them (`SameHandle`).
-/

set_option autoImplicit false

namespace NiFat32

open Relational

variable {m : Mount} {R : FS → FS → Prop} {slot : Nat → Content → Content → Prop} {s t : FS}

/-- The content that `setup_content` makes of the one in the slot. -/
def Content.filled (c : Content) (isDir : Bool) (name83 : List UInt8) (e : DirEntry)
    (mode : UInt8) : Content :=
  let c : Content :=
    if isDir then { c with contentType := .directory, directoryName := strncpy name83 11 }
    else { c with
      contentType := .file
      fileName := strncpy (unpack83Name name83).1 8
      fileExtension := strncpy (unpack83Name name83).2 3 }
  { c with entry := e, parentCluster := e.rca.toNat, dataCluster := e.dca.toNat, mode := mode }

/-- The content that `alloc_ci` leaves in the slot it takes. -/
def Content.taken (c : Content) : Content :=
  { c with contentType := .unknown, parentCluster := FAT_CLUSTER_BAD, indexRoot := NO_ECACHE }

/-- The content that `destroy_content` leaves. -/
def Content.emptied (c : Content) : Content :=
  { c with contentType := .empty, indexRoot := NO_ECACHE }

/-- The tables of related states compare slot by slot, and the calls keep that. -/
structure TableBisim (m : Mount) (R : FS → FS → Prop) (slot : Nat → Content → Content → Prop) :
    Prop where
  bisim : Bisim m R
  table : ∀ {s t}, R s t → ∀ i, slot i (s.contents i) (t.contents i)
  setContent : ∀ {s t}, R s t → ∀ {i c c'}, slot i c c' → R (s.setContent i c) (t.setContent i c')
  contentType : ∀ {i c c'}, slot i c c' → c.contentType = c'.contentType
  indexRoot : ∀ {i c c'}, slot i c c' → c.indexRoot = c'.indexRoot
  emptied : ∀ {i c c'}, slot i c c' → slot i c.emptied c'.emptied
  taken : ∀ {i c c'}, slot i c c' → slot i c.taken c'.taken
  filled : ∀ {i c c'}, slot i c c' → ∀ isDir name e mode,
    slot i (c.filled isDir name e mode) (c'.filled isDir name e mode)
  moved : ∀ {i c c'}, slot i c c' → ∀ ca,
    slot i { c with dataCluster := ca } { c' with dataCluster := ca }

/-- What the calls read through the handle is the same in both tables. -/
structure SameHandle (ci : Int) (s t : FS) : Prop where
  dataCa : getContentDataCa ci s = getContentDataCa ci t
  rootCa : getContentRootCa ci s = getContentRootCa ci t
  mode : getContentMode ci s = getContentMode ci t
  name : getContentName ci s = getContentName ci t

/-- What the call reads from the slots of its handles is the same in both tables. -/
def ApiCall.ReadsSame (s t : FS) : ApiCall → Prop
  | .openContent rci _ _ => getContentDataCa rci s = getContentDataCa rci t
  | .indexContent ci | .repairContent ci _ =>
    getContentType ci t = .directory → getContentDataCa ci s = getContentDataCa ci t
  | .statContent _ _ => True
  | c => ∀ ci ∈ c.handles, SameHandle ci s t

section Getters

variable {ci : Int} {u : FS}

theorem dataCa_of_table (h : u.contents = s.contents) :
    getContentDataCa ci u = getContentDataCa ci s := by
  rw [getContentDataCa, getContentDataCa, h]

theorem rootCa_of_table (h : u.contents = s.contents) :
    getContentRootCa ci u = getContentRootCa ci s := by
  rw [getContentRootCa, getContentRootCa, h]

theorem mode_of_table (h : u.contents = s.contents) :
    getContentMode ci u = getContentMode ci s := by
  rw [getContentMode, getContentMode, h]

theorem name_of_table (h : u.contents = s.contents) :
    getContentName ci u = getContentName ci s := by
  rw [getContentName, getContentName, h]

theorem ApiCall.readsSame_of_table (call : ApiCall) (h : u.contents = s.contents) :
    call.ReadsSame s u := by
  have hhandle : ∀ ci, SameHandle ci s u := fun ci =>
    ⟨(dataCa_of_table h).symm, (rootCa_of_table h).symm, (mode_of_table h).symm,
      (name_of_table h).symm⟩
  cases call with
  | openContent rci => exact (hhandle rci).dataCa
  | indexContent ci | repairContent ci => exact fun _ => (hhandle ci).dataCa
  | statContent => trivial
  | _ => exact fun ci _ => hhandle ci

theorem ApiCall.readsSame_refl (call : ApiCall) (s : FS) : call.ReadsSame s s :=
  call.readsSame_of_table rfl

end Getters

namespace TableBisim

variable (hb : TableBisim m R slot)

include hb

theorem getContentType (h : R s t) (ci : Int) : getContentType ci s = getContentType ci t := by
  rw [NiFat32.getContentType, NiFat32.getContentType, hb.contentType (hb.table h ci.toNat)]

theorem getContentEcache (h : R s t) (ci : Int) :
    getContentEcache ci s = getContentEcache ci t := by
  rw [NiFat32.getContentEcache, NiFat32.getContentEcache, hb.indexRoot (hb.table h ci.toNat)]

/-- Below the table the relation holds with the two tables fixed. -/
theorem fixed (h : R s t) : Bisim m (fun u u' => R u u' ∧ u.contents = s.contents ∧
    u'.contents = t.contents) ∧ (R s t ∧ s.contents = s.contents ∧ t.contents = t.contents) :=
  ⟨hb.bisim.withTable s.contents t.contents, h, rfl, rfl⟩

/-! ### The content table -/

theorem emptySlot (h : R s t) (left : Nat) : ∀ i, emptySlot s left i = emptySlot t left i := by
  induction left with
  | zero =>
    intro i
    rfl
  | succ left ih =>
    intro i
    rw [NiFat32.emptySlot, NiFat32.emptySlot, hb.contentType (hb.table h i), ih]

theorem allocCi (h : R s t) : Pairs R (allocCi s) (allocCi t) := by
  rw [NiFat32.allocCi, NiFat32.allocCi, hb.emptySlot h]
  cases NiFat32.emptySlot t CONTENT_TABLE_SIZE 0 with
  | none => exact Pairs.mk _ h
  | some i => exact Pairs.mk _ (hb.setContent h (hb.taken (hb.table h i)))

theorem setupContent (h : R s t) (ci : Int) (isDir : Bool) (name83 : List UInt8) (e : DirEntry)
    (mode : UInt8) :
    R (setupContent ci isDir name83 e mode s) (setupContent ci isDir name83 e mode t) := by
  rw [NiFat32.setupContent, NiFat32.setupContent]
  split
  · exact hb.setContent h (hb.filled (hb.table h ci.toNat) isDir name83 e mode)
  · exact h

theorem setContentDataCa (h : R s t) (ci : Int) (ca : Nat) :
    R (setContentDataCa ci ca s) (setContentDataCa ci ca t) := by
  rw [NiFat32.setContentDataCa, NiFat32.setContentDataCa]
  split
  · exact hb.setContent h (hb.moved (hb.table h ci.toNat) ca)
  · exact h

theorem destroyContent (h : R s t) (fuel : Nat) (ci : Int) :
    Ends R Prod.mk (destroyContent fuel ci s) (destroyContent fuel ci t) := by
  simp only [NiFat32.destroyContent, hb.contentType (hb.table h ci.toNat),
    hb.indexRoot (hb.table h ci.toNat), hb.bisim.heap h]
  split
  · split
    · exact Ends.none
    · exact Ends.some _ (hb.setContent h (hb.emptied (hb.table h ci.toNat)))
  · exact Ends.some _ h

/-! ### Opening -/

theorem getClusterByPath (h : R s t) (fuel : Nat) (path : List UInt8) (mode : UInt8) {rci : Int}
    (hrci : getContentDataCa rci s = getContentDataCa rci t) :
    Ends R Prod.mk (getClusterByPath m fuel path mode rci s)
      (getClusterByPath m fuel path mode rci t) := by
  rw [NiFat32.getClusterByPath, NiFat32.getClusterByPath, hrci]
  exact hb.bisim.pathLoop fuel mode _ (fun h' => hb.getContentEcache h' rci) h _

theorem contentExists (h : R s t) (fuel : Nat) (path : List UInt8) :
    Ends R Prod.mk (contentExists m fuel path s) (contentExists m fuel path t) := by
  have hnone : getContentDataCa NO_RCI s = getContentDataCa NO_RCI t := rfl
  refine (hb.getClusterByPath h fuel path (R_MODE ||| W_MODE) hnone).map ?_
  intro found s' t' h'
  exact ⟨_, s', t', rfl, rfl, h'⟩

omit hb in
/-- Taking a slot leaves the data cluster of every slot. -/
theorem dataCa_allocCi (rci : Int) (s : FS) :
    getContentDataCa rci (NiFat32.allocCi s).2 = getContentDataCa rci s := by
  rw [NiFat32.allocCi]
  cases NiFat32.emptySlot s CONTENT_TABLE_SIZE 0 with
  | none => rfl
  | some i =>
    simp only [getContentDataCa, FS.setContent]
    split
    · split
      · next hi => rw [hi]
      · rfl
    · rfl

theorem openContent (h : R s t) (fuel : Nat) {rci : Int}
    (hrci : getContentDataCa rci s = getContentDataCa rci t) (path : Option (List UInt8))
    (mode : UInt8) : Ends R Prod.mk (openContent m fuel rci path mode s)
      (openContent m fuel rci path mode t) := by
  have htaken : getContentDataCa rci (NiFat32.allocCi s).2
      = getContentDataCa rci (NiFat32.allocCi t).2 := by
    rw [dataCa_allocCi, dataCa_allocCi, hrci]
  obtain ⟨ci, s₁, t₁, hs, ht, h₁⟩ := hb.allocCi h
  rw [hs, ht] at htaken
  rw [NiFat32.openContent, NiFat32.openContent, hs, ht]
  simp only
  split
  · exact Ends.some _ (hb.bisim.error h₁ _)
  cases path with
  | none => exact Ends.some _ (hb.setupContent h₁ ci true rootName (rootEntry m) mode)
  | some path =>
    rcases hb.getClusterByPath h₁ fuel path mode htaken with
      ⟨hs, ht⟩ | ⟨found, s₂, t₂, hs, ht, h₂⟩
    · simp only [hs, ht]
      exact Ends.none
    simp only [hs, ht]
    cases found.filter fun e => e.dca.toNat ≠ FAT_CLUSTER_BAD with
    | some e => exact Ends.some _ (hb.setupContent h₂ ci e.isDir e.fileName.toList e mode)
    | none =>
      refine (hb.destroyContent (hb.bisim.error h₂ _) fuel ci).map ?_
      intro _ s' t' h'
      exact ⟨-2, s', t', rfl, rfl, h'⟩

/-- The new root of the index goes into the slot. -/
theorem indexContent (h : R s t) (fuel : Nat) {ci : Int}
    (hdata : NiFat32.getContentType ci t = .directory →
      getContentDataCa ci s = getContentDataCa ci t)
    (hslot : inTable ci → ∀ root s' t', NiFat32.entryIndex m fuel (getContentDataCa ci s)
      (NiFat32.getContentEcache ci s) s = some (root, s') → R s' t' →
      slot ci.toNat { s'.contents ci.toNat with indexRoot := root }
        { t'.contents ci.toNat with indexRoot := root }) :
    Ends R Prod.mk (nifat32IndexContent m fuel ci s) (nifat32IndexContent m fuel ci t) := by
  rw [nifat32IndexContent, nifat32IndexContent, hb.getContentType h]
  by_cases hdir : NiFat32.getContentType ci t = .directory
  swap
  · rw [if_pos hdir, if_pos hdir]
    exact Ends.some _ (hb.bisim.error h _)
  replace hdata := hdata hdir
  rw [if_neg (not_not_intro hdir), if_neg (not_not_intro hdir)]
  rw [NiFat32.indexContent, NiFat32.indexContent]
  by_cases hin : inTable ci
  · rw [getContentDataCa, getContentDataCa, if_pos hin, if_pos hin] at hdata
    have hnew := hslot hin
    rw [getContentDataCa, NiFat32.getContentEcache, if_pos hin, if_pos hin] at hnew
    simp only [if_pos hin, hb.indexRoot (hb.table h ci.toNat), hb.bisim.heap h, hdata] at hnew ⊢
    split
    · exact Ends.none
    rcases hb.bisim.entryIndex h fuel (t.contents ci.toNat).dataCluster
      (t.contents ci.toNat).indexRoot with ⟨hs, ht⟩ | ⟨root, s', t', hs, ht, h'⟩
    · rw [hs, ht]
      exact Ends.none
    · rw [hs, ht]
      exact Ends.some true (hb.setContent h' (hnew root s' t' hs h'))
  · rw [if_neg hin, if_neg hin]
    exact Ends.some _ h

/-! ### The calls through a handle -/

variable {ci : Int}

theorem readContent2buffer (h : R s t) (hci : SameHandle ci s t) (fuel offset size : Nat) :
    Ends R (fun (r : Nat × List UInt8) u => (r.1, r.2, u))
      (readContent2buffer m fuel ci offset size s)
      (readContent2buffer m fuel ci offset size t) := by
  rw [NiFat32.readContent2buffer, NiFat32.readContent2buffer, hci.mode, hci.dataCa]
  split
  · exact hb.bisim.readLoop fuel h _ offset size 0 []
  · exact Ends.some (0, []) (hb.bisim.error h _)

omit hb in
/-- The relation with the tables fixed is the relation. -/
theorem Ends.forget {ρ τ : Type} {k : ρ → FS → τ} {x y : Option τ} {c c' : Nat → Content}
    (h : Ends (fun u u' => R u u' ∧ u.contents = c ∧ u'.contents = c') k x y) : Ends R k x y := by
  rcases h with hnone | ⟨a, s', t', hs, ht, h', _⟩
  · exact Or.inl hnone
  · exact Or.inr ⟨a, s', t', hs, ht, h'⟩

theorem writeBuffer2content (h : R s t) (hci : SameHandle ci s t) (fuel offset : Nat)
    (data : List UInt8) : Ends R Prod.mk (writeBuffer2content m fuel ci offset data s)
      (writeBuffer2content m fuel ci offset data t) := by
  obtain ⟨hf, h₀⟩ := hb.fixed h
  rw [NiFat32.writeBuffer2content, NiFat32.writeBuffer2content, hci.mode, hci.dataCa]
  split
  · rcases hf.writeLoop fuel h₀ (getContentDataCa ci t) offset data 0 with
      ⟨hs, ht⟩ | ⟨written, s', t', hs, ht, h'⟩
    · rw [hs, ht]
      exact Ends.none
    simp only [hs, ht]
    cases written with
    | none => exact Ends.some _ h'.1
    | some r =>
      apply Ends.forget
      apply hf.appendLoop _ fuel h'
      intro u u' hu
      rw [dataCa_of_table hu.2.1, dataCa_of_table hu.2.2, hci.dataCa]
  · exact Ends.some _ (hb.bisim.error h _)

theorem changeMeta (h : R s t) (hci : SameHandle ci s t) (fuel : Nat) (info : CInfo) :
    Ends R Prod.mk (changeMeta m fuel ci info s) (changeMeta m fuel ci info t) := by
  simp only [NiFat32.changeMeta, hci.name, hci.dataCa, hci.rootCa, hb.getContentEcache h]
  cases getContentName ci t with
  | none => exact Ends.none
  | some name =>
    refine (hb.bisim.entryEdit h fuel _ _ name _).map ?_
    intro ok s' t' h'
    cases ok with
    | true => exact ⟨true, s', t', rfl, rfl, h'⟩
    | false => exact ⟨false, _, _, rfl, rfl, hb.bisim.error h' _⟩

theorem truncateContent (h : R s t) (hci : SameHandle ci s t) (fuel offset : Nat) (size : Int) :
    Ends R Prod.mk (truncateContent m fuel ci offset size s)
      (truncateContent m fuel ci offset size t) := by
  obtain ⟨hf, h₀⟩ := hb.fixed h
  rw [NiFat32.truncateContent, NiFat32.truncateContent, hci.mode, hci.dataCa]
  split
  · rcases hf.truncateLoop fuel h₀ (getContentDataCa ci t) offset size FAT_CLUSTER_BAD
      FAT_CLUSTER_BAD with ⟨hs, ht⟩ | ⟨startCa, s', t', hs, ht, h', hc, hc'⟩
    · rw [hs, ht]
      exact Ends.none
    simp only [hs, ht, name_of_table hc, name_of_table hc', hci.name,
      rootCa_of_table hc, rootCa_of_table hc', hci.rootCa]
    cases getContentName ci t with
    | none => exact Ends.none
    | some name =>
      refine (hb.bisim.entryEdit h' fuel _ _ name _).map ?_
      intro _ s'' t'' h''
      exact ⟨true, s'', t'', rfl, rfl, h''⟩
  · exact Ends.some _ (hb.bisim.error h _)

theorem putContent (h : R s t) (hci : SameHandle ci s t) (fuel : Nat) (info : CInfo)
    (reserve : Int) : Ends R Prod.mk (putContent m fuel ci info reserve s)
      (putContent m fuel ci info reserve t) := by
  simp only [NiFat32.putContent, hci.dataCa, hb.getContentEcache h]
  rcases hb.bisim.entrySearch h fuel info.fullName (getContentDataCa ci t)
    (NiFat32.getContentEcache ci t) with ⟨hs, ht⟩ | ⟨found, s₁, t₁, hs, ht, h₁⟩
  · rw [hs, ht]
    exact Ends.none
  rw [hs, ht]
  cases found with
  | some e => exact Ends.some _ (hb.bisim.error h₁ _)
  | none =>
    obtain ⟨nca, s₂, t₂, hs, ht, h₂⟩ := hb.bisim.allocNext h₁
    obtain ⟨ok, s₃, t₃, hs', ht', h₃⟩ := hb.bisim.setClusterEnd h₂ nca
    simp only [hs, ht, hs', ht']
    cases ok with
    | false => exact Ends.some _ (hb.bisim.error h₃ _)
    | true =>
      simp only
      rcases hb.bisim.entryAdd fuel h₃ (getContentDataCa ci t) (NiFat32.getContentEcache ci t)
        (createEntry info.fullName (info.type = STAT_DIR) nca
          (reserve * m.fi.clusterSize % 2 ^ 32).toNat) with
        ⟨hs, ht⟩ | ⟨⟨result, e⟩, s₄, t₄, hs, ht, h₄⟩
      · rw [hs, ht]
        exact Ends.none
      simp only [hs, ht]
      split
      · exact Ends.some _ (hb.bisim.deallocCluster (hb.bisim.error h₄ _) _).snd
      · exact Ends.some _ (hb.bisim.reserveLoop _ h₄ _)

theorem removeContent (h : R s t) (hci : SameHandle ci s t) (fuel : Nat) :
    Ends R Prod.mk (removeContent m fuel ci s) (removeContent m fuel ci t) := by
  rw [NiFat32.removeContent, NiFat32.removeContent, hci.name, hci.rootCa, hb.getContentEcache h]
  cases getContentName ci t with
  | none => exact Ends.some _ (hb.bisim.readEncodedCluster h _).snd
  | some name => exact hb.bisim.entryRemove h fuel _ name _

theorem deleteContent (h : R s t) (hci : SameHandle ci s t) (fuel : Nat) :
    Ends R Prod.mk (deleteContent m fuel ci s) (deleteContent m fuel ci t) := by
  rw [NiFat32.deleteContent, NiFat32.deleteContent]
  rcases hb.removeContent h hci fuel with ⟨hs, ht⟩ | ⟨ok, s', t', hs, ht, h'⟩
  · rw [hs, ht]
    exact Ends.none
  rw [hs, ht]
  cases ok with
  | false => exact Ends.some _ (hb.bisim.error h' _)
  | true =>
    refine (hb.destroyContent h' fuel ci).map ?_
    intro _ s'' t'' h''
    exact ⟨true, s'', t'', rfl, rfl, h''⟩

/-! ### Copying and repairing -/

variable {src dst : Int}

theorem deepCopyContent (h : R s t) (hsrc : SameHandle src s t) (hdst : SameHandle dst s t)
    (fuel : Nat) : Ends R Prod.mk (deepCopyContent m fuel src dst s)
      (deepCopyContent m fuel src dst t) := by
  rw [NiFat32.deepCopyContent, NiFat32.deepCopyContent, hsrc.dataCa, hdst.dataCa]
  simp only
  rcases hb.bisim.copyChain fuel h (getContentDataCa src t) (getContentDataCa dst t) with
    ⟨hs, ht⟩ | ⟨ok, s', t', hs, ht, h'⟩
  · rw [hs, ht]
    exact Ends.none
  rw [hs, ht]
  cases ok with
  | false =>
    refine (hb.bisim.abortCopy h' fuel _).map ?_
    intro _ s'' t'' h''
    exact ⟨false, s'', t'', rfl, rfl, h''⟩
  | true =>
    simp only [hb.getContentType h']
    split
    · refine (hb.bisim.entryIterate (hb.bisim.deepcopyHandler fuel) fuel h' _ ()).map ?_
      intro _ s'' t'' h''
      exact ⟨true, s'', t'', rfl, rfl, h''⟩
    · exact Ends.some _ h'

theorem searchContent (h : R s t) (hname : getContentName ci s = getContentName ci t)
    (hroot : getContentRootCa ci s = getContentRootCa ci t) (fuel : Nat) :
    Ends R Prod.mk (searchContent m fuel ci s) (searchContent m fuel ci t) := by
  rw [NiFat32.searchContent, NiFat32.searchContent, hname, hroot]
  cases getContentName ci t with
  | none => exact Ends.some _ h
  | some name => exact hb.bisim.entrySearch h fuel name _ _

theorem shallowCopyContent (h : R s t) (hsrc : SameHandle src s t) (hdst : SameHandle dst s t)
    (fuel : Nat) : Ends R Prod.mk (shallowCopyContent m fuel src dst s)
      (shallowCopyContent m fuel src dst t) := by
  -- the handles are read after each walk, and the walks leave the tables as they are
  obtain ⟨hf, h₀⟩ := hb.fixed h
  have hsearch : ∀ {ci : Int} {u u' : FS}, SameHandle ci s t →
      R u u' ∧ u.contents = s.contents ∧ u'.contents = t.contents →
      Ends (fun u u' => R u u' ∧ u.contents = s.contents ∧ u'.contents = t.contents) Prod.mk
        (NiFat32.searchContent m fuel ci u) (NiFat32.searchContent m fuel ci u') := by
    intro ci u u' hci hu
    rw [NiFat32.searchContent, NiFat32.searchContent, name_of_table hu.2.1,
      name_of_table hu.2.2, rootCa_of_table hu.2.1, rootCa_of_table hu.2.2,
      hci.name, hci.rootCa]
    cases getContentName ci t with
    | none => exact Ends.some _ hu
    | some name => exact hf.entrySearch hu fuel name _ _
  rw [NiFat32.shallowCopyContent, NiFat32.shallowCopyContent]
  rcases hsearch hsrc h₀ with ⟨hs, ht⟩ | ⟨source, s₁, t₁, hs, ht, h₁⟩
  · rw [hs, ht]
    exact Ends.none
  rw [hs, ht]
  cases source with
  | none => exact Ends.some _ (hb.bisim.error h₁.1 _)
  | some source =>
    simp only
    rcases hsearch hdst h₁ with ⟨hs, ht⟩ | ⟨destination, s₂, t₂, hs, ht, h₂⟩
    · rw [hs, ht]
      exact Ends.none
    rw [hs, ht]
    cases destination with
    | none => exact Ends.some _ (hb.bisim.error h₂.1 _)
    | some destination =>
      simp only
      rcases hf.deallocChain fuel h₂ destination.dca.toNat with
        ⟨hs, ht⟩ | ⟨ok, s₃, t₃, hs, ht, h₃⟩
      · rw [hs, ht]
        exact Ends.none
      rw [hs, ht]
      cases ok with
      | false => exact Ends.some _ (hb.bisim.error h₃.1 _)
      | true =>
        simp only [name_of_table h₃.2.1, name_of_table h₃.2.2,
          rootCa_of_table h₃.2.1, rootCa_of_table h₃.2.2, hdst.name, hdst.rootCa]
        cases getContentName dst t with
        | none => exact Ends.none
        | some name =>
          simp only
          generalize DirEntry.mk source.fileName _ _ _ _ _ (murmur3 _ 0) = copy
          refine (hf.entryEdit h₃ fuel (getContentRootCa dst t) NO_ECACHE name copy).map ?_
          intro ok s' t' h'
          cases ok with
          | false => exact ⟨false, _, _, rfl, rfl, hb.bisim.error h'.1 _⟩
          | true =>
            refine ⟨true, _, _, rfl, rfl, ?_⟩
            rw [dataCa_of_table h'.2.1, dataCa_of_table h'.2.2, hsrc.dataCa]
            exact hb.setContentDataCa h'.1 dst _

theorem copyContent (h : R s t) (hsrc : SameHandle src s t) (hdst : SameHandle dst s t)
    (fuel : Nat) (deep : Int) : Ends R Prod.mk (copyContent m fuel src dst deep s)
      (copyContent m fuel src dst deep t) := by
  rw [NiFat32.copyContent, NiFat32.copyContent]
  split
  · exact hb.deepCopyContent h hsrc hdst fuel
  split
  · exact hb.shallowCopyContent h hsrc hdst fuel
  · exact Ends.some _ (hb.bisim.error h _)

omit hb in
theorem nullHandler : nullHandler.Respects R := fun _ _ _ _ _ _ => Ends.none

theorem repairContent (h : R s t) (hdata : NiFat32.getContentType ci t = .directory →
      getContentDataCa ci s = getContentDataCa ci t) (fuel : Nat) (rec : Int) :
    Ends R Prod.mk (repairContent m fuel ci rec s)
      (repairContent m fuel ci rec t) := by
  rw [NiFat32.repairContent, NiFat32.repairContent, hb.getContentType h]
  by_cases hdir : NiFat32.getContentType ci t = .directory
  swap
  · rw [if_pos hdir, if_pos hdir]
    exact Ends.some _ (hb.bisim.error h _)
  rw [if_neg (not_not_intro hdir), if_neg (not_not_intro hdir), hdata hdir]
  have hhandler : (if rec = 0 then NiFat32.nullHandler else repairHandler m fuel).Respects R := by
    split
    · exact nullHandler
    · exact hb.bisim.repairHandler fuel
  refine (hb.bisim.entryIterate hhandler fuel h _ ()).map ?_
  intro _ s' t' h'
  exact ⟨true, s', t', rfl, rfl, h'⟩

theorem statContent_isSome (h : R s t) (info info' : CInfo) (i : Nat) :
    (statContent i info s).isSome = (statContent i info' t).isSome := by
  simp only [statContent, hb.contentType (hb.table h i)]
  split <;> rfl

omit hb in
/-- A call that returns whether it succeeded. -/
theorem Ends.toInt {x y : Option (Bool × FS)} (h : Ends R Prod.mk x y) :
    Ends R Prod.mk (x.map intOfBool) (y.map intOfBool) := by
  refine h.map ?_
  intro ok s' t' h'
  exact ⟨if ok then 1 else 0, s', t', rfl, rfl, h'⟩

/-- A call from related states that read the same through its handles. -/
theorem runCall {c : ApiCall} (h : R s t) (fuel : Nat) (hhandles : c.ReadsSame s t)
    (hindex : ∀ ci, c = .indexContent ci → inTable ci → ∀ root s' t',
      NiFat32.entryIndex m fuel (getContentDataCa ci s) (NiFat32.getContentEcache ci s) s
        = some (root, s') → R s' t' →
      slot ci.toNat { s'.contents ci.toNat with indexRoot := root }
        { t'.contents ci.toNat with indexRoot := root }) :
    Ends R Prod.mk (runCall m c fuel s) (runCall m c fuel t) := by
  cases c with
  | repairFat =>
    obtain ⟨ok, s', t', hs, ht, h'⟩ := hb.bisim.fatRepair h
    simp only [NiFat32.runCall, NiFat32.repairFat, hs, ht]
    exact Ends.some (if ok then 1 else 0) h'
  | contentExists path => exact Ends.toInt (hb.contentExists h fuel path)
  | openContent rci path mode => exact hb.openContent h fuel hhandles path mode
  | indexContent ci => exact Ends.toInt (hb.indexContent h fuel hhandles (hindex ci rfl))
  | closeContent ci => exact Ends.toInt (hb.destroyContent h fuel ci)
  | readContent2buffer ci offset size =>
    refine (hb.readContent2buffer h (hhandles ci (List.mem_singleton_self ci)) fuel offset
      size).map ?_
    intro r s' t' h'
    exact ⟨(r.1 : Int), s', t', rfl, rfl, h'⟩
  | writeBuffer2content ci offset data =>
    refine (hb.writeBuffer2content h (hhandles ci (List.mem_singleton_self ci)) fuel offset
      data).map ?_
    intro n s' t' h'
    exact ⟨(n : Int), s', t', rfl, rfl, h'⟩
  | changeMeta ci info =>
    exact Ends.toInt (hb.changeMeta h (hhandles ci (List.mem_singleton_self ci)) fuel info)
  | truncateContent ci offset size =>
    exact Ends.toInt
      (hb.truncateContent h (hhandles ci (List.mem_singleton_self ci)) fuel offset size)
  | putContent ci info reserve =>
    exact Ends.toInt (hb.putContent h (hhandles ci (List.mem_singleton_self ci)) fuel info reserve)
  | copyContent src dst deep =>
    have hdst : dst ∈ (ApiCall.copyContent src dst deep).handles :=
      List.mem_cons_of_mem src (List.mem_singleton_self dst)
    exact Ends.toInt (hb.copyContent h (hhandles src List.mem_cons_self) (hhandles dst hdst) fuel
      deep)
  | deleteContent ci =>
    exact Ends.toInt (hb.deleteContent h (hhandles ci (List.mem_singleton_self ci)) fuel)
  | statContent ci info =>
    simp only [NiFat32.runCall, nifat32StatContent]
    split
    · simp only [Option.map_some, hb.statContent_isSome h info info ci.toNat]
      exact Ends.some _ h
    · exact Ends.none
  | repairContent ci rec => exact Ends.toInt (hb.repairContent h hhandles fuel rec)

end TableBisim

end NiFat32
