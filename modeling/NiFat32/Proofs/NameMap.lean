import NiFat32.Proofs.Create
import NiFat32.Proofs.DirMap

/-!
# `Proofs.NameMap`: a directory as a map from names, with room for more

`Vol.NameMap` says that a directory maps names to nodes. Its entries carry the hash of their names,
and the names differ and have no zero byte, so a search finds the entry with the name and no other.
`Vol.room` counts the entries that it takes before `entry_add` hides an entry or has to grow the
chain: the slots behind the entries of its clusters, up to a cluster with a hole.

A search rewrites the clusters and leaves what a walk sees of them (`entrySearch_view`), so it
leaves the map and the room. An entry that goes in takes one slot of the room (`NameMap.insert`).
One that is taken out leaves a hole, and nothing is sure to fit any more (`NameMap.remove`).
-/

set_option autoImplicit false

namespace NiFat32

open Chain

variable {m : Mount} {s s' : FS} {v v' v₀ : Vol} {ca : Nat} {cs : List Nat}

/-! ### What a search leaves -/

section Search

variable {t : Slot}

/-- The walk ended at an entry, which it left as it is. -/
theorem SameView.hit (hat : SlotAt m v cs t) (hs : Sound (v.slots m t.c)) (hvalid : t.e.Valid)
    (hv₀ : SameView m v v₀ t.pre) (hfat : v'.fat = v₀.fat)
    (hother : ∀ k, k ≠ t.c → v'.raw k = v₀.raw k)
    (hslots : v'.slots m t.c = t.vpre.map cleaned ++ t.e :: t.vpost) : SameView m v v' cs := by
  have hst : Sound (t.vpre ++ t.e :: t.vpost) := hat.slots ▸ hs
  have hclean : ∀ d ∈ t.vpre.map cleaned, d.first ≠ ENTRY_END := by
    intro d hd
    obtain ⟨x, hx, rfl⟩ := List.mem_map.mp hd
    rw [first_cleaned]
    exact hat.visible x hx
  have hmem : t.c ∈ cs := by
    rw [hat.clusters]
    exact List.mem_append_right _ List.mem_cons_self
  have hpre : t.pre ⊆ cs := fun c hc => by
    rw [hat.clusters]
    exact List.mem_append_left _ hc
  refine ⟨hfat.trans hv₀.fat, fun c hc => ?_, fun c => ?_, fun c hc => ?_⟩
  · exact (hother c fun heq => hc (heq ▸ hmem)).trans (hv₀.raw c fun hm => hc (hpre hm))
  · by_cases heq : c = t.c
    · subst heq
      have hsound : ∀ d ∈ t.vpre, d.first ≠ ENTRY_FREE → d.Valid ∨ d.computedChecksum ≠ 0 := by
        intro d hd
        refine hst d ?_
        rw [visible_append hat.visible]
        exact List.mem_append_left _ hd
      unfold Vol.scan
      rw [hslots, hat.slots, scan_append hclean, scan_append hat.visible,
        map_slotView_cleaned hsound]
    · have hsame : v'.scan m c = v₀.scan m c :=
        congrArg NiFat32.scan (Vol.slots_congr (hother c heq))
      exact hsame.trans (hv₀.scan c)
  · by_cases heq : c = t.c
    · subst heq
      rw [hslots]
      exact sound_replace hst hat.visible hat.first fun _ => Or.inl hvalid
    · rw [Vol.slots_congr (hother c heq)]
      exact hv₀.sound c hc

/-- `entry_search` finds the first entry that matches, and a walk sees the same afterwards. -/
theorem entrySearch_view (L : Layout m) {fuel : Nat} (hfuel : cs.length ≤ fuel)
    (hc : HasChain m v ca cs) (h : Shows m s v) (hs : SoundDir m v cs) (name : Name) :
    ∃ s' v', entrySearch m fuel name ca NO_ECACHE s
        = some ((v.first m cs (Matches name)).map foundAs, s') ∧
      Shows m s' v' ∧ Keeps [] s s' ∧ SameView m v v' cs := by
  unfold entrySearch NO_ECACHE
  simp only [if_true, ne_eq, not_true_eq_false, if_false]
  have hpass := searchHandler_passes name none
  cases firstAt_or m v cs (Matches name) with
  | inl hno =>
    obtain ⟨s', v', he, hs', hk, hview⟩ := walk_none L hfuel hc h hs hpass hno.1
    rw [he, hno.1]
    exact ⟨s', v', rfl, hs', hk, hview⟩
  | inr hyes =>
    obtain ⟨t, ht⟩ := hyes
    have hmem : t.c ∈ cs := by
      rw [ht.at_.clusters]
      exact List.mem_append_right _ List.mem_cons_self
    have hwalk := entryIterate_hit L hfuel hc h hs ht.at_ (hpass.skipsAll ht.pre) (hpass.skips ht)
      False (fun s₀ v₀ s₁ v₁ ctx' => s₁ = s₀ ∧ v₁ = v₀ ∧ ctx' = some (foundAs (t.c, t.e)))
      fun s₀ v₀ hs₀ _ _ => Or.inr ⟨_, s₀, v₀,
        searchHandler_hit ht.valid ht.free ht.sat ⟨t.c, t.vpre.length⟩ none s₀, hs₀, rfl, rfl, rfl⟩
    obtain ⟨ctx', s₀, v₀, s₁, v₁, s', v', he, hs', hk₀, hk₁, hv₀, ⟨rfl, rfl, rfl⟩, hfat, hother,
      hslots⟩ := hwalk.resolve_left fun hstuck => hstuck.1
    rw [he, ht.first_eq]
    exact ⟨s', v', rfl, hs', hk₀.nil_trans hk₁,
      .hit ht.at_ (hs t.c hmem) ht.valid hv₀ hfat hother hslots⟩

end Search

/-! ### The room of a directory -/

/-- The entries that the directory takes without growing and without hiding an entry. -/
def Vol.room (v : Vol) (m : Mount) : List Nat → Nat
  | [] => 0
  | c :: cs =>
    if (v.scan m c).all Option.isSome then
      entriesPerCluster m - (v.scan m c).length + v.room m cs
    else 0

theorem Vol.room_congr (h : ∀ c ∈ cs, v'.scan m c = v.scan m c) : v'.room m cs = v.room m cs := by
  induction cs with
  | nil => rfl
  | cons c cs ih =>
    rw [Vol.room, Vol.room, h c List.mem_cons_self, ih fun d hd => h d (List.mem_cons_of_mem c hd)]

/-- A walk sees an entry in every slot of the cluster. -/
def Vol.Full (m : Mount) (v : Vol) (c : Nat) : Prop :=
  (v.scan m c).all Option.isSome = true ∧ (v.scan m c).length = entriesPerCluster m

theorem Vol.full_iff {c : Nat} : v.Full m c ↔ (v.slots m c).any addable = false := by
  have hlen : (v.slots m c).length = entriesPerCluster m := length_slotsIn _
  have hsome : (v.scan m c).all Option.isSome = true ↔ none ∉ v.scan m c := by
    rw [List.all_eq_true]
    constructor
    · intro h hmem
      have hfalse := h none hmem
      cases hfalse
    · intro h x hx
      cases x with
      | none => exact absurd hx h
      | some e => rfl
  rw [any_addable_eq_false, hlen]
  unfold Vol.Full
  rw [hsome]
  rfl

/-- Full clusters in front have no room of their own. -/
theorem Vol.room_append {ps qs : List Nat} (h : ∀ c ∈ ps, v.Full m c) :
    v.room m (ps ++ qs) = v.room m qs := by
  induction ps with
  | nil => rfl
  | cons c ps ih =>
    obtain ⟨hall, hlen⟩ := h c List.mem_cons_self
    rw [List.cons_append, Vol.room, if_pos hall, hlen, Nat.sub_self, Nat.zero_add]
    exact ih fun d hd => h d (List.mem_cons_of_mem c hd)

/-- Where there is room, `entry_add` takes the slot behind the entries of a cluster. -/
theorem Vol.addCluster_of_room (h : 0 < v.room m cs) : ∃ ps c qs, cs = ps ++ c :: qs ∧
    (∀ k ∈ ps, v.Full m k) ∧ v.addCluster m cs = some c ∧
    (v.scan m c).all Option.isSome = true := by
  induction cs with
  | nil => cases h
  | cons c cs ih =>
    rw [Vol.room] at h
    split at h
    · next hall =>
      by_cases hfull : v.Full m c
      · -- the slot lies behind this cluster
        rw [hfull.2, Nat.sub_self, Nat.zero_add] at h
        obtain ⟨ps, d, qs, rfl, hps, hadd, hd⟩ := ih h
        refine ⟨c :: ps, d, qs, rfl, fun k hk => ?_, ?_, hd⟩
        · cases List.mem_cons.mp hk with
          | inl heq => exact heq ▸ hfull
          | inr hk => exact hps k hk
        · unfold Vol.addCluster at hadd ⊢
          rw [List.find?_cons, Vol.full_iff.mp hfull]
          exact hadd
      · have hany : (v.slots m c).any addable = true :=
          Bool.not_eq_false _ ▸ fun hno => hfull (Vol.full_iff.mpr hno)
        refine ⟨[], c, cs, rfl, fun k hk => absurd hk List.not_mem_nil, ?_, hall⟩
        unfold Vol.addCluster
        rw [List.find?_cons, hany]
    · cases h

/-- An entry behind those of a cluster takes one slot of the room. -/
theorem Vol.room_put {ps qs : List Nat} {c : Nat} {e : DirEntry} (hnodup : (ps ++ c :: qs).Nodup)
    (hps : ∀ j ∈ ps, v.Full m j) (hall : (v.scan m c).all Option.isSome = true)
    (hother : ∀ j, j ≠ c → v'.scan m j = v.scan m j)
    (hself : v'.scan m c = v.scan m c ++ [some e]) :
    v.room m (ps ++ c :: qs) - 1 ≤ v'.room m (ps ++ c :: qs) := by
  obtain ⟨-, hq, hdisj⟩ := List.nodup_append.mp hnodup
  have hps' : ∀ j ∈ ps, v'.Full m j := by
    intro j hj
    have hne : j ≠ c := fun heq => hdisj j hj c List.mem_cons_self heq
    unfold Vol.Full
    rw [hother j hne]
    exact hps j hj
  have hqs : v'.room m qs = v.room m qs :=
    Vol.room_congr fun j hj => hother j fun heq => (List.nodup_cons.mp hq).1 (heq ▸ hj)
  have hall' : (v.scan m c ++ [some e]).all Option.isSome = true := by
    rw [List.all_append, hall]
    rfl
  rw [Vol.room_append hps, Vol.room_append hps', Vol.room, Vol.room, if_pos hall, hself,
    if_pos hall', hqs, List.length_append, List.length_singleton]
  omega

section Slots

variable {slots pre post : List DirEntry} {e e' : DirEntry}

/-- Without a hole, the slot that is taken lies behind all entries. -/
theorem TakesAt.scan_pre (h : TakesAt slots pre e post)
    (hall : (NiFat32.scan slots).all Option.isSome = true) :
    NiFat32.scan slots = pre.map some ∧ hiddenIn slots = [] := by
  have hpre : pre.map slotView = pre.map some := List.map_congr_left fun d hd => by
    have hl := ((addable_eq_false d).mp (h.full d hd)).1
    exact slotView_live hl.1 hl.2
  have hend : e.first = ENTRY_END := by
    by_contra hne
    have hhole := ((addable_iff e).mp h.slot).resolve_right hne
    rw [h.split, scan_append h.visible_pre, scan_cons hne, slotView_hole hhole, List.all_append,
      List.all_cons] at hall
    simp at hall
  constructor
  · rw [h.split, scan_append h.visible_pre, hpre]
    unfold NiFat32.scan
    rw [visible_cons_end hend]
    exact List.append_nil _
  · rw [h.hidden_eq, live_cons_end hend]

/-- The entry stands behind the others, and nothing behind it. -/
theorem TakesAt.scan_put (h : TakesAt slots pre e post) (hv : e'.Valid)
    (hf : e'.first ≠ ENTRY_FREE) (hend : e'.first ≠ ENTRY_END) :
    NiFat32.scan (pre ++ e' :: closeSlots post) = pre.map some ++ [some e'] := by
  have hpre : pre.map slotView = pre.map some := List.map_congr_left fun d hd => by
    have hl := ((addable_eq_false d).mp (h.full d hd)).1
    exact slotView_live hl.1 hl.2
  rw [scan_append h.visible_pre, hpre, scan_cons hend, slotView_live hv hf]
  unfold NiFat32.scan
  rw [visible_closeSlots]
  rfl

end Slots

/-! ### A part of a directory -/

section Behind

variable {pre ds : List Nat} {t : Slot} {p : DirEntry → Bool} {e' : DirEntry}

/-- The same slot, with more clusters in front. -/
def Slot.behind (t : Slot) (pre : List Nat) : Slot := { t with pre := pre ++ t.pre }

theorem Slot.before_behind (t : Slot) (m : Mount) (v : Vol) :
    (t.behind pre).before m v = v.entries m pre ++ t.before m v := by
  unfold Slot.before Slot.behind
  rw [Vol.entries_append, List.append_assoc]

/-- The first entry behind clusters without one is the first of all. -/
theorem FirstAt.behind (ht : FirstAt m v ds p t)
    (hpre : ∀ j ∈ pre, ∀ d ∈ v.live m j, p d = false) :
    FirstAt m v (pre ++ ds) p (t.behind pre) := by
  refine ⟨⟨?_, ht.at_.slots, ht.at_.visible, ht.at_.first⟩, fun j hj d hd => ?_, ht.vpre,
    ht.valid, ht.free, ht.sat⟩
  · show pre ++ ds = pre ++ t.pre ++ t.c :: t.post
    rw [List.append_assoc, ← ht.at_.clusters]
  · cases List.mem_append.mp hj with
    | inl hj => exact hpre j hj d hd
    | inr hj => exact ht.pre j hj d hd

/-- A slot that was replaced behind other clusters was replaced in the whole directory. -/
theorem Replaced.behind (hrep : Replaced m v v' ds t e') (hs : SoundDir m v (pre ++ ds))
    (hdis : ∀ j ∈ pre, j ∉ ds) : Replaced m v v' (pre ++ ds) (t.behind pre) e' := by
  have hraw : ∀ j ∈ pre, v'.raw j = v.raw j := fun j hj => hrep.raw j (hdis j hj)
  refine ⟨fun j hj => hrep.raw j fun hm => hj (List.mem_append_right pre hm), hrep.slots,
    fun hok j hj => ?_, fun hend => ?_⟩
  · cases List.mem_append.mp hj with
    | inl hj =>
      rw [Vol.slots_congr (hraw j hj)]
      exact hs j (List.mem_append_left _ hj)
    | inr hj => exact hrep.sound hok j hj
  · have hentries : v'.entries m pre = v.entries m pre :=
      Vol.entries_congr fun j hj => congrArg NiFat32.live (Vol.slots_congr (hraw j hj))
    rw [Vol.entries_append, hentries, hrep.entries hend, Slot.before_behind, List.append_assoc]
    rfl

end Behind

/-! ### The map -/

/-- What a name stands for: a file or a directory, by its first cluster. -/
structure TreeNode where
  start : Nat
  isDir : Bool

/-- The node of a record. -/
def Record.node (r : Record) : TreeNode :=
  ⟨r.dca.toNat, r.attributes &&& FILE_DIRECTORY = FILE_DIRECTORY⟩

/-- The node of an entry. -/
def DirEntry.node (e : DirEntry) : TreeNode := e.record.node

theorem DirEntry.node_eq (e : DirEntry) : e.node = ⟨e.dca.toNat, e.isDir⟩ := rfl

/-- The directory at `ca` has the clusters `cs` and maps `names`, and it has room for `k` more. -/
structure Vol.NameMap (m : Mount) (v : Vol) (ca : Nat) (cs : List Nat)
    (names : Name → Option TreeNode) (k : Nat) : Prop extends DirOf m v ca cs where
  plain : ∀ x ∈ v.entries m cs, ∀ b ∈ x.2.fileName.toList, b ≠ 0
  started : ∀ x ∈ v.entries m cs, x.2.dca.toNat ≠ FAT_CLUSTER_BAD
  names : ∀ name, names name = (v.dirMap m cs name).map Record.node
  room : k ≤ v.room m cs

namespace Vol.NameMap

variable {names : Name → Option TreeNode} {k : Nat} {name : Name}

/-- A directory in which a walk sees the same. -/
theorem congr (h : v.NameMap m ca cs names k) (hc : HasChain m v' ca cs)
    (hsound : SoundDir m v' cs) (hscan : ∀ c ∈ cs, v'.scan m c = v.scan m c) :
    v'.NameMap m ca cs names k := by
  have hentries : v'.entries m cs = v.entries m cs :=
    Vol.entries_congr fun c hc => Vol.live_of_scan (hscan c hc)
  refine ⟨⟨hc, hsound, ?_, ?_⟩, ?_, ?_, fun name => ?_, ?_⟩
  · exact hentries ▸ h.hashed
  · exact hentries ▸ h.distinct
  · exact hentries ▸ h.plain
  · exact hentries ▸ h.started
  · rw [h.names]
    unfold Vol.dirMap
    rw [hentries]
  · rw [Vol.room_congr hscan]
    exact h.room

/-- Names without zero bytes are told apart. -/
theorem name_eq (h : v.NameMap m ca cs names k) {x : Nat × DirEntry} (hx : x ∈ v.entries m cs)
    (hname : SameName name x.2 = true) : nameOf x = name := by
  unfold SameName at hname
  rw [nameEq_comm] at hname
  exact ((nameEq_iff name x.2.fileName (h.plain x hx)).mp hname).symm

/-- The entry that a search finds is the one of the map. -/
theorem first_matches (h : v.NameMap m ca cs names k) (name : Name) :
    v.first m cs (Matches name) = Assoc.lookup nameOf (v.entries m cs) name := by
  refine h.toDirOf.first_matches fun y hy => ?_
  unfold Vol.first at hy
  have hmatch := List.find?_some hy
  exact h.name_eq (List.mem_of_find?_eq_some hy) (Matches.sameName hmatch)

theorem first_node (h : v.NameMap m ca cs names k) (name : Name) :
    (v.first m cs (Matches name)).map (fun x => x.2.node) = names name := by
  rw [h.first_matches, h.names]
  unfold Vol.dirMap
  rw [Option.map_map]
  rfl

/-- An entry is found under its name. -/
theorem lookup_entry (h : v.NameMap m ca cs names k) {x : Nat × DirEntry}
    (hx : x ∈ v.entries m cs) : names x.2.fileName = some x.2.node := by
  rw [h.names]
  unfold Vol.dirMap
  rw [show Assoc.lookup nameOf (v.entries m cs) x.2.fileName = some x from
    Assoc.lookup_of_mem h.distinct hx]
  rfl

/-- An entry goes in where there is room: it stands in a slot of the directory, which does not
grow. -/
theorem insert (L : Layout m) (hlen : ∀ j, InVol m j → (v.raw j).length = m.fi.clusterSize)
    (h : v.NameMap m ca cs names k) (hk : 0 < k) {e : DirEntry} (hm : Storable e)
    (hplain : ∀ b ∈ e.fileName.toList, b ≠ 0) (hstart : e.dca.toNat ≠ FAT_CLUSTER_BAD)
    (hnew : names e.fileName = none) {c : Nat} {cs' : List Nat} (hf : Fills m v cs e c cs' v') :
    cs' = cs ∧ v'.fat = v.fat ∧ (∀ j, j ∉ cs → v'.raw j = v.raw j) ∧
      v'.NameMap m ca cs (Function.update names e.fileName (some e.node)) (k - 1) ∧
      ∀ x ∈ v.entries m cs, x ∈ v'.entries m cs := by
  obtain ⟨ps, d, qs, hcs, hps, hadd, hall⟩ :=
    Vol.addCluster_of_room (Nat.lt_of_lt_of_le hk h.room)
  have hi := hf.inserted L h.chain hlen h.sound hm
  cases hf with
  | grow hcs' hnone hn hfree ht => exact absurd (hadd.symm.trans hnone) (Option.some_ne_none d)
  | @slot ps' qs' c pre post e₀ hcs' hadd' ht =>
    obtain rfl : d = c := Option.some.inj (hadd.symm.trans hadd')
    obtain ⟨hscan, hhidden⟩ := ht.scan_pre hall
    have hhid : v.hidden m cs = [] := by
      unfold Vol.hidden
      rw [hadd]
      exact hhidden
    have hnone : v.dirMap m cs e.fileName = none := by
      have hnames := h.names e.fileName
      rw [hnew] at hnames
      exact Option.map_eq_none_iff.mp hnames.symm
    obtain ⟨hdir, hmap⟩ := h.toDirOf.insert hm hnone hhid hi
    obtain ⟨A, B, hold, hentries⟩ := hi.entries
    rw [hhid, List.map_nil, List.append_nil] at hold
    have hmem : ∀ x ∈ (v.setSlots m d (v.raw d)
        (pre ++ storedIn e d :: closeSlots post)).entries m cs,
        x ∈ v.entries m cs ∨ x = (d, storedIn e d) := by
      intro x hx
      rw [hentries, List.mem_append, List.mem_cons] at hx
      rw [hold, List.mem_append]
      tauto
    refine ⟨rfl, rfl, hi.raw, ⟨hdir, fun x hx => ?_, fun x hx => ?_, fun name => ?_, ?_⟩,
      fun x hx => ?_⟩
    · cases hmem x hx with
      | inl hx => exact h.plain x hx
      | inr heq => exact heq ▸ hplain
    · cases hmem x hx with
      | inl hx => exact h.started x hx
      | inr heq => exact heq ▸ hstart
    · rw [hmap]
      by_cases hname : name = e.fileName
      · rw [hname, Function.update_self, Function.update_self]
        rfl
      · rw [Function.update_of_ne hname, Function.update_of_ne hname]
        exact h.names name
    · -- one slot of the room is gone
      have hcount : (pre ++ storedIn e d :: closeSlots post).length = entriesPerCluster m := by
        have hl : (v.slots m d).length = entriesPerCluster m := length_slotsIn _
        rw [ht.split] at hl
        simpa [length_closeSlots] using hl
      have hd : InVol m d := h.chain.inVol d (by rw [hcs]; simp)
      refine Nat.le_trans (Nat.sub_le_sub_right h.room 1) ?_
      have hnodup := h.chain.nodup L
      rw [hcs] at hnodup ⊢
      refine Vol.room_put hnodup hps hall
        (fun j hj => congrArg NiFat32.scan (Vol.slots_setSlots_ne _ _ hj))
        (?_ : _ = _ ++ [some (storedIn e d)])
      unfold Vol.scan
      rw [Vol.slots_setSlots_self hcount (hlen d hd), hscan,
        ht.scan_put (hm.valid d) hm.free hm.last]
    · rw [hentries]
      rw [hold] at hx
      cases List.mem_append.mp hx with
      | inl hx => exact List.mem_append_left _ hx
      | inr hx => exact List.mem_append_right _ (List.mem_cons_of_mem _ hx)

/-- The removal of a file, through the cluster that holds its entry. -/
theorem remove (L : Layout m) (hs : Shows m s v) (h : v.NameMap m ca cs names k)
    {x : Nat × DirEntry} (hx : x ∈ v.entries m cs) (hfile : x.2.isDir = false) {fs : List Nat}
    (hfs : HasChain m v x.2.dca.toNat fs) (hdis : List.Disjoint cs fs) {fuel : Nat}
    (hfuel : 2 * m.fi.totalClusters + 2 ≤ fuel) :
    ∃ s' v', entryRemove m fuel x.1 x.2.fileName NO_ECACHE s = some (true, s') ∧ Shows m s' v' ∧
      Keeps [] s s' ∧ v'.fat = (v.freeAll fs).fat ∧ (∀ j, j ∉ cs → v'.raw j = v.raw j) ∧
      v'.NameMap m ca cs (Function.update names x.2.fileName none) 0 ∧
      ∀ y ∈ v.entries m cs, y.2.fileName ≠ x.2.fileName → y ∈ v'.entries m cs := by
  obtain ⟨c, e⟩ := x
  obtain ⟨hcm, hlive⟩ := Vol.mem_entries.mp hx
  have hlencs := h.chain.length_le L
  obtain ⟨pre, post, hcs, hchain⟩ := h.chain.of_mem hcm
  have hsub : SoundDir m v (c :: post) := fun j hj =>
    h.sound j (hcs ▸ List.mem_append_right pre hj)
  have hfirst : ∃ t, FirstAt m v (c :: post) (SameName e.fileName) t := by
    refine (firstAt_or m v (c :: post) (SameName e.fileName)).resolve_left fun hno => ?_
    have hfalse := hno.2 c List.mem_cons_self e hlive
    rw [SameName, nameEq_self] at hfalse
    cases hfalse
  obtain ⟨t, ht⟩ := hfirst
  -- the names differ, so the entry that goes is that of the handle
  have hunique : ∀ y ∈ v.entries m cs, SameName e.fileName y.2 = true → y = (c, e) := by
    intro y hy hname
    have hlook := Assoc.lookup_of_mem h.distinct hy
    rw [h.name_eq hy hname] at hlook
    have hself : Assoc.lookup nameOf (v.entries m cs) e.fileName = some (c, e) :=
      Assoc.lookup_of_mem h.distinct hx
    exact Option.some.inj (hlook.symm.trans hself)
  have htx : (t.c, t.e) = (c, e) := by
    refine hunique _ ?_ ht.sat
    rw [hcs, Vol.entries_append]
    exact List.mem_append_right _ ht.mem
  obtain ⟨rfl, rfl⟩ := Prod.mk.inj htx
  have hnodup := h.chain.nodup L
  rw [hcs, List.nodup_append] at hnodup
  have hpre : ∀ j ∈ pre, j ∉ t.c :: post := fun j hj hm => hnodup.2.2 j hj j hm rfl
  have hown : Owns m v 1 t.e.dca.toNat t.e.isDir fs := by
    rw [hfile]
    exact hfs
  have hlen : (t.c :: post).length ≤ fuel := by
    have hle := congrArg List.length hcs
    rw [List.length_append] at hle
    omega
  obtain ⟨s', v', hrun, hs', hl, hfat, hrep⟩ := (entryRemove_first NO_ECACHE L hlen (by omega)
    hchain hs hsub ht hown (hfs.nodup L)).resolve_left fun hstuck => hstuck.1 rfl
  -- the slot and what became of it, in the whole directory
  have hat : FirstAt m v cs (SameName t.e.fileName) (t.behind pre) := by
    rw [hcs]
    refine ht.behind fun j hj d hd => ?_
    by_contra hsame
    have hmem : (j, d) ∈ v.entries m cs :=
      Vol.mem_entries.mpr ⟨hcs ▸ List.mem_append_left _ hj, hd⟩
    have heq := hunique _ hmem (Bool.not_eq_false _ ▸ hsame)
    exact hpre j hj ((Prod.mk.inj heq).1 ▸ List.mem_cons_self)
  have hwhole : Replaced m v v' cs (t.behind pre) (t.e.setFirst ENTRY_FREE) := by
    rw [hcs]
    exact hrep.behind (hcs ▸ h.sound) hpre
  obtain ⟨hdir, hmap⟩ := h.toDirOf.erase hat rfl hdis hfat hwhole
  have hfree : (t.e.setFirst ENTRY_FREE).first = ENTRY_FREE := DirEntry.first_setFirst _ _
  have hnew := hwhole.entries (by rw [hfree]; decide)
  rw [slotView_free hfree] at hnew
  have hold := hat.at_.entries_eq hat.valid hat.free
  have hmem : ∀ y ∈ v'.entries m cs, y ∈ v.entries m cs := by
    intro y hy
    rw [hnew] at hy
    rw [hold]
    cases List.mem_append.mp hy with
    | inl hy => exact List.mem_append_left _ hy
    | inr hy => exact List.mem_append_right _ (List.mem_cons_of_mem _ hy)
  refine ⟨s', v', hrun, hs', hl.keeps rfl, hfat, hwhole.raw, ⟨hdir,
    fun y hy => h.plain y (hmem y hy), fun y hy => h.started y (hmem y hy), fun name => ?_,
    Nat.zero_le _⟩, fun y hy hne => ?_⟩
  · rw [hmap]
    by_cases hname : name = t.e.fileName
    · rw [hname, Function.update_self, Function.update_self]
      rfl
    · rw [Function.update_of_ne hname, Function.update_of_ne hname]
      exact h.names name
  · rw [hold] at hy
    rw [hnew]
    cases List.mem_append.mp hy with
    | inl hy => exact List.mem_append_left _ hy
    | inr hy =>
      cases List.mem_cons.mp hy with
      | inl heq => exact absurd (congrArg nameOf heq) hne
      | inr hy => exact List.mem_append_right _ hy

end Vol.NameMap

end NiFat32
