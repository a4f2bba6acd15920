import NiFat32.Proofs.Directory

/-!
# `Proofs.Insert`: adding an entry

`entry_add` takes the first slot of the directory that is no entry, and marks the slot behind it
as the end of the cluster. `Vol.hidden` are the entries of that cluster that lie behind the slot:
after the call no walk sees them any more. When every slot is taken, the chain grows by a free
cluster.

`entryAdd_shows` says that the entries of the directory are the old ones with the new entry in
the place of the hidden ones.
-/

set_option autoImplicit false

namespace NiFat32

variable {m : Mount} {s s' : FS} {v v' : Vol} {ca : Nat} {cs : List Nat}

/-! ### The slot that is taken -/

theorem addable_iff (e : DirEntry) : addable e = true ↔
    ¬ (e.Valid ∧ e.first ≠ ENTRY_FREE) ∨ e.first = ENTRY_END := by
  unfold addable
  rw [decide_eq_true_eq]
  tauto

theorem addable_eq_false (e : DirEntry) : addable e = false ↔
    (e.Valid ∧ e.first ≠ ENTRY_FREE) ∧ e.first ≠ ENTRY_END := by
  rw [← Bool.not_eq_true, addable_iff]
  tauto

/-- The entries of a cluster from the slot on that `entry_add` takes. -/
def hiddenIn (slots : List DirEntry) : List DirEntry :=
  live (slots.dropWhile fun e => !addable e)

/-- The slots behind the new entry: the first of them ends the directory. -/
def closeSlots : List DirEntry → List DirEntry
  | [] => []
  | e :: es => e.setFirst ENTRY_END :: es

theorem visible_closeSlots (es : List DirEntry) : visible (closeSlots es) = [] := by
  cases es with
  | nil => rfl
  | cons e es => exact visible_cons_end (DirEntry.first_setFirst e ENTRY_END)

theorem length_closeSlots (es : List DirEntry) : (closeSlots es).length = es.length := by
  cases es <;> rfl

theorem putSlot_append (pre : List DirEntry) (e : DirEntry) (post : List DirEntry)
    (e' : DirEntry) : putSlot (pre ++ e :: post) pre.length e' = pre ++ e' :: closeSlots post := by
  unfold putSlot
  induction pre with
  | nil =>
    cases post with
    | nil => rfl
    | cons d post => rfl
  | cons d pre ih =>
    show d :: (((pre ++ e :: post).set pre.length e').modify (pre.length + 1) fun d =>
      d.setFirst ENTRY_END) = _
    rw [ih]
    rfl

/-- A cluster, around the slot that is taken. -/
structure TakesAt (slots pre : List DirEntry) (e : DirEntry) (post : List DirEntry) : Prop where
  split : slots = pre ++ e :: post
  full : ∀ d ∈ pre, addable d = false
  slot : addable e = true

theorem findIdx?_addable (slots : List DirEntry) :
    (slots.findIdx? addable = none ∧ ∀ d ∈ slots, addable d = false) ∨
    ∃ pre e post, TakesAt slots pre e post ∧ slots.findIdx? addable = some pre.length := by
  induction slots with
  | nil => exact Or.inl ⟨rfl, fun d hd => absurd hd List.not_mem_nil⟩
  | cons d es ih =>
    rw [List.findIdx?_cons]
    cases hd : addable d with
    | true => exact Or.inr ⟨[], d, es, ⟨rfl, fun x hx => absurd hx List.not_mem_nil, hd⟩, rfl⟩
    | false =>
      have hcons : ∀ {xs : List DirEntry}, (∀ x ∈ xs, addable x = false) →
          ∀ x ∈ d :: xs, addable x = false := fun hxs x hx => by
        cases List.mem_cons.mp hx with
        | inl heq => rw [heq]; exact hd
        | inr hx => exact hxs x hx
      cases ih with
      | inl hnone =>
        rw [hnone.1]
        exact Or.inl ⟨rfl, hcons hnone.2⟩
      | inr hsome =>
        obtain ⟨pre, e, post, ht, hidx⟩ := hsome
        rw [hidx]
        exact Or.inr ⟨d :: pre, e, post, ⟨by rw [ht.split]; rfl, hcons ht.full, ht.slot⟩, rfl⟩

namespace TakesAt

variable {slots pre post : List DirEntry} {e e' : DirEntry}

theorem visible_pre (h : TakesAt slots pre e post) : ∀ d ∈ pre, d.first ≠ ENTRY_END :=
  fun d hd => ((addable_eq_false d).mp (h.full d hd)).2

theorem view_pre (h : TakesAt slots pre e post) :
    (pre.map slotView).reduceOption = pre := by
  have hmap : pre.map slotView = pre.map some := List.map_congr_left fun d hd => by
    have hl := ((addable_eq_false d).mp (h.full d hd)).1
    exact slotView_live hl.1 hl.2
  rw [hmap]
  unfold List.reduceOption
  rw [List.filterMap_map]
  exact List.filterMap_some

theorem hidden_eq (h : TakesAt slots pre e post) : hiddenIn slots = live (e :: post) := by
  unfold hiddenIn
  rw [h.split, List.dropWhile_append_of_pos (fun d hd => by simp [h.full d hd]),
    List.dropWhile_cons_of_neg (by simp [h.slot])]

/-- The entries of the cluster before the call. -/
theorem live_eq (h : TakesAt slots pre e post) : live slots = pre ++ hiddenIn slots := by
  have hl : live (pre ++ e :: post) = pre ++ live (e :: post) := by
    rw [live_append h.visible_pre, h.view_pre]
  rw [h.hidden_eq, ← hl, ← h.split]

/-- The entries of the cluster after the call. -/
theorem live_put (h : TakesAt slots pre e post) (hv : e'.Valid) (hf : e'.first ≠ ENTRY_FREE)
    (hend : e'.first ≠ ENTRY_END) : live (pre ++ e' :: closeSlots post) = pre ++ [e'] := by
  rw [live_append h.visible_pre, h.view_pre, live_cons hend hv hf]
  unfold live scan
  rw [visible_closeSlots]
  rfl

theorem sound_put (h : TakesAt slots pre e post) (hv : e'.Valid) :
    Sound (pre ++ e' :: closeSlots post) := by
  intro d hd _
  rw [visible_append h.visible_pre, List.mem_append] at hd
  cases hd with
  | inl hd => exact Or.inl ((addable_eq_false d).mp (h.full d hd)).1.1
  | inr hd =>
    by_cases hend : e'.first = ENTRY_END
    · rw [visible_cons_end hend] at hd
      exact absurd hd List.not_mem_nil
    · rw [visible_cons hend, visible_closeSlots, List.mem_singleton] at hd
      rw [hd]
      exact Or.inl hv

end TakesAt

/-! ### The entry that is stored -/

@[simp] theorem storedIn_fileName (e : DirEntry) (c : Nat) :
    (storedIn e c).fileName = e.fileName := rfl

@[simp] theorem storedIn_first (e : DirEntry) (c : Nat) : (storedIn e c).first = e.first := rfl

@[simp] theorem storedIn_isDir (e : DirEntry) (c : Nat) : (storedIn e c).isDir = e.isDir := rfl

@[simp] theorem storedIn_dca (e : DirEntry) (c : Nat) : (storedIn e c).dca = e.dca := rfl

/-- What a caller hands to `entry_add`: an entry without a checksum whose first name byte marks
neither a free slot nor the end. -/
structure Storable (e : DirEntry) : Prop where
  checksum : e.checksum = 0
  hash : e.nameHash = hashName e.fileName
  free : e.first ≠ ENTRY_FREE
  last : e.first ≠ ENTRY_END

/-- The stored entry validates. -/
theorem Storable.valid {e : DirEntry} (h : Storable e) (c : Nat) : (storedIn e c).Valid := by
  have hcheck : ({ e with rca := UInt32.ofNat c } : DirEntry)
      = { e with rca := UInt32.ofNat c, checksum := 0 } := by rw [h.checksum]
  show murmur3 ({ e with rca := UInt32.ofNat c, checksum := 0 } : DirEntry).bytes 0
    = murmur3 ({ e with rca := UInt32.ofNat c } : DirEntry).bytes 0
  rw [hcheck]

/-- The stored entry is one that a walk sees. -/
theorem Storable.stored_last {e : DirEntry} (h : Storable e) (c : Nat) :
    (storedIn e c).first ≠ ENTRY_END := h.last

theorem Storable.stored_free {e : DirEntry} (h : Storable e) (c : Nat) :
    (storedIn e c).first ≠ ENTRY_FREE := h.free

theorem Storable.not_addable {e : DirEntry} (h : Storable e) (c : Nat) :
    addable (storedIn e c) = false :=
  (addable_eq_false _).mpr ⟨⟨h.valid c, h.stored_free c⟩, h.stored_last c⟩

/-- What `create_entry` builds can be stored. -/
theorem createEntry_storable {name : Name} {isDir : Bool} {dca size : Nat}
    (hfree : Name.first name ≠ ENTRY_FREE) (hlast : Name.first name ≠ ENTRY_END) :
    Storable (createEntry name isDir dca size) := ⟨rfl, rfl, hfree, hlast⟩

/-! ### The cluster that is taken -/

/-- The first cluster of a directory with a slot to take. -/
def Vol.addCluster (v : Vol) (m : Mount) (cs : List Nat) : Option Nat :=
  cs.find? fun c => (v.slots m c).any addable

/-- The entries that `entry_add` hides: those behind the slot that it takes. -/
def Vol.hidden (v : Vol) (m : Mount) (cs : List Nat) : List DirEntry :=
  match v.addCluster m cs with
  | some c => hiddenIn (v.slots m c)
  | none => []

/-- A cluster in which no walk sees a slot, such as a zero-filled one. -/
def Clean (m : Mount) (v : Vol) (c : Nat) : Prop := visible (v.slots m c) = []

/-- The directory after `e'` was added in its cluster `c`. -/
structure Inserted (m : Mount) (v v' : Vol) (ca : Nat) (cs cs' : List Nat) (c : Nat)
    (e' : DirEntry) : Prop where
  chain : HasChain m v' ca cs'
  sound : SoundDir m v' cs'
  raw : ∀ k, k ∉ cs' → v'.raw k = v.raw k
  grow : (cs' = cs ∧ v'.fat = v.fat) ∨ ∃ ds last, cs = ds ++ [last] ∧ cs' = cs ++ [c] ∧
    InVol m c ∧ v.fat c = FAT_CLUSTER_FREE ∧ v'.fat = (v.link last c).fat
  entries : ∃ A B, v.entries m cs = A ++ (v.hidden m cs).map (fun e => (c, e)) ++ B ∧
    v'.entries m cs' = A ++ (c, e') :: B

/-- The links of the clusters `cs` are read, as `entry_add` does on its way through a full
directory. -/
def readLinks (m : Mount) (cs : List Nat) (s : FS) : FS :=
  cs.foldl (fun s c => (readFat m c s).2) s

theorem readLinks_cons (c : Nat) (cs : List Nat) (s : FS) :
    readLinks m (c :: cs) s = readLinks m cs (readFat m c s).2 := rfl

theorem readLinks_concat (cs : List Nat) (c : Nat) (s : FS) :
    readLinks m (cs ++ [c]) s = (readFat m c (readLinks m cs s)).2 := by
  unfold readLinks
  rw [List.foldl_append]
  rfl

theorem readLinks_shows (L : Layout m) (h : Shows m s v) (cs : List Nat) :
    Shows m (readLinks m cs s) v := by
  induction cs generalizing s with
  | nil => exact h
  | cons c cs ih =>
    obtain ⟨s₁, he, hs₁, -⟩ := readFat_shows L h c
    rw [readLinks_cons, he]
    exact ih hs₁

/-- A cluster that the allocator gives was free. -/
theorem allocNext_free (L : Layout m) (h : Shows m s v)
    (hne : (allocNext m s).1 ≠ FAT_CLUSTER_BAD) :
    InVol m (allocNext m s).1 ∧ v.fat (allocNext m s).1 = FAT_CLUSTER_FREE := by
  obtain ⟨n, s', he, ha, -⟩ := allocNext_shows L h
  rw [he] at hne ⊢
  exact ⟨(ha.resolve_left fun hbad => hne hbad.1).1, (ha.resolve_left fun hbad => hne hbad.1).2.1⟩

section Add

variable (meta' : DirEntry) (fuel : Nat)

/-- Filling the slot. When the directory has an index, its insertion may not return. -/
theorem addToSlot_shows (L : Layout m) (h : Shows m s v) {c : Nat} (hc : InVol m c)
    {pre post : List DirEntry} {e : DirEntry} (ht : TakesAt (v.slots m c) pre e post)
    (cache : Nat) :
    (cache ≠ 0 ∧ addToSlot m fuel c cache pre.length meta' (v.raw c)
      (unpackMemory (v.raw c) (decodedLen m)) (v.slots m c) s = none) ∨
    ∃ s', addToSlot m fuel c cache pre.length meta' (v.raw c)
        (unpackMemory (v.raw c) (decodedLen m)) (v.slots m c) s
          = some (1, storedIn meta' c, s') ∧
      Shows m s' (v.setSlots m c (v.raw c) (pre ++ storedIn meta' c :: closeSlots post)) ∧
      Leaves cache s s' := by
  have hlen : (pre ++ storedIn meta' c :: closeSlots post).length = entriesPerCluster m := by
    have hl : (v.slots m c).length = entriesPerCluster m := length_slotsIn _
    rw [ht.split] at hl
    simpa [length_closeSlots] using hl
  have hput : putSlot (v.slots m c) pre.length (storedIn meta' c)
      = pre ++ storedIn meta' c :: closeSlots post := by
    rw [ht.split, putSlot_append]
  have hj := journalAddOperation_shows L h ADD_OP c pre.length meta'
  unfold addToSlot
  generalize journalAddOperation m ADD_OP c pre.length meta' s = added at hj
  obtain ⟨ji, s₁⟩ := added
  -- the write of the cluster and the end of the journal record, behind the index
  have hrest : ∀ t, Shows m t v → Leaves cache s t → ∃ s₂, writeCluster m c (repackCluster m
        (v.raw c) (unpackMemory (v.raw c) (decodedLen m))
        (putSlot (v.slots m c) pre.length (storedIn meta' c))) t = (true, s₂) ∧
      Shows m (journalSolveOperation m ji s₂)
        (v.setSlots m c (v.raw c) (pre ++ storedIn meta' c :: closeSlots post)) ∧
      Leaves cache s (journalSolveOperation m ji s₂) := by
    intro t ht' hl
    obtain ⟨s₂, he₂, hs₂, hk₂⟩ := writeSlots_shows L ht' hc hlen (h.length_raw hc)
    have hsolve := journalSolveOperation_shows L hs₂ ji
    rw [hput]
    exact ⟨s₂, he₂, hsolve.1, hl.trans (.of_keeps (hk₂.nil_trans hsolve.2))⟩
  by_cases hcache : cache = 0
  · right
    obtain ⟨s₂, he₂, hs₂, hl⟩ := hrest s₁ hj.1 (.of_keeps hj.2)
    simp only [if_pos hcache, he₂]
    exact ⟨_, rfl, hs₂, hl⟩
  · simp only [if_neg hcache]
    cases hins : ecacheInsert m fuel cache (hashName (storedIn meta' c).fileName)
        (!(storedIn meta' c).isDir) (storedIn meta' c).dca.toNat s₁ with
    | none => exact Or.inl ⟨hcache, rfl⟩
    | some x =>
      right
      obtain ⟨r, s₂⟩ := x
      have hframe := ecacheInsert_frame hins
      have hl : Leaves cache s₁ s₂ := hframe ▸ .of_heap hcache s₂.heap s₂.mallocs
      have hs₂ : Shows m s₂ v := hframe ▸ hj.1.congr rfl rfl
      obtain ⟨s₃, he₃, hs₃, hl₃⟩ := hrest s₂ hs₂ (.trans (.of_keeps hj.2) hl)
      simp only [Option.map_some, he₃]
      exact ⟨_, rfl, hs₃, hl₃⟩

/-- `entry_add` reads past the clusters without a slot to take. -/
theorem entryAdd_skip (L : Layout m) {pre post : List Nat} {c : Nat}
    (hc : HasChain m v ca (pre ++ c :: post)) (h : Shows m s v)
    (hfull : ∀ k ∈ pre, ∀ d ∈ v.slots m k, addable d = false) (cache : Nat) :
    entryAdd m (pre.length + fuel) ca cache meta' s
        = entryAdd m fuel c cache meta' (readLinks m pre s) ∧
      Shows m (readLinks m pre s) v ∧ Keeps [] s (readLinks m pre s) := by
  induction pre generalizing ca s with
  | nil =>
    have hca : ca = c := hc.path.head_eq
    subst hca
    rw [List.length_nil, Nat.zero_add]
    exact ⟨rfl, h, Keeps.refl s⟩
  | cons d pre ih =>
    have hca : ca = d := hc.path.head_eq
    subst hca
    obtain ⟨s₁, he₁, hs₁, hk₁⟩ := readFat_shows L h ca
    cases hc.cases_head L with
    | inl hlast => simp at hlast
    | inr hrest =>
      obtain ⟨rest, heq, hrest⟩ := hrest
      obtain rfl : pre ++ c :: post = rest := (List.cons.inj heq).2
      obtain ⟨he₂, hs₂, hk₂⟩ := ih hrest hs₁ fun k hk => hfull k (List.mem_cons_of_mem ca hk)
      have hnone : (v.slots m ca).findIdx? addable = none :=
        List.findIdx?_eq_none_iff.mpr (hfull ca List.mem_cons_self)
      have hlinks : readLinks m (ca :: pre) s = readLinks m pre s₁ := by
        rw [readLinks_cons, he₁]
      rw [hlinks]
      refine ⟨?_, hs₂, hk₁.nil_trans hk₂⟩
      rw [List.length_cons, Nat.add_right_comm, ← he₂]
      conv => lhs; unfold entryAdd
      rw [readEncodedCluster_shows L h hc.head]
      simp only
      rw [show slotsOf (entriesPerCluster m) (unpackMemory (v.raw ca) (decodedLen m))
        = v.slots m ca from rfl, hnone]
      have hnext : addNextCluster m ca s = (some (v.fat ca), s₁) := by
        unfold addNextCluster
        rw [he₁]
        simp only
        rw [if_neg (L.ne_bad hrest.head), if_neg (L.ne_end hrest.head)]
      simp only [hnext, if_neg (L.ne_end hrest.head)]

/-- `entry_add` at a cluster with a slot to take. -/
theorem entryAdd_at (L : Layout m) (h : Shows m s v) {c : Nat} (hc : InVol m c)
    {pre post : List DirEntry} {e : DirEntry} (ht : TakesAt (v.slots m c) pre e post)
    (cache : Nat) :
    (cache ≠ 0 ∧ entryAdd m (fuel + 1) c cache meta' s = none) ∨
    ∃ s', entryAdd m (fuel + 1) c cache meta' s = some (1, storedIn meta' c, s') ∧
      Shows m s' (v.setSlots m c (v.raw c) (pre ++ storedIn meta' c :: closeSlots post)) ∧
      Leaves cache s s' := by
  have hidx : (v.slots m c).findIdx? addable = some pre.length := by
    obtain hnone | ⟨pre', e', post', ht', hidx⟩ := findIdx?_addable (v.slots m c)
    · have := hnone.2 e (by rw [ht.split]; simp)
      rw [ht.slot] at this
      cases this
    · -- the slot is determined by the cluster
      have htake : ∀ {p q : List DirEntry} {d : DirEntry}, TakesAt (v.slots m c) p d q →
          (v.slots m c).takeWhile (fun x => !addable x) = p := fun hp => by
        rw [hp.split, List.takeWhile_append_of_pos (fun x hx => by simp [hp.full x hx]),
          List.takeWhile_cons_of_neg (by simp [hp.slot]), List.append_nil]
      have hp : pre' = pre := (htake ht').symm.trans (htake ht)
      rw [hidx, hp]
  unfold entryAdd
  rw [readEncodedCluster_shows L h hc]
  simp only
  rw [show slotsOf (entriesPerCluster m) (unpackMemory (v.raw c) (decodedLen m))
    = v.slots m c from rfl, hidx]
  exact addToSlot_shows meta' fuel L h hc ht cache

/-- Without an index it returns. -/
theorem entryAdd_here (L : Layout m) (h : Shows m s v) {c : Nat} (hc : InVol m c)
    {pre post : List DirEntry} {e : DirEntry} (ht : TakesAt (v.slots m c) pre e post) :
    ∃ s', entryAdd m (fuel + 1) c 0 meta' s = some (1, storedIn meta' c, s') ∧
      Shows m s' (v.setSlots m c (v.raw c) (pre ++ storedIn meta' c :: closeSlots post)) ∧
      Keeps [] s s' := by
  obtain ⟨s', he, hs', hl⟩ := (entryAdd_at meta' fuel L h hc ht 0).resolve_left
    fun hno => hno.1 rfl
  exact ⟨s', he, hs', hl.keeps rfl⟩

end Add

section Insert

variable {meta' : DirEntry} {fuel : Nat}

/-- A cluster of a directory has room for at least one entry. -/
theorem entriesPerCluster_pos (L : Layout m) : 0 < entriesPerCluster m := by
  have hle := L.cluster_slot
  unfold entriesPerCluster decodedLen
  show 0 < m.fi.clusterSize / 2 / 32
  have h64 : 2 * 32 ≤ m.fi.clusterSize := hle
  omega

/-- The first slot of the cluster is one that `entry_add` takes. -/
def StartsFree (m : Mount) (v : Vol) (c : Nat) : Prop :=
  ∃ e post, TakesAt (v.slots m c) [] e post

/-- A clean cluster takes its first slot. -/
theorem Clean.startsFree (L : Layout m) {c : Nat} (h : Clean m v c) : StartsFree m v c := by
  have hlen : (v.slots m c).length = entriesPerCluster m := length_slotsIn _
  cases hs : v.slots m c with
  | nil =>
    have hpos := entriesPerCluster_pos L
    rw [hs, List.length_nil] at hlen
    omega
  | cons e post =>
    have hend : e.first = ENTRY_END := by
      by_contra hne
      unfold Clean at h
      rw [hs, visible_cons hne] at h
      cases h
    exact ⟨e, post, hs, fun d hd => absurd hd List.not_mem_nil,
      (addable_iff e).mpr (Or.inr hend)⟩

/-- The chain grows by a free cluster, or there is none to allocate. -/
theorem addNextCluster_shows (L : Layout m) (h : Shows m s v) {last : Nat} (hlast : InVol m last)
    (hend : v.fat last = FAT_CLUSTER_END) :
    (∃ s', addNextCluster m last s = (none, s') ∧ Shows m s' v ∧ Keeps [FAT_CLUSTER_BAD] s s' ∧
      (allocNext m (readFat m last s).2).1 = FAT_CLUSTER_BAD) ∨
    ∃ n s', addNextCluster m last s = (some n, s') ∧ InVol m n ∧ v.fat n = FAT_CLUSTER_FREE ∧
      Shows m s' (v.link last n) ∧ Keeps [n] s s' ∧
      (allocNext m (readFat m last s).2).1 = n := by
  obtain ⟨s₁, he₁, hs₁, hk₁⟩ := readFat_shows L h last
  obtain ⟨n, s₂, he₂, ha, hk₂⟩ := allocNext_shows L hs₁
  have hne : FAT_CLUSTER_END ≠ FAT_CLUSTER_BAD := by decide
  unfold addNextCluster
  rw [he₁, hend]
  simp only [if_neg hne, if_true, he₂]
  cases ha with
  | inl hbad =>
    obtain ⟨rfl, hs₂⟩ := hbad
    have hr := registerError_shows L hs₂ .clusterAllocationError
    rw [if_pos rfl]
    exact Or.inl ⟨_, rfl, hr.1, (hk₁.nil_trans hk₂).trans_nil hr.2, rfl⟩
  | inr hok =>
    obtain ⟨hn, hfree, hs₂⟩ := hok
    obtain ⟨s₃, he₃, hs₃, hk₃⟩ := setClusterEnd_shows L hs₂ hn
    rw [Vol.setFat_setFat] at hs₃
    obtain ⟨s₄, he₄, hs₄, hk₄⟩ := writeFat_shows L hs₃ (x := n) hlast (L.lt_value hn)
    simp only [if_neg (L.ne_bad hn), he₃, he₄]
    exact Or.inr ⟨n, s₄, rfl, hn, hfree, hs₄,
      ((hk₁.nil_trans hk₂).trans_nil hk₃).trans_nil hk₄, rfl⟩

/-- The directory after one of its slots was filled. -/
theorem Inserted.of_slot (hc : HasChain m v ca cs) (L : Layout m) (hs : SoundDir m v cs)
    {ps qs : List Nat} {c : Nat} (hcs : cs = ps ++ c :: qs) (hadd : v.addCluster m cs = some c)
    {pre post : List DirEntry} {e : DirEntry} (ht : TakesAt (v.slots m c) pre e post)
    (hm : Storable meta') (hb : (v.raw c).length = m.fi.clusterSize) :
    Inserted m v (v.setSlots m c (v.raw c) (pre ++ storedIn meta' c :: closeSlots post)) ca cs cs c
      (storedIn meta' c) := by
  have hlen : (pre ++ storedIn meta' c :: closeSlots post).length = entriesPerCluster m := by
    have hl : (v.slots m c).length = entriesPerCluster m := length_slotsIn _
    rw [ht.split] at hl
    simpa [length_closeSlots] using hl
  have hvalid := hm.valid c
  have hself : (v.setSlots m c (v.raw c) (pre ++ storedIn meta' c :: closeSlots post)).slots m c
      = pre ++ storedIn meta' c :: closeSlots post := Vol.slots_setSlots_self hlen hb
  have hne : ∀ {k : Nat}, k ≠ c → (v.setSlots m c (v.raw c)
      (pre ++ storedIn meta' c :: closeSlots post)).slots m k = v.slots m k :=
    fun hk => Vol.slots_setSlots_ne _ _ hk
  have hnodup := hc.nodup L
  rw [hcs, List.nodup_append] at hnodup
  obtain ⟨_, hq, hdisj⟩ := hnodup
  have hpc : ∀ k ∈ ps, k ≠ c := fun k hk heq => hdisj k hk c List.mem_cons_self heq
  have hqc : ∀ k ∈ qs, k ≠ c := fun k hk heq => (List.nodup_cons.mp hq).1 (heq ▸ hk)
  refine ⟨hc.congr fun k _ => rfl, fun k hk => ?_, fun k hk => ?_, Or.inl ⟨rfl, rfl⟩,
    v.entries m ps ++ pre.map (fun e => (c, e)), v.entries m qs, ?_, ?_⟩
  · by_cases hkc : k = c
    · rw [hkc, hself]
      exact ht.sound_put hvalid
    · rw [hne hkc]
      exact hs k hk
  · exact Vol.setSlots_raw_ne _ _ fun heq => hk (by rw [heq, hcs]; simp)
  · have hhid : v.hidden m cs = hiddenIn (v.slots m c) := by
      unfold Vol.hidden
      rw [hadd]
    have hlive : v.live m c = pre ++ hiddenIn (v.slots m c) := ht.live_eq
    rw [hhid, hcs, Vol.entries_append, Vol.entries_cons, hlive]
    simp only [List.map_append, List.append_assoc]
  · have hlive : (v.setSlots m c (v.raw c)
        (pre ++ storedIn meta' c :: closeSlots post)).live m c = pre ++ [storedIn meta' c] := by
      unfold Vol.live
      rw [hself]
      exact ht.live_put hvalid hm.free hm.last
    rw [hcs, Vol.entries_append, Vol.entries_cons, hlive,
      Vol.entries_congr fun k hk => congrArg live (hne (hpc k hk)),
      Vol.entries_congr fun k hk => congrArg live (hne (hqc k hk))]
    simp

/-- The directory after its chain grew by a clean cluster, whose first slot was filled. -/
theorem Inserted.of_grow (L : Layout m) {ds : List Nat} {last n : Nat}
    (hc : HasChain m v ca (ds ++ [last])) (hs : SoundDir m v (ds ++ [last])) (hn : InVol m n)
    (hfree : v.fat n = FAT_CLUSTER_FREE) (hadd : v.addCluster m (ds ++ [last]) = none)
    {e : DirEntry} {post : List DirEntry} (ht : TakesAt (v.slots m n) [] e post)
    (hm : Storable meta') (hb : (v.raw n).length = m.fi.clusterSize) :
    Inserted m v ((v.link last n).setSlots m n (v.raw n) (storedIn meta' n :: closeSlots post)) ca
      (ds ++ [last]) (ds ++ [last] ++ [n]) n (storedIn meta' n) := by
  have hlen : (storedIn meta' n :: closeSlots post).length = entriesPerCluster m := by
    have hl : (v.slots m n).length = entriesPerCluster m := length_slotsIn _
    rw [ht.split] at hl
    simpa [length_closeSlots] using hl
  have hvalid := hm.valid n
  have hself : ((v.link last n).setSlots m n (v.raw n)
      (storedIn meta' n :: closeSlots post)).slots m n = storedIn meta' n :: closeSlots post :=
    Vol.slots_setSlots_self hlen hb
  have hnew : ∀ k ∈ ds ++ [last], k ≠ n := fun k hk heq => hc.not_free L hk (heq ▸ hfree)
  have hold : ∀ k ∈ ds ++ [last], ((v.link last n).setSlots m n (v.raw n)
      (storedIn meta' n :: closeSlots post)).slots m k = v.slots m k := fun k hk =>
    (Vol.slots_setSlots_ne _ _ (hnew k hk)).trans rfl
  refine ⟨(hc.link L hn hfree).congr fun k _ => rfl, fun k hk => ?_, fun k hk => ?_,
    Or.inr ⟨ds, last, rfl, rfl, hn, hfree, rfl⟩, v.entries m (ds ++ [last]), [], ?_, ?_⟩
  · cases List.mem_append.mp hk with
    | inl hk =>
      rw [hold k hk]
      exact hs k hk
    | inr hk =>
      rw [List.mem_singleton.mp hk, hself]
      exact ht.sound_put hvalid
  · exact (Vol.setSlots_raw_ne _ _ fun heq => hk (by rw [heq]; simp)).trans rfl
  · have hhid : v.hidden m (ds ++ [last]) = [] := by
      unfold Vol.hidden
      rw [hadd]
    rw [hhid]
    simp
  · have hlive : ((v.link last n).setSlots m n (v.raw n)
        (storedIn meta' n :: closeSlots post)).live m n = [storedIn meta' n] := by
      unfold Vol.live
      rw [hself]
      exact ht.live_put hvalid hm.free hm.last
    rw [Vol.entries_append, Vol.entries_congr fun k hk => congrArg live (hold k hk),
      Vol.entries_cons, hlive]
    rfl

/-- The directory has no slot to take, and no cluster to grow by. -/
def NoRoom (m : Mount) (v : Vol) (cs : List Nat) (s : FS) : Prop :=
  v.addCluster m cs = none ∧ (allocNext m (readLinks m cs s)).1 = FAT_CLUSTER_BAD

/-- The slot that an entry takes in the directory with the clusters `cs`: the cluster of the slot,
the clusters of the directory and the volume behind the call. -/
inductive Fills (m : Mount) (v : Vol) (cs : List Nat) (meta' : DirEntry) :
    Nat → List Nat → Vol → Prop
  | slot {ps qs : List Nat} {c : Nat} {pre post : List DirEntry} {e : DirEntry}
      (hcs : cs = ps ++ c :: qs) (hadd : v.addCluster m cs = some c)
      (ht : TakesAt (v.slots m c) pre e post) :
      Fills m v cs meta' c cs
        (v.setSlots m c (v.raw c) (pre ++ storedIn meta' c :: closeSlots post))
  | grow {ds : List Nat} {last n : Nat} {post : List DirEntry} {e : DirEntry}
      (hcs : cs = ds ++ [last]) (hadd : v.addCluster m cs = none) (hn : InVol m n)
      (hfree : v.fat n = FAT_CLUSTER_FREE) (ht : TakesAt (v.slots m n) [] e post) :
      Fills m v cs meta' n (cs ++ [n])
        ((v.link last n).setSlots m n (v.raw n) (storedIn meta' n :: closeSlots post))

/-- The directory holds an entry that can be stored. -/
theorem Fills.inserted {c : Nat} {cs' : List Nat} (hf : Fills m v cs meta' c cs' v') (L : Layout m)
    (hc : HasChain m v ca cs) (hlen : ∀ k, InVol m k → (v.raw k).length = m.fi.clusterSize)
    (hs : SoundDir m v cs) (hm : Storable meta') :
    Inserted m v v' ca cs cs' c (storedIn meta' c) := by
  cases hf with
  | slot hcs hadd ht =>
    exact .of_slot hc L hs hcs hadd ht hm (hlen c (hc.inVol c (by rw [hcs]; simp)))
  | grow hcs hadd hn hfree ht =>
    subst hcs
    exact .of_grow L hc hs hn hfree hadd ht hm (hlen c hn)

/-- What `entry_add` does: the directory is full and no cluster can be allocated; or the entry takes
a slot, unless there is an index and its insertion does not return. A cluster by which the chain
grows has to take the entry in its first slot. -/
theorem entryAdd_runs (L : Layout m) (hfuel : cs.length + 1 ≤ fuel) (hc : HasChain m v ca cs)
    (h : Shows m s v) (cache : Nat)
    (hclean : v.addCluster m cs = none → (allocNext m (readLinks m cs s)).1 ≠ FAT_CLUSTER_BAD →
      StartsFree m v (allocNext m (readLinks m cs s)).1) :
    (∃ s', entryAdd m fuel ca cache meta' s = some (-1, meta', s') ∧ Shows m s' v ∧
      Keeps [FAT_CLUSTER_BAD] s s' ∧ NoRoom m v cs s) ∨
    ¬ NoRoom m v cs s ∧ ((cache ≠ 0 ∧ entryAdd m fuel ca cache meta' s = none) ∨
      ∃ c s' v' cs' al, entryAdd m fuel ca cache meta' s = some (1, storedIn meta' c, s') ∧
        Shows m s' v' ∧ (cache = 0 → Keeps al s s') ∧ al ⊆ cs' ∧ Fills m v cs meta' c cs' v') := by
  cases hadd : v.addCluster m cs with
  | some c =>
    right
    obtain ⟨hany, ps, qs, hcs, hps⟩ := List.find?_eq_some_iff_append.mp hadd
    have hcin : InVol m c := hc.inVol c (by rw [hcs]; simp)
    have hfull : ∀ k ∈ ps, ∀ d ∈ v.slots m k, addable d = false := fun k hk d hd => by
      have hk' := hps k hk
      rw [Bool.not_eq_true', List.any_eq_false] at hk'
      exact Bool.eq_false_iff.mpr (hk' d hd)
    obtain ⟨pre, e, post, ht⟩ : ∃ pre e post, TakesAt (v.slots m c) pre e post := by
      cases findIdx?_addable (v.slots m c) with
      | inl hnone =>
        obtain ⟨d, hd, hslot⟩ := List.any_eq_true.mp hany
        rw [hnone.2 d hd] at hslot
        cases hslot
      | inr hsome =>
        obtain ⟨pre, e, post, ht, _⟩ := hsome
        exact ⟨pre, e, post, ht⟩
    obtain ⟨k, hk⟩ : ∃ k, fuel = ps.length + (k + 1) := by
      rw [hcs, List.length_append, List.length_cons] at hfuel
      exact ⟨fuel - ps.length - 1, by omega⟩
    obtain ⟨he₁, hs₁, hk₁⟩ := entryAdd_skip meta' (k + 1) L (hcs ▸ hc) h hfull cache
    refine ⟨fun hno => Option.some_ne_none c (hadd.symm.trans hno.1), ?_⟩
    rw [hk, he₁]
    cases entryAdd_at meta' k L hs₁ hcin ht cache with
    | inl hnone => exact Or.inl hnone
    | inr hsome =>
      obtain ⟨s₂, he₂, hs₂, hl⟩ := hsome
      rw [he₂]
      exact Or.inr ⟨c, s₂, _, cs, [], rfl, hs₂, fun h0 => hk₁.nil_trans (hl.keeps h0),
        List.nil_subset cs, .slot hcs hadd ht⟩
  | none =>
    obtain ⟨ds, last, hcs⟩ : ∃ ds last, cs = ds ++ [last] :=
      ⟨cs.dropLast, cs.getLast (hc.ne_nil L), (List.dropLast_append_getLast _).symm⟩
    subst hcs
    have hlast : InVol m last := hc.inVol last (by simp)
    have hfull : ∀ k ∈ ds ++ [last], ∀ d ∈ v.slots m k, addable d = false := fun k hk d hd => by
      have hk' := List.find?_eq_none.mp hadd k hk
      rw [List.any_eq_true] at hk'
      by_contra hne
      exact hk' ⟨d, hd, by simpa using hne⟩
    obtain ⟨k, hk⟩ : ∃ k, fuel = ds.length + (k + 1 + 1) := by
      rw [List.length_append, List.length_singleton] at hfuel
      exact ⟨fuel - ds.length - 2, by omega⟩
    obtain ⟨he₁, hs₁, hk₁⟩ := entryAdd_skip meta' (k + 1 + 1) L hc h
      (fun j hj => hfull j (List.mem_append_left _ hj)) cache
    have hlinks := readLinks_concat (m := m) ds last s
    have hend : v.fat last = FAT_CLUSTER_END := hc.fat_last
    have hnone : (v.slots m last).findIdx? addable = none :=
      List.findIdx?_eq_none_iff.mpr (hfull last (by simp))
    generalize readLinks m ds s = s₁ at he₁ hs₁ hk₁ hlinks
    have hat : ∀ r s₂, addNextCluster m last s₁ = (r, s₂) →
        entryAdd m (k + 1 + 1) last cache meta' s₁ =
          r.elim (some (-1, meta', s₂)) fun next =>
            if next = FAT_CLUSTER_END then some (-1, meta', s₂)
            else entryAdd m (k + 1) next cache meta' s₂ := by
      intro r s₂ hr
      conv => lhs; unfold entryAdd
      rw [readEncodedCluster_shows L hs₁ hlast]
      simp only
      rw [show slotsOf (entriesPerCluster m) (unpackMemory (v.raw last) (decodedLen m))
        = v.slots m last from rfl, hnone]
      simp only [hr]
      cases r <;> rfl
    rw [hk, he₁]
    cases addNextCluster_shows L hs₁ hlast hend with
    | inl hfail =>
      obtain ⟨s₂, he₂, hs₂, hk₂, hbad⟩ := hfail
      rw [hat _ _ he₂]
      exact Or.inl ⟨s₂, rfl, hs₂, hk₁.nil_trans hk₂, hadd, by rw [hlinks]; exact hbad⟩
    | inr hgrow =>
      right
      obtain ⟨n, s₂, he₂, hn, hfree, hs₂, hk₂, hok⟩ := hgrow
      have hpick : (allocNext m (readLinks m (ds ++ [last]) s)).1 = n := by
        rw [hlinks]
        exact hok
      have hne : (allocNext m (readLinks m (ds ++ [last]) s)).1 ≠ FAT_CLUSTER_BAD :=
        hpick ▸ L.ne_bad hn
      obtain ⟨e, post, ht⟩ := hpick ▸ hclean hadd hne
      have ht' : TakesAt ((v.link last n).slots m n) [] e post := ht
      refine ⟨fun hno => hne hno.2, ?_⟩
      rw [hat _ _ he₂, Option.elim_some, if_neg (L.ne_end hn)]
      cases entryAdd_at meta' k L hs₂ hn ht' cache with
      | inl hnone => exact Or.inl hnone
      | inr hsome =>
        obtain ⟨s₃, he₃, hs₃, hl⟩ := hsome
        rw [he₃]
        exact Or.inr ⟨n, s₃, _, _, [n], rfl, hs₃,
          fun h0 => (hk₁.nil_trans hk₂).trans_nil (hl.keeps h0),
          List.subset_append_right _ _, .grow rfl hadd hn hfree ht⟩

/-- Without an index it returns, and an entry that can be stored is in the directory. -/
theorem entryAdd_shows (L : Layout m) (hfuel : cs.length + 1 ≤ fuel) (hc : HasChain m v ca cs)
    (h : Shows m s v) (hs : SoundDir m v cs) (hm : Storable meta')
    (hclean : v.addCluster m cs = none → (allocNext m (readLinks m cs s)).1 ≠ FAT_CLUSTER_BAD →
      StartsFree m v (allocNext m (readLinks m cs s)).1) :
    (∃ s', entryAdd m fuel ca 0 meta' s = some (-1, meta', s') ∧ Shows m s' v ∧
      Keeps [FAT_CLUSTER_BAD] s s' ∧ NoRoom m v cs s) ∨
    ∃ c s' v' cs' al, entryAdd m fuel ca 0 meta' s = some (1, storedIn meta' c, s') ∧
      Shows m s' v' ∧ Keeps al s s' ∧ al ⊆ cs' ∧ ¬ NoRoom m v cs s ∧
      Inserted m v v' ca cs cs' c (storedIn meta' c) := by
  refine (entryAdd_runs L hfuel hc h 0 hclean).imp_right fun hroom => ?_
  obtain ⟨c, s', v', cs', al, he, hs', hk, hal, hf⟩ := hroom.2.resolve_left fun hno => hno.1 rfl
  exact ⟨c, s', v', cs', al, he, hs', hk rfl, hal, hroom.1,
    hf.inserted L hc (fun _ => h.length_raw) hs hm⟩

end Insert

end NiFat32
