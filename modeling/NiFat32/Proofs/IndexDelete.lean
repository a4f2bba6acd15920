import NiFat32.Proofs.IndexMend

/-!
# `Proofs.IndexDelete`: deletions from the index

`ecache_delete` takes the node out, or its successor when it has two children, and calls the fix-up
when the node in the place of the deleted one is black. By then the successor has the colour of the
deleted node. So the colour that is tested is that of the deleted node, and the colour of the place
that is left behind is that of the successor: the deletion is right exactly when the two agree
(`index_delete_valid_iff`).

* `removeNode` is `ecache_delete` up to the fix-up, `removeNode_two` its case of two children;
* `mend_sound`: the fix-up at a place that has lost a black node;
* `mend_reads_missing`: the fix-up at a place that has lost no black node.
-/

set_option autoImplicit false

namespace NiFat32

open RedBlack Heap

/-! ## Taking a node out -/

/-- `_transplant` links `v` to the parent of `u`. -/
theorem transplant_eq (root : Nat) (h : Heap) (u v : Nat) :
    transplant root h u v = ((relinkOn .left root h u v).1,
      adopt (relinkOn .left root h u v).2 v ((relinkOn .left root h u v).2 u).p) := by
  rw [transplant, relink_eq, adopt]

section Transplant

variable {h : Heap} {root : Nat} {C : List (Frame IndexNode)} {l t : RBTree IndexNode} {d : Side}
  {c : Color} {x y z : IndexNode} {p : Nat}

/-- What `_transplant` does to the heap above and at the root of the new subtree `t`, which comes to
the position `C`. -/
theorem transplant_spec (hp : (h z.addr).p = parentOf C) (habove : Above h C z.addr)
    (hroot : root = rootOf C z.addr)
    (hz : ∀ y ∈ outer C, y.addr ≠ z.addr ∧ y.addr ≠ top t ∧ y.addr ≠ 0) (hz0 : z.addr ≠ 0) :
    let r := transplant root h z.addr (top t)
    r.1 = rootOf C (top t) ∧ Above r.2 C (top t) ∧
      (top t ≠ 0 → r.2 (top t) = { h (top t) with p := parentOf C }) ∧
      ∀ k, k ≠ parentOf C → k ≠ top t → r.2 k = h k := by
  intro r
  obtain ⟨hr, ha, hsame⟩ := relinkOn_spec .left (top t) hp habove hroot hz0
    (fun y hy => (hz y hy).1) fun y hy => (hz y hy).2.2
  have hr' : r = ((relinkOn .left root h z.addr (top t)).1,
      adopt (relinkOn .left root h z.addr (top t)).2 (top t) (parentOf C)) := by
    show transplant root h z.addr (top t) = _
    rw [transplant_eq, hsame z.addr (ne_parentOf (fun y hy => (hz y hy).1) hz0), hp]
  rw [hr']
  refine ⟨hr, ?_, fun ht => ?_, fun k hkp hkt => (adopt_ne hkt).trans (hsame k hkp)⟩
  · rintro f D rfl
    exact (adopt_ne (hz f.label (by simp [outer])).2.1).trans (ha f D rfl)
  · exact (adopt_top ht).trans (by rw [hsame _ (ne_parentOf (fun y hy => (hz y hy).2.1) ht)])

/-- `_transplant` takes a node with at most one child out of the tree. -/
theorem Rep.transplant (hr : Rep h root C (.join d c .nil z t)) :
    Rep (transplant root h z.addr (top t)).2 (NiFat32.transplant root h z.addr (top t)).1 C t ∧
      (NiFat32.transplant root h z.addr (top t)).2 z.addr = h z.addr := by
  have hx := hr.record_eq
  obtain ⟨_, _, ht⟩ := (hangs_join ..).1 hr.inside
  have hperm := (perm_join d c .nil t z).append_right (outer C)
  have hnd := (hperm.map IndexNode.addr).nodup_iff.1 hr.nodup
  have hnn : ∀ y ∈ z :: (t.toList ++ outer C), y.addr ≠ 0 := fun y hy =>
    hr.nonnull y (hperm.mem_iff.2 hy)
  simp only [RBTree.toList, List.nil_append, List.cons_append, List.map_cons, List.map_append,
    List.nodup_cons, List.nodup_append, List.mem_append, List.mem_map, not_or] at hnd
  obtain ⟨⟨hzt, hzC⟩, hndt, hndC, htC⟩ := hnd
  have hz0 : z.addr ≠ 0 := hnn z (by simp)
  have hzt' : z.addr ≠ top t := ne_top (fun y hy heq => hzt ⟨y, hy, heq⟩) hz0
  have houter : ∀ y ∈ outer C, y.addr ≠ z.addr ∧ y.addr ≠ top t ∧ y.addr ≠ 0 := fun y hy => by
    have hy0 : y.addr ≠ 0 := hnn y (by simp [hy])
    exact ⟨fun heq => hzC ⟨y, hy, heq⟩,
      ne_top (fun w hw heq => htC _ ⟨w, hw, rfl⟩ _ ⟨y, hy, rfl⟩ heq) hy0, hy0⟩
  have habove := hr.around.above
  have hroot := hr.root_eq
  rw [top_join] at habove hroot
  obtain ⟨hr', ha, htop, hsame⟩ :=
    transplant_spec (p_record hx) habove hroot houter hz0
  generalize NiFat32.transplant root h z.addr (top t) = r at hr' ha htop hsame ⊢
  refine ⟨⟨hr', ?_, ?_, ?_, fun y hy => hnn y (by simp at hy ⊢; tauto)⟩,
    hsame _ (ne_parentOf (fun y hy => (houter y hy).1) hz0) hzt'⟩
  · refine ht.move hndt (fun y hy hyt => hsame _ ?_ hyt) fun htnil => htop ?_
    · exact ne_parentOf (fun w hw heq => htC _ ⟨y, hy, rfl⟩ _ ⟨w, hw, rfl⟩ heq.symm)
        (hnn y (by simp [hy]))
    · obtain ⟨y, hy, heq⟩ := top_mem htnil
      rw [← heq]
      exact hnn y (by simp [hy])
  · have hC := hr.around
    rw [top_join] at hC
    exact hC.move hndC (fun y hy hyp => hsame _ hyp (houter y hy).2.1) ha
  · simpa [List.map_append, List.nodup_append] using ⟨hndt, hndC, by
      intro y hy w hw heq
      exact htC _ ⟨y, hy, rfl⟩ _ ⟨w, hw, rfl⟩ heq⟩


/-- The successor `y` takes the place and the colour of `z`; the left subtree moves over to it. -/
def takePlace (root : Nat) (h : Heap) (z y : Nat) : Nat × Heap :=
  let (root, h) := transplant root h z y
  let h := setL h y (h z).l
  let h := adopt h (h y).l y
  (root, copyColor h y z)

/-- The heap holds the tree with the node `z` at `C`, whose right subtree `t` hangs at the node `y`
outside the tree already. -/
structure Beside (h : Heap) (root : Nat) (C : List (Frame IndexNode)) (c : Color)
    (l t : RBTree IndexNode) (z y : IndexNode) : Prop where
  root_eq : root = rootOf C z.addr
  around : Around h C z.addr
  old : ∃ b, h z.addr = record .left c (parentOf C) (top l) b z
  left : Hangs h z.addr l
  new : ∃ c' p, h y.addr = record .left c' p 0 (top t) y
  right : Hangs h y.addr t
  nodup : ((z :: y :: (l.toList ++ (t.toList ++ outer C))).map IndexNode.addr).Nodup
  nonnull : ∀ x ∈ z :: y :: (l.toList ++ (t.toList ++ outer C)), x.addr ≠ 0

theorem Beside.takePlace {h : Heap} (hb : Beside h root C c l t z y) :
    Rep (takePlace root h z.addr y.addr).2 (NiFat32.takePlace root h z.addr y.addr).1 C
      (.node c l y t) := by
  obtain ⟨b, hz⟩ := hb.old
  obtain ⟨c', p, hy⟩ := hb.new
  have hnd := hb.nodup
  have hnn := hb.nonnull
  simp only [List.map_cons, List.map_append, List.nodup_cons, List.nodup_append, List.mem_cons,
    List.mem_append, List.mem_map, not_or, not_exists, not_and] at hnd hnn
  have hzy : z.addr ≠ y.addr := by grind
  have hzl : z.addr ≠ top l := ne_top (by grind) (by grind)
  have hyl : y.addr ≠ top l := ne_top (by grind) (by grind)
  have hzp : z.addr ≠ parentOf C := ne_parentOf (by grind) (by grind)
  have hyp : y.addr ≠ parentOf C := ne_parentOf (by grind) (by grind)
  have hy0 : y.addr ≠ 0 := by grind
  -- the link from above leads to `y`
  have htrans := transplant_spec (t := .node c l y t) (p_record hz) hb.around.above hb.root_eq
    (fun x hx => ⟨by grind, by rw [top_node]; grind, by grind⟩) (by grind)
  rw [top_node] at htrans
  obtain ⟨hroot, habove, htop, hsame⟩ := htrans
  rw [NiFat32.takePlace]
  generalize NiFat32.transplant root h z.addr y.addr = r at hroot habove htop hsame ⊢
  have hz₁ : r.2 z.addr = record .left c (parentOf C) (top l) b z := (hsame _ hzp hzy).trans hz
  have hy₁ : r.2 y.addr = record .left c' (parentOf C) 0 (top t) y := by
    rw [htop hy0, hy]
    rfl
  -- the left subtree moves over
  let h₂ := upd r.2 y.addr (record .left c' (parentOf C) (top l) (top t) y)
  let h₃ := adopt h₂ (top l) y.addr
  have hz₃ : h₃ z.addr = record .left c (parentOf C) (top l) b z :=
    (adopt_ne hzl).trans ((upd_ne hzy).trans hz₁)
  have hy₃ : h₃ y.addr = record .left c' (parentOf C) (top l) (top t) y :=
    (adopt_ne hyl).trans upd_self
  have h₂eq : setL r.2 y.addr (r.2 z.addr).l = h₂ := by
    rw [hz₁]
    exact setChild_record (d := .left) hy₁
  have h₂l : (h₂ y.addr).l = top l := by
    show (upd _ _ _ y.addr).l = _
    rw [upd_self]
    rfl
  have hcopy : copyColor h₃ y.addr z.addr
      = upd h₃ y.addr (record .left c (parentOf C) (top l) (top t) y) := by
    rw [copyColor]
    cases c
    · rw [if_neg fun hblack => Color.noConfusion ((isBlack_record hz₃).mp hblack)]
      exact (paint_record hy₃ : paint h₃ .red y.addr = _)
    · rw [if_pos ((isBlack_record hz₃).mpr rfl)]
      exact (paint_record hy₃ : paint h₃ .black y.addr = _)
  simp only [h₂eq, h₂l]
  rw [show adopt h₂ (top l) y.addr = h₃ from rfl, hcopy]
  have hother : ∀ k, k ≠ y.addr → k ≠ top l → k ≠ parentOf C →
      upd h₃ y.addr (record .left c (parentOf C) (top l) (top t) y) k = h k := fun k hky hkl hkp =>
    (upd_ne hky).trans ((adopt_ne hkl).trans ((upd_ne hky).trans (hsame k hkp hky)))
  refine ⟨hroot, ⟨upd_self, ?_, ?_⟩, ?_, ?_, ?_⟩
  · refine hb.left.move (by grind) (fun x hx hxl => ?_) fun hlnil => ?_
    · exact hother _ (by grind) hxl (ne_parentOf (by grind) (by grind))
    · obtain ⟨x, hx, hxtop⟩ := top_mem hlnil
      have hl0 : top l ≠ 0 := by grind
      have hlp : top l ≠ parentOf C := by
        rw [← hxtop]
        exact ne_parentOf (by grind) (by grind)
      refine (upd_ne hyl.symm).trans ((adopt_top hl0).trans ?_)
      rw [show h₂ (top l) = h (top l) from (upd_ne hyl.symm).trans (hsame _ hlp hyl.symm)]
  · refine hb.right.congr fun x hx => ?_
    exact hother _ (by grind) (ne_top (by grind) (by grind)) (ne_parentOf (by grind) (by grind))
  · refine hb.around.move (by grind) (fun x hx hxp => ?_) fun f D hC => ?_
    · exact hother _ (by grind) (ne_top (by grind) (by grind)) hxp
    · have hf := habove f D hC
      subst hC
      have hfy : f.label.addr ≠ y.addr := hyp.symm
      have hfl : f.label.addr ≠ top l := ne_top (by grind [outer]) (by grind [outer])
      exact (upd_ne hfy).trans ((adopt_ne hfl).trans ((upd_ne hfy).trans hf))
  · have hperm := (perm_join .left c l t y).append_right (outer C)
    rw [List.cons_append, List.append_assoc] at hperm
    refine (hperm.map IndexNode.addr).nodup_iff.2 ?_
    exact (List.nodup_cons.1 hb.nodup).2
  · intro x hx
    refine hb.nonnull x ?_
    simp only [RBTree.toList, List.mem_append, List.mem_cons] at hx ⊢
    tauto

end Transplant

/-! ## The removal before the fix-up -/

/-- A node with one child: the root, the heap, and the arguments of the fix-up when it is called. -/
def unlink (root : Nat) (h : Heap) (z x : Nat) : Nat × Heap × Option (Nat × Nat) :=
  let r := transplant root h z x
  (r.1, r.2, if isBlack h z then some (x, (h z).p) else none)

/-- The successor `y` of `z` is taken out of the right subtree: the parent that it leaves behind,
the root and the heap. -/
def takeOut (root : Nat) (h : Heap) (z y : Nat) : Nat × Nat × Heap :=
  if (h y).p = z then (y, root, adopt h (h y).r y)
  else
    let r := transplant root h y (h y).r
    let h := setR r.2 y (r.2 z).r
    let h := adopt h (h y).r y
    ((h y).p, r.1, h)

/-- `ecache_delete` from the node `z` to the fix-up. -/
def removeNode (fuel root : Nat) (h : Heap) (z : Nat) :
    Option (Nat × Heap × Option (Nat × Nat)) :=
  if (h z).l = 0 then some (unlink root h z (h z).r)
  else if (h z).r = 0 then some (unlink root h z (h z).l)
  else (minimum h fuel (h z).r).map fun y =>
    let r := takeOut root h z y
    let r' := takePlace r.2.1 r.2.2 z y
    (r'.1, r'.2, if isBlack r'.2 y then some ((h y).r, r.1) else none)

/-- The call of the fix-up. -/
def mend (fuel : Nat) (r : Nat × Heap × Option (Nat × Nat)) : Option (Nat × Heap) :=
  r.2.2.elim (some (r.1, r.2.1)) fun a => fixDelete fuel r.1 r.2.1 a.1 a.2

/-- The siblings that it reads. -/
def mendSiblings (fuel : Nat) (r : Nat × Heap × Option (Nat × Nat)) : List Nat :=
  r.2.2.elim [] fun a => fixDeleteSiblings fuel r.1 r.2.1 a.1 a.2

/-- The addresses that `ecache_delete` reads as siblings in its fix-up. -/
def deleteSiblings (fuel root : Nat) (hash : UInt32) (h : Heap) : List Nat :=
  ((ecacheFind hash h fuel root).bind fun z =>
    if z = 0 then none else removeNode fuel root h z).elim [] (mendSiblings fuel)

theorem mend_ite {c : Prop} [Decidable c] (fuel root : Nat) (h : Heap) (x p : Nat) :
    mend fuel (root, h, if c then some (x, p) else none)
      = if c then fixDelete fuel root h x p else some (root, h) := by
  by_cases hc : c
  · rw [if_pos hc, if_pos hc]
    rfl
  · rw [if_neg hc, if_neg hc]
    rfl

theorem ecacheDelete_eq (fuel root : Nat) (hash : UInt32) (h : Heap) :
    ecacheDelete fuel root hash h = (ecacheFind hash h fuel root).bind fun z =>
      if z = 0 then some (root, h) else (removeNode fuel root h z).bind (mend fuel) := by
  rw [ecacheDelete]
  cases ecacheFind hash h fuel root with
  | none => rfl
  | some z =>
    simp only [Option.bind_some]
    by_cases hz : z = 0
    · rw [if_pos hz, if_pos hz]
    · rw [if_neg hz, if_neg hz, removeNode]
      by_cases hl : (h z).l = 0
      · rw [if_pos hl, if_pos hl, Option.bind_some, unlink, mend_ite]
      · rw [if_neg hl, if_neg hl]
        by_cases hr : (h z).r = 0
        · rw [if_pos hr, if_pos hr, Option.bind_some, unlink, mend_ite]
        · rw [if_neg hr, if_neg hr]
          cases minimum h fuel (h z).r with
          | none => rfl
          | some y =>
            rw [Option.map_some, Option.bind_some, mend_ite]
            simp only [takeOut]
            by_cases hp : (h y).p = z
            · simp only [if_pos hp]
              rfl
            · simp only [if_neg hp]
              rfl

section Remove

variable {h : Heap} {root p fuel : Nat} {C D : List (Frame IndexNode)} {l r t : RBTree IndexNode}
  {d : Side} {c : Color} {z : IndexNode}

/-- `_minimum` goes to the first node in order. -/
theorem minimum_spec (ht : t ≠ .nil) (hh : Hangs h p t) (hnn : ∀ x ∈ t.toList, x.addr ≠ 0) :
    ∃ D cy y x, t = RedBlack.plug D (.node cy .nil y x) ∧ before D = [] ∧
      t.firstColor = some cy ∧ ∀ fuel, t.depth ≤ fuel → minimum h fuel (top t) = some y.addr := by
  induction t generalizing p with
  | nil => exact absurd rfl ht
  | node c l z r ihl _ =>
    have hdepth : ∀ {fuel}, (RBTree.node c l z r).depth ≤ fuel →
        ∃ k, fuel = k + 1 ∧ l.depth ≤ k := by
      intro fuel hfuel
      have : max l.depth r.depth + 1 ≤ fuel := hfuel
      exact ⟨fuel - 1, by omega, by omega⟩
    by_cases hl : l = .nil
    · subst hl
      refine ⟨[], c, z, r, rfl, rfl, rfl, fun fuel hfuel => ?_⟩
      obtain ⟨k, rfl, -⟩ := hdepth hfuel
      rw [minimum, top_node, hh.1]
      rfl
    · obtain ⟨D, cy, y, x, heq, hD, hfirst, hmin⟩ := ihl hl hh.2.1
        fun x hx => hnn x (by simp [RBTree.toList, hx])
      refine ⟨D ++ [⟨.left, c, z, r⟩], cy, y, x, ?_, ?_, ?_, fun fuel hfuel => ?_⟩
      · rw [plug_append, ← heq]
        rfl
      · rw [before_append, hD]
        rfl
      · obtain _ | ⟨c', l', x', r'⟩ := l
        · exact absurd rfl hl
        · exact hfirst
      · obtain ⟨k, rfl, hk⟩ := hdepth hfuel
        obtain ⟨w, hw, htop⟩ := top_mem hl
        have hl0 : top l ≠ 0 := by
          rw [← htop]
          exact hnn w (by simp [RBTree.toList, hw])
        have hleft : (h z.addr).l = top l := by
          rw [hh.1]
          rfl
        rw [minimum, top_node, hleft, if_neg hl0]
        exact hmin k hk

/-- The subtree below a node already has its parent link. -/
theorem adopt_self (ht : Hangs h p t) : adopt h (top t) p = h := by
  obtain _ | ⟨c, l, x, r⟩ := t
  · exact if_pos rfl
  · rw [adopt, top_node]
    split
    · rfl
    · funext k
      rw [setP, upd]
      split
      · next heq =>
        rw [heq, ht.1]
        rfl
      · rfl

/-- The successor is out of the right subtree. -/
theorem takeOut_beside {cy : Color} {y : IndexNode} {x : RBTree IndexNode}
    (hr : Rep h root (D ++ ⟨.right, c, z, l⟩ :: C) (.node cy .nil y x)) :
    let r := takeOut root h z.addr y.addr
    r.1 = parentOf (D ++ ⟨.right, c, y, l⟩ :: C) ∧
      Beside r.2.2 r.2.1 C c l (RedBlack.plug D x) z y := by
  have hy : h y.addr = record .left cy (parentOf (D ++ ⟨.right, c, z, l⟩ :: C)) 0 (top x) y :=
    hr.inside.1
  have hyp : (h y.addr).p = parentOf (D ++ ⟨.right, c, z, l⟩ :: C) := p_record (d := .left) hy
  have hyr : (h y.addr).r = top x := child_opp_record (d := .left) hy
  have hwhole := Rep.splice.2 hr
  have hperm : ((RedBlack.plug D (.node cy .nil y x)).toList ++ outer (⟨.right, c, z, l⟩ :: C)).Perm
      (z :: y :: (l.toList ++ ((RedBlack.plug D x).toList ++ outer C))) := by
    refine ((perm_plug_node D cy y x).append_right _).trans ?_
    simp only [outer, List.cons_append]
    have hmid : ((RedBlack.plug D x).toList ++ z :: (l.toList ++ outer C)).Perm
        (z :: (l.toList ++ ((RedBlack.plug D x).toList ++ outer C))) :=
      List.perm_middle.trans (List.perm_append_comm_assoc .. |>.cons z)
    exact (hmid.cons y).trans (List.Perm.swap ..)
  have hnd := (hperm.map IndexNode.addr).nodup_iff.1 hwhole.nodup
  have hnn : ∀ w ∈ z :: y :: (l.toList ++ ((RedBlack.plug D x).toList ++ outer C)), w.addr ≠ 0 :=
    fun w hw => hwhole.nonnull w (hperm.mem_iff.2 hw)
  intro r
  obtain _ | ⟨f, D⟩ := D
  · -- the successor is the right child
    have hr' : r = (y.addr, root, h) := by
      show takeOut root h z.addr y.addr = _
      have hpz : (h y.addr).p = z.addr := hyp
      rw [takeOut, if_pos hpz, hyr, adopt_self hr.inside.2.2]
    have hup := hr.up
    have hroot := hup.root_eq
    have hC := hup.around
    rw [top_join] at hroot hC
    rw [hr']
    exact ⟨rfl, hroot, hC, ⟨y.addr, hr.record_above⟩, hr.around.2.1, ⟨cy, _, hy⟩, hr.inside.2.2,
      hnd, hnn⟩
  · -- its right child takes its place
    have hfz : f.label.addr ≠ z.addr := fun heq => by
      have hmem : f.label ∈ (RedBlack.plug (f :: D) x).toList :=
        (perm_outer (f :: D) x).mem_iff.2 (by simp [outer])
      simp only [List.map_cons, List.map_append, List.nodup_cons, List.mem_cons, List.mem_append,
        List.mem_map, not_or, not_exists, not_and] at hnd
      exact hnd.1.2.2.1 _ hmem heq
    obtain ⟨hr₁, hy₁⟩ := Rep.transplant (d := .left) (c := cy) hr
    have hr' : r = (let r₁ := transplant root h y.addr (top x)
        let h₂ := setR r₁.2 y.addr (r₁.2 z.addr).r
        let h₂ := adopt h₂ (h₂ y.addr).r y.addr
        ((h₂ y.addr).p, r₁.1, h₂)) := by
      show takeOut root h z.addr y.addr = _
      have hne : (h y.addr).p ≠ z.addr := by
        rw [hyp]
        exact hfz
      rw [takeOut, if_neg hne, hyr]
    rw [hr']
    generalize transplant root h y.addr (top x) = r₁ at hr₁ hy₁ ⊢
    have hup := (Rep.splice.2 hr₁).up
    have hroot := hup.root_eq
    have hC := hup.around
    rw [top_join] at hroot hC
    generalize hT : RedBlack.plug (f :: D) x = T at hup hnd hnn ⊢
    simp only [List.map_cons, List.map_append, List.nodup_cons, List.nodup_append, List.mem_cons,
      List.mem_append, List.mem_map, not_or, not_exists, not_and] at hnd hnn
    have hz : r₁.2 z.addr = record .left c (parentOf C) (top l) (top T) z := hup.record_eq
    have hyz : y.addr ≠ z.addr := by grind
    have hyT : y.addr ≠ top T := ne_top (by grind) (by grind)
    have hzT : z.addr ≠ top T := ne_top (by grind) (by grind)
    obtain ⟨-, hinT, hinl⟩ := (hangs_join ..).1 hup.inside
    -- the right subtree moves over to the successor
    let h₂ := upd r₁.2 y.addr (record .left cy f.label.addr 0 (top T) y)
    let h₃ := adopt h₂ (top T) y.addr
    have h₂eq : setR r₁.2 y.addr (r₁.2 z.addr).r = h₂ := by
      rw [hz]
      exact setChild_opp_record (d := .left) (hy₁.trans hy)
    have h₂r : (h₂ y.addr).r = top T := by
      show (upd _ _ _ y.addr).r = _
      rw [upd_self]
      rfl
    have hy₃ : h₃ y.addr = record .left cy f.label.addr 0 (top T) y :=
      (adopt_ne hyT).trans upd_self
    have hother : ∀ k, k ≠ y.addr → k ≠ top T → h₃ k = r₁.2 k := fun k hky hkT =>
      (adopt_ne hkT).trans (upd_ne hky)
    simp only [h₂eq, h₂r]
    rw [show adopt h₂ (top T) y.addr = h₃ from rfl, p_record hy₃]
    refine ⟨rfl, hroot, ?_, ⟨top T, (hother _ hyz.symm hzT).trans hz⟩, ?_, ⟨cy, _, hy₃⟩, ?_,
      by simpa [List.nodup_append] using hnd, by simpa using hnn⟩
    · exact hC.congr fun w hw => hother _ (by grind) (ne_top (by grind) (by grind))
    · exact hinl.congr fun w hw => hother _ (by grind) (ne_top (by grind) (by grind))
    · refine hinT.move (by grind) (fun w hw hwT => hother _ (by grind) hwT) fun hTnil => ?_
      obtain ⟨w, hw, hwtop⟩ := top_mem hTnil
      refine (adopt_top (by grind)).trans ?_
      rw [show h₂ (top T) = r₁.2 (top T) from upd_ne hyT.symm]

/-- The fix-up is called when the place of the node that was taken out is black. -/
def afterwards (c : Color) (t : RBTree IndexNode) (C : List (Frame IndexNode)) :
    Option (Nat × Nat) :=
  if c = .black then some (top t, parentOf C) else none

/-- A node with at most one child. -/
theorem unlink_rep (hr : Rep h root C (.join d c .nil z t)) :
    ∃ root' h', unlink root h z.addr (top t) = (root', h', afterwards c t C) ∧
      Rep h' root' C t := by
  refine ⟨_, _, ?_, hr.transplant.1⟩
  have hz := hr.record_eq
  rw [unlink, p_record hz, afterwards]
  simp only [isBlack_record hz]

theorem removeNode_left (fuel : Nat) (hr : Rep h root C (.node c .nil z t)) :
    ∃ root' h', removeNode fuel root h z.addr = some (root', h', afterwards c t C) ∧
      Rep h' root' C t := by
  obtain ⟨root', h', hrun, hr'⟩ := unlink_rep (d := .left) hr
  have hz : h z.addr = record .left c (parentOf C) 0 (top t) z := hr.inside.1
  refine ⟨root', h', ?_, hr'⟩
  rw [removeNode, hz, ← hrun]
  rfl

theorem removeNode_right (fuel : Nat) (hr : Rep h root C (.node c t z .nil)) (ht : t ≠ .nil) :
    ∃ root' h', removeNode fuel root h z.addr = some (root', h', afterwards c t C) ∧
      Rep h' root' C t := by
  obtain ⟨root', h', hrun, hr'⟩ := unlink_rep (d := .right) hr
  have hz : h z.addr = record .left c (parentOf C) (top t) 0 z := hr.inside.1
  have hl : (h z.addr).l ≠ 0 := by
    rw [hz]
    exact (Rep.down (d := .left) hr).top_ne_zero ht
  refine ⟨root', h', ?_, hr'⟩
  rw [removeNode, if_neg hl, hz, ← hrun]
  rfl

/-- A node with two children: its successor takes its place and its colour. -/
theorem removeNode_two (hr : Rep h root C (.node c l z r)) (hl : l ≠ .nil) (hrn : r ≠ .nil) :
    ∃ D cy y x, r = RedBlack.plug D (.node cy .nil y x) ∧ before D = [] ∧
      r.firstColor = some cy ∧ ∀ fuel, r.depth ≤ fuel → ∃ root' h',
        removeNode fuel root h z.addr
          = some (root', h', afterwards c x (D ++ ⟨.right, c, y, l⟩ :: C)) ∧
        Rep h' root' (D ++ ⟨.right, c, y, l⟩ :: C) x := by
  have hright : Rep h root (⟨.right, c, z, l⟩ :: C) r := Rep.down (d := .right) hr
  have hz : h z.addr = record .left c (parentOf C) (top l) (top r) z := hr.inside.1
  have hl0 : (h z.addr).l ≠ 0 := by
    rw [hz]
    exact (Rep.down (d := .left) hr).top_ne_zero hl
  have hr0 : (h z.addr).r ≠ 0 := by
    rw [hz]
    exact hright.top_ne_zero hrn
  obtain ⟨D, cy, y, x, rfl, hD, hfirst, hmin⟩ := minimum_spec hrn hright.inside
    fun w hw => hright.nonnull w (by simp [hw])
  have hy := Rep.splice.1 hright
  have hyr : (h y.addr).r = top x := child_opp_record (d := .left) hy.inside.1
  obtain ⟨hparent, hbeside⟩ := takeOut_beside hy
  have hplace := hbeside.takePlace
  have hx := Rep.splice.1 (Rep.down (d := .right) hplace)
  refine ⟨D, cy, y, x, rfl, hD, hfirst, fun fuel hfuel => ⟨_, _, ?_, hx⟩⟩
  have hstart : minimum h fuel (h z.addr).r = some y.addr := by
    rw [hz]
    exact hmin fuel hfuel
  rw [removeNode, if_neg hl0, if_neg hr0, hstart, Option.map_some, hyr, afterwards]
  simp only [hparent, isBlack_record hplace.inside.1]

end Remove

/-! ## The balance -/

section Balance

variable {h : Heap} {root fuel m : Nat} {C D : List (Frame IndexNode)} {t : RBTree IndexNode}
  {d : Side} {c c' : Color} {x y z : IndexNode} {s : RBTree IndexNode} {f : Frame IndexNode}

/-- The removal of a node of the colour `c` with the child `t` is completed by a fix-up exactly
when the node was black. -/
theorem mend_sound (hr : Rep h root C t) (hC : Hole C c m) {ct : Color} (ht : Sound ct 0 t)
    (hred : c = .red → m = 0 ∧ ct = .black) (hblack : c = .black → m = 1)
    (hfuel : C.length + 1 < fuel) :
    ∃ root' h' t' k, mend fuel (root, h, afterwards c t C) = some (root', h') ∧
      Rep h' root' [] t' ∧ Sound .black k t' ∧ t'.toList = (plug C t).toList ∧
      0 ∉ mendSiblings fuel (root, h, afterwards c t C) := by
  cases c with
  | red =>
    obtain ⟨rfl, rfl⟩ := hred rfl
    obtain ⟨k, hk⟩ := hC.toBlack.plug ht
    exact ⟨root, h, _, k, rfl, Rep.plug.2 hr, hk, rfl, List.not_mem_nil⟩
  | black =>
    obtain rfl := hblack rfl
    have hlow : Lacks 0 t := by
      cases ct with
      | red => exact Or.inr ⟨ht.color_eq, ht.blacken_red⟩
      | black => exact Or.inl ht
    obtain ⟨⟨r, t', k, hrun, hrep, hsound, hlist⟩, hread⟩ :=
      fixDeleteLoop_sound hr hC hlow (Nat.zero_lt_of_lt hfuel) fun _ => hfuel
    refine ⟨_, _, t', k, ?_, hrep, hsound, hlist, hread⟩
    show fixDelete fuel root h (top t) (parentOf C) = _
    rw [fixDelete, hrun]
    rfl

/-- A fix-up for a place that has lost no black node reads a missing sibling. -/
theorem mend_reads_missing (hr : Rep h root (f :: C) .nil) (hC : Hole (f :: C) .red 0)
    (hfuel : 0 < fuel) :
    0 ∈ mendSiblings fuel (root, h, afterwards .black .nil (f :: C)) := by
  obtain ⟨fuel, rfl⟩ : ∃ k, fuel = k + 1 := ⟨fuel - 1, by omega⟩
  show 0 ∈ fixDeleteSiblings (fuel + 1) root h 0 f.label.addr
  cases hC with
  | @black _ _ d _ cs x s hs hC =>
  have hgo : ¬(0 = root ∨ ¬ childBlack h 0) := by
    have hne : 0 ≠ root := hr.top_ne_root
    simp [hne, childBlack]
  rw [fixDeleteSiblings_succ]
  simp only [if_neg hgo]
  have hx := hr.record_above
  cases cs with
  | black =>
    -- the sibling is missing, on whichever side the loop looks for it
    obtain rfl := hs.eq_nil
    have hl : child h d x.addr = 0 := child_record hx
    have hr : child h d.opp x.addr = 0 := child_opp_record hx
    have hopp : child h (sideOf h 0 x.addr).opp x.addr = 0 := by
      cases d <;> cases sideOf h 0 x.addr <;> first | exact hl | exact hr
    rw [hopp]
    exact List.mem_cons_self
  | red =>
    -- the red sibling moves up, its near child is missing
    obtain ⟨b, w, e, rfl, hb, he⟩ := hs.split_red d
    have hside : sideOf h 0 x.addr = d := hr.sideOf_eq RBTree.join_ne_nil
    have hw := (blackSibling_red hr).2.1
    rw [hb.eq_nil] at hw
    rw [hside, hw]
    exact List.mem_cons_of_mem _ List.mem_cons_self

theorem flagsOf_inj : ∀ {c c' : Color} {k k' : BitVec 2}, flagsOf c k = flagsOf c' k' →
    c = c' ∧ k = k' := by
  intro c c' k k'
  cases c <;> cases c' <;> revert k k' <;> decide

/-- The heap and the root determine the tree. -/
theorem Hangs.unique {p p' : Nat} {t' : RBTree IndexNode} (ht : Hangs h p t) (ht' : Hangs h p' t')
    (hnn : ∀ x ∈ t.toList, x.addr ≠ 0) (hnn' : ∀ x ∈ t'.toList, x.addr ≠ 0)
    (htop : top t = top t') : t = t' := by
  induction t generalizing p p' t' with
  | nil =>
    obtain _ | ⟨c', l', x', r'⟩ := t'
    · rfl
    · exact absurd htop.symm (hnn' x' (by simp [RBTree.toList]))
  | node c l x r ihl ihr =>
    obtain _ | ⟨c', l', x', r'⟩ := t'
    · exact absurd htop (hnn x (by simp [RBTree.toList]))
    · have haddr : x.addr = x'.addr := htop
      have hx := ht.1
      rw [haddr, ht'.1] at hx
      simp only [record, EcacheNode.mk.injEq] at hx
      obtain ⟨-, hl, hr, hflags, hhash, hca⟩ := hx
      obtain ⟨rfl, hkind⟩ := flagsOf_inj hflags
      obtain rfl : x = x' := by
        obtain ⟨a, hash, ca, kind⟩ := x
        obtain ⟨a', hash', ca', kind'⟩ := x'
        simp only at haddr hhash hca hkind
        rw [haddr, hhash, hca, hkind]
      have hleft : l = l' := ihl ht.2.1 ht'.2.1 (fun y hy => hnn y (by simp [RBTree.toList, hy]))
        (fun y hy => hnn' y (by simp [RBTree.toList, hy])) hl.symm
      have hright : r = r' := ihr ht.2.2 ht'.2.2 (fun y hy => hnn y (by simp [RBTree.toList, hy]))
        (fun y hy => hnn' y (by simp [RBTree.toList, hy])) hr.symm
      rw [hleft, hright]

theorem Rep.unique {t' : RBTree IndexNode} (hr : Rep h root [] t) (hr' : Rep h root [] t') :
    t = t' :=
  hr.inside.unique hr'.inside (fun x hx => hr.nonnull x (by simp [hx]))
    (fun x hx => hr'.nonnull x (by simp [hx])) (hr.root_eq.symm.trans hr'.root_eq)

end Balance

/-! ## Deletion -/

/-- The node at the root of `t` can be taken out: it has at most one child, or its successor has
its colour. -/
def SuccessorFits : RBTree IndexNode → Prop
  | .nil => True
  | .node c l _ r => l = .nil ∨ r = .nil ∨ r.firstColor = some c

/-- A call of `ecache_delete`: the root, the heap and the addresses that it reads as siblings. -/
def deleteTraced (root : Nat) (hash : UInt32) (h : Heap) (fuel : Nat) :
    Option (Nat × Heap × List Nat) :=
  (ecacheDelete fuel root hash h).map fun r => (r.1, r.2, deleteSiblings fuel root hash h)

/-- No sibling is missing, and the result is a valid index of the nodes `l`. -/
def Deleted (l : List IndexNode) (r : Nat × Heap × List Nat) : Prop :=
  0 ∉ r.2.2 ∧ ∃ t, ValidIndex r.2.1 r.1 t ∧ t.toList = l

section Delete

variable {h : Heap} {root : Nat} {t : RBTree IndexNode} {hash : UInt32}

/-- All nodes but the one with the hash are left. -/
theorem filter_hash {a b : List IndexNode} {z : IndexNode}
    (hs : (a ++ z :: b).Pairwise fun x y => x.hash < y.hash) :
    (a ++ z :: b).filter (fun x => x.hash ≠ z.hash) = a ++ b := by
  obtain ⟨-, hb, hab⟩ := List.pairwise_append.1 hs
  have ha : a.filter (fun x => x.hash ≠ z.hash) = a := List.filter_eq_self.2 fun x hx => by
    simpa using UInt32.ne_of_lt (hab x hx z List.mem_cons_self)
  have hb' : b.filter (fun x => x.hash ≠ z.hash) = b := List.filter_eq_self.2 fun x hx => by
    simpa using (UInt32.ne_of_lt (List.rel_of_pairwise_cons hb hx)).symm
  rw [List.filter_append, ha, List.filter_cons_of_neg (by simp), hb']

namespace ValidIndex

/-- The search stops at the position of the descent. -/
theorem ecacheFind_eq (hv : ValidIndex h root t) (hash : UInt32) {fuel : Nat}
    (hfuel : t.size < fuel) : ecacheFind hash h fuel root = some (top (descend hash [] t).2) := by
  rw [hv.rep.root_eq]
  exact ecacheFind_descend hv.rep.inside hv.nonnull (Nat.lt_of_le_of_lt t.depth_le_size hfuel)

/-- A missing hash: nothing happens. -/
theorem delete_missing (hv : ValidIndex h root t) (hnil : (descend hash [] t).2 = .nil) :
    Run.Ensures (deleteTraced root hash h)
      (Deleted (t.toList.filter fun x => x.hash ≠ hash)) := by
  refine ⟨t.size + 1, fun fuel hfuel => ⟨(root, h, []), ?_, List.not_mem_nil, t, hv, ?_⟩⟩
  · have hfind := hv.ecacheFind_eq hash (Nat.lt_of_succ_le hfuel)
    rw [hnil] at hfind
    rw [deleteTraced, ecacheDelete_eq, deleteSiblings, hfind]
    rfl
  · have hplug := plug_descend hash [] t
    rw [hnil] at hplug
    have hbetween : Between hash (descend hash [] t).1 := between_descend Between.start hv.sorted
    have hne := hbetween.ne
    rw [hplug] at hne
    exact (List.filter_eq_self.2 fun x hx => by simpa using hne x hx).symm

/-- The node with the hash, in its place. -/
theorem at_node (hv : ValidIndex h root t) {c : Color} {l r : RBTree IndexNode} {z : IndexNode}
    (hnode : (descend hash [] t).2 = .node c l z r) :
    let C := (descend hash [] t).1
    Rep h root C (.node c l z r) ∧ (∃ m, Hole C c m ∧ Sound c m (.node c l z r)) ∧
      t.toList.filter (fun x => x.hash ≠ hash) = before C ++ (l.toList ++ r.toList) ++ after C := by
  intro C
  have hplug : plug C (.node c l z r) = t := by
    rw [← hnode]
    exact plug_descend hash [] t
  have hr : Rep h root C (.node c l z r) := Rep.plug.1 (by rw [hplug]; exact hv.rep)
  refine ⟨hr, ?_, ?_⟩
  · obtain ⟨k, hk⟩ := hv.sound
    rw [← hplug] at hk
    obtain ⟨c', m, hC, ht⟩ := Hole.of_plug hk
    obtain rfl : c = c' := ht.color_eq
    exact ⟨m, hC, ht⟩
  · have hz : z.hash = hash := by
      rcases hash_descend hash [] t with hnil | ⟨c', l', x, r', heq, hx⟩
      · rw [hnode] at hnil
        exact absurd hnil RBTree.node_ne_nil
      · rw [hnode] at heq
        cases heq
        exact hx
    have hlist : t.toList = (before C ++ l.toList) ++ z :: (r.toList ++ after C) := by
      rw [← hplug, toList_plug]
      simp [RBTree.toList]
    have hs := hv.sorted
    rw [Sorted, hlist] at hs
    rw [hlist, ← hz, filter_hash hs]
    simp

/-- The node is found. -/
theorem delete_found (hv : ValidIndex h root t) {c : Color} {l r : RBTree IndexNode}
    {z : IndexNode} (hnode : (descend hash [] t).2 = .node c l z r) {fuel : Nat}
    (hfuel : t.size < fuel) {a : Nat × Heap × Option (Nat × Nat)}
    (hremove : removeNode fuel root h z.addr = some a) :
    deleteTraced root hash h fuel
      = (mend fuel a).map fun r => (r.1, r.2, mendSiblings fuel a) := by
  have hz : z.addr ≠ 0 := (hv.at_node hnode).1.nonnull z (by simp [RBTree.toList])
  have hfind := hv.ecacheFind_eq hash hfuel
  rw [hnode, top_node] at hfind
  rw [deleteTraced, ecacheDelete_eq, deleteSiblings, hfind]
  simp only [Option.bind_some, if_neg hz, hremove]
  rfl

/-- The removal leaves the subtree `x` at a place that lacks a node of the colour `c'`, and the
fix-up is called for a place of this colour. -/
theorem delete_fits (hv : ValidIndex h root t) {c : Color} {l r : RBTree IndexNode}
    {z : IndexNode} (hnode : (descend hash [] t).2 = .node c l z r) {fuel : Nat}
    (hfuel : t.size + 2 < fuel) {E : List (Frame IndexNode)} {x : RBTree IndexNode}
    {w : IndexNode} {d : Side} {m : Nat} {root' : Nat} {h' : Heap}
    (hremove : removeNode fuel root h z.addr = some (root', h', afterwards c x E))
    (hr : Rep h' root' E x) (hC : Hole E c m) (hx : Sound c m (.join d c .nil w x))
    (hlist : (plug E x).toList = t.toList.filter fun x => x.hash ≠ hash) :
    ∃ r, deleteTraced root hash h fuel = some r ∧
      Deleted (t.toList.filter fun x => x.hash ≠ hash) r := by
  obtain ⟨-, ct, hct, hred, hblack⟩ := hx.of_join_nil
  have hlen : E.length ≤ t.size := by
    have hE := length_le_outer E
    have hperm := (perm_outer E x).length_eq
    have hfilter := List.length_filter_le (fun x : IndexNode => decide (x.hash ≠ hash)) t.toList
    rw [hlist, List.length_append] at hperm
    rw [RBTree.size]
    omega
  have hlt : E.length + 1 < fuel := by omega
  obtain ⟨root'', h'', t', k, hrun, hrep, hsound, hlist', hread⟩ :=
    mend_sound hr hC hct hred hblack hlt
  rw [hv.delete_found hnode (by omega) hremove, hrun]
  refine ⟨_, rfl, hread, t', ⟨hrep, ?_, k, hsound⟩, hlist'.trans hlist⟩
  rw [Sorted, hlist', hlist]
  exact hv.sorted.filter _

/-- A node with two children, its successor of the colour `cy`: the place that the successor
leaves behind, and the removal up to the fix-up. -/
theorem at_two (hv : ValidIndex h root t) {c : Color} {l r : RBTree IndexNode} {z : IndexNode}
    (hnode : (descend hash [] t).2 = .node c l z r) (hl : l ≠ .nil) (hrn : r ≠ .nil) :
    ∃ f E cy m y x, r.firstColor = some cy ∧ Hole (f :: E) cy m ∧
      Sound cy m (.node cy .nil y x) ∧
      (plug (f :: E) x).toList = t.toList.filter (fun x => x.hash ≠ hash) ∧
      ∀ fuel, t.size < fuel → ∃ root' h',
        removeNode fuel root h z.addr = some (root', h', afterwards c x (f :: E)) ∧
          Rep h' root' (f :: E) x := by
  obtain ⟨hr, ⟨m, hC, hsound⟩, hfilter⟩ := hv.at_node hnode
  generalize (descend hash [] t).1 = C at hr hC hfilter
  obtain ⟨D, cy, y, x, rfl, hD, hfirst, hremove⟩ := removeNode_two hr hl hrn
  -- the place of the successor, before and after it changes over
  obtain ⟨k, hk⟩ := hC.plug hsound
  have hk' : Sound .black k (plug (D ++ ⟨.right, c, z, l⟩ :: C) (.node cy .nil y x)) := by
    rw [plug_append]
    exact hk
  obtain ⟨c', m', hE, hy⟩ := Hole.of_plug hk'
  obtain rfl : cy = c' := hy.color_eq
  have hE' := hE.relabel_mid y
  have hlist : (plug (D ++ ⟨.right, c, y, l⟩ :: C) x).toList
      = t.toList.filter (fun x => x.hash ≠ hash) := by
    rw [hfilter, plug_append, toList_plug _ (.node cy .nil y x), hD]
    show (plug C (.node c l y (plug D x))).toList = _
    rw [toList_plug]
    simp [RBTree.toList, toList_plug, hD]
  have hdepth : (plug D (.node cy .nil y x)).depth ≤ t.size := by
    refine Nat.le_trans (RBTree.depth_le_size _) ?_
    have hlen := List.length_filter_le (fun x : IndexNode => decide (x.hash ≠ hash)) t.toList
    rw [hfilter] at hlen
    simp only [List.length_append] at hlen
    simp only [RBTree.size]
    omega
  obtain ⟨f, E, heq⟩ : ∃ f E, D ++ ⟨.right, c, y, l⟩ :: C = f :: E := by
    cases D with
    | nil => exact ⟨_, _, rfl⟩
    | cons f D => exact ⟨f, _, rfl⟩
  rw [heq] at hE' hlist hremove
  exact ⟨f, E, cy, m', y, x, hfirst, hE', hy, hlist, fun fuel hfuel =>
    hremove fuel (Nat.le_trans hdepth (Nat.le_of_lt hfuel))⟩

/-- A node that fits is taken out, and the rest is a valid index. -/
theorem delete_sound (hv : ValidIndex h root t) (hfits : SuccessorFits (descend hash [] t).2) :
    Run.Ensures (deleteTraced root hash h) (Deleted (t.toList.filter fun x => x.hash ≠ hash)) := by
  obtain hnil | ⟨c, l, z, r, hnode, -⟩ := hash_descend hash [] t
  · exact hv.delete_missing hnil
  refine ⟨t.size + 3, fun fuel hfuel => ?_⟩
  rw [hnode] at hfits
  obtain ⟨hr, ⟨m, hC, hsound⟩, hfilter⟩ := hv.at_node hnode
  by_cases hl : l = .nil
  · subst hl
    obtain ⟨root', h', hremove, hr'⟩ := removeNode_left fuel hr
    refine hv.delete_fits (d := .left) hnode (by omega) hremove hr' hC hsound ?_
    rw [hfilter, toList_plug]
    rfl
  · by_cases hrn : r = .nil
    · subst hrn
      obtain ⟨root', h', hremove, hr'⟩ := removeNode_right fuel hr hl
      refine hv.delete_fits (d := .right) hnode (by omega) hremove hr' hC hsound ?_
      rw [hfilter, toList_plug]
      simp [RBTree.toList]
    · obtain ⟨f, E, cy, m', y, x, hfirst, hE, hy, hlist, hremove⟩ := hv.at_two hnode hl hrn
      obtain rfl : cy = c := by
        rcases hfits with hl' | hr' | hc
        · exact absurd hl' hl
        · exact absurd hr' hrn
        · exact Option.some.inj (hfirst.symm.trans hc)
      obtain ⟨root', h', hrun, hr'⟩ := hremove fuel (by omega)
      exact hv.delete_fits (d := .left) hnode (by omega) hrun hr' hE hy hlist

/-- With a successor of the other colour the deletion goes wrong. -/
theorem delete_unsound (hv : ValidIndex h root t)
    (hfits : ¬ SuccessorFits (descend hash [] t).2) :
    ¬ Run.Ensures (deleteTraced root hash h)
      (Deleted (t.toList.filter fun x => x.hash ≠ hash)) := by
  rintro ⟨bound, hb⟩
  obtain ⟨r, hrun, hread, t', hv', -⟩ := hb (max bound (t.size + 3)) (Nat.le_max_left ..)
  have hfuel : t.size + 3 ≤ max bound (t.size + 3) := Nat.le_max_right ..
  generalize max bound (t.size + 3) = fuel at hrun hfuel
  obtain hnil | ⟨c, l, z, r', hnode, -⟩ := hash_descend hash [] t
  · rw [hnil] at hfits
    exact hfits trivial
  rw [hnode, SuccessorFits, not_or, not_or] at hfits
  obtain ⟨hl, hrn, hcolor⟩ := hfits
  obtain ⟨f, E, cy, m, y, x, hfirst, hE, hy, -, hremove⟩ := hv.at_two hnode hl hrn
  obtain ⟨root', h', hrem, hr'⟩ := hremove fuel (by omega)
  rw [hv.delete_found hnode (by omega) hrem] at hrun
  obtain ⟨-, ct, hct, hred, hblack⟩ := Sound.of_join_nil (d := .left) hy
  cases c with
  | red =>
    -- a black node is lost and no fix-up is called
    obtain rfl : cy = .black := by
      cases cy
      · exact absurd hfirst hcolor
      · rfl
    obtain rfl := hblack rfl
    obtain rfl := Option.some.inj hrun
    obtain rfl : t' = plug (f :: E) x := hv'.rep.unique (Rep.plug.2 hr')
    obtain ⟨k, hk⟩ := hv'.sound
    exact hE.not_sound hct Nat.one_ne_zero hk
  | black =>
    -- no black node is lost and the fix-up is called
    obtain rfl : cy = .red := by
      cases cy
      · rfl
      · exact absurd hfirst hcolor
    obtain ⟨rfl, rfl⟩ := hred rfl
    obtain rfl := hct.eq_nil
    obtain ⟨r'', -, rfl⟩ := Option.map_eq_some_iff.1 hrun
    exact hread (mend_reads_missing hr' hE (by omega))

end ValidIndex
end Delete

/-- A deletion from a valid index keeps it valid, and reads no missing sibling, exactly when the
hash is missing, its node has at most one child, or the successor of its node has its colour. -/
theorem index_delete_valid_iff {h : Heap} {root : Nat} {t : RBTree IndexNode}
    (hv : ValidIndex h root t) (hash : UInt32) :
    Run.Ensures (deleteTraced root hash h) (Deleted (t.toList.filter fun x => x.hash ≠ hash)) ↔
      SuccessorFits (descend hash [] t).2 :=
  ⟨fun hrun => by
    by_contra hfits
    exact hv.delete_unsound hfits hrun, hv.delete_sound⟩

/-! ### A root with two red children -/

def indexNode (a : Nat) : IndexNode := ⟨a, UInt32.ofNat a, a, 1#2⟩

def threeNodes : RBTree IndexNode :=
  .node .black (.node .red .nil (indexNode 1) .nil) (indexNode 2)
    (.node .red .nil (indexNode 3) .nil)

def threeHeap : Heap := fun a =>
  if a = 2 then record .left .black 0 1 3 (indexNode 2)
  else record .left .red 2 0 0 (indexNode a)

theorem threeNodes_valid : ValidIndex threeHeap 2 threeNodes := by
  refine ⟨⟨rfl, ⟨rfl, ⟨rfl, trivial, trivial⟩, rfl, trivial, trivial⟩, trivial, ?_, ?_⟩, ?_,
    1, ?_⟩
  · decide
  · decide
  · show [indexNode 1, indexNode 2, indexNode 3].Pairwise fun x y => x.hash < y.hash
    decide
  · exact Sound.black _ (Sound.red _ Sound.nil Sound.nil) (Sound.red _ Sound.nil Sound.nil)

/-- The red leaf `1` is deleted. -/
theorem index_delete_leaf : Run.Ensures (deleteTraced 2 1 threeHeap)
    (Deleted [indexNode 2, indexNode 3]) :=
  (index_delete_valid_iff threeNodes_valid 1).mpr (Or.inl rfl)

/-- The black root is deleted, its successor is the red node `3`. -/
theorem not_index_delete_valid : ¬ ∀ (h : Heap) (root : Nat) (t : RBTree IndexNode),
    ValidIndex h root t → ∀ hash, Run.Ensures (deleteTraced root hash h)
      (Deleted (t.toList.filter fun x => x.hash ≠ hash)) := by
  intro hall
  have hfits : ¬ SuccessorFits (descend 2 [] threeNodes).2 := by
    show ¬(_ = _ ∨ _ = _ ∨ some Color.red = some Color.black)
    simp [indexNode]
  exact threeNodes_valid.delete_unsound hfits (hall _ _ _ threeNodes_valid 2)

end NiFat32
