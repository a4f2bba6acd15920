import NiFat32.Lib.Run
import NiFat32.Proofs.IndexTree

/-!
# `Proofs.IndexInsert`: insertions keep the index a red-black tree

`ecache_insert` descends to a missing child, links a red node in there and restores the balance
on the way up. `descend` is the way down, which `ecache_find` goes too. On the way up one red node
may have a red parent; `fixInsertLoop_sound` carries that through the loop of `_fix_insert`, whose
two mirrored halves are `insertClimb` for the two sides.

* `ecacheInsert_valid`: one insertion keeps a valid index valid and adds the node of the hash;
* `index_insertions_valid`: so does every sequence of insertions, and `ecache_find` finds the first
  insertion of every hash.
-/

set_option autoImplicit false

namespace NiFat32

open RedBlack Heap

/-! ## The way up -/

section Views
variable {h : Heap} {root p : Nat} {C : List (Frame IndexNode)} {f : Frame IndexNode}
  {t s : RBTree IndexNode} {d : Side} {c : Color} {x : IndexNode}

/-- The colour tests of the source on a child that may be missing. -/
theorem isRed_top (ht : Hangs h p t) (hnn : ∀ x ∈ t.toList, x.addr ≠ 0) :
    (top t ≠ 0 ∧ isRed h (top t)) ↔ t.color = .red := by
  cases t with
  | nil => simp [top, RBTree.color]
  | node c l x r =>
    have hx : x.addr ≠ 0 := hnn x (by simp [RBTree.toList])
    show (x.addr ≠ 0 ∧ isRed h x.addr = true) ↔ c = .red
    rw [isRed_record ht.1]
    simp [hx]

theorem childBlack_top (ht : Hangs h p t) (hnn : ∀ x ∈ t.toList, x.addr ≠ 0) :
    childBlack h (top t) ↔ t.color = .black := by
  cases t with
  | nil => simp [childBlack, top, RBTree.color]
  | node c l x r =>
    have hx : x.addr ≠ 0 := hnn x (by simp [RBTree.toList])
    show childBlack h x.addr ↔ c = .black
    simp [childBlack, hx, isBlack_record ht.1]

end Views

/-- Half of the loop body of `_fix_insert`, for a parent on the side `d` of the grandparent. -/
def insertClimb (d : Side) (fuel root : Nat) (h : Heap) (z p gp : Nat) : Option (Nat × Heap) :=
  let y := child h d.opp gp
  if y ≠ 0 ∧ isRed h y then
    fixInsertLoop fuel root (paint (paint (paint h .black p) .black y) .red gp) gp
  else
    let (z, root, h) :=
      if z = child h d.opp p then
        let (root, h) := rotate d root h p
        (p, root, h)
      else (z, root, h)
    let h := paint (paint h .black (h z).p) .red gp
    let (root, h) := rotate d.opp root h gp
    fixInsertLoop fuel root h z

theorem fixInsertLoop_succ (fuel root : Nat) (h : Heap) (z : Nat) :
    fixInsertLoop (fuel + 1) root h z =
      if (h z).p = 0 ∨ isBlack h (h z).p then some (root, h)
      else
        let p := (h z).p
        let gp := (h p).p
        insertClimb (if p = (h gp).l then .left else .right) fuel root h z p gp := by
  rw [fixInsertLoop]
  by_cases hdone : (h z).p = 0 ∨ isBlack h (h z).p = true
  · simp only [if_pos hdone]
  · simp only [if_neg hdone]
    by_cases hside : (h z).p = (h (h (h z).p).p).l
    · simp only [if_pos hside]
      rfl
    · simp only [if_neg hside]
      rfl

namespace Rep
variable {h : Heap} {root p : Nat} {C : List (Frame IndexNode)} {f : Frame IndexNode}
  {t s : RBTree IndexNode} {d : Side} {c : Color} {x : IndexNode}

/-- A node and its sibling are two nodes. -/
theorem ne_sibling (hr : Rep h root (f :: C) t) (ht : t ≠ .nil) : top t ≠ top f.sibling := by
  obtain ⟨z, hz, hztop⟩ := top_mem ht
  have hnd := hr.nodup
  simp only [outer, List.map_append, List.map_cons, List.cons_append, List.nodup_append,
    List.mem_cons, List.mem_append, List.mem_map] at hnd
  rw [← hztop]
  refine ne_top (fun y hy heq => ?_) (hr.nonnull z (by simp [hz]))
  exact hnd.2.2 _ ⟨z, hz, rfl⟩ _ (Or.inr (Or.inl ⟨y, hy, heq⟩)) rfl

/-- The side of a position. -/
theorem side_eq (hr : Rep h root (f :: C) t) (ht : t ≠ .nil) :
    (if top t = (h f.label.addr).l then Side.left else .right) = f.side := by
  have hsib := hr.ne_sibling ht
  rw [hr.record_above]
  cases f.side
  · exact if_pos rfl
  · exact if_neg hsib

/-- The position moves up. -/
theorem up (hr : Rep h root (⟨d, c, x, s⟩ :: C) t) : Rep h root C (.join d c t x s) := fill.2 hr

/-- The position moves down to the child on the side `d`. -/
theorem down (hr : Rep h root C (.join d c t x s)) : Rep h root (⟨d, c, x, s⟩ :: C) t := fill.1 hr

/-- The children are named from the other side. -/
theorem flip (hr : Rep h root C (.join d c t x s)) : Rep h root C (.join d.opp c s x t) := by
  rwa [RBTree.join_opp]

end Rep

section Climb

variable {h : Heap} {root : Nat} {C : List (Frame IndexNode)} {t s u : RBTree IndexNode}
  {d d' : Side} {p g x : IndexNode}

/-- The colour of the uncle. -/
theorem uncle_red (hr : Rep h root (⟨d, .red, p, s⟩ :: ⟨d', .black, g, u⟩ :: C) t) :
    (child h d'.opp g.addr ≠ 0 ∧ isRed h (child h d'.opp g.addr)) ↔ u.color = .red := by
  obtain ⟨hg, hu, _⟩ := hr.around.2.2
  have huncle : child h d'.opp g.addr = top u := child_opp_record hg
  rw [huncle]
  exact isRed_top hu fun y hy => hr.nonnull y (by simp [outer, hy])

/-- A red uncle: parent and uncle become black, the grandparent red. -/
theorem insertClimb_recolor (fuel : Nat)
    (hr : Rep h root (⟨d, .red, p, s⟩ :: ⟨d', .black, g, u⟩ :: C) t)
    (hu : u.color = .red) :
    ∃ h', insertClimb d' fuel root h (top t) p.addr g.addr = fixInsertLoop fuel root h' g.addr ∧
      Rep h' root C (.join d' .red (.join d .black t p s) g u.blacken) := by
  obtain _ | ⟨cu, ul, y, ur⟩ := u
  · cases hu
  obtain rfl : cu = .red := hu
  have hy : child h d'.opp g.addr = y.addr := child_opp_record hr.around.2.2.1
  -- the parent, then the uncle, then the grandparent
  have hp : Rep (paint h .black p.addr) root C
      (.join d' .black (.join d .black t p s) g (.node .red ul y ur)) := (hr.up.paint .black).up
  have huncle : Rep (paint (paint h .black p.addr) .black y.addr) root
      (⟨d'.opp, .black, g, .join d .black t p s⟩ :: C) (.join .left .black ul y ur) :=
    Rep.paint hp.flip.down .black
  have hgp := huncle.up.flip.paint .red
  rw [Side.opp_opp] at hgp
  have hred := (uncle_red hr).2 rfl
  rw [hy] at hred
  refine ⟨_, ?_, hgp⟩
  rw [insertClimb]
  simp only [hy, if_pos hred]

/-- The grandparent is rotated below the parent. -/
theorem rotate_grandparent (hr : Rep h root (⟨d', .red, p, s⟩ :: ⟨d', .black, g, u⟩ :: C) t) :
    Rep (rotate d'.opp root (paint (paint h .black p.addr) .red g.addr) g.addr).2
      (rotate d'.opp root (paint (paint h .black p.addr) .red g.addr) g.addr).1
      (⟨d', .black, p, .join d'.opp .red u g s⟩ :: C) t := by
  have hpainted := ((hr.up.paint .black).up.paint .red).flip
  rw [← RBTree.join_opp d' .black s t p] at hpainted
  have hrot := hpainted.rotate.flip.down
  rwa [Side.opp_opp] at hrot

/-- A black uncle: at most two rotations, after which the parent is black. -/
theorem insertClimb_rotate {n : Nat} {l r : RBTree IndexNode} (fuel : Nat)
    (hr : Rep h root (⟨d, .red, p, s⟩ :: ⟨d', .black, g, u⟩ :: C) (.node .red l x r))
    (hl : Sound .black n l) (hrt : Sound .black n r) (hs : Sound .black n s)
    (hu : Sound .black n u) :
    ∃ root' h' q v z a b, insertClimb d' fuel root h x.addr p.addr g.addr
        = fixInsertLoop fuel root' h' z.addr ∧
      Rep h' root' (⟨d', .black, q, v⟩ :: C) (.node .red a z b) ∧
      Sound .black n a ∧ Sound .black n b ∧ Sound .red n v ∧
      (plug (⟨d', .black, q, v⟩ :: C) (.node .red a z b)).toList =
        (plug (⟨d, .red, p, s⟩ :: ⟨d', .black, g, u⟩ :: C) (.node .red l x r)).toList := by
  have hx : h x.addr = _ := hr.inside.1
  have hp := hr.record_above
  have hnotred : ¬(child h d'.opp g.addr ≠ 0 ∧ isRed h (child h d'.opp g.addr)) := by
    rw [uncle_red hr, hu.color_eq]
    exact Color.noConfusion
  by_cases hside : d = d'
  · -- the outer grandchild
    subst hside
    have hne : x.addr ≠ child h d.opp p.addr := by
      rw [child_opp_record hp]
      exact hr.ne_sibling RBTree.node_ne_nil
    refine ⟨_, _, p, _, x, l, r, ?_, rotate_grandparent hr, hl, hrt, hu.join_red _ g hs, ?_⟩
    · rw [insertClimb]
      simp only [if_neg hnotred, if_neg hne, p_record hx]
      rfl
    · refine toList_plug_congr C ?_
      cases d <;> simp [Frame.fill, RBTree.join, RBTree.toList, Side.opp]
  · -- the inner grandchild is rotated outwards first
    obtain rfl : d = d'.opp := by
      revert hside
      cases d <;> cases d' <;> simp [Side.opp]
    have heq : x.addr = child h d'.opp p.addr := (child_record hp).symm
    obtain ⟨a, b, hjoin, ha, hb⟩ : ∃ a b, RBTree.node .red l x r = .join d' .red a x b ∧
        Sound .black n a ∧ Sound .black n b := by
      cases d'
      · exact ⟨l, r, rfl, hl, hrt⟩
      · exact ⟨r, l, rfl, hrt, hl⟩
    have hup := hr.up
    rw [hjoin, RBTree.join_opp] at hup
    have hrot : Rep (rotate d' root h p.addr).2 (rotate d' root h p.addr).1
        (⟨d', .red, x, b⟩ :: ⟨d', .black, g, u⟩ :: C) (.join d' .red s p a) := hup.rotate.down
    have hp' := hrot.record_eq
    obtain ⟨a', b', hjoin', ha', hb'⟩ : ∃ a' b', RBTree.join d' .red s p a = .node .red a' p b' ∧
        Sound .black n a' ∧ Sound .black n b' := by
      cases d'
      · exact ⟨s, a, rfl, hs, ha⟩
      · exact ⟨a, s, rfl, ha, hs⟩
    refine ⟨_, _, x, _, p, a', b', ?_, hjoin' ▸ rotate_grandparent hrot, ha', hb',
      hu.join_red _ g hb, ?_⟩
    · rw [insertClimb]
      simp only [if_neg hnotred, if_pos heq, p_record hp']
      rfl
    · refine toList_plug_congr C ?_
      rw [← hjoin', hjoin]
      cases d' <;> simp [Frame.fill, RBTree.join, RBTree.toList, Side.opp]

end Climb

theorem fixInsertLoop_sound {h : Heap} {root : Nat} {fuel : Nat} {C : List (Frame IndexNode)}
    {l r : RBTree IndexNode} {x : IndexNode} {n : Nat} (hr : Rep h root C (.node .red l x r))
    (hC : Hole C .black n) (hl : Sound .black n l) (hrt : Sound .black n r)
    (hfuel : C.length < fuel) :
    ∃ root' h' t, fixInsertLoop fuel root h x.addr = some (root', h') ∧ Rep h' root' [] t ∧
      (∃ c k, Sound c k t) ∧ t.toList = (plug C (.node .red l x r)).toList := by
  induction fuel using Nat.strongRecOn generalizing h root C l r x n with
  | ind fuel ih =>
  have hx : h x.addr = _ := hr.inside.1
  obtain _ | fuel := fuel
  · exact absurd hfuel (Nat.not_lt_zero _)
  rw [fixInsertLoop_succ, p_record hx]
  cases hC with
  | root =>
    -- the root of the tree
    refine ⟨_, _, _, if_pos (Or.inl rfl), hr, ⟨_, _, Sound.red x hl hrt⟩, rfl⟩
  | black d c y hs hC =>
    -- a black parent
    exact ⟨_, _, _, if_pos (Or.inr ((isBlack_record hr.record_above).mpr rfl)), Rep.plug.2 hr,
      ⟨_, hC.plug (Sound.join_black d y (Sound.red x hl hrt) hs)⟩, rfl⟩
  | red d y hs hC =>
    obtain ⟨d', g, u, cu, C, rfl, hu, hC⟩ := hC.of_red
    have hp := hr.record_above
    have hp0 : y.addr ≠ 0 := hr.nonnull y (by simp [outer])
    have hstop : ¬(y.addr = 0 ∨ isBlack h y.addr) := by
      rw [isBlack_record hp]
      simp [hp0]
    have hside : (if y.addr = (h g.addr).l then Side.left else .right) = d' := by
      have := hr.up.side_eq RBTree.join_ne_nil
      rwa [top_join] at this
    simp only [parentOf, if_neg hstop, p_record hp, hside]
    simp only [List.length_cons] at hfuel
    cases cu with
    | red =>
      -- both become black and the walk goes on at the grandparent
      obtain ⟨h', hrun, hr'⟩ := insertClimb_recolor fuel hr hu.color_eq
      obtain ⟨a, b, hjoin, ha, hb⟩ : ∃ a b, RBTree.join d' .red
          (.join d .black (.node .red l x r) y _) g u.blacken = .node .red a g b ∧
          Sound .black (n + 1) a ∧ Sound .black (n + 1) b := by
        have hin := Sound.join_black d y (Sound.red x hl hrt) hs
        cases d'
        · exact ⟨_, _, rfl, hin, hu.blacken_red⟩
        · exact ⟨_, _, rfl, hu.blacken_red, hin⟩
      rw [hjoin] at hr'
      obtain ⟨root', h'', t, hrun', ht, hsound, hlist⟩ :=
        ih fuel (Nat.lt_succ_self _) hr' hC ha hb (by omega)
      refine ⟨root', h'', t, hrun.trans hrun', ht, hsound, hlist.trans ?_⟩
      rw [← hjoin]
      refine toList_plug_congr C ?_
      cases d' <;> cases d <;> simp [Frame.fill, RBTree.join, RBTree.toList]
    | black =>
      obtain ⟨root', h', q, v, z, a, b, hrun, hr', ha, hb, hv, hlist⟩ :=
        insertClimb_rotate fuel hr hl hrt hs hu
      obtain ⟨root'', h'', t, hrun', ht, hsound, hlist'⟩ :=
        ih fuel (Nat.lt_succ_self _) hr' (Hole.black d' .black q hv hC) ha hb
          (by simp only [List.length_cons]; omega)
      exact ⟨root'', h'', t, hrun.trans hrun', ht, hsound, hlist'.trans hlist⟩

/-! ## The descent -/

/-- The labels are in strictly ascending order of their hashes. -/
def Sorted (t : RBTree IndexNode) : Prop :=
  t.toList.Pairwise fun x y => x.hash < y.hash

/-- The way of the searches: to the node with the hash, or to the missing child where it
belongs. -/
def descend (hash : UInt32) : List (Frame IndexNode) → RBTree IndexNode →
    List (Frame IndexNode) × RBTree IndexNode
  | C, .nil => (C, .nil)
  | C, .node c l x r =>
    if hash < x.hash then descend hash (⟨.left, c, x, r⟩ :: C) l
    else if x.hash < hash then descend hash (⟨.right, c, x, l⟩ :: C) r
    else (C, .node c l x r)

theorem top_node (c : Color) (l r : RBTree IndexNode) (x : IndexNode) :
    top (.node c l x r) = x.addr := rfl

section Descent

variable {h : Heap} {root p fuel : Nat} {C : List (Frame IndexNode)} {t : RBTree IndexNode}
  {hash : UInt32}

theorem plug_descend (hash : UInt32) (C : List (Frame IndexNode)) (t : RBTree IndexNode) :
    plug (descend hash C t).1 (descend hash C t).2 = plug C t := by
  fun_induction descend hash C t with
  | case1 C => rfl
  | case2 C c l x r hlt ih => exact ih
  | case3 C c l x r hlt hgt ih => exact ih
  | case4 C c l x r hlt hgt => rfl

/-- The descent ends at a missing child or at the node with the hash. -/
theorem hash_descend (hash : UInt32) (C : List (Frame IndexNode)) (t : RBTree IndexNode) :
    (descend hash C t).2 = .nil ∨
      ∃ c l x r, (descend hash C t).2 = .node c l x r ∧ x.hash = hash := by
  fun_induction descend hash C t with
  | case1 C => exact Or.inl rfl
  | case2 C c l x r hlt ih => exact ih
  | case3 C c l x r hlt hgt ih => exact ih
  | case4 C c l x r hlt hgt =>
    refine Or.inr ⟨c, l, x, r, rfl, ?_⟩
    exact UInt32.le_antisymm (UInt32.not_lt.1 hlt) (UInt32.not_lt.1 hgt)

/-- The labels in front of the position are smaller, those behind it are larger. -/
def Between (hash : UInt32) (C : List (Frame IndexNode)) : Prop :=
  (∀ x ∈ before C, x.hash < hash) ∧ ∀ x ∈ after C, hash < x.hash

theorem Between.start : Between hash [] :=
  ⟨fun _ hx => absurd hx List.not_mem_nil, fun _ hx => absurd hx List.not_mem_nil⟩

theorem between_descend (hC : Between hash C) (ht : Sorted t) :
    Between hash (descend hash C t).1 := by
  fun_induction descend hash C t with
  | case1 C => exact hC
  | case2 C c l x r hlt ih =>
    obtain ⟨hl, hr, hlr⟩ := List.pairwise_append.1 ht
    refine ih ⟨hC.1, fun y hy => ?_⟩ hl
    simp only [after, List.cons_append, List.mem_cons, List.mem_append] at hy
    rcases hy with rfl | hy | hy
    · exact hlt
    · exact UInt32.lt_trans hlt (List.rel_of_pairwise_cons hr hy)
    · exact hC.2 y hy
  | case3 C c l x r hlt hgt ih =>
    obtain ⟨hl, hr, hlr⟩ := List.pairwise_append.1 ht
    refine ih ⟨fun y hy => ?_, hC.2⟩ hr.of_cons
    simp only [before, List.append_assoc, List.mem_append, List.mem_cons, List.not_mem_nil,
      or_false] at hy
    rcases hy with hy | hy | rfl
    · exact hC.1 y hy
    · exact UInt32.lt_trans (hlr y hy x List.mem_cons_self) hgt
    · exact hgt
  | case4 C c l x r hlt hgt => exact hC

/-- `ecache_find` ends where the descent does. -/
theorem ecacheFind_descend (ht : Hangs h p t) (hnn : ∀ x ∈ t.toList, x.addr ≠ 0)
    (hfuel : t.depth < fuel) :
    ecacheFind hash h fuel (top t) = some (top (descend hash C t).2) := by
  obtain _ | fuel := fuel
  · exact absurd hfuel (Nat.not_lt_zero _)
  induction t generalizing fuel p C with
  | nil => rfl
  | node c l x r ihl ihr =>
    have hx0 : x.addr ≠ 0 := hnn x (by simp [RBTree.toList])
    have hdepth : max l.depth r.depth < fuel := Nat.lt_of_succ_lt_succ hfuel
    obtain _ | fuel := fuel
    · exact absurd hdepth (Nat.not_lt_zero _)
    have hstep : ecacheFind hash h (fuel + 2) x.addr =
        if hash < x.hash then ecacheFind hash h (fuel + 1) (top l)
        else if x.hash < hash then ecacheFind hash h (fuel + 1) (top r) else some x.addr := by
      rw [ecacheFind, if_neg hx0, ht.1]
      rfl
    rw [descend, top_node, hstep]
    by_cases hlt : hash < x.hash
    · rw [if_pos hlt, if_pos hlt]
      exact ihl ht.2.1 (fun y hy => hnn y (by simp [RBTree.toList, hy])) fuel (by omega)
    · by_cases hgt : x.hash < hash
      · rw [if_neg hlt, if_neg hlt, if_pos hgt, if_pos hgt]
        exact ihr ht.2.2 (fun y hy => hnn y (by simp [RBTree.toList, hy])) fuel (by omega)
      · rw [if_neg hlt, if_neg hlt, if_neg hgt, if_neg hgt]
        rfl

/-- So does the descent of `ecache_insert`; it remembers the last node it passed. -/
theorem insertPos_descend (ht : Hangs h p t) (hnn : ∀ x ∈ t.toList, x.addr ≠ 0)
    (hfuel : t.depth < fuel) :
    insertPos hash h fuel (top t) (parentOf C) = some
      (if (descend hash C t).2 = .nil then some (parentOf (descend hash C t).1) else none) := by
  obtain _ | fuel := fuel
  · exact absurd hfuel (Nat.not_lt_zero _)
  induction t generalizing fuel p C with
  | nil => rfl
  | node c l x r ihl ihr =>
    have hx0 : x.addr ≠ 0 := hnn x (by simp [RBTree.toList])
    have hdepth : max l.depth r.depth < fuel := Nat.lt_of_succ_lt_succ hfuel
    obtain _ | fuel := fuel
    · exact absurd hdepth (Nat.not_lt_zero _)
    have hstep : insertPos hash h (fuel + 2) x.addr (parentOf C) =
        if hash < x.hash then insertPos hash h (fuel + 1) (top l) x.addr
        else if x.hash < hash then insertPos hash h (fuel + 1) (top r) x.addr
        else some none := by
      rw [insertPos, if_neg hx0, ht.1]
      rfl
    rw [descend, top_node, hstep]
    by_cases hlt : hash < x.hash
    · rw [if_pos hlt, if_pos hlt]
      exact @ihl _ (⟨.left, c, x, r⟩ :: C) ht.2.1
        (fun y hy => hnn y (by simp [RBTree.toList, hy])) fuel (by omega)
    · by_cases hgt : x.hash < hash
      · rw [if_neg hlt, if_neg hlt, if_pos hgt, if_pos hgt]
        exact @ihr _ (⟨.right, c, x, l⟩ :: C) ht.2.2
          (fun y hy => hnn y (by simp [RBTree.toList, hy])) fuel (by omega)
      · rw [if_neg hlt, if_neg hlt, if_neg hgt, if_neg hgt]
        rfl

end Descent

/-! ## Insertion -/

/-- The position is on the side where the hash belongs. -/
theorem Between.side {hash : UInt32} {C : List (Frame IndexNode)} {f : Frame IndexNode}
    (hC : Between hash (f :: C)) : f.side = .left ↔ hash < f.label.hash := by
  obtain ⟨d, c, x, s⟩ := f
  cases d
  · exact ⟨fun _ => hC.2 x (by simp [after]), fun _ => rfl⟩
  · refine ⟨fun hside => Side.noConfusion hside, fun hlt => ?_⟩
    have hgt : x.hash < hash := hC.1 x (by simp [before])
    exact absurd (UInt32.lt_trans hlt hgt) (UInt32.lt_irrefl _)

/-- No node has the hash when its place is empty. -/
theorem Between.ne {hash : UInt32} {C : List (Frame IndexNode)} (hC : Between hash C) :
    ∀ x ∈ (plug C .nil).toList, x.hash ≠ hash := by
  intro x hx
  rw [toList_plug] at hx
  simp only [RBTree.toList, List.append_nil, List.mem_append] at hx
  rcases hx with hx | hx
  · exact UInt32.ne_of_lt (hC.1 x hx)
  · exact (UInt32.ne_of_lt (hC.2 x hx)).symm

/-- A node with the hash fits into the empty place. -/
theorem Between.sorted {hash : UInt32} {C : List (Frame IndexNode)} {z : IndexNode}
    (hC : Between hash C) (hs : Sorted (plug C .nil)) (hz : z.hash = hash) :
    (before C ++ (RBTree.node .red .nil z .nil).toList ++ after C).Pairwise
      fun x y => x.hash < y.hash := by
  rw [Sorted, toList_plug] at hs
  simp only [RBTree.toList, List.append_nil, List.nil_append] at hs ⊢
  obtain ⟨hbefore, hafter, hcross⟩ := List.pairwise_append.1 hs
  rw [List.append_assoc]
  refine List.pairwise_append.2 ⟨hbefore, List.pairwise_cons.2 ⟨fun y hy => ?_, hafter⟩, ?_⟩
  · exact hz ▸ hC.2 y hy
  · intro x hx y hy
    rcases List.mem_cons.1 hy with rfl | hy
    · exact hz ▸ hC.1 x hx
    · exact hcross x hx y hy

namespace Rep

variable {h : Heap} {root : Nat} {C : List (Frame IndexNode)} {z : IndexNode}

/-- A new node is linked in at a missing child. -/
theorem attach {h' : Heap} {root' : Nat} (hr : Rep h root C .nil)
    (hfresh : ∀ x ∈ outer C, x.addr ≠ z.addr) (hz0 : z.addr ≠ 0) (hroot : root' = rootOf C z.addr)
    (hz : h' z.addr = record .left .red (parentOf C) 0 0 z) (habove : Above h' C z.addr)
    (hsame : ∀ k, k ≠ z.addr → k ≠ parentOf C → h' k = h k) :
    Rep h' root' C (.node .red .nil z .nil) := by
  have hnd : ((outer C).map IndexNode.addr).Nodup := hr.nodup
  refine ⟨hroot, ⟨hz, trivial, trivial⟩, ?_, ?_, ?_⟩
  · exact hr.around.move hnd (fun x hx hxp => hsame _ (hfresh x hx) hxp) habove
  · show (z.addr :: (outer C).map IndexNode.addr).Nodup
    refine List.nodup_cons.2 ⟨fun hmem => ?_, hnd⟩
    obtain ⟨x, hx, heq⟩ := List.mem_map.1 hmem
    exact hfresh x hx heq
  · intro x hx
    rcases List.mem_cons.1 hx with rfl | hx
    · exact hz0
    · exact hr.nonnull x hx

end Rep

/-- `_fix_insert` restores the balance. -/
theorem fixInsert_sound {h : Heap} {root fuel : Nat} {C : List (Frame IndexNode)}
    {l r : RBTree IndexNode} {x : IndexNode} {n : Nat} (hr : Rep h root C (.node .red l x r))
    (hC : Hole C .black n) (hl : Sound .black n l) (hrt : Sound .black n r)
    (hfuel : C.length < fuel) :
    ∃ root' h' t k, fixInsert fuel root h x.addr = some (root', h') ∧ Rep h' root' [] t ∧
      Sound .black k t ∧ t.toList = (plug C (.node .red l x r)).toList := by
  obtain ⟨root', h', t, hrun, ht, ⟨c, k, hsound⟩, hlist⟩ := fixInsertLoop_sound hr hC hl hrt hfuel
  -- there is a root to paint, the inserted node is in the tree
  obtain _ | ⟨c', l', y, r'⟩ := t
  · rw [toList_plug] at hlist
    simp [RBTree.toList] at hlist
  · obtain ⟨k', hblack⟩ := hsound.blacken
    have hroot : root' = y.addr := ht.root_eq
    refine ⟨root', paint h' .black root', .node .black l' y r', k', ?_, ?_, hblack, hlist⟩
    · rw [fixInsert, hrun]
      rfl
    · rw [hroot] at ht ⊢
      exact Rep.paint (d := .left) ht .black

/-- The two type bits of a new node whose memory held the flags `flags`. -/
def newKind (flags : BitVec 3) (isDir : Bool) : BitVec 2 :=
  (flags ||| if isDir then ECACHE_DIR else ECACHE_FILE).extractLsb' 1 2

theorem flagsOf_newKind (flags : BitVec 3) (isDir : Bool) :
    flags &&& ~~~ECACHE_BLACK ||| (if isDir then ECACHE_DIR else ECACHE_FILE)
      = flagsOf .red (newKind flags isDir) := by
  cases isDir <;> revert flags <;> decide

/-- The tree at `root` is a valid index, and its nodes are `t`. -/
structure ValidIndex (h : Heap) (root : Nat) (t : RBTree IndexNode) : Prop where
  rep : Rep h root [] t
  sorted : Sorted t
  sound : ∃ n, Sound .black n t

namespace ValidIndex

variable {h h' : Heap} {root fuel : Nat} {t : RBTree IndexNode}

theorem empty : ValidIndex h 0 .nil :=
  ⟨⟨rfl, trivial, trivial, List.nodup_nil, fun _ hx => absurd hx List.not_mem_nil⟩,
    List.Pairwise.nil, 0, Sound.nil⟩

theorem nonnull (hv : ValidIndex h root t) : ∀ x ∈ t.toList, x.addr ≠ 0 := fun x hx =>
  hv.rep.nonnull x (by simp [hx])

/-- The depth is at most twice the logarithm of the number of nodes. -/
theorem depth_bound (hv : ValidIndex h root t) : t.depth ≤ 2 * Nat.log2 (t.size + 1) := by
  obtain ⟨n, hn⟩ := hv.sound
  exact hn.depth_bound

/-- A heap that has the same nodes holds the same index. -/
theorem congr (hv : ValidIndex h root t) (heq : ∀ x ∈ t.toList, h' x.addr = h x.addr) :
    ValidIndex h' root t :=
  ⟨⟨hv.rep.root_eq, hv.rep.inside.congr heq, trivial, hv.rep.nodup, hv.rep.nonnull⟩, hv.sorted,
    hv.sound⟩

/-- The search finds the node with the hash, and `0` when there is none. -/
theorem find (hv : ValidIndex h root t) (hash : UInt32) (hfuel : t.size < fuel) :
    (∃ x ∈ t.toList, x.hash = hash ∧ ecacheFind hash h fuel root = some x.addr) ∨
      ((∀ x ∈ t.toList, x.hash ≠ hash) ∧ ecacheFind hash h fuel root = some 0) := by
  have hrun : ecacheFind hash h fuel root = some (top (descend hash [] t).2) := by
    rw [hv.rep.root_eq]
    exact ecacheFind_descend hv.rep.inside hv.nonnull
      (Nat.lt_of_le_of_lt t.depth_le_size hfuel)
  have hplug : plug (descend hash [] t).1 (descend hash [] t).2 = t := plug_descend hash [] t
  rcases hash_descend hash [] t with hnil | ⟨c, l, x, r, hnode, hx⟩
  · refine Or.inr ⟨fun x hx => ?_, hrun.trans (by rw [hnil]; rfl)⟩
    have hbetween : Between hash (descend hash [] t).1 :=
      between_descend Between.start hv.sorted
    rw [← hplug, hnil] at hx
    exact hbetween.ne x hx
  · refine Or.inl ⟨x, ?_, hx, hrun.trans (by rw [hnode]; rfl)⟩
    rw [← hplug, hnode, toList_plug]
    simp [RBTree.toList]

end ValidIndex

/-- The new node is linked below the last node of the descent. -/
theorem link_new {h : Heap} {root z : Nat} {C : List (Frame IndexNode)} {hash : UInt32}
    (hr : Rep h root C .nil) (hC : Between hash C) :
    let y := parentOf C
    let r := if y = 0 then (z, h)
      else if hash < (h y).hash then (root, setL h y z) else (root, setR h y z)
    r.1 = rootOf C z ∧ Above r.2 C z ∧ ∀ k, k ≠ y → r.2 k = h k := by
  intro y r
  cases C with
  | nil =>
    refine ⟨rfl, ?_, fun k _ => rfl⟩
    intro f D heq
    cases heq
  | cons f C =>
    have hf := hr.record_above
    have hy0 : f.label.addr ≠ 0 := hr.nonnull f.label (by simp [outer])
    have hr' : r = (root, upd h f.label.addr
        (record f.side f.color (parentOf C) z (top f.sibling) f.label)) := by
      show (if f.label.addr = 0 then (z, h)
        else if hash < (h f.label.addr).hash then (root, setL h f.label.addr z)
        else (root, setR h f.label.addr z)) = _
      rw [if_neg hy0, hash_record hf]
      have hside := hC.side
      rcases f with ⟨d, c, x, s⟩
      cases d
      · rw [if_pos (hside.1 rfl)]
        exact congrArg (Prod.mk root) (setChild_record hf)
      · rw [if_neg fun hlt => Side.noConfusion (hside.2 hlt)]
        exact congrArg (Prod.mk root) (setChild_record hf)
    rw [hr']
    refine ⟨hr.root_eq, ?_, fun k hk => upd_ne hk⟩
    rintro g D heq
    cases heq
    exact upd_self

/-- An insertion without memory changes nothing. -/
theorem ecacheInsert_refused {m : Mount} {s : FS} (hz : m.malloc s.mallocs = 0)
    (fuel root : Nat) (hash : UInt32) (isDir : Bool) (ca : Nat) :
    ecacheInsert m fuel root hash isDir ca s
      = some (root, { s with mallocs := s.mallocs + 1 }) := by
  rw [ecacheInsert]
  exact if_pos hz

/-- An insertion keeps the index valid. It adds a node for the hash, or leaves the tree when the
hash is there. -/
theorem ecacheInsert_valid {m : Mount} {s : FS} {root fuel : Nat} {t : RBTree IndexNode}
    (hv : ValidIndex s.heap root t) (hz : m.malloc s.mallocs ≠ 0)
    (hfresh : ∀ x ∈ t.toList, x.addr ≠ m.malloc s.mallocs) (hash : UInt32) (isDir : Bool)
    (ca : Nat) (hfuel : t.size < fuel) :
    ∃ root' s' t', ecacheInsert m fuel root hash isDir ca s = some (root', s') ∧
      ValidIndex s'.heap root' t' ∧
      (((∃ x ∈ t.toList, x.hash = hash) ∧ t' = t) ∨
        ((∀ x ∈ t.toList, x.hash ≠ hash) ∧ ∃ pre post kind, t.toList = pre ++ post ∧
          t'.toList = pre ++ ⟨m.malloc s.mallocs, hash, ca, kind⟩ :: post)) := by
  generalize hzdef : m.malloc s.mallocs = z at hz hfresh ⊢
  let x : IndexNode := ⟨z, hash, ca, newKind ((s.heap z).flags) isDir⟩
  let h₁ : Heap := upd s.heap z (record .left .red 0 0 0 x)
  have hnew : upd s.heap z { p := 0, l := 0, r := 0, hash := hash, ca := ca
                             flags := (s.heap z).flags &&& ~~~ECACHE_BLACK |||
                               (if isDir then ECACHE_DIR else ECACHE_FILE) } = h₁ := by
    rw [flagsOf_newKind]
    rfl
  have hv₁ : ValidIndex h₁ root t := hv.congr fun y hy => upd_ne (hfresh y hy)
  have hpos : insertPos hash h₁ fuel root 0 = some
      (if (descend hash [] t).2 = .nil then some (parentOf (descend hash [] t).1) else none) := by
    rw [hv₁.rep.root_eq]
    exact insertPos_descend (C := []) hv₁.rep.inside hv.nonnull
      (Nat.lt_of_le_of_lt t.depth_le_size hfuel)
  have hplug : plug (descend hash [] t).1 (descend hash [] t).2 = t := plug_descend hash [] t
  have hbetween : Between hash (descend hash [] t).1 := between_descend Between.start hv.sorted
  rw [ecacheInsert]
  simp only [hzdef, if_neg hz, hnew, hpos]
  rcases hash_descend hash [] t with hnil | ⟨c, l, y, r, hnode, hy⟩
  · -- a missing child: the node is linked in and the balance restored
    rw [if_pos hnil]
    generalize (descend hash [] t).1 = C at hplug hbetween ⊢
    rw [hnil] at hplug
    subst hplug
    have houter : ∀ y ∈ outer C, y.addr ≠ z := fun y hy =>
      hfresh y ((perm_outer C .nil).mem_iff.2 hy)
    have h₁z : h₁ z = record .left .red 0 0 0 x := upd_self
    let h₂ := upd h₁ z (record .left .red (parentOf C) 0 0 x)
    have h₂eq : setP h₁ z (parentOf C) = h₂ := setP_record h₁z
    have hr₂ : Rep h₂ root C .nil := Rep.plug.1 (hv₁.congr fun y hy => upd_ne (hfresh y hy)).rep
    obtain ⟨hroot, habove, hsame⟩ := link_new (z := z) hr₂ hbetween
    simp only [h₂eq]
    generalize (if parentOf C = 0 then (z, h₂)
      else if hash < (h₂ (parentOf C)).hash then (root, setL h₂ (parentOf C) z)
      else (root, setR h₂ (parentOf C) z)) = r at hroot habove hsame ⊢
    have hzp : z ≠ parentOf C := ne_parentOf houter hz
    have hr₃ : Rep r.2 r.1 C (.node .red .nil x .nil) :=
      hr₂.attach houter hz hroot ((hsame z hzp).trans upd_self) habove fun k _ hkp => hsame k hkp
    obtain ⟨n, hn⟩ := hv.sound
    obtain ⟨c, k, hhole, hnilk⟩ := Hole.of_plug hn
    cases hnilk
    have hlen : C.length < fuel := by
      have hperm := (perm_outer C (.nil : RBTree IndexNode)).length_eq
      have := length_le_outer C
      simp only [RBTree.toList, List.nil_append] at hperm
      rw [RBTree.size, hperm] at hfuel
      omega
    obtain ⟨root', h', t', k', hrun, ht', hsound, hlist⟩ :=
      fixInsert_sound hr₃ hhole Sound.nil Sound.nil hlen
    have hrun' : fixInsert fuel r.1 r.2 z = some (root', h') := hrun
    rw [hrun']
    rw [toList_plug] at hlist
    refine ⟨root', _, t', rfl, ⟨ht', ?_, k', hsound⟩, Or.inr ⟨fun y hy => ?_, before C, after C,
      x.kind, ?_, ?_⟩⟩
    · rw [Sorted, hlist]
      exact hbetween.sorted hv.sorted rfl
    · exact hbetween.ne y hy
    · rw [toList_plug]; simp [RBTree.toList]
    · rw [hlist]; simp [RBTree.toList, x]
  · -- the hash is there: the new node is given back
    rw [if_neg (by rw [hnode]; exact RBTree.node_ne_nil)]
    refine ⟨root, _, t, rfl, hv₁, Or.inl ⟨⟨y, ?_, hy⟩, rfl⟩⟩
    rw [← hplug, hnode, toList_plug]
    simp [RBTree.toList]

/-! ## Sequences of insertions -/

/-- The heap holds the hash and the cluster of every node. -/
theorem Hangs.fields {h : Heap} {p : Nat} {t : RBTree IndexNode} (ht : Hangs h p t) :
    ∀ x ∈ t.toList, (h x.addr).hash = x.hash ∧ (h x.addr).ca = x.ca := by
  induction t generalizing p with
  | nil => exact fun _ hx => absurd hx List.not_mem_nil
  | node c l x r ihl ihr =>
    intro y hy
    simp only [RBTree.toList, List.mem_append, List.mem_cons] at hy
    rcases hy with hy | rfl | hy
    · exact ihl ht.2.1 y hy
    · exact ⟨hash_record ht.1, ca_record ht.1⟩
    · exact ihr ht.2.2 y hy

/-- The nodes that the links lead to from `root`. -/
inductive Live (h : Heap) (root : Nat) : (a : Nat) → Prop
  | root : root ≠ 0 → Live h root root
  | link (d : Side) {a : Nat} : Live h root a → child h d a ≠ 0 → Live h root (child h d a)

theorem Live.of_hangs {h : Heap} {root p : Nat} {t : RBTree IndexNode} (ht : Hangs h p t)
    (hnn : ∀ x ∈ t.toList, x.addr ≠ 0) (htop : t ≠ .nil → Live h root (top t)) :
    ∀ x ∈ t.toList, Live h root x.addr := by
  induction t generalizing p with
  | nil => exact fun _ hx => absurd hx List.not_mem_nil
  | node c l x r ihl ihr =>
    have hx : Live h root x.addr := htop RBTree.node_ne_nil
    have hchild : ∀ d s, child h d x.addr = top s → (∀ y ∈ s.toList, y.addr ≠ 0) → s ≠ .nil →
        Live h root (top s) := by
      intro d s hd hs hnil
      obtain ⟨y, hy, hytop⟩ := top_mem hnil
      rw [← hd]
      exact Live.link d hx (by rw [hd, ← hytop]; exact hs y hy)
    have hl : ∀ y ∈ l.toList, y.addr ≠ 0 := fun y hy => hnn y (by simp [RBTree.toList, hy])
    have hr : ∀ y ∈ r.toList, y.addr ≠ 0 := fun y hy => hnn y (by simp [RBTree.toList, hy])
    intro y hy
    simp only [RBTree.toList, List.mem_append, List.mem_cons] at hy
    rcases hy with hy | rfl | hy
    · exact ihl ht.2.1 hl (hchild .left l (child_record ht.1) hl) y hy
    · exact hx
    · exact ihr ht.2.2 hr (hchild .right r (child_opp_record ht.1) hr) y hy

theorem ValidIndex.live {h : Heap} {root : Nat} {t : RBTree IndexNode}
    (hv : ValidIndex h root t) : ∀ x ∈ t.toList, Live h root x.addr := by
  refine Live.of_hangs hv.rep.inside hv.nonnull fun hnil => ?_
  have hroot : root = top t := hv.rep.root_eq
  obtain ⟨x, hx, htop⟩ := top_mem hnil
  rw [← hroot]
  exact Live.root (by rw [hroot, ← htop]; exact hv.nonnull x hx)

/-- One call of `ecache_insert`. -/
structure InsertCall where
  hash : UInt32
  isDir : Bool
  ca : Nat

/-- The root that the caller passes on, the library, and the hash and the cluster of every
insertion so far that got its memory. -/
structure IndexState where
  root : Nat
  fs : FS
  made : List (UInt32 × Nat)

/-- The call on the root of the call before. -/
def InsertCall.exec (m : Mount) (c : InsertCall) (st : IndexState) (fuel : Nat) :
    Option IndexState :=
  (ecacheInsert m fuel st.root c.hash c.isDir c.ca st.fs).map fun (root, fs) =>
    { root := root, fs := fs
      made := if m.malloc st.fs.mallocs = 0 then st.made else st.made ++ [(c.hash, c.ca)] }

/-- The allocator gives out no memory that is in use. It may fail. -/
def MallocFresh (m : Mount) (st : IndexState) (_ : InsertCall) : Prop :=
  m.malloc st.fs.mallocs ≠ 0 → ¬ Live st.fs.heap st.root (m.malloc st.fs.mallocs)

/-- The index is a valid red-black tree of logarithmic depth, and `ecache_find` finds in it the
first insertion of every hash. -/
structure IndexState.Ok (st : IndexState) : Prop where
  valid : ∃ t, ValidIndex st.fs.heap st.root t ∧ t.depth ≤ 2 * Nat.log2 (t.size + 1)
  find : ∀ hash, Run.Ensures (fun fuel => ecacheFind hash st.fs.heap fuel st.root) fun a =>
    (a ≠ 0 ↔ ∃ ca, (hash, ca) ∈ st.made) ∧
      (a ≠ 0 → (st.fs.heap a).hash = hash ∧
        st.made.find? (fun e => e.1 = hash) = some (hash, (st.fs.heap a).ca))

/-- The nodes of the index are the first insertions. -/
structure IndexState.Holds (st : IndexState) (t : RBTree IndexNode) : Prop where
  valid : ValidIndex st.fs.heap st.root t
  first : ∀ x ∈ t.toList, st.made.find? (fun e => e.1 = x.hash) = some (x.hash, x.ca)
  all : ∀ e ∈ st.made, ∃ x ∈ t.toList, x.hash = e.1

namespace IndexState.Holds

variable {m : Mount} {st : IndexState} {t : RBTree IndexNode}

theorem ok (hst : st.Holds t) : st.Ok := by
  refine ⟨⟨t, hst.valid, hst.valid.depth_bound⟩, fun hash => ⟨t.size + 1, fun fuel hfuel => ?_⟩⟩
  rcases hst.valid.find hash hfuel with ⟨x, hx, rfl, hrun⟩ | ⟨hne, hrun⟩
  · have hfirst := hst.first x hx
    have hrec : (st.fs.heap x.addr).hash = x.hash ∧ (st.fs.heap x.addr).ca = x.ca :=
      hst.valid.rep.inside.fields x hx
    refine ⟨x.addr, hrun, ⟨fun _ => ⟨x.ca, List.mem_of_find?_eq_some hfirst⟩, fun _ => ?_⟩,
      fun _ => ⟨hrec.1, by rw [hrec.2]; exact hfirst⟩⟩
    exact hst.valid.nonnull x hx
  · refine ⟨0, hrun, ⟨fun h => absurd rfl h, ?_⟩, fun h => absurd rfl h⟩
    rintro ⟨ca, hmade⟩
    obtain ⟨x, hx, hxh⟩ := hst.all _ hmade
    exact absurd hxh (hne x hx)

/-- The list of the insertions grows with the tree. -/
theorem extend {t' : RBTree IndexNode} {z : Nat} {hash : UInt32} {ca : Nat} (hst : st.Holds t)
    (hcases : ((∃ x ∈ t.toList, x.hash = hash) ∧ t' = t) ∨
      ((∀ x ∈ t.toList, x.hash ≠ hash) ∧ ∃ pre post kind, t.toList = pre ++ post ∧
        t'.toList = pre ++ ⟨z, hash, ca, kind⟩ :: post)) :
    (∀ x ∈ t'.toList, (st.made ++ [(hash, ca)]).find? (fun e => e.1 = x.hash)
        = some (x.hash, x.ca)) ∧
      ∀ e ∈ st.made ++ [(hash, ca)], ∃ x ∈ t'.toList, x.hash = e.1 := by
  have hkeep : ∀ x ∈ t.toList, (st.made ++ [(hash, ca)]).find? (fun e => e.1 = x.hash)
      = some (x.hash, x.ca) := fun x hx => by
    rw [List.find?_append, hst.first x hx]
    rfl
  rcases hcases with ⟨⟨y, hy, hyh⟩, rfl⟩ | ⟨hnew, pre, post, kind, hlist, hlist'⟩
  · refine ⟨hkeep, fun e he => ?_⟩
    rcases List.mem_append.1 he with he | he
    · exact hst.all e he
    · obtain rfl := List.mem_singleton.1 he
      exact ⟨y, hy, hyh⟩
  · have hmem : ∀ x, x ∈ t'.toList ↔ x = ⟨z, hash, ca, kind⟩ ∨ x ∈ t.toList := fun x => by
      rw [hlist, hlist']
      simp only [List.mem_append, List.mem_cons]
      tauto
    -- no earlier insertion had the hash
    have hnone : st.made.find? (fun e => e.1 = hash) = none := by
      refine List.find?_eq_none.2 fun e he heq => ?_
      obtain ⟨x, hx, hxh⟩ := hst.all e he
      exact hnew x hx (hxh.trans (of_decide_eq_true heq))
    refine ⟨fun x hx => ?_, fun e he => ?_⟩
    · rcases (hmem x).1 hx with rfl | hx
      · rw [List.find?_append, hnone]
        simp
      · exact hkeep x hx
    · rcases List.mem_append.1 he with he | he
      · obtain ⟨x, hx, hxh⟩ := hst.all e he
        exact ⟨x, (hmem x).2 (Or.inr hx), hxh⟩
      · obtain rfl := List.mem_singleton.1 he
        exact ⟨_, (hmem _).2 (Or.inl rfl), rfl⟩

/-- One insertion. -/
theorem insert (hst : st.Holds t) (c : InsertCall) (hfresh : MallocFresh m st c) :
    Run.Ensures (c.exec m st) fun st' => ∃ t', st'.Holds t' := by
  refine ⟨t.size + 1, fun fuel hfuel => ?_⟩
  rw [InsertCall.exec]
  by_cases hz : m.malloc st.fs.mallocs = 0
  · rw [ecacheInsert_refused hz, if_pos hz]
    exact ⟨_, rfl, t, hst.valid, hst.first, hst.all⟩
  · have hnot : ∀ x ∈ t.toList, x.addr ≠ m.malloc st.fs.mallocs := fun x hx heq =>
      hfresh hz (heq ▸ hst.valid.live x hx)
    obtain ⟨root', s', t', hrun, hv', hcases⟩ :=
      ecacheInsert_valid hst.valid hz hnot c.hash c.isDir c.ca hfuel
    rw [hrun, if_neg hz]
    obtain ⟨hfirst, hall⟩ := hst.extend hcases
    exact ⟨_, rfl, t', hv', hfirst, hall⟩

end IndexState.Holds

/-- Every sequence of insertions into an empty index, also when allocations fail, keeps it a valid
red-black tree in which every hash is found with the cluster of its first insertion. -/
theorem index_insertions_valid (m : Mount) (s : FS) (calls : List InsertCall) :
    Run.Always (MallocFresh m) (InsertCall.exec m) IndexState.Ok calls ⟨0, s, []⟩ := by
  refine Run.Always.of_invariant (fun st => ∃ t, st.Holds t) ?_ ?_ calls
    ⟨.nil, ValidIndex.empty, fun _ hx => absurd hx List.not_mem_nil,
      fun _ he => absurd he List.not_mem_nil⟩
  · rintro st ⟨t, ht⟩
    exact ht.ok
  · rintro st c ⟨t, ht⟩ hfresh
    exact ht.insert c hfresh

end NiFat32
