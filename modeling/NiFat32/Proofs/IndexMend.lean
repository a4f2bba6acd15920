import NiFat32.Proofs.IndexInsert

/-!
# `Proofs.IndexMend`: the fix-up after a deletion

`_fix_delete` is called for a place that has lost a black node. Its loop moves the loss up until
a recolouring or a rotation makes up for it; `fixDeleteLoop_sound` carries that through the loop,
whose two mirrored halves are `blackSibling` and `deleteClimb` for the two sides.

The loop reads the fields of the sibling without a test for `NULL`. `fixDeleteSiblings` lists the
siblings that it reads. At a place that has lost a black node none of them is missing.
-/

set_option autoImplicit false

namespace NiFat32

open RedBlack Heap

/-! ## The fix-up -/

/-- The end of the loop body of `_fix_delete`, for a subtree on the side `d` of its parent: the
far child of the sibling `w` is red. -/
def deleteRotate (d : Side) (root : Nat) (h : Heap) (parent w : Nat) : Nat × Heap :=
  let h := if w = 0 then h else if isRed h parent then paint h .red w else paint h .black w
  let h := paint h .black parent
  let h := if w = 0 ∨ child h d.opp w = 0 then h else paint h .black (child h d.opp w)
  rotate d root h parent

/-- The loop body behind the case of a red sibling. -/
def deleteClimb (d : Side) (fuel root : Nat) (h : Heap) (parent w : Nat) :
    Option (Nat × Nat × Heap) :=
  if childBlack h (child h d w) ∧ childBlack h (child h d.opp w) then
    let h := paint h .red w
    fixDeleteLoop fuel root h parent (h parent).p
  else
    let (w, root, h) :=
      if childBlack h (child h d.opp w) then
        let h := if child h d w = 0 then h else paint h .black (child h d w)
        let (root, h) := rotate d.opp root (paint h .red w) w
        (child h d.opp parent, root, h)
      else (w, root, h)
    let (root, h) := deleteRotate d root h parent w
    some (root, root, h)

/-- The sibling after the case of a red sibling. -/
def blackSibling (d : Side) (root : Nat) (h : Heap) (parent : Nat) : Nat × Nat × Heap :=
  let w := child h d.opp parent
  if isRed h w then
    let (root, h) := rotate d root (paint (paint h .black w) .red parent) parent
    (child h d.opp parent, root, h)
  else (w, root, h)

/-- The side of `x` below its parent, as the loop determines it. -/
def sideOf (h : Heap) (x parent : Nat) : Side := if x = (h parent).l then .left else .right

theorem fixDeleteLoop_succ (fuel root : Nat) (h : Heap) (x parent : Nat) :
    fixDeleteLoop (fuel + 1) root h x parent =
      if x = root ∨ ¬ childBlack h x then some (x, root, h)
      else
        let d := sideOf h x parent
        let r := blackSibling d root h parent
        deleteClimb d fuel r.2.1 r.2.2 parent r.1 := by
  rw [sideOf]
  by_cases hdone : x = root ∨ ¬ childBlack h x
  · rw [if_pos hdone]
    exact if_pos hdone
  · rw [if_neg hdone]
    refine (if_neg hdone).trans ?_
    by_cases hside : x = (h parent).l
    · simp only [if_pos hside]
      rfl
    · simp only [if_neg hside]
      rfl

/-- The addresses that the loop of `_fix_delete` reads as the sibling `w`, pass by pass: before
and after the case of a red sibling. -/
def fixDeleteSiblings : (fuel root : Nat) → Heap → (x parent : Nat) → List Nat
  | 0, _, _, _, _ => []
  | fuel + 1, root, h, x, parent =>
    if x = root ∨ ¬ childBlack h x then []
    else
      let d := sideOf h x parent
      let (w, root, h') := blackSibling d root h parent
      child h d.opp parent :: w ::
        if childBlack h' (child h' d w) ∧ childBlack h' (child h' d.opp w) then
          let h' := paint h' .red w
          fixDeleteSiblings fuel root h' parent (h' parent).p
        else []

namespace Rep

variable {h : Heap} {root p : Nat} {C : List (Frame IndexNode)} {f : Frame IndexNode}
  {t s : RBTree IndexNode} {d : Side} {c : Color} {x : IndexNode}

theorem top_ne_zero (hr : Rep h root C t) (ht : t ≠ .nil) : top t ≠ 0 := by
  obtain ⟨y, hy, htop⟩ := top_mem ht
  rw [← htop]
  exact hr.nonnull y (by simp [hy])

/-- The position moves over to the sibling. -/
theorem across (hr : Rep h root (⟨d, c, x, s⟩ :: C) t) :
    Rep h root (⟨d.opp, c, x, t⟩ :: C) s := hr.up.flip.down

/-- A red subtree is painted black. -/
theorem blacken (hr : Rep h root C t) (hred : t.color = .red) :
    Rep (Heap.paint h .black (top t)) root C t.blacken := by
  obtain _ | ⟨c, l, x, r⟩ := t
  · exact absurd hred (by decide)
  · exact Rep.paint (d := .left) hr .black

end Rep

section Passes

variable {h : Heap} {root fuel n : Nat} {C : List (Frame IndexNode)}
  {t b e : RBTree IndexNode} {d : Side} {c : Color} {x w : IndexNode}

/-- The last rotation of the fix-up. -/
theorem deleteRotate_rep (hr : Rep h root (⟨d, c, x, .join d .black b w e⟩ :: C) t)
    (he : e.color = .red) :
    Rep (deleteRotate d root h x.addr w.addr).2 (deleteRotate d root h x.addr w.addr).1 C
      (.join d c (.join d .black t x b) w e.blacken) := by
  have hw0 : w.addr ≠ 0 := by
    have := hr.across.top_ne_zero RBTree.join_ne_nil
    rwa [top_join] at this
  have hx := hr.record_above
  -- the sibling takes the colour of the parent, the parent becomes black
  have hcolor : (if isRed h x.addr then paint h .red w.addr else paint h .black w.addr)
      = paint h c w.addr := by
    cases c
    · exact if_pos ((isRed_record hx).mpr rfl)
    · exact if_neg fun hred => Color.noConfusion ((isRed_record hx).mp hred)
  have hparent : Rep (paint (paint h c w.addr) .black x.addr) root (⟨d.opp, .black, x, t⟩ :: C)
      (.join d c b w e) := ((hr.across.paint c).up.paint .black).down
  -- the far child becomes black
  have hfar : child (paint (paint h c w.addr) .black x.addr) d.opp w.addr = top e :=
    child_opp_record hparent.record_eq
  have hpainted := (hparent.flip.down.blacken he).up.flip.up.flip
  rw [Side.opp_opp] at hpainted
  have htop : top e ≠ 0 := hparent.flip.down.top_ne_zero (RBTree.ne_nil_of_red he)
  have hrun : deleteRotate d root h x.addr w.addr = rotate d root
      (paint (paint (paint h c w.addr) .black x.addr) .black (top e)) x.addr := by
    rw [deleteRotate]
    simp only [if_neg hw0, hcolor, hfar, if_neg (not_or.mpr ⟨hw0, htop⟩)]
  rw [hrun]
  exact hpainted.rotate

/-- The inner rotation: the near child of the sibling is red, the far one is black. -/
theorem rotateSibling_rep {b₁ b₂ : RBTree IndexNode} {y : IndexNode}
    (hr : Rep h root (⟨d, c, x, .join d .black (.join d .red b₁ y b₂) w e⟩ :: C) t) :
    let h' := paint (paint h .black y.addr) .red w.addr
    child h d w.addr = y.addr ∧
      Rep (rotate d.opp root h' w.addr).2 (rotate d.opp root h' w.addr).1
        (⟨d, c, x, .join d .black b₁ y (.join d .red b₂ w e)⟩ :: C) t := by
  intro h'
  have hnear : Rep h root (⟨d, .black, w, e⟩ :: ⟨d.opp, c, x, t⟩ :: C) (.join d .red b₁ y b₂) :=
    hr.across.down
  have hchild : child h d w.addr = y.addr := by
    have := child_record hnear.record_above
    rwa [top_join] at this
  have hpainted := ((hnear.paint .black).up.paint .red).flip
  rw [← RBTree.join_opp d .black b₂ b₁ y] at hpainted
  have hrot := hpainted.rotate
  rw [RBTree.join_opp, RBTree.join_opp] at hrot
  have hback := hrot.across
  rw [Side.opp_opp] at hback
  exact ⟨hchild, hback⟩

/-- A red sibling is rotated above the parent. -/
theorem blackSibling_red (hr : Rep h root (⟨d, .black, x, .join d .red b w e⟩ :: C) t) :
    let r := blackSibling d root h x.addr
    child h d.opp x.addr = w.addr ∧ r.1 = top b ∧
      Rep r.2.2 r.2.1 (⟨d, .red, x, b⟩ :: ⟨d, .black, w, e⟩ :: C) t := by
  intro r
  have hw : child h d.opp x.addr = w.addr := by
    have := child_opp_record hr.record_above
    rwa [top_join] at this
  have hred : isRed h w.addr := (isRed_record hr.across.record_eq).mpr rfl
  have hpainted := ((hr.across.paint .black).up.paint .red).flip
  rw [Side.opp_opp] at hpainted
  have hrot := hpainted.rotate.down
  have hr' : r = (child (rotate d root (paint (paint h .black w.addr) .red x.addr) x.addr).2
        d.opp x.addr,
      (rotate d root (paint (paint h .black w.addr) .red x.addr) x.addr).1,
      (rotate d root (paint (paint h .black w.addr) .red x.addr) x.addr).2) := by
    show blackSibling d root h x.addr = _
    rw [blackSibling]
    simp only [hw, if_pos hred]
  rw [hr']
  exact ⟨hw, child_opp_record hrot.record_eq, hrot.down⟩

/-- A black sibling stays where it is. -/
theorem blackSibling_black {s : RBTree IndexNode} (hr : Rep h root (⟨d, c, x, s⟩ :: C) t)
    (hs : s ≠ .nil) (hblack : s.color = .black) :
    child h d.opp x.addr = top s ∧ blackSibling d root h x.addr = (top s, root, h) := by
  have hw : child h d.opp x.addr = top s := child_opp_record hr.record_above
  have hred : ¬ isRed h (top s) := by
    intro hred
    have hcol := (isRed_top hr.across.inside fun y hy => hr.across.nonnull y (by simp [hy])).1
      ⟨hr.across.top_ne_zero hs, hred⟩
    rw [hblack] at hcol
    exact Color.noConfusion hcol
  refine ⟨hw, ?_⟩
  rw [blackSibling]
  simp only [hw, if_neg hred]

end Passes

/-! ## The loop -/

namespace Rep

variable {h : Heap} {root : Nat} {C : List (Frame IndexNode)} {f : Frame IndexNode}
  {t s : RBTree IndexNode} {d : Side} {c : Color} {x : IndexNode}

theorem rootOf_mem (f : Frame IndexNode) (C : List (Frame IndexNode)) (a : Nat) :
    ∃ z ∈ outer (f :: C), z.addr = rootOf (f :: C) a := by
  induction C generalizing f a with
  | nil => exact ⟨f.label, by simp [outer], rfl⟩
  | cons g C ih =>
    obtain ⟨z, hz, heq⟩ := ih g f.label.addr
    exact ⟨z, by simp [outer] at hz ⊢; tauto, heq⟩

/-- Only the whole tree has its root at `*root`. -/
theorem top_ne_root (hr : Rep h root (f :: C) t) : top t ≠ root := by
  obtain ⟨z, hz, heq⟩ := rootOf_mem f C (top t)
  have hnd := hr.nodup
  simp only [List.map_append, List.nodup_append, List.mem_map] at hnd
  rw [hr.root_eq, ← heq]
  refine (ne_top (fun y hy heq' => ?_) (hr.nonnull z (by simp [hz]))).symm
  exact hnd.2.2 _ ⟨y, hy, rfl⟩ _ ⟨z, hz, rfl⟩ heq'

/-- The end of `_fix_delete`: the node at the position is painted black, if there is one. -/
theorem blackened (hr : Rep h root C t) :
    Rep (if top t = 0 then h else setBlack h (top t)) root C t.blacken := by
  obtain _ | ⟨c, l, x, r⟩ := t
  · exact hr
  · rw [if_neg (hr.top_ne_zero RBTree.node_ne_nil)]
    exact Rep.paint (d := .left) hr .black

/-- A node with a sibling is on the side of its position, also when it is missing. -/
theorem sideOf_eq (hr : Rep h root (⟨d, c, x, s⟩ :: C) t) (hs : s ≠ .nil) :
    sideOf h (top t) x.addr = d := by
  have hne : top t ≠ top s := (hr.across.ne_sibling hs).symm
  have hx := hr.record_above
  rw [sideOf, hx]
  cases d
  · exact if_pos rfl
  · exact if_neg hne

theorem childBlack_child (hr : Rep h root C (.join d c t x s)) :
    childBlack h (child h d x.addr) ↔ t.color = .black := by
  rw [child_record hr.record_eq]
  exact childBlack_top hr.down.inside fun y hy => hr.down.nonnull y (by simp [hy])

theorem childBlack_child_opp (hr : Rep h root C (.join d c t x s)) :
    childBlack h (child h d.opp x.addr) ↔ s.color = .black := hr.flip.childBlack_child

end Rep

/-- The result of the loop, after the last paint of `_fix_delete`: a sound tree with the nodes
`l`. -/
def Mended (o : Option (Nat × Nat × Heap)) (l : List IndexNode) : Prop :=
  ∃ r t k, o = some r ∧ Rep (if r.1 = 0 then r.2.2 else setBlack r.2.2 r.1) r.2.1 [] t ∧
    Sound .black k t ∧ t.toList = l

/-- The subtree at the position lacks one black node on every path, or its red root is going to
be painted black. -/
def Lacks (n : Nat) (t : RBTree IndexNode) : Prop :=
  Sound .black n t ∨ t.color = .red ∧ Sound .black (n + 1) t.blacken

section Loop

variable {h : Heap} {root fuel n : Nat} {C : List (Frame IndexNode)}
  {t s b e : RBTree IndexNode} {d : Side} {c : Color} {x w : IndexNode}

/-- The loop stops at the node at the position. -/
theorem Mended.stop {k : Nat} (hr : Rep h root C t) (ht : Sound .black k (plug C t.blacken)) :
    Mended (some (top t, root, h)) (plug C t).toList :=
  ⟨_, _, k, rfl, Rep.plug.2 hr.blackened, ht, toList_plug_congr C (RBTree.toList_blacken t)⟩

/-- The loop stops at the root. -/
theorem Mended.finish {k : Nat} (hr : Rep h root C t) (ht : Sound .black k (plug C t)) :
    Mended (some (root, root, h)) (plug C t).toList := by
  have hroot : root = top (plug C t) := (Rep.plug.2 hr).root_eq
  have hstop := Mended.stop (C := []) (Rep.plug.2 hr) (by rw [plug, ht.blacken_black]; exact ht)
  rwa [← hroot] at hstop

/-- What the loop reads as siblings when it goes on at the parent. -/
def climbSiblings (d : Side) (fuel root : Nat) (h : Heap) (parent w : Nat) : List Nat :=
  if childBlack h (child h d w) ∧ childBlack h (child h d.opp w) then
    let h := paint h .red w
    fixDeleteSiblings fuel root h parent (h parent).p
  else []

theorem fixDeleteSiblings_succ (fuel root : Nat) (h : Heap) (x parent : Nat) :
    fixDeleteSiblings (fuel + 1) root h x parent =
      if x = root ∨ ¬ childBlack h x then []
      else
        let d := sideOf h x parent
        let r := blackSibling d root h parent
        child h d.opp parent :: r.1 :: climbSiblings d fuel r.2.1 r.2.2 parent r.1 := rfl

/-- The case of a black sibling. `hup` is the rest of the loop, for a position one level up. -/
theorem deleteClimb_sound (fuel : Nat) (hr : Rep h root (⟨d, c, x, s⟩ :: C) t)
    (hC : Hole (⟨d, c, x, s⟩ :: C) .black (n + 1)) (ht : Sound .black n t)
    (hs : Sound .black (n + 1) s)
    (hup : ∀ {h n t}, Rep h root C t → Hole C .black (n + 1) → Lacks n t → t.color = c →
      Mended (fixDeleteLoop fuel root h (top t) (parentOf C)) (plug C t).toList ∧
        0 ∉ fixDeleteSiblings fuel root h (top t) (parentOf C)) :
    Mended (deleteClimb d fuel root h x.addr (top s)) (plug C (.join d c t x s)).toList ∧
      0 ∉ climbSiblings d fuel root h x.addr (top s) := by
  obtain ⟨b, w, e, cb, ce, rfl, hb, he⟩ := hs.split_black d
  have hnear := hr.across.childBlack_child
  have hfar := hr.across.childBlack_child_opp
  rw [hb.color_eq] at hnear
  rw [he.color_eq] at hfar
  rw [top_join, deleteClimb, climbSiblings]
  have hdone : ∀ {b' e' : RBTree IndexNode} {y : IndexNode}, Sound .black (n + 1) b' →
      Sound .black (n + 1) e' → ∃ k, Sound .black k (plug C (.join d c b' y e')) :=
    fun hb' he' => (hC.relabel he').plug hb'
  by_cases hboth : cb = .black ∧ ce = .black
  · -- both children are black: the sibling becomes red and the parent lacks the black node
    obtain ⟨rfl, rfl⟩ := hboth
    simp only [if_pos (And.intro (hnear.2 rfl) (hfar.2 rfl))]
    have hred := (hr.across.paint .red).across.up
    rw [Side.opp_opp] at hred
    rw [p_record hred.record_eq]
    have hw := Sound.join_red d w hb he
    have hlist : (plug C (.join d c t x (.join d .red b w e))).toList
        = (plug C (.join d c t x (.join d .black b w e))).toList :=
      toList_plug_congr C (by cases d <;> rfl)
    rw [← hlist]
    cases hC with
    | red d x _ hC =>
      have hlow : Lacks n (.join d .red t x (.join d .red b w e)) :=
        Or.inr ⟨RBTree.color_join .., by
          have := Sound.join_black d x ht hw
          cases d <;> exact this⟩
      have := hup hred hC.toBlack hlow (RBTree.color_join ..)
      rwa [top_join] at this
    | black d c x _ hC =>
      have := hup hred hC (Or.inl (Sound.join_black d x ht hw)) (RBTree.color_join ..)
      rwa [top_join] at this
  · have hnot : ¬(childBlack h (child h d w.addr) ∧ childBlack h (child h d.opp w.addr)) := by
      rw [hnear, hfar]
      exact hboth
    simp only [if_neg hnot]
    refine ⟨?_, List.not_mem_nil⟩
    cases ce with
    | red =>
      -- the far child is red
      have hne : ¬ childBlack h (child h d.opp w.addr) := by
        rw [hfar]
        exact Color.noConfusion
      obtain ⟨k, hk⟩ := hdone (y := w) (Sound.join_black d x ht hb) he.blacken_red
      have hfin := Mended.finish (deleteRotate_rep hr he.color_eq) hk
      simp only [if_neg hne]
      have hlist : (plug C (.join d c (.join d .black t x b) w e.blacken)).toList
          = (plug C (.join d c t x (.join d .black b w e))).toList := by
        refine toList_plug_congr C ?_
        cases d <;> simp [RBTree.join, RBTree.toList]
      rwa [hlist] at hfin
    | black =>
      -- the near child is red and is rotated above the sibling first
      obtain rfl : cb = .red := by
        cases cb
        · rfl
        · exact absurd ⟨rfl, rfl⟩ hboth
      obtain ⟨b₁, y, b₂, rfl, hb₁, hb₂⟩ := hb.split_red d
      obtain ⟨hchild, hrot⟩ := rotateSibling_rep hr
      have hy0 : y.addr ≠ 0 := by
        have := hr.across.down.top_ne_zero RBTree.join_ne_nil
        rwa [top_join] at this
      have hw : child (rotate d.opp root (paint (paint h .black y.addr) .red w.addr) w.addr).2
          d.opp x.addr = y.addr := by
        have := child_opp_record hrot.record_above
        rwa [top_join] at this
      simp only [hchild, if_neg hy0, if_pos (hfar.2 rfl)]
      have hfin := deleteRotate_rep hrot (by rw [RBTree.color_join])
      have hblack : Sound .black (n + 1) (RBTree.join d .red b₂ w e).blacken :=
        (Sound.join_red d w hb₂ he).blacken_red
      obtain ⟨k, hk⟩ := hdone (y := y) (Sound.join_black d x ht hb₁) hblack
      have hfin := Mended.finish hfin hk
      have hlist : (plug C (.join d c (.join d .black t x b₁) y
            (RBTree.join d .red b₂ w e).blacken)).toList
          = (plug C (.join d c t x (.join d .black (.join d .red b₁ y b₂) w e))).toList := by
        refine toList_plug_congr C ?_
        cases d <;> simp [RBTree.join, RBTree.toList]
      rw [hlist] at hfin
      have hw' := hw
      simp only [paint] at hw' hfin ⊢
      rw [hw']
      exact hfin

theorem fixDeleteLoop_sound (hr : Rep h root C t) (hC : Hole C .black (n + 1))
    (ht : Lacks n t) (hpos : 0 < fuel) (hfuel : t.color = .black → C.length + 1 < fuel) :
    Mended (fixDeleteLoop fuel root h (top t) (parentOf C)) (plug C t).toList ∧
      0 ∉ fixDeleteSiblings fuel root h (top t) (parentOf C) := by
  induction fuel generalizing h root C t n with
  | zero => exact absurd hpos (Nat.lt_irrefl 0)
  | succ fuel ih =>
  rw [fixDeleteLoop_succ, fixDeleteSiblings_succ]
  have hcolor : childBlack h (top t) ↔ t.color = .black :=
    childBlack_top hr.inside fun y hy => hr.nonnull y (by simp [hy])
  rcases ht with ht | ⟨hred, ht⟩
  · have hblack := ht.color_eq
    have hlen := hfuel hblack
    obtain _ | ⟨⟨d, c, x, s⟩, C⟩ := C
    · have hroot : top t = root ∨ ¬ childBlack h (top t) := Or.inl hr.root_eq.symm
      simp only [if_pos hroot]
      exact ⟨Mended.stop hr (by rw [plug, ht.blacken_black]; exact ht), List.not_mem_nil⟩
    · simp only [List.length_cons] at hlen
      have hgo : ¬(top t = root ∨ ¬ childBlack h (top t)) := by
        rw [hcolor, hblack]
        simp [hr.top_ne_root]
      obtain ⟨c', hs, hparent⟩ := hC.sibling
      have hsnil : s ≠ .nil := hs.ne_nil
      simp only [if_neg hgo, parentOf, hr.sideOf_eq hsnil]
      cases c' with
      | black =>
        obtain ⟨hw, hsib⟩ := blackSibling_black hr hsnil hs.color_eq
        have hw0 := hr.across.top_ne_zero hsnil
        obtain ⟨hm, hread⟩ := deleteClimb_sound fuel hr hC ht hs fun hr hC ht _ =>
          ih hr hC ht (by omega) fun _ => by omega
        rw [hsib, hw]
        refine ⟨hm, ?_⟩
        simp [hw0.symm, hread]
      | red =>
        -- the sibling moves above the parent, which becomes red
        obtain ⟨rfl, habove⟩ := hparent rfl
        obtain ⟨b, w, e, rfl, hb, he⟩ := hs.split_red d
        obtain ⟨hw, hb', hrot⟩ := blackSibling_red hr
        have hw0 := hr.across.top_ne_zero RBTree.join_ne_nil
        have hb0 := hrot.across.top_ne_zero hb.ne_nil
        rw [top_join] at hw0
        generalize blackSibling d root h x.addr = r at hb' hrot ⊢
        obtain ⟨hm, hread⟩ := deleteClimb_sound fuel hrot
          (Hole.red d x hb (Hole.black d .red w he habove)) ht hb fun hr hC ht hcol =>
            ih hr hC ht (by omega) fun hblack => absurd (hcol.symm.trans hblack) Color.noConfusion
        rw [hb', hw]
        have hlist : (plug (⟨d, .black, w, e⟩ :: C) (.join d .red t x b)).toList
            = (plug (⟨d, .black, x, .join d .red b w e⟩ :: C) t).toList := by
          refine toList_plug_congr C ?_
          cases d <;> simp [Frame.fill, RBTree.join, RBTree.toList]
        rw [← hlist]
        refine ⟨hm, ?_⟩
        simp [hw0.symm, hb0.symm, hread]
  · -- a red node
    have hstop : top t = root ∨ ¬ childBlack h (top t) := by
      rw [hcolor, hred]
      exact Or.inr Color.noConfusion
    simp only [if_pos hstop]
    obtain ⟨k, hk⟩ := hC.plug ht
    exact ⟨Mended.stop hr hk, List.not_mem_nil⟩

end Loop

end NiFat32
