import NiFat32.Core.Ecache
import NiFat32.Lib.RedBlack

/-!
# `Proofs.IndexTree`: the index in the heap is a red-black tree

`Rep h root C t` reads the heap as a tree with a position in it: the subtree `t` hangs at the
position `C`, every node is where its label says, its parent link matches the child link that
leads to it, and no address is used twice. `Rep.fill` moves the position, and each primitive of
`ecache.c` has one lemma: `Rep.paint` for the colour macros, `Rep.rotate` for the rotations,
`Rep.transplant` for `_transplant`.

The two rotations and the two halves of the fix-up loops differ in the sides only. `rotate` is
both rotations.
-/

set_option autoImplicit false

namespace NiFat32

open RedBlack Heap

/-! ## Labels and records -/

/-- A node of the index: its address and what it holds besides its links and its colour. `kind`
is the bits `ECACHE_FILE` and `ECACHE_DIR`. -/
structure IndexNode where
  addr : Nat
  hash : UInt32
  ca : Nat
  kind : BitVec 2
  deriving DecidableEq

/-- The flags of a node. -/
def flagsOf (c : Color) (kind : BitVec 2) : BitVec 3 :=
  kind ++ (match c with | .red => 0#1 | .black => 1#1)

/-- The record of a node with the child `a` on the side `d` and `b` on the other one. -/
def record (d : Side) (c : Color) (p a b : Nat) (x : IndexNode) : EcacheNode :=
  match d with
  | .left => ⟨p, a, b, flagsOf c x.kind, x.hash, x.ca⟩
  | .right => ⟨p, b, a, flagsOf c x.kind, x.hash, x.ca⟩

namespace Heap

variable (h : Heap)

/-- The child on the side `d`. -/
def child (d : Side) (a : Nat) : Nat :=
  match d with
  | .left => (h a).l
  | .right => (h a).r

/-- The node at `a` gets the child `v` on the side `d`. -/
def setChild (d : Side) (a v : Nat) : Heap :=
  match d with
  | .left => setL h a v
  | .right => setR h a v

/-- The colour macros: the node at `a` gets the colour `c`. -/
def paint (c : Color) (a : Nat) : Heap :=
  match c with
  | .red => setRed h a
  | .black => setBlack h a

end Heap

section Record

variable {h : Heap} {d : Side} {c : Color} {p a b k : Nat} {x : IndexNode}

theorem child_record (hk : h k = record d c p a b x) : child h d k = a := by
  cases d <;> simp [child, hk, record]

theorem child_opp_record (hk : h k = record d c p a b x) : child h d.opp k = b := by
  cases d <;> simp [child, hk, record, Side.opp]

theorem p_record (hk : h k = record d c p a b x) : (h k).p = p := by
  cases d <;> simp [hk, record]

theorem hash_record (hk : h k = record d c p a b x) : (h k).hash = x.hash := by
  cases d <;> simp [hk, record]

theorem ca_record (hk : h k = record d c p a b x) : (h k).ca = x.ca := by
  cases d <;> simp [hk, record]

theorem flagsOf_black (c : Color) (kind : BitVec 2) :
    flagsOf c kind ||| ECACHE_BLACK = flagsOf .black kind := by
  cases c <;> revert kind <;> decide

theorem flagsOf_red (c : Color) (kind : BitVec 2) :
    flagsOf c kind &&& ~~~ECACHE_BLACK = flagsOf .red kind := by
  cases c <;> revert kind <;> decide

theorem isBlack_record (hk : h k = record d c p a b x) : isBlack h k ↔ c = .black := by
  have hflags : (h k).flags = flagsOf c x.kind := by cases d <;> simp [hk, record]
  rw [isBlack, hflags]
  generalize x.kind = kind
  cases c <;> revert kind <;> decide

theorem isRed_record (hk : h k = record d c p a b x) : isRed h k ↔ c = .red := by
  have hflags : (h k).flags = flagsOf c x.kind := by cases d <;> simp [hk, record]
  rw [isRed, hflags]
  generalize x.kind = kind
  cases c <;> revert kind <;> decide

end Record

/-! ## The tree in the heap -/

/-- The address of the root, `0` for the missing tree. -/
def top : RBTree IndexNode → Nat
  | .nil => 0
  | .node _ _ x _ => x.addr

@[simp] theorem top_join (d : Side) (c : Color) (t s : RBTree IndexNode) (x : IndexNode) :
    top (RBTree.join d c t x s) = x.addr := by cases d <;> rfl

@[simp] theorem top_fill (f : Frame IndexNode) (t : RBTree IndexNode) :
    top (f.fill t) = f.label.addr := top_join ..

/-- The node above a position, `0` above the root. -/
def parentOf : List (Frame IndexNode) → Nat
  | [] => 0
  | f :: _ => f.label.addr

/-- The root of the whole tree, for a position whose subtree has its root at `a`. -/
def rootOf : List (Frame IndexNode) → (a : Nat) → Nat
  | [], a => a
  | f :: C, _ => rootOf C f.label.addr

theorem top_mem {t : RBTree IndexNode} (ht : t ≠ .nil) : ∃ x ∈ t.toList, x.addr = top t := by
  cases t with
  | nil => exact absurd rfl ht
  | node c l x r => exact ⟨x, by simp [RBTree.toList], rfl⟩

theorem perm_join (d : Side) (c : Color) (t s : RBTree IndexNode) (x : IndexNode) :
    (RBTree.join d c t x s).toList.Perm (x :: (t.toList ++ s.toList)) := by
  cases d
  · exact List.perm_middle
  · exact List.perm_middle.trans (List.perm_append_comm.cons x)

section Apart

variable {C : List (Frame IndexNode)} {t : RBTree IndexNode} {k : Nat}

theorem ne_top (hk : ∀ z ∈ t.toList, z.addr ≠ k) (hk0 : k ≠ 0) : k ≠ top t := by
  intro heq
  by_cases ht : t = .nil
  · rw [ht] at heq
    exact hk0 heq
  · obtain ⟨z, hz, hztop⟩ := top_mem ht
    exact hk z hz (hztop.trans heq.symm)

theorem ne_parentOf (hk : ∀ z ∈ outer C, z.addr ≠ k) (hk0 : k ≠ 0) : k ≠ parentOf C := by
  cases C with
  | nil => exact hk0
  | cons f C => exact (hk f.label (by simp [outer])).symm

end Apart

/-- The heap holds the subtree `t` below the node `p`. -/
def Hangs (h : Heap) : (p : Nat) → RBTree IndexNode → Prop
  | _, .nil => True
  | p, .node c l x r =>
    h x.addr = record .left c p (top l) (top r) x ∧ Hangs h x.addr l ∧ Hangs h x.addr r

/-- The heap holds the frames of a position whose subtree has its root at `a`. -/
def Around (h : Heap) : List (Frame IndexNode) → (a : Nat) → Prop
  | [], _ => True
  | f :: C, a =>
    h f.label.addr = record f.side f.color (parentOf C) a (top f.sibling) f.label ∧
      Hangs h f.label.addr f.sibling ∧ Around h C f.label.addr

/-- The heap holds a tree with the subtree `t` at the position `C`. -/
structure Rep (h : Heap) (root : Nat) (C : List (Frame IndexNode)) (t : RBTree IndexNode) :
    Prop where
  root_eq : root = rootOf C (top t)
  inside : Hangs h (parentOf C) t
  around : Around h C (top t)
  nodup : ((t.toList ++ outer C).map IndexNode.addr).Nodup
  nonnull : ∀ x ∈ t.toList ++ outer C, x.addr ≠ 0

section Frames

variable {h h' : Heap} {p p' : Nat} {t : RBTree IndexNode} {C : List (Frame IndexNode)}

theorem hangs_join (d : Side) (c : Color) (t s : RBTree IndexNode) (x : IndexNode) :
    Hangs h p (RBTree.join d c t x s) ↔
      h x.addr = record d c p (top t) (top s) x ∧ Hangs h x.addr t ∧ Hangs h x.addr s := by
  cases d
  · exact Iff.rfl
  · show _ ∧ _ ∧ _ ↔ _
    rw [and_comm (a := Hangs h x.addr t)]
    rfl

/-- What is not touched hangs where it did. -/
theorem Hangs.congr (ht : Hangs h p t) (heq : ∀ x ∈ t.toList, h' x.addr = h x.addr) :
    Hangs h' p t := by
  induction t generalizing p with
  | nil => trivial
  | node c l x r ihl ihr =>
    have hx : h' x.addr = h x.addr := heq x (by simp [RBTree.toList])
    refine ⟨hx.trans ht.1, ihl ht.2.1 fun y hy => ?_, ihr ht.2.2 fun y hy => ?_⟩
    · exact heq y (by simp [RBTree.toList, hy])
    · exact heq y (by simp [RBTree.toList, hy])

theorem Around.congr {a : Nat} (hC : Around h C a)
    (heq : ∀ x ∈ outer C, h' x.addr = h x.addr) : Around h' C a := by
  induction C generalizing a with
  | nil => trivial
  | cons f C ih =>
    have hf : h' f.label.addr = h f.label.addr := heq f.label (by simp [outer])
    refine ⟨hf.trans hC.1, hC.2.1.congr fun y hy => ?_, ih hC.2.2 fun y hy => ?_⟩
    · exact heq y (by simp [outer, hy])
    · exact heq y (by simp [outer, hy])

/-- A subtree is hung below another node: its root gets a new parent link. -/
theorem Hangs.move (ht : Hangs h p t) (hnd : (t.toList.map IndexNode.addr).Nodup)
    (hsame : ∀ x ∈ t.toList, x.addr ≠ top t → h' x.addr = h x.addr)
    (htop : t ≠ .nil → h' (top t) = { h (top t) with p := p' }) : Hangs h' p' t := by
  cases t with
  | nil => trivial
  | node c l x r =>
    have hother : ∀ y, y ∈ l.toList ∨ y ∈ r.toList → y.addr ≠ x.addr := by
      intro y hy hxy
      simp only [RBTree.toList, List.map_append, List.map_cons, List.nodup_append,
        List.nodup_cons, List.mem_map, List.mem_cons] at hnd
      rcases hy with hl | hr
      · exact hnd.2.2 _ ⟨y, hl, rfl⟩ _ (Or.inl rfl) hxy
      · exact hnd.2.1.1 ⟨y, hr, hxy⟩
    refine ⟨?_, ht.2.1.congr fun y hy => ?_, ht.2.2.congr fun y hy => ?_⟩
    · have hx := htop (by simp)
      rw [top, ht.1] at hx
      exact hx
    · exact hsame y (by simp [RBTree.toList, hy]) (hother y (Or.inl hy))
    · exact hsame y (by simp [RBTree.toList, hy]) (hother y (Or.inr hy))

/-- Another subtree comes to a position: the node above gets a new child link. -/
theorem Around.move {a a' : Nat} (hC : Around h C a)
    (hnd : ((outer C).map IndexNode.addr).Nodup)
    (hsame : ∀ x ∈ outer C, x.addr ≠ parentOf C → h' x.addr = h x.addr)
    (hparent : ∀ f D, C = f :: D → h' f.label.addr =
      record f.side f.color (parentOf D) a' (top f.sibling) f.label) : Around h' C a' := by
  cases C with
  | nil => trivial
  | cons f C =>
    simp only [outer, List.map_append, List.map_cons, List.cons_append, List.nodup_cons,
      List.mem_append, List.mem_map] at hnd
    refine ⟨hparent f C rfl, hC.2.1.congr fun y hy => ?_, hC.2.2.congr fun y hy => ?_⟩
    · exact hsame y (by simp [outer, hy]) fun heq => hnd.1 (Or.inl ⟨y, hy, heq⟩)
    · exact hsame y (by simp [outer, hy]) fun heq => hnd.1 (Or.inr ⟨y, hy, heq⟩)

end Frames

namespace Rep

variable {h : Heap} {root : Nat} {C : List (Frame IndexNode)} {f : Frame IndexNode}
  {t s : RBTree IndexNode} {d : Side} {c : Color} {x : IndexNode}

/-- The position moves down to a child or up to the parent. -/
theorem fill : Rep h root C (f.fill t) ↔ Rep h root (f :: C) t := by
  have hperm : ((f.fill t).toList ++ outer C).Perm (t.toList ++ outer (f :: C)) :=
    (perm_outer C (f.fill t)).symm.trans (perm_outer (f :: C) t)
  constructor
  · rintro ⟨hroot, hin, hC, hnd, hnn⟩
    obtain ⟨hf, ht, hs⟩ := (hangs_join ..).1 hin
    rw [top_fill] at hroot hC
    exact ⟨hroot, ht, ⟨hf, hs, hC⟩, (hperm.map _).nodup_iff.1 hnd,
      fun y hy => hnn y (hperm.mem_iff.2 hy)⟩
  · rintro ⟨hroot, ht, ⟨hf, hs, hC⟩, hnd, hnn⟩
    refine ⟨?_, (hangs_join ..).2 ⟨hf, ht, hs⟩, ?_, (hperm.map _).nodup_iff.2 hnd,
      fun y hy => hnn y (hperm.mem_iff.1 hy)⟩
    · rw [top_fill]; exact hroot
    · rw [top_fill]; exact hC

/-- The position moves between a subtree and a node above it. -/
theorem splice {D : List (Frame IndexNode)} : Rep h root C (RedBlack.plug D t) ↔
    Rep h root (D ++ C) t := by
  induction D generalizing t with
  | nil => exact Iff.rfl
  | cons f D ih => exact ih.trans fill

/-- The position moves to the root. -/
theorem plug : Rep h root [] (RedBlack.plug C t) ↔ Rep h root C t := by
  rw [splice, List.append_nil]

/-- The record of the node at the position. -/
theorem record_eq (hr : Rep h root C (RBTree.join d c t x s)) :
    h x.addr = record d c (parentOf C) (top t) (top s) x :=
  ((hangs_join ..).1 hr.inside).1

/-- The record of the node above. -/
theorem record_above (hr : Rep h root (f :: C) t) :
    h f.label.addr = record f.side f.color (parentOf C) (top t) (top f.sibling) f.label :=
  hr.around.1

end Rep

/-! ## Writes -/

section Writes

variable {h : Heap} {d : Side} {c : Color} {p a b k v : Nat} {x : IndexNode} {n : EcacheNode}

@[simp] theorem upd_self : upd h k n k = n := if_pos rfl

theorem upd_ne (hne : v ≠ k) : upd h k n v = h v := if_neg hne

theorem setP_record (hk : h k = record d c p a b x) :
    setP h k v = upd h k (record d c v a b x) := by
  cases d <;> simp [setP, hk, record]

theorem setChild_record (hk : h k = record d c p a b x) :
    setChild h d k v = upd h k (record d c p v b x) := by
  cases d <;> simp [setChild, setL, setR, hk, record]

theorem setChild_opp_record (hk : h k = record d c p a b x) :
    setChild h d.opp k v = upd h k (record d c p a v x) := by
  cases d <;> simp [setChild, setL, setR, hk, record, Side.opp]

theorem paint_record {c' : Color} (hk : h k = record d c p a b x) :
    paint h c' k = upd h k (record d c' p a b x) := by
  cases c'
  · cases d <;> simp [paint, setRed, hk, record, flagsOf_red]
  · cases d <;> simp [paint, setBlack, hk, record, flagsOf_black]

end Writes

/-- The link that leads to `x` now leads to `y`. It is compared with the child on the side `d`
first. -/
def relinkOn (d : Side) (root : Nat) (h : Heap) (x y : Nat) : Nat × Heap :=
  let p := (h x).p
  if p = 0 then (y, h)
  else if x = child h d p then (root, setChild h d p y)
  else (root, setChild h d.opp p y)

/-- `_rotate_left` and `_rotate_right`. -/
def rotate (d : Side) (root : Nat) (h : Heap) (x : Nat) : Nat × Heap :=
  let y := child h d.opp x
  let h := setChild h d.opp x (child h d y)
  let h := if child h d y = 0 then h else setP h (child h d y) x
  let h := setP h y (h x).p
  let (root, h) := relinkOn d root h x y
  let h := setChild h d y x
  (root, setP h x y)

theorem relink_eq : relink = relinkOn .left := rfl

/-- The parent link of `b` becomes `v`, if there is a node `b`. -/
def adopt (h : Heap) (b v : Nat) : Heap := if b = 0 then h else setP h b v

section Links

variable {h : Heap} {root k v : Nat} {C : List (Frame IndexNode)} {t : RBTree IndexNode} {d : Side}

theorem adopt_top (ht : top t ≠ 0) : adopt h (top t) v (top t) = { h (top t) with p := v } := by
  rw [adopt, if_neg ht]
  exact upd_self

theorem adopt_ne (hk : k ≠ top t) : adopt h (top t) v k = h k := by
  rw [adopt]
  by_cases ht : top t = 0
  · rw [if_pos ht]
  · rw [if_neg ht]
    exact upd_ne hk

/-- The heap holds the node above the position `C`, which has the child `a` there. -/
def Above (h : Heap) (C : List (Frame IndexNode)) (a : Nat) : Prop :=
  ∀ f D, C = f :: D →
    h f.label.addr = record f.side f.color (parentOf D) a (top f.sibling) f.label

theorem Around.above {a : Nat} (hC : Around h C a) : Above h C a := by
  rintro f D rfl
  exact hC.1

/-- The link from above is redirected, on whichever side it is. -/
theorem relinkOn_spec {x : Nat} (d : Side) (y : Nat) (hp : (h x).p = parentOf C)
    (habove : Above h C x) (hroot : root = rootOf C x) (hx0 : x ≠ 0)
    (hx : ∀ z ∈ outer C, z.addr ≠ x) (hnn : ∀ z ∈ outer C, z.addr ≠ 0) :
    (relinkOn d root h x y).1 = rootOf C y ∧ Above (relinkOn d root h x y).2 C y ∧
      ∀ k, k ≠ parentOf C → (relinkOn d root h x y).2 k = h k := by
  rw [relinkOn]
  cases C with
  | nil =>
    simp only [hp, parentOf, if_true]
    refine ⟨rfl, ?_, fun k _ => trivial⟩
    rintro f D hnil
    cases hnil
  | cons f C =>
    have hf := habove f C rfl
    have hp0 : f.label.addr ≠ 0 := hnn f.label (by simp [outer])
    -- the sibling is another node, so the comparison finds the side of the position
    have hsib : x ≠ top f.sibling := ne_top (fun z hz => hx z (by simp [outer, hz])) hx0
    have hfinal : (if x = child h d f.label.addr then (root, setChild h d f.label.addr y)
        else (root, setChild h d.opp f.label.addr y)) = (root, upd h f.label.addr
          (record f.side f.color (parentOf C) y (top f.sibling) f.label)) := by
      by_cases hside : f.side = d
      · subst hside
        rw [if_pos (child_record hf).symm, setChild_record hf]
      · have hopp : f.side = d.opp := by
          revert hside
          cases f.side <;> cases d <;> simp [Side.opp]
        rw [hopp] at hf ⊢
        have hother : child h d f.label.addr = top f.sibling := by
          have := child_opp_record hf
          rwa [Side.opp_opp] at this
        rw [if_neg (by rw [hother]; exact hsib), setChild_record hf]
    simp only [hp, parentOf, if_neg hp0, hfinal]
    refine ⟨hroot, ?_, fun k hk => upd_ne hk⟩
    rintro g D heq
    cases heq
    exact upd_self

/-- What a rotation does to the heap: `y` moves up and its child `b` changes over to `x`. -/
structure Rotated (h h' : Heap) (C : List (Frame IndexNode)) (d : Side) (c c' : Color)
    (a b e : RBTree IndexNode) (x y : IndexNode) : Prop where
  lower : h' x.addr = record d c y.addr (top a) (top b) x
  upper : h' y.addr = record d c' (parentOf C) x.addr (top e) y
  moved : top b ≠ 0 → h' (top b) = { h (top b) with p := x.addr }
  above : Above h' C y.addr
  other : ∀ k, k ≠ x.addr → k ≠ y.addr → k ≠ top b → k ≠ parentOf C → h' k = h k

theorem rotate_rotated {c c' : Color} {a b e : RBTree IndexNode} {x y : IndexNode}
    (hx : h x.addr = record d c (parentOf C) (top a) y.addr x)
    (hy : h y.addr = record d c' x.addr (top b) (top e) y) (habove : Above h C x.addr)
    (hroot : root = rootOf C x.addr) (hxy : x.addr ≠ y.addr) (hxb : x.addr ≠ top b)
    (hyb : y.addr ≠ top b) (hx0 : x.addr ≠ 0) (hy0 : y.addr ≠ 0)
    (hC : ∀ z ∈ outer C, z.addr ≠ x.addr ∧ z.addr ≠ y.addr ∧ z.addr ≠ top b ∧ z.addr ≠ 0) :
    (rotate d root h x.addr).1 = rootOf C y.addr ∧
      Rotated h (rotate d root h x.addr).2 C d c c' a b e x y := by
  have hxp : x.addr ≠ parentOf C := ne_parentOf (fun z hz => (hC z hz).1) hx0
  have hyp : y.addr ≠ parentOf C := ne_parentOf (fun z hz => (hC z hz).2.1) hy0
  -- the heap before the link from above is redirected
  let h₁ := upd h x.addr (record d c (parentOf C) (top a) (top b) x)
  let h₂ := adopt h₁ (top b) x.addr
  let h₃ := upd h₂ y.addr (record d c' (parentOf C) (top b) (top e) y)
  have h₁y : h₁ y.addr = record d c' x.addr (top b) (top e) y := (upd_ne hxy.symm).trans hy
  have h₂x : h₂ x.addr = record d c (parentOf C) (top a) (top b) x := (adopt_ne hxb).trans upd_self
  have h₂y : h₂ y.addr = record d c' x.addr (top b) (top e) y := (adopt_ne hyb).trans h₁y
  have h₃x : h₃ x.addr = record d c (parentOf C) (top a) (top b) x := (upd_ne hxy).trans h₂x
  have h₃other : ∀ k, k ≠ x.addr → k ≠ y.addr → k ≠ top b → h₃ k = h k := fun k hkx hky hkb =>
    (upd_ne hky).trans ((adopt_ne hkb).trans (upd_ne hkx))
  have h₃above : Above h₃ C x.addr := by
    rintro f D rfl
    obtain ⟨hfx, hfy, hfb, _⟩ := hC f.label (by simp [outer])
    rw [h₃other _ hfx hfy hfb]
    exact habove f D rfl
  have hlink := relinkOn_spec d y.addr (p_record h₃x) h₃above hroot hx0
    (fun z hz => (hC z hz).1) (fun z hz => (hC z hz).2.2.2)
  have hrot : rotate d root h x.addr = ((relinkOn d root h₃ x.addr y.addr).1,
      setP (setChild (relinkOn d root h₃ x.addr y.addr).2 d y.addr x.addr) x.addr y.addr) := by
    have hadopt : (if child h₁ d y.addr = 0 then h₁ else setP h₁ (child h₁ d y.addr) x.addr)
        = h₂ := by
      rw [child_record h₁y]
      rfl
    simp only [rotate, child_opp_record hx, child_record hy, setChild_opp_record hx]
    rw [show upd h x.addr (record d c (parentOf C) (top a) (top b) x) = h₁ from rfl, hadopt,
      p_record h₂x, setP_record h₂y]
  rw [hrot]
  generalize relinkOn d root h₃ x.addr y.addr = r at hlink ⊢
  obtain ⟨hr, habove', hsame⟩ := hlink
  -- the last two writes
  have h₄y : r.2 y.addr = record d c' (parentOf C) (top b) (top e) y := (hsame _ hyp).trans upd_self
  have h₅x : upd r.2 y.addr (record d c' (parentOf C) x.addr (top e) y) x.addr
      = record d c (parentOf C) (top a) (top b) x := (upd_ne hxy).trans ((hsame _ hxp).trans h₃x)
  rw [setChild_record h₄y, setP_record h₅x]
  have hkeep : ∀ k, k ≠ x.addr → k ≠ y.addr →
      upd (upd r.2 y.addr (record d c' (parentOf C) x.addr (top e) y)) x.addr
        (record d c y.addr (top a) (top b) x) k = r.2 k :=
    fun k hkx hky => (upd_ne hkx).trans (upd_ne hky)
  refine ⟨hr, upd_self, (upd_ne hxy.symm).trans upd_self, fun hb => ?_, ?_, ?_⟩
  · have hbp : top b ≠ parentOf C := ne_parentOf (fun z hz => (hC z hz).2.2.1) hb
    have hadopted : h₂ (top b) = { h (top b) with p := x.addr } := by
      show adopt h₁ (top b) x.addr (top b) = _
      rw [adopt_top hb, show h₁ (top b) = h (top b) from upd_ne hxb.symm]
    exact (hkeep _ hxb.symm hyb.symm).trans
      ((hsame _ hbp).trans ((upd_ne hyb.symm).trans hadopted))
  · rintro f D rfl
    obtain ⟨hfx, hfy, _⟩ := hC f.label (by simp [outer])
    exact (hkeep _ hfx hfy).trans (habove' f D rfl)
  · intro k hkx hky hkb hkp
    exact (hkeep k hkx hky).trans ((hsame k hkp).trans (h₃other k hkx hky hkb))

end Links

namespace Rep
variable {h : Heap} {root : Nat} {C : List (Frame IndexNode)} {f : Frame IndexNode}
  {t s : RBTree IndexNode} {d : Side} {c : Color} {x : IndexNode}

/-- A node of the tree is at no other node's address. -/
theorem apart (hr : Rep h root C (RBTree.join d c t x s)) :
    ∀ y, y ∈ t.toList ∨ y ∈ s.toList ∨ y ∈ outer C → y.addr ≠ x.addr := by
  intro y hy heq
  have hperm := ((perm_join d c t s x).append_right (outer C)).map IndexNode.addr
  have hnd := hperm.nodup_iff.1 hr.nodup
  rw [List.cons_append, List.map_cons, List.nodup_cons] at hnd
  refine hnd.1 (List.mem_map.2 ⟨y, ?_, heq⟩)
  simpa only [List.mem_append, or_assoc] using hy

/-- The colour macros. -/
theorem paint (hr : Rep h root C (RBTree.join d c t x s)) (c' : Color) :
    Rep (paint h c' x.addr) root C (RBTree.join d c' t x s) := by
  have happ := hr.apart
  obtain ⟨hx, ht, hs⟩ := (hangs_join ..).1 hr.inside
  have hlist : (RBTree.join d c' t x s).toList = (RBTree.join d c t x s).toList := by
    cases d <;> rfl
  rw [paint_record hx]
  refine ⟨?_, (hangs_join ..).2 ⟨upd_self, ?_, ?_⟩, ?_, ?_, ?_⟩
  · rw [hr.root_eq, top_join, top_join]
  · exact ht.congr fun y hy => upd_ne (happ y (Or.inl hy))
  · exact hs.congr fun y hy => upd_ne (happ y (Or.inr (Or.inl hy)))
  · have hC := hr.around
    rw [top_join] at hC ⊢
    exact hC.congr fun y hy => upd_ne (happ y (Or.inr (Or.inr hy)))
  · rw [hlist]; exact hr.nodup
  · rw [hlist]; exact hr.nonnull

/-- The nodes around an edge, the lower node first on the side `d.opp` of the upper one, are all
at addresses of their own. -/
theorem separate {a b e : RBTree IndexNode} {c' : Color} {y : IndexNode}
    (hr : Rep h root C (RBTree.join d c a x (RBTree.join d c' b y e))) :
    ((x :: y :: (a.toList ++ (b.toList ++ (e.toList ++ outer C)))).map IndexNode.addr).Nodup ∧
      ∀ z ∈ x :: y :: (a.toList ++ (b.toList ++ (e.toList ++ outer C))), z.addr ≠ 0 := by
  have hperm : ((RBTree.join d c a x (RBTree.join d c' b y e)).toList ++ outer C).Perm
      (x :: y :: (a.toList ++ (b.toList ++ (e.toList ++ outer C)))) := by
    have h₁ := (perm_join d c a (RBTree.join d c' b y e) x).append_right (outer C)
    have h₂ : (a.toList ++ (RBTree.join d c' b y e).toList).Perm
        (y :: (a.toList ++ (b.toList ++ e.toList))) :=
      ((perm_join d c' b e y).append_left a.toList).trans List.perm_middle
    simpa using h₁.trans ((h₂.cons x).append_right (outer C))
  exact ⟨(hperm.map IndexNode.addr).nodup_iff.1 hr.nodup,
    fun z hz => hr.nonnull z (hperm.mem_iff.2 hz)⟩

/-- The rotations. -/
theorem rotate {a b e : RBTree IndexNode} {c' : Color} {y : IndexNode}
    (hr : Rep h root C (RBTree.join d c a x (RBTree.join d c' b y e))) :
    Rep (rotate d root h x.addr).2 (NiFat32.rotate d root h x.addr).1 C
      (RBTree.join d c' (RBTree.join d c a x b) y e) := by
  obtain ⟨hx, ha, hin⟩ := (hangs_join ..).1 hr.inside
  obtain ⟨hy, hb, he⟩ := (hangs_join ..).1 hin
  rw [top_join] at hx
  have hlist : (RBTree.join d c a x (RBTree.join d c' b y e)).toList
      = (RBTree.join d c' (RBTree.join d c a x b) y e).toList := by
    cases d <;> simp [RBTree.join, RBTree.toList]
  obtain ⟨hnd, hnn⟩ := hr.separate
  simp only [List.map_cons, List.map_append, List.nodup_cons, List.nodup_append, List.mem_cons,
    List.mem_append, List.mem_map, not_or, not_exists, not_and] at hnd hnn
  have habove : Above h C x.addr := by
    have := hr.around.above
    rwa [top_join] at this
  have hroot : root = rootOf C x.addr := by rw [hr.root_eq, top_join]
  obtain ⟨hr', hrot⟩ := rotate_rotated hx hy habove hroot (by grind)
    (ne_top (by grind) (by grind)) (ne_top (by grind) (by grind)) (by grind) (by grind)
    fun z hz => ⟨by grind, by grind, ne_top (by grind) (by grind), by grind⟩
  generalize NiFat32.rotate d root h x.addr = r at hr' hrot ⊢
  -- the nodes that stay as they are
  have hsub : ∀ z : IndexNode, z ∈ a.toList ∨ z ∈ e.toList ∨ (z ∈ b.toList ∧ z.addr ≠ top b) →
      r.2 z.addr = h z.addr := by
    intro z hz
    have hzb : z.addr ≠ top b := by
      rcases hz with hz | hz | hz
      · exact ne_top (by grind) (by grind)
      · exact ne_top (by grind) (by grind)
      · exact hz.2
    exact hrot.other _ (by grind) (by grind) hzb (ne_parentOf (by grind) (by grind))
  refine ⟨?_, ?_, ?_, ?_, ?_⟩
  · rw [hr', top_join]
  · rw [hangs_join, hangs_join, top_join]
    refine ⟨hrot.upper, ⟨hrot.lower, ha.congr fun z hz => hsub z (Or.inl hz), ?_⟩,
      he.congr fun z hz => hsub z (Or.inr (Or.inl hz))⟩
    refine hb.move (by grind) (fun z hz hzb => hsub z (Or.inr (Or.inr ⟨hz, hzb⟩))) fun hbnil => ?_
    obtain ⟨z, hz, hztop⟩ := top_mem hbnil
    exact hrot.moved (by grind)
  · rw [top_join]
    refine hr.around.move (by grind) (fun z hz hzp => ?_) hrot.above
    exact hrot.other _ (by grind) (by grind) (ne_top (by grind) (by grind)) hzp
  · rw [← hlist]; exact hr.nodup
  · rw [← hlist]; exact hr.nonnull

end Rep
end NiFat32
