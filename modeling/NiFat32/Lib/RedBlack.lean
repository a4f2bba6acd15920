import Mathlib.Algebra.Group.Nat.Defs
import Mathlib.Data.List.Basic

/-!
# `RedBlack`: red-black trees and positions in them

A position is the list of the frames from it up to the root, and `plug` closes it with a subtree.
The balance of a tree is `Sound`, the balance of a tree with a subtree missing is `Hole`:
`Hole C c n` says that a sound subtree of colour `c` and black height `n` completes `C` to a
sound tree with a black root (`Hole.plug`), and every subtree of a sound tree sits in such a
position (`Hole.of_plug`).

The algorithms have a left and a right variant of every case. `Side` and `RBTree.join` state a case
once for both.
-/

set_option autoImplicit false

namespace RedBlack

inductive Color
  | red | black
  deriving DecidableEq

inductive Side
  | left | right
  deriving DecidableEq

/-- The other side. -/
def Side.opp : Side → Side
  | .left => .right
  | .right => .left

@[simp] theorem Side.opp_opp (d : Side) : d.opp.opp = d := by cases d <;> rfl

inductive RBTree (α : Type)
  | nil
  | node (c : Color) (l : RBTree α) (x : α) (r : RBTree α)
  deriving DecidableEq

variable {α : Type}

namespace RBTree

/-- The node with the subtree `t` on the side `d` and `s` on the other one. -/
def join (d : Side) (c : Color) (t : RBTree α) (x : α) (s : RBTree α) : RBTree α :=
  match d with
  | .left => node c t x s
  | .right => node c s x t

theorem join_opp (d : Side) (c : Color) (t s : RBTree α) (x : α) :
    join d.opp c t x s = join d c s x t := by cases d <;> rfl

theorem node_ne_nil {c : Color} {l r : RBTree α} {x : α} : node c l x r ≠ nil := by
  intro h
  cases h

theorem join_ne_nil {d : Side} {c : Color} {t s : RBTree α} {x : α} : join d c t x s ≠ nil := by
  cases d
  · exact node_ne_nil
  · exact node_ne_nil

/-- The labels in order. -/
def toList : RBTree α → List α
  | nil => []
  | node _ l x r => l.toList ++ x :: r.toList

/-- The colour of the first node in order. -/
def firstColor : RBTree α → Option Color
  | nil => none
  | node c nil _ _ => some c
  | node _ (node c l x r) _ _ => firstColor (node c l x r)

/-- The number of nodes. -/
def size (t : RBTree α) : Nat := t.toList.length

/-- The number of nodes on a longest path from the root. -/
def depth : RBTree α → Nat
  | nil => 0
  | node _ l _ r => max l.depth r.depth + 1

/-- The number of black nodes on the leftmost path. -/
def leftBlacks : RBTree α → Nat
  | nil => 0
  | node .red l _ _ => l.leftBlacks
  | node .black l _ _ => l.leftBlacks + 1

/-- The colour of the root; a missing node is black. -/
def color : RBTree α → Color
  | nil => .black
  | node c _ _ _ => c

@[simp] theorem color_join (d : Side) (c : Color) (t s : RBTree α) (x : α) :
    (join d c t x s).color = c := by cases d <;> rfl

theorem ne_nil_of_red {t : RBTree α} (ht : t.color = .red) : t ≠ nil := by
  rintro rfl
  exact Color.noConfusion ht

/-- The tree with a black root. -/
def blacken : RBTree α → RBTree α
  | nil => nil
  | node _ l x r => node .black l x r

@[simp] theorem toList_blacken (t : RBTree α) : t.blacken.toList = t.toList := by
  cases t <;> rfl

theorem size_node (c : Color) (l r : RBTree α) (x : α) :
    (node c l x r).size = l.size + r.size + 1 := by
  show (l.toList ++ x :: r.toList).length = _
  rw [List.length_append, List.length_cons]
  rfl

theorem depth_le_size (t : RBTree α) : t.depth ≤ t.size := by
  induction t with
  | nil => exact Nat.zero_le _
  | node c l x r ihl ihr =>
    rw [size_node]
    show max l.depth r.depth + 1 ≤ _
    omega

end RBTree

open RBTree

/-! ## Balance -/

/-- No red node has a red child, and every path from the root to a missing node has `n` black
nodes; the root has the colour `c`. -/
inductive Sound : Color → Nat → RBTree α → Prop
  | nil : Sound .black 0 .nil
  | red {n : Nat} {l r : RBTree α} (x : α) : Sound .black n l → Sound .black n r →
    Sound .red n (.node .red l x r)
  | black {c c' : Color} {n : Nat} {l r : RBTree α} (x : α) : Sound c n l → Sound c' n r →
    Sound .black (n + 1) (.node .black l x r)

namespace Sound

variable {c c' : Color} {n n' : Nat} {t s : RBTree α} {x : α} {d : Side}

theorem color_eq (h : Sound c n t) : t.color = c := by cases h <;> rfl

theorem leftBlacks_eq (h : Sound c n t) : t.leftBlacks = n := by
  induction h with
  | nil => rfl
  | red x _ _ ihl _ => exact ihl
  | black x _ _ ihl _ => exact congrArg (· + 1) ihl

/-- The black height is that of the tree. -/
theorem height_unique (h : Sound c n t) (h' : Sound c' n' t) : n = n' :=
  h.leftBlacks_eq.symm.trans h'.leftBlacks_eq

theorem join_red (d : Side) (x : α) (ht : Sound .black n t) (hs : Sound .black n s) :
    Sound .red n (join d .red t x s) := by
  cases d
  · exact Sound.red x ht hs
  · exact Sound.red x hs ht

theorem join_black (d : Side) (x : α) (ht : Sound c n t) (hs : Sound c' n s) :
    Sound .black (n + 1) (join d .black t x s) := by
  cases d
  · exact Sound.black x ht hs
  · exact Sound.black x hs ht

/-- A red root has black children of its own height. -/
theorem of_red (h : Sound .red n t) : ∃ l x r, t = .node .red l x r ∧ Sound .black n l ∧
    Sound .black n r := by
  cases h with
  | red x hl hr => exact ⟨_, x, _, rfl, hl, hr⟩

/-- A black root of positive height has two children, each one less high. -/
theorem of_black (h : Sound .black (n + 1) t) : ∃ l x r cl cr, t = .node .black l x r ∧
    Sound cl n l ∧ Sound cr n r := by
  cases h with
  | black x hl hr => exact ⟨_, x, _, _, _, rfl, hl, hr⟩

/-- `of_red` for both sides. -/
theorem split_red (d : Side) (h : Sound .red n t) : ∃ a x b, t = join d .red a x b ∧
    Sound .black n a ∧ Sound .black n b := by
  obtain ⟨l, x, r, rfl, hl, hr⟩ := h.of_red
  cases d
  · exact ⟨l, x, r, rfl, hl, hr⟩
  · exact ⟨r, x, l, rfl, hr, hl⟩

/-- `of_black` for both sides. -/
theorem split_black (d : Side) (h : Sound .black (n + 1) t) : ∃ a x b ca cb,
    t = join d .black a x b ∧ Sound ca n a ∧ Sound cb n b := by
  obtain ⟨l, x, r, cl, cr, rfl, hl, hr⟩ := h.of_black
  cases d
  · exact ⟨l, x, r, cl, cr, rfl, hl, hr⟩
  · exact ⟨r, x, l, cr, cl, rfl, hr, hl⟩

/-- Only the missing tree is black and of height zero. -/
theorem eq_nil (h : Sound .black 0 t) : t = .nil := by cases h; rfl

theorem ne_nil (h : Sound c (n + 1) t) : t ≠ .nil := by
  rintro rfl
  cases h

/-- A node without a child on one side is a red leaf, or it is black with at most one red child. -/
theorem of_join_nil (h : Sound c n (join d c' .nil x t)) :
    c' = c ∧ ∃ ct, Sound ct 0 t ∧ (c = .red → n = 0 ∧ ct = .black) ∧ (c = .black → n = 1) := by
  obtain rfl : c' = c := (color_join ..).symm.trans h.color_eq
  refine ⟨rfl, ?_⟩
  cases d <;> cases h
  · next hnil ht => cases hnil; exact ⟨_, ht, by simp, by simp⟩
  · next hnil ht => cases hnil; exact ⟨_, ht, by simp, by simp⟩
  · next ht hnil => cases hnil; exact ⟨_, ht, by simp, by simp⟩
  · next ht hnil => cases hnil; exact ⟨_, ht, by simp, by simp⟩

theorem blacken (h : Sound c n t) : ∃ k, Sound .black k t.blacken := by
  cases h with
  | nil => exact ⟨0, Sound.nil⟩
  | red x hl hr => exact ⟨_, Sound.black x hl hr⟩
  | black x hl hr => exact ⟨_, Sound.black x hl hr⟩

/-- A red root that is painted black adds one to the height. -/
theorem blacken_red (h : Sound .red n t) : Sound .black (n + 1) t.blacken := by
  obtain ⟨l, x, r, rfl, hl, hr⟩ := h.of_red
  exact Sound.black x hl hr

theorem blacken_black (h : Sound .black n t) : t.blacken = t := by
  cases h <;> rfl

/-- The longest path is at most twice as long as the shortest one, up to the colour of the
root. -/
theorem depth_le (h : Sound c n t) : t.depth ≤ 2 * n + (if c = .red then 1 else 0) := by
  induction h with
  | nil => exact Nat.zero_le _
  | red x _ _ ihl ihr =>
    simp only [reduceCtorEq, if_false, if_true] at ihl ihr ⊢
    show max _ _ + 1 ≤ _
    omega
  | @black c c' n l r x _ _ ihl ihr =>
    have hone : ∀ k : Color, (if k = .red then 1 else 0) ≤ 1 := fun k => by split <;> omega
    have hl := hone c
    have hr := hone c'
    simp only [reduceCtorEq, if_false]
    show max _ _ + 1 ≤ _
    omega

/-- The shortest path bounds the number of nodes from below. -/
theorem pow_le_size (h : Sound c n t) : 2 ^ n ≤ t.size + 1 := by
  induction h with
  | nil => exact Nat.le_refl 1
  | red x _ _ ihl ihr => rw [size_node]; omega
  | black x _ _ ihl ihr => rw [size_node, Nat.pow_succ]; omega

/-- A tree of `k` nodes with a black root is at most `2 * log2 (k + 1)` deep. -/
theorem depth_bound (h : Sound .black n t) : t.depth ≤ 2 * Nat.log2 (t.size + 1) := by
  have hdepth : t.depth ≤ 2 * n := h.depth_le
  have hlog : n ≤ Nat.log2 (t.size + 1) :=
    (Nat.le_log2 (Nat.succ_ne_zero _)).2 h.pow_le_size
  omega

end Sound

/-! ## Positions -/

/-- A node above the position: the position is on its side `side`. -/
structure Frame (α : Type) where
  side : Side
  color : Color
  label : α
  sibling : RBTree α

/-- The subtree of the frame's node. -/
def Frame.fill (f : Frame α) (t : RBTree α) : RBTree α := join f.side f.color t f.label f.sibling

/-- The whole tree; the innermost frame comes first. -/
def plug : List (Frame α) → RBTree α → RBTree α
  | [], t => t
  | f :: C, t => plug C (f.fill t)

/-- The labels in front of the position. -/
def before : List (Frame α) → List α
  | [] => []
  | ⟨.left, _, _, _⟩ :: C => before C
  | ⟨.right, _, x, s⟩ :: C => before C ++ s.toList ++ [x]

/-- The labels behind the position. -/
def after : List (Frame α) → List α
  | [] => []
  | ⟨.left, _, x, s⟩ :: C => x :: s.toList ++ after C
  | ⟨.right, _, _, _⟩ :: C => after C

/-- The labels of the frames and of the siblings. -/
def outer : List (Frame α) → List α
  | [] => []
  | f :: C => f.label :: f.sibling.toList ++ outer C

theorem toList_plug (C : List (Frame α)) (t : RBTree α) :
    (plug C t).toList = before C ++ t.toList ++ after C := by
  induction C generalizing t with
  | nil => exact (List.append_nil _).symm
  | cons f C ih =>
    rw [plug, ih]
    rcases f with ⟨_ | _, c, x, s⟩
    · simp [Frame.fill, join, before, after, toList]
    · simp [Frame.fill, join, before, after, toList]

theorem before_append (D C : List (Frame α)) : before (D ++ C) = before C ++ before D := by
  induction D with
  | nil => simp [before]
  | cons f D ih =>
    rcases f with ⟨_ | _, c, x, s⟩
    · exact ih
    · simp [before, ih]

/-- A node with a missing left child is added to the labels of its right child. -/
theorem perm_plug_node (C : List (Frame α)) (c : Color) (x : α) (t : RBTree α) :
    (plug C (.node c .nil x t)).toList.Perm (x :: (plug C t).toList) := by
  rw [toList_plug, toList_plug]
  simp [toList]

theorem toList_plug_congr (C : List (Frame α)) {t t' : RBTree α} (h : t.toList = t'.toList) :
    (plug C t).toList = (plug C t').toList := by
  rw [toList_plug, toList_plug, h]

theorem perm_outer (C : List (Frame α)) (t : RBTree α) :
    (plug C t).toList.Perm (t.toList ++ outer C) := by
  induction C generalizing t with
  | nil => simp [plug, outer]
  | cons f C ih =>
    refine (ih (f.fill t)).trans ?_
    rcases f with ⟨_ | _, c, x, s⟩
    · simp [Frame.fill, join, toList, outer]
    · have hswap : (s.toList ++ x :: t.toList).Perm (t.toList ++ x :: s.toList) :=
        List.perm_append_comm.trans (by simpa using List.perm_middle.symm)
      simpa [Frame.fill, join, toList, outer] using hswap.append_right (outer C)

theorem plug_append (D C : List (Frame α)) (t : RBTree α) :
    plug (D ++ C) t = plug C (plug D t) := by
  induction D generalizing t with
  | nil => rfl
  | cons f D ih => exact ih (f.fill t)

/-- The length of the path to a position is at most the number of labels outside. -/
theorem length_le_outer (C : List (Frame α)) : C.length ≤ (outer C).length := by
  induction C with
  | nil => exact Nat.le_refl _
  | cons f C ih =>
    simp only [outer, List.length_cons, List.length_append]
    omega

/-- A subtree of colour `c` and black height `n` is missing in a tree with a black root. -/
inductive Hole : List (Frame α) → Color → Nat → Prop
  | root (n : Nat) : Hole [] .black n
  | red {C : List (Frame α)} {n : Nat} (d : Side) (x : α) {s : RBTree α} : Sound .black n s →
    Hole C .red n → Hole (⟨d, .red, x, s⟩ :: C) .black n
  | black {C : List (Frame α)} {n : Nat} (d : Side) (c : Color) {c' : Color} (x : α)
    {s : RBTree α} : Sound c' n s → Hole C .black (n + 1) → Hole (⟨d, .black, x, s⟩ :: C) c n

namespace Hole

variable {C D : List (Frame α)} {c c' : Color} {n : Nat} {t s e : RBTree α} {f : Frame α}
  {d : Side} {x : α}

/-- Where a red subtree is allowed a black one is. -/
theorem toBlack (h : Hole C c n) : Hole C .black n := by
  cases h with
  | root => exact root n
  | red d x hs hC => exact red d x hs hC
  | black d c x hs hC => exact black d .black x hs hC

theorem plug (h : Hole C c n) (ht : Sound c n t) : ∃ k, Sound .black k (plug C t) := by
  induction h generalizing t with
  | root n => exact ⟨n, ht⟩
  | red d x hs _ ih => exact ih (Sound.join_red d x ht hs)
  | black d c x hs _ ih => exact ih (Sound.join_black d x ht hs)

/-- Every subtree of a sound tree is sound, and its position takes it. -/
theorem of_plug {k : Nat} (h : Sound .black k (RedBlack.plug C t)) :
    ∃ c n, Hole C c n ∧ Sound c n t := by
  induction C generalizing t with
  | nil => exact ⟨.black, k, root k, h⟩
  | cons f C ih =>
    obtain ⟨c, n, hC, hf⟩ := ih h
    rcases f with ⟨d, col, x, s⟩
    have hcol : col = c := by
      have := hf.color_eq
      rwa [Frame.fill, color_join] at this
    subst hcol
    cases d <;> cases hf with
    | red x hl hr => exact ⟨.black, n, red _ x ‹_› hC, ‹_›⟩
    | black x hl hr => exact ⟨_, _, black _ _ x ‹_› hC, ‹_›⟩

/-- The node above a red node of a sound tree is black. -/
theorem of_red (h : Hole C .red n) : ∃ d x s c' C', C = ⟨d, .black, x, s⟩ :: C' ∧
    Sound c' n s ∧ Hole C' .black (n + 1) := by
  cases h with
  | black d c x hs hC => exact ⟨d, x, _, _, _, rfl, hs, hC⟩

/-- The sibling of the position has its height; a red one has a black parent. -/
theorem sibling (h : Hole (⟨d, c, x, s⟩ :: C) c' n) : ∃ cs, Sound cs n s ∧
    (cs = .red → c = .black ∧ Hole C .black (n + 1)) := by
  cases h with
  | red d x hs hC => exact ⟨_, hs, fun hred => Color.noConfusion hred⟩
  | black d c x hs hC => exact ⟨_, hs, fun _ => ⟨rfl, hC⟩⟩

/-- A black sibling of the same height takes the place of the old one. -/
theorem relabel {y : α} (h : Hole (⟨d, c, x, s⟩ :: C) .black n) (he : Sound .black n e) :
    Hole (⟨d, c, y, e⟩ :: C) .black n := by
  cases h with
  | red d x _ hC => exact red d y he hC
  | black d _ x _ hC => exact black d .black y he hC

/-- A label above the position does not matter. -/
theorem relabel_mid (h : Hole (D ++ ⟨d, c, x, s⟩ :: C) c' n) (y : α) :
    Hole (D ++ ⟨d, c, y, s⟩ :: C) c' n := by
  induction D generalizing c' n with
  | nil =>
    cases h with
    | red d x hs hC => exact red d y hs hC
    | black d _ x hs hC => exact black d _ y hs hC
  | cons f D ih =>
    cases h with
    | red d x hs hC => exact red d x hs (ih hC)
    | black d _ x hs hC => exact black d _ x hs (ih hC)

/-- A subtree of another height makes the tree unbalanced. -/
theorem not_sound {n' k : Nat} (h : Hole (f :: C) c n) (ht : Sound c' n' t) (hne : n ≠ n') :
    ¬ Sound .black k (RedBlack.plug (f :: C) t) := by
  intro hsound
  obtain ⟨_, m, h', ht'⟩ := of_plug hsound
  obtain ⟨d, cf, x, s⟩ := f
  obtain ⟨_, hs, -⟩ := h.sibling
  obtain ⟨_, hs', -⟩ := h'.sibling
  exact hne ((hs.height_unique hs').trans (ht'.height_unique ht))

end Hole

end RedBlack
