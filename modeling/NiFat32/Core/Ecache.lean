import NiFat32.Core.State

/-!
# `Core.Ecache`: the index tree of a directory (`src/ecache.c`)

The tree is a red-black tree of heap nodes with parent links, keyed by the name hash. Every
pointer is an address and `0` is `NULL`. The loops follow pointers, so they take a bound on
the number of passes, and the result is `none` when the bound is used up.
-/

set_option autoImplicit false

namespace NiFat32

/-- The heap of index nodes. -/
abbrev Heap := Nat → EcacheNode

/-- `ECACHE_BLACK` -/
abbrev ECACHE_BLACK : BitVec 3 := 0b001#3

/-- `ECACHE_FILE` -/
abbrev ECACHE_FILE : BitVec 3 := 0b010#3

/-- `ECACHE_DIR` -/
abbrev ECACHE_DIR : BitVec 3 := 0b100#3

namespace Heap

variable (h : Heap)

/-- The heap with the node at `a` replaced. -/
def upd (a : Nat) (n : EcacheNode) : Heap := fun k => if k = a then n else h k

/-- `a->p = v` -/
def setP (a v : Nat) : Heap := upd h a { h a with p := v }

/-- `a->l = v` -/
def setL (a v : Nat) : Heap := upd h a { h a with l := v }

/-- `a->r = v` -/
def setR (a v : Nat) : Heap := upd h a { h a with r := v }

/-- `IS_ECACHE_BLACK` -/
def isBlack (a : Nat) : Bool := (h a).flags &&& ECACHE_BLACK ≠ 0#3

/-- `IS_ECACHE_RED` -/
def isRed (a : Nat) : Bool := (h a).flags &&& ECACHE_BLACK = 0#3

/-- `IS_ECACHE_DIR` -/
def isDir (a : Nat) : Bool := (h a).flags &&& ECACHE_DIR ≠ 0#3

/-- `SET_ECACHE_RED` -/
def setRed (a : Nat) : Heap := upd h a { h a with flags := (h a).flags &&& ~~~ECACHE_BLACK }

/-- `SET_ECACHE_BLACK` -/
def setBlack (a : Nat) : Heap := upd h a { h a with flags := (h a).flags ||| ECACHE_BLACK }

/-- `SET_ECACHE_COLOR_VAL(a, GET_ECACHE_COLOR(b))` for a node `b`. -/
def copyColor (a b : Nat) : Heap := if isBlack h b then setBlack h a else setRed h a

end Heap

open Heap

/-- The child or root link that pointed to `x` now points to `y`. -/
def relink (root : Nat) (h : Heap) (x y : Nat) : Nat × Heap :=
  let p := (h x).p
  if p = 0 then (y, h)
  else if x = (h p).l then (root, setL h p y)
  else (root, setR h p y)

/-- `_rotate_left` -/
def rotateLeft (root : Nat) (h : Heap) (x : Nat) : Nat × Heap :=
  let y := (h x).r
  let h := setR h x (h y).l
  let h := if (h y).l = 0 then h else setP h (h y).l x
  let h := setP h y (h x).p
  let (root, h) := relink root h x y
  let h := setL h y x
  (root, setP h x y)

/-- `_rotate_right`. It compares with the right child first. -/
def rotateRight (root : Nat) (h : Heap) (x : Nat) : Nat × Heap :=
  let y := (h x).l
  let h := setL h x (h y).r
  let h := if (h y).r = 0 then h else setP h (h y).r x
  let h := setP h y (h x).p
  let p := (h x).p
  let (root, h) :=
    if p = 0 then (y, h) else if x = (h p).r then (root, setR h p y) else (root, setL h p y)
  let h := setR h y x
  (root, setP h x y)

/-- The loop of `_fix_insert`. -/
def fixInsertLoop : (fuel root : Nat) → Heap → (z : Nat) → Option (Nat × Heap)
  | 0, _, _, _ => none
  | fuel + 1, root, h, z =>
    let p := (h z).p
    if p = 0 ∨ isBlack h p then some (root, h)
    else
      let gp := (h p).p
      if p = (h gp).l then
        let y := (h gp).r
        if y ≠ 0 ∧ isRed h y then
          fixInsertLoop fuel root (setRed (setBlack (setBlack h p) y) gp) gp
        else
          let (z, root, h) :=
            if z = (h p).r then
              let (root, h) := rotateLeft root h p
              (p, root, h)
            else (z, root, h)
          let h := setRed (setBlack h (h z).p) gp
          let (root, h) := rotateRight root h gp
          fixInsertLoop fuel root h z
      else
        let y := (h gp).l
        if y ≠ 0 ∧ isRed h y then
          fixInsertLoop fuel root (setRed (setBlack (setBlack h p) y) gp) gp
        else
          let (z, root, h) :=
            if z = (h p).l then
              let (root, h) := rotateRight root h p
              (p, root, h)
            else (z, root, h)
          let h := setRed (setBlack h (h z).p) gp
          let (root, h) := rotateLeft root h gp
          fixInsertLoop fuel root h z

/-- `_fix_insert` -/
def fixInsert (fuel root : Nat) (h : Heap) (z : Nat) : Option (Nat × Heap) :=
  (fixInsertLoop fuel root h z).map fun (root, h) => (root, setBlack h root)

/-- The descent of `ecache_insert`: the last node before a missing child, or `none` inside
when the hash is already there. -/
def insertPos (hash : UInt32) (h : Heap) : (fuel x y : Nat) → Option (Option Nat)
  | 0, _, _ => none
  | fuel + 1, x, y =>
    if x = 0 then some (some y)
    else if hash < (h x).hash then insertPos hash h fuel (h x).l x
    else if (h x).hash < hash then insertPos hash h fuel (h x).r x
    else some none

/-- `ecache_insert`: the new root. -/
def ecacheInsert (m : Mount) (fuel root : Nat) (hash : UInt32) (isDir : Bool) (ca : Nat)
    (s : FS) : Option (Nat × FS) :=
  let z := m.malloc s.mallocs
  let s := { s with mallocs := s.mallocs + 1 }
  if z = 0 then some (root, s)
  else
    let flags := (s.heap z).flags &&& ~~~ECACHE_BLACK
    let h := upd s.heap z
      { p := 0, l := 0, r := 0, hash := hash, ca := ca
        flags := flags ||| (if isDir then ECACHE_DIR else ECACHE_FILE) }
    match insertPos hash h fuel root 0 with
    | none => none
    | some none => some (root, { s with heap := h })
    | some (some y) =>
      let h := setP h z y
      let (root, h) :=
        if y = 0 then (z, h)
        else if hash < (h y).hash then (root, setL h y z) else (root, setR h y z)
      (fixInsert fuel root h z).map fun (root, h) => (root, { s with heap := h })

/-- `ecache_find` -/
def ecacheFind (hash : UInt32) (h : Heap) : (fuel root : Nat) → Option Nat
  | 0, _ => none
  | fuel + 1, root =>
    if root = 0 then some 0
    else if hash < (h root).hash then ecacheFind hash h fuel (h root).l
    else if (h root).hash < hash then ecacheFind hash h fuel (h root).r
    else some root

/-- `_minimum` -/
def minimum (h : Heap) : (fuel node : Nat) → Option Nat
  | 0, _ => none
  | fuel + 1, node => if (h node).l = 0 then some node else minimum h fuel (h node).l

/-- `_transplant` -/
def transplant (root : Nat) (h : Heap) (u v : Nat) : Nat × Heap :=
  let (root, h) := relink root h u v
  (root, if v = 0 then h else setP h v (h u).p)

/-- A missing child counts as black. -/
def childBlack (h : Heap) (a : Nat) : Bool := a = 0 ∨ isBlack h a

/-- The loop of `_fix_delete`. -/
def fixDeleteLoop : (fuel root : Nat) → Heap → (x parent : Nat) → Option (Nat × Nat × Heap)
  | 0, _, _, _, _ => none
  | fuel + 1, root, h, x, parent =>
    if x = root ∨ ¬ childBlack h x then some (x, root, h)
    else if x = (h parent).l then
      let w := (h parent).r
      let (w, root, h) :=
        if isRed h w then
          let (root, h) := rotateLeft root (setRed (setBlack h w) parent) parent
          ((h parent).r, root, h)
        else (w, root, h)
      if childBlack h (h w).l ∧ childBlack h (h w).r then
        let h := setRed h w
        fixDeleteLoop fuel root h parent (h parent).p
      else
        let (w, root, h) :=
          if childBlack h (h w).r then
            let h := if (h w).l = 0 then h else setBlack h (h w).l
            let (root, h) := rotateRight root (setRed h w) w
            ((h parent).r, root, h)
          else (w, root, h)
        let h :=
          if w = 0 then h else if isRed h parent then setRed h w else setBlack h w
        let h := setBlack h parent
        let h := if w = 0 ∨ (h w).r = 0 then h else setBlack h (h w).r
        let (root, h) := rotateLeft root h parent
        some (root, root, h)
    else
      let w := (h parent).l
      let (w, root, h) :=
        if isRed h w then
          let (root, h) := rotateRight root (setRed (setBlack h w) parent) parent
          ((h parent).l, root, h)
        else (w, root, h)
      if childBlack h (h w).r ∧ childBlack h (h w).l then
        let h := setRed h w
        fixDeleteLoop fuel root h parent (h parent).p
      else
        let (w, root, h) :=
          if childBlack h (h w).l then
            let h := if (h w).r = 0 then h else setBlack h (h w).r
            let (root, h) := rotateLeft root (setRed h w) w
            ((h parent).l, root, h)
          else (w, root, h)
        let h :=
          if w = 0 then h else if isRed h parent then setRed h w else setBlack h w
        let h := setBlack h parent
        let h := if w = 0 ∨ (h w).l = 0 then h else setBlack h (h w).l
        let (root, h) := rotateRight root h parent
        some (root, root, h)

/-- `_fix_delete` -/
def fixDelete (fuel root : Nat) (h : Heap) (x parent : Nat) : Option (Nat × Heap) :=
  (fixDeleteLoop fuel root h x parent).map fun (x, root, h) =>
    (root, if x = 0 then h else setBlack h x)

/-- `ecache_delete`: the new root. -/
def ecacheDelete (fuel root : Nat) (hash : UInt32) (h : Heap) : Option (Nat × Heap) :=
  match ecacheFind hash h fuel root with
  | none => none
  | some z =>
    if z = 0 then some (root, h)
    else if (h z).l = 0 then
      let x := (h z).r
      let parent := (h z).p
      let (root, h') := transplant root h z x
      if isBlack h z then fixDelete fuel root h' x parent else some (root, h')
    else if (h z).r = 0 then
      let x := (h z).l
      let parent := (h z).p
      let (root, h') := transplant root h z x
      if isBlack h z then fixDelete fuel root h' x parent else some (root, h')
    else
      match minimum h fuel (h z).r with
      | none => none
      | some y =>
        let x := (h y).r
        let (parent, root, h) :=
          if (h y).p = z then (y, root, if x = 0 then h else setP h x y)
          else
            let (root, h) := transplant root h y x
            let h := setR h y (h z).r
            let h := if (h y).r = 0 then h else setP h (h y).r y
            ((h y).p, root, h)
        let (root, h) := transplant root h z y
        let h := setL h y (h z).l
        let h := if (h y).l = 0 then h else setP h (h y).l y
        let h := copyColor h y z
        if isBlack h y then fixDelete fuel root h x parent else some (root, h)

end NiFat32
