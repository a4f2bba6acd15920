import NiFat32.Core.Errors

/-!
# `Core.Fatmap`: the free-cluster bitmap (`src/fatmap.c`)

A set bit marks a cluster as occupied. The bitmap is absent until `fatmap_init`.
-/

set_option autoImplicit false

namespace NiFat32

variable (m : Mount)

/-- `fatmap_init` -/
def fatmapInit (s : FS) : Bool × FS :=
  if s.bitmap.isSome then (true, s)
  else
    let called := { s with mallocs := s.mallocs + 1 }
    if m.malloc s.mallocs = 0 then (false, registerError m .mallocError called)
    else (true, { called with bitmap := some fun _ => false })

/-- `fatmap_set`: mark a cluster as free. -/
def fatmapSet (ca : Nat) (s : FS) : FS :=
  { s with bitmap := s.bitmap.map fun b k => if k = ca then false else b k }

/-- `fatmap_unset`: mark a cluster as occupied. -/
def fatmapUnset (ca : Nat) (s : FS) : FS :=
  { s with bitmap := s.bitmap.map fun b k => if k = ca then true else b k }

/-- The inner loop of `fatmap_find_free`: the first set bit among the `size` bits from `i`,
the `j`-th one being the next to look at. -/
def fatmapRun (b : Nat → Bool) (i : Nat) : (left j : Nat) → Option Nat
  | 0, _ => none
  | left + 1, j => if b (i + j) then some (i + j) else fatmapRun b i left (j + 1)

/-- The outer loop of `fatmap_find_free`. Every pass moves `i` up, so `limit + 1` passes are
enough. -/
def fatmapScan (b : Nat → Bool) (size limit : Nat) : (passes i : Nat) → Nat
  | 0, _ => 0
  | passes + 1, i =>
    if limit < i then 0
    else
      match fatmapRun b i size 0 with
      | none => i
      | some bit => fatmapScan b size limit passes (bit + 1)

/-- `fatmap_find_free` -/
def fatmapFindFree (offset size : Nat) (s : FS) : Nat :=
  match s.bitmap with
  | none => 0
  | some b =>
    if size = 0 ∨ m.fi.totalClusters ≤ offset ∨ m.fi.totalClusters - offset < size then 0
    else
      let limit := m.fi.totalClusters - size
      fatmapScan b size limit (limit + 1) offset

end NiFat32
