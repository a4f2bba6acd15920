import NiFat32.Core.Addresses

/-!
# `Std.Mm`: the built-in memory manager (`std/mm.c`)

`_buffer` is cut into blocks. A block is a header and the memory behind it, and the headers are
linked in the order of their addresses. Addresses are offsets into `_buffer`, and `NULL` is `none`.
The memory holds a header at each address that the manager writes one to.

The walks along the headers take a bound on their steps; they are `none` when it is used up.
-/

set_option autoImplicit false

namespace NiFat32.Mm

/-- `ALLOC_BUFFER_SIZE` -/
abbrev ALLOC_BUFFER_SIZE : Nat := 512000

/-- `ALIGNMENT` -/
abbrev ALIGNMENT : Nat := 8

/-- `MM_BLOCK_MAGIC` -/
abbrev MM_BLOCK_MAGIC : Nat := 0xC07DE

/-- `NO_OFFSET` -/
abbrev NO_OFFSET : Nat := 0

/-- `sizeof(mm_block_t)`, where a pointer has eight bytes. -/
abbrev BLOCK_SIZE : Nat := 24

/-- `mm_block_t` -/
structure MmBlock where
  magic : Nat
  size : Nat
  free : Bool
  next : Option Nat

/-- The headers in `_buffer`, and `_allocated`. `_mm_head` is the start of the buffer. -/
structure Heap where
  block : Nat → MmBlock
  allocated : Int

/-- The memory before `nft32_mm_init`. -/
def zeroHeap : Heap where
  block := fun _ => { magic := 0, size := 0, free := false, next := none }
  allocated := 0

/-- A header is written. -/
def Heap.put (h : Heap) (a : Nat) (b : MmBlock) : Heap :=
  { h with block := fun x => if x = a then b else h.block x }

@[simp] theorem Heap.put_same (h : Heap) (a : Nat) (b : MmBlock) : (h.put a b).block a = b :=
  if_pos rfl

@[simp] theorem Heap.put_other (h : Heap) {a x : Nat} (b : MmBlock) (hx : x ≠ a) :
    (h.put a b).block x = h.block x := if_neg hx

@[simp] theorem Heap.put_allocated (h : Heap) (a : Nat) (b : MmBlock) :
    (h.put a b).allocated = h.allocated := rfl

/-- `_mm_init` -/
def mmInit (h : Heap) : Heap :=
  if (h.block 0).magic = MM_BLOCK_MAGIC then h
  else h.put 0 {
    magic := MM_BLOCK_MAGIC, size := ALLOC_BUFFER_SIZE - BLOCK_SIZE, free := true, next := none }

/-- The inner loop of `__coalesce_memory`, from the block `current` on. -/
def coalescePass : (fuel : Nat) → (current : Option Nat) → (merged : Bool) → Heap →
    Option (Bool × Heap)
  | 0, _, _, _ => none
  | _ + 1, none, merged, h => some (merged, h)
  | fuel + 1, some a, merged, h =>
    if (h.block a).magic ≠ MM_BLOCK_MAGIC then some (merged, h)
    else
      match (h.block a).next with
      | none => some (merged, h)
      | some n =>
        if (h.block a).free ∧ (h.block n).free then
          coalescePass fuel (some a) true (h.put a { h.block a with
            size := u32 ((h.block a).size + (BLOCK_SIZE + (h.block n).size))
            next := (h.block n).next })
        else coalescePass fuel (some n) merged h

/-- `__coalesce_memory`: passes until one merges nothing. -/
def coalesceMemory : (fuel : Nat) → Heap → Option Heap
  | 0, _ => none
  | fuel + 1, h =>
    match coalescePass fuel (some 0) false h with
    | none => none
    | some (false, h) => some h
    | some (true, h) => coalesceMemory fuel h

/-- `(n + (ALIGNMENT - 1)) & ~(ALIGNMENT - 1)`, on `w` bits. -/
def roundUp (w n : Nat) : Nat := (n + (ALIGNMENT - 1)) % 2 ^ w &&& (2 ^ w - ALIGNMENT)

/-- The loop of `__malloc_s` up to a block that will do. -/
def findBlock (size offset : Nat) (h : Heap) : (fuel : Nat) → (current : Option Nat) →
    Option (Option Nat)
  | 0, _ => none
  | _ + 1, none => some none
  | fuel + 1, some a =>
    if (h.block a).magic ≠ MM_BLOCK_MAGIC then some none
    else if (h.block a).free ∧ size ≤ (h.block a).size ∧ offset ≤ a + BLOCK_SIZE then some (some a)
    else findBlock size offset h fuel (h.block a).next

/-- The block `a` is cut when the rest has room for a header, and taken. -/
def takeBlock (size a : Nat) (h : Heap) : Heap :=
  let b := h.block a
  let h :=
    if size + BLOCK_SIZE ≤ b.size then
      let new := a + BLOCK_SIZE + size
      (h.put new {
        magic := MM_BLOCK_MAGIC, size := u32 (b.size - size - BLOCK_SIZE), free := true
        next := b.next }).put a { b with next := some new, size := u32 size }
    else h
  { h.put a { h.block a with free := false } with
    allocated := h.allocated + ((h.block a).size + BLOCK_SIZE : Nat) }

/-- One call of `__malloc_s`, up to its release of the lock. -/
def mallocPass (fuel : Nat) (prepareMem : Bool) (size offset : Nat) (h : Heap) :
    Option (Option Nat × Heap) :=
  match if prepareMem then coalesceMemory fuel h else some h with
  | none => none
  | some h =>
    match findBlock size offset h fuel (some 0) with
    | none => none
    | some none => some (none, h)
    | some (some a) => some (some (a + BLOCK_SIZE), takeBlock size a h)

/-- `__malloc_s`: the second attempt joins the free blocks first, and rounds its arguments again. -/
def mallocAt (fuel size offset : Nat) (h : Heap) : Option (Option Nat × Heap) :=
  if size = 0 then some (none, h)
  else
    let size := roundUp 64 size
    let offset := roundUp 32 offset
    match mallocPass fuel false size offset h with
    | none => none
    | some (some p, h) => some (some p, h)
    | some (none, h) =>
      if size = 0 then some (none, h)
      else mallocPass fuel true (roundUp 64 size) (roundUp 32 offset) h

/-- `nft32_malloc_s` of the default manager. -/
def mallocS (fuel size : Nat) (h : Heap) : Option (Option Nat × Heap) :=
  mallocAt fuel size NO_OFFSET h

/-- `nft32_free_s` of the default manager, for a pointer that has room for a header in front. -/
def freeS (ptr : Option Nat) (h : Heap) : Heap :=
  match ptr with
  | none => h
  | some p =>
    if ALLOC_BUFFER_SIZE ≤ p then h
    else
      let b := h.block (p - BLOCK_SIZE)
      if b.magic ≠ MM_BLOCK_MAGIC then h
      else if b.free then h
      else
        { h.put (p - BLOCK_SIZE) { b with free := true } with
          allocated := h.allocated - (b.size + BLOCK_SIZE : Nat) }

/-! ### Sequences of calls -/

/-- The heap, and the pointers that were returned and not freed, with the sizes that were asked
for. -/
structure MmState where
  heap : Heap
  live : List (Nat × Nat)

/-- A call: `nft32_malloc_s`, or `nft32_free_s` of the live pointer number `i`. -/
inductive MmCall where
  | malloc (size : Nat) (small : size < 2 ^ 32)
  | free (i : Nat)

/-- The state after `nft32_mm_init`. -/
def mmStart : MmState where
  heap := mmInit zeroHeap
  live := []

/-- The state after a call. -/
def mmStep (fuel : Nat) (s : MmState) : MmCall → Option MmState
  | .malloc size _ => (mallocS fuel size s.heap).map fun r =>
    { heap := r.2
      live := match r.1 with
        | none => s.live
        | some p => (p, size) :: s.live }
  | .free i =>
    match s.live[i]? with
    | none => some s
    | some x => some { heap := freeS (some x.1) s.heap, live := s.live.eraseIdx i }

/-- The state after the calls, in order. -/
def mmRun (fuel : Nat) (calls : List MmCall) : Option MmState :=
  calls.foldlM (mmStep fuel) mmStart

end NiFat32.Mm
