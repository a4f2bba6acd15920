import Mathlib.Data.List.Perm.Basic
import NiFat32.Lib.FirstFit
import NiFat32.Lib.Run
import NiFat32.Std.Mm

/-!
# `Proofs.Heap`: the built-in heap is sound and does not stay fragmented

`Linked` relates the headers in the memory to a row of cells: each header is where the cell before
it ends. The operations of the manager are those of the row: `takeBlock` cuts a free cell, `freeS`
frees one, and `__coalesce_memory` joins the runs of free cells, `coalesceMemory_linked`. It needs
one pass, and a second one to see that nothing is left to join.

`heap_sound` follows the row through every sequence of calls.
-/

set_option autoImplicit false

namespace NiFat32.Mm

open FirstFit

variable {h h' : Heap} {a n : Nat} {p q : Option Nat} {c d : Cell} {l l' pre post : List Cell}

/-- The headers from the pointer `p` on are those of the cells in the row, which starts at `a`; the
last one points to `q`. -/
def Linked (h : Heap) : (p : Option Nat) → (a : Nat) → List Cell → (q : Option Nat) → Prop
  | p, _, [], q => p = q
  | p, a, c :: l, q => p = some a ∧ (h.block a).magic = MM_BLOCK_MAGIC ∧
    (h.block a).size = c.size ∧ (h.block a).free = c.free ∧
    Linked h (h.block a).next (a + BLOCK_SIZE + c.size) l q

theorem linked_cons : Linked h p a (c :: l) q ↔ p = some a ∧
    (h.block a).magic = MM_BLOCK_MAGIC ∧ (h.block a).size = c.size ∧ (h.block a).free = c.free ∧
    Linked h (h.block a).next (a + BLOCK_SIZE + c.size) l q := Iff.rfl

theorem block_size_pos : 0 < BLOCK_SIZE := by decide

theorem linked_append : Linked h p a (l ++ l') q ↔
    ∃ m, Linked h p a l m ∧ Linked h m (a + total BLOCK_SIZE l) l' q := by
  induction l generalizing p a with
  | nil =>
    constructor
    · exact fun hl => ⟨p, rfl, hl⟩
    · rintro ⟨m, rfl, hl⟩
      exact hl
  | cons c l ih =>
    have hend : a + BLOCK_SIZE + c.size + total BLOCK_SIZE l =
        a + total BLOCK_SIZE (c :: l) := by
      rw [total_cons]
      omega
    rw [List.cons_append, linked_cons, ih, hend]
    constructor
    · rintro ⟨hp, hm, hs, hf, m, hl, hl'⟩
      exact ⟨m, linked_cons.mpr ⟨hp, hm, hs, hf, hl⟩, hl'⟩
    · rintro ⟨m, hl, hl'⟩
      obtain ⟨hp, hm, hs, hf, hrest⟩ := linked_cons.mp hl
      exact ⟨hp, hm, hs, hf, m, hrest, hl'⟩

/-- The row depends on the headers in its range only. -/
theorem Linked.congr (hl : Linked h p a l q)
    (heq : ∀ x, a ≤ x → x < a + total BLOCK_SIZE l → h'.block x = h.block x) :
    Linked h' p a l q := by
  induction l generalizing p a with
  | nil => exact hl
  | cons c l ih =>
    have hpos := block_size_pos
    obtain ⟨hp, hm, hs, hf, hrest⟩ := hl
    rw [total_cons] at heq
    have hhead := heq a (Nat.le_refl a) (by omega)
    refine ⟨hp, by rw [hhead, hm], by rw [hhead, hs], by rw [hhead, hf], ?_⟩
    rw [hhead]
    exact ih hrest fun x hlo hhi => heq x (by omega) (by omega)

/-- A header in front of the row is written. -/
theorem Linked.put_before {x : Nat} (hl : Linked h p a l q) (hx : x < a) (b : MmBlock) :
    Linked (h.put x b) p a l q :=
  hl.congr fun y hlo _ => Heap.put_other h b (by omega)

/-! ### Joining -/

/-- One pass of `__coalesce_memory` joins the runs of free blocks, and says whether there were
any. -/
theorem coalescePass_linked (fuel : Nat) (merged : Bool)
    (hl : Linked h (some a) a (c :: l) none) (hsmall : total BLOCK_SIZE (c :: l) < 2 ^ 32)
    (hfuel : l.length < fuel) : ∃ h', coalescePass fuel (some a) merged h =
        some (merged || decide ((join BLOCK_SIZE c l).length < l.length + 1), h') ∧
      Linked h' (some a) a (join BLOCK_SIZE c l) none ∧ h'.allocated = h.allocated ∧
      ∀ x < a, h'.block x = h.block x := by
  induction l generalizing h a c fuel merged with
  | nil =>
    obtain ⟨fuel, rfl⟩ : ∃ k, fuel = k + 1 := ⟨fuel - 1, by omega⟩
    have hmagic := hl.2.1
    have hnext : (h.block a).next = none := hl.2.2.2.2
    refine ⟨h, ?_, hl, rfl, fun x _ => rfl⟩
    rw [coalescePass, if_neg (not_not.mpr hmagic), hnext]
    simp [join]
  | cons d l ih =>
    obtain ⟨fuel, rfl⟩ : ∃ k, fuel = k + 1 := ⟨fuel - 1, by omega⟩
    have hpos := block_size_pos
    obtain ⟨-, hm, hs, hf, hrest⟩ := hl
    obtain ⟨hnext, hm', hs', hf', hrest'⟩ := hrest
    rw [coalescePass, if_neg (not_not.mpr hm), hnext]
    dsimp only
    rw [hf, hf', hs, hs']
    rw [total_cons, total_cons] at hsmall
    have hsum : u32 (c.size + (BLOCK_SIZE + d.size)) = c.size + (BLOCK_SIZE + d.size) :=
      u32_of_lt (by omega)
    by_cases hfree : c.free = true ∧ d.free = true
    · rw [if_pos hfree, hsum, join_merge hfree]
      have hmerged : Linked (h.put a {
            magic := (h.block a).magic
            size := c.size + (BLOCK_SIZE + d.size)
            free := c.free
            next := (h.block (a + BLOCK_SIZE + c.size)).next }) (some a) a
          ({ c with size := c.size + (BLOCK_SIZE + d.size) } :: l) none := by
        rw [linked_cons, Heap.put_same]
        refine ⟨rfl, hm, rfl, rfl, ?_⟩
        have hend : a + BLOCK_SIZE + (c.size + (BLOCK_SIZE + d.size)) =
            a + BLOCK_SIZE + c.size + BLOCK_SIZE + d.size := by omega
        rw [hend]
        exact hrest'.put_before (by omega) _
      obtain ⟨h', hpass, hl', halloc, hframe⟩ := ih fuel true hmerged
        (by rw [total_cons]; dsimp only; omega) (Nat.lt_of_succ_lt_succ hfuel)
      have hlen := length_join_le (h := BLOCK_SIZE)
        { c with size := c.size + (BLOCK_SIZE + d.size) } l
      refine ⟨h', ?_, hl', halloc, fun x hx => ?_⟩
      · rw [hpass, List.length_cons, decide_eq_true (Nat.lt_succ_of_le hlen), Bool.or_true,
          Bool.true_or]
      · rw [hframe x hx, Heap.put_other _ _ (by omega)]
    · rw [if_neg hfree, join_keep hfree]
      obtain ⟨h', hpass, hl', halloc, hframe⟩ := ih fuel merged
        (linked_cons.mpr ⟨rfl, hm', hs', hf', hrest'⟩) (by rw [total_cons]; omega)
        (Nat.lt_of_succ_lt_succ hfuel)
      have hsame : h'.block a = h.block a := hframe a (by omega)
      refine ⟨h', ?_, ?_, halloc, fun x hx => hframe x (by omega)⟩
      · rw [hpass]
        simp
      · rw [linked_cons, hsame, hnext]
        exact ⟨rfl, hm, hs, hf, hl'⟩

/-- `__coalesce_memory` joins the runs of free blocks. -/
theorem coalesceMemory_linked {fuel : Nat} (hl : Linked h (some 0) 0 l none)
    (hsmall : total BLOCK_SIZE l < 2 ^ 32) (hfuel : l.length < fuel) :
    ∃ h', coalesceMemory fuel h = some h' ∧
      Linked h' (some 0) 0 (coalesce BLOCK_SIZE l) none ∧ h'.allocated = h.allocated := by
  obtain ⟨fuel, rfl⟩ : ∃ k, fuel = k + 1 := ⟨fuel - 1, by omega⟩
  cases l with
  | nil => cases hl
  | cons c l =>
    rw [List.length_cons] at hfuel
    obtain ⟨h₁, hpass, hl₁, halloc₁, -⟩ := coalescePass_linked fuel false hl hsmall (by omega)
    rw [Bool.false_or] at hpass
    rw [coalesceMemory, hpass]
    by_cases hlt : (join BLOCK_SIZE c l).length < l.length + 1
    · -- A pass over the joined row joins nothing.
      rw [decide_eq_true hlt]
      obtain ⟨d, rest, hjoin, -, -, hagain⟩ := join_head (h := BLOCK_SIZE) c l
      have htotal := total_join (h := BLOCK_SIZE) c l
      rw [hjoin] at hl₁ hlt htotal
      rw [List.length_cons] at hlt
      obtain ⟨fuel, rfl⟩ : ∃ k, fuel = k + 1 := ⟨fuel - 1, by omega⟩
      obtain ⟨h₂, hpass₂, hl₂, halloc₂, -⟩ :=
        coalescePass_linked fuel false hl₁ (htotal ▸ hsmall) (by omega)
      rw [hagain] at hl₂ hpass₂
      refine ⟨h₂, ?_, ?_, halloc₂.trans halloc₁⟩
      · show coalesceMemory (fuel + 1) h₁ = some h₂
        rw [coalesceMemory, hpass₂, List.length_cons]
        simp
      · show Linked h₂ (some 0) 0 (join BLOCK_SIZE c l) none
        rw [hjoin]
        exact hl₂
    · rw [decide_eq_false hlt]
      exact ⟨h₁, rfl, hl₁, halloc₁⟩

/-! ### Taking a block -/

/-- The search ends on a free block that will do, or there is none. -/
theorem findBlock_linked {fuel : Nat} (size : Nat) (hl : Linked h p a l none)
    (hfuel : l.length < fuel) :
    (findBlock size 0 h fuel p = some none ∧ ∀ c ∈ l, c.free = true → c.size < size) ∨
    ∃ pre c post, l = pre ++ c :: post ∧ c.free = true ∧ size ≤ c.size ∧
      findBlock size 0 h fuel p = some (some (a + total BLOCK_SIZE pre)) := by
  induction l generalizing p a fuel with
  | nil =>
    obtain ⟨fuel, rfl⟩ : ∃ k, fuel = k + 1 := ⟨fuel - 1, by omega⟩
    obtain rfl : p = none := hl
    exact .inl ⟨rfl, fun c hc => absurd hc List.not_mem_nil⟩
  | cons d l ih =>
    obtain ⟨fuel, rfl⟩ : ∃ k, fuel = k + 1 := ⟨fuel - 1, by omega⟩
    obtain ⟨rfl, hm, hs, hf, hrest⟩ := hl
    rw [findBlock, if_neg (not_not.mpr hm), hs, hf]
    by_cases hfit : d.free = true ∧ size ≤ d.size ∧ 0 ≤ a + BLOCK_SIZE
    · rw [if_pos hfit]
      exact .inr ⟨[], d, l, rfl, hfit.1, hfit.2.1, rfl⟩
    · rw [if_neg hfit]
      cases ih hrest (Nat.lt_of_succ_lt_succ hfuel) with
      | inl hnone =>
        refine .inl ⟨hnone.1, fun c hc hfree => ?_⟩
        cases List.mem_cons.mp hc with
        | inl heq =>
          subst heq
          exact Nat.lt_of_not_le fun hle => hfit ⟨hfree, hle, Nat.zero_le _⟩
        | inr hmem => exact hnone.2 c hmem hfree
      | inr hsome =>
        obtain ⟨pre, c, post, rfl, hfree, hle, hfind⟩ := hsome
        refine .inr ⟨d :: pre, c, post, rfl, hfree, hle, ?_⟩
        rw [hfind, total_cons]
        congr 2
        omega

/-- A block with room for another header is cut in two. -/
theorem takeBlock_cut {size : Nat} (hroom : size + BLOCK_SIZE ≤ (h.block a).size)
    (hsmall : (h.block a).size < 2 ^ 32) :
    (takeBlock size a h).block a = { h.block a with
      size := size, free := false, next := some (a + BLOCK_SIZE + size) } ∧
    (takeBlock size a h).block (a + BLOCK_SIZE + size) = {
      magic := MM_BLOCK_MAGIC, size := (h.block a).size - size - BLOCK_SIZE, free := true
      next := (h.block a).next } ∧
    (∀ x, x ≠ a → x ≠ a + BLOCK_SIZE + size → (takeBlock size a h).block x = h.block x) ∧
    (takeBlock size a h).allocated = h.allocated + (size + BLOCK_SIZE : Nat) := by
  have hpos := block_size_pos
  have hrest : u32 ((h.block a).size - size - BLOCK_SIZE) = (h.block a).size - size - BLOCK_SIZE :=
    u32_of_lt (by omega)
  have hsame : u32 size = size := u32_of_lt (by omega)
  simp only [takeBlock, if_pos hroom, hrest, hsame, Heap.put_same, Heap.put_allocated]
  refine ⟨trivial, ?_, fun x hxa hxn => ?_, trivial⟩
  · rw [Heap.put_other _ _ (by omega), Heap.put_other _ _ (by omega), Heap.put_same]
  · rw [Heap.put_other _ _ hxa, Heap.put_other _ _ hxa, Heap.put_other _ _ hxn]

/-- A block without that room is taken whole. -/
theorem takeBlock_whole {size : Nat} (hroom : ¬ size + BLOCK_SIZE ≤ (h.block a).size) :
    (takeBlock size a h).block a = { h.block a with free := false } ∧
    (∀ x, x ≠ a → (takeBlock size a h).block x = h.block x) ∧
    (takeBlock size a h).allocated = h.allocated + ((h.block a).size + BLOCK_SIZE : Nat) := by
  simp only [takeBlock, if_neg hroom, Heap.put_same]
  exact ⟨trivial, fun x hx => Heap.put_other _ _ hx, trivial⟩

/-- A free block is cut and taken. -/
theorem takeBlock_linked {size : Nat} (hl : Linked h p a (pre ++ c :: post) q)
    (hsize : size ≤ c.size) (hsmall : c.size < 2 ^ 32) :
    Linked (takeBlock size (a + total BLOCK_SIZE pre) h) p a
      (pre ++ (cut BLOCK_SIZE size c ++ post)) q ∧
    (takeBlock size (a + total BLOCK_SIZE pre) h).allocated =
      h.allocated + (cutSize BLOCK_SIZE size c + BLOCK_SIZE : Nat) := by
  obtain ⟨m, hpre, hcell⟩ := linked_append.mp hl
  obtain ⟨rfl, hm, hs, hf, hpost⟩ := linked_cons.mp hcell
  have hpos := block_size_pos
  rw [linked_append]
  generalize hx : a + total BLOCK_SIZE pre = x at hpre hm hs hf hpost ⊢
  unfold cut cutSize
  by_cases hroom : size + BLOCK_SIZE ≤ c.size
  · rw [if_pos hroom, if_pos hroom]
    obtain ⟨hhead, hnew, hframe, halloc⟩ :=
      @takeBlock_cut h x size (hs ▸ hroom) (hs ▸ hsmall)
    refine ⟨⟨some x, hpre.congr fun y hlo hhi => hframe y (by omega) (by omega), ?_⟩, halloc⟩
    have hend : x + BLOCK_SIZE + size + BLOCK_SIZE + (c.size - size - BLOCK_SIZE) =
        x + BLOCK_SIZE + c.size := by omega
    rw [List.cons_append, List.cons_append, List.nil_append, linked_cons, hhead]
    refine ⟨rfl, hm, rfl, rfl, ?_⟩
    rw [linked_cons, hnew, hs, hend]
    exact ⟨rfl, rfl, rfl, rfl, hpost.congr fun y hlo hhi => hframe y (by omega) (by omega)⟩
  · rw [if_neg hroom, if_neg hroom]
    obtain ⟨hhead, hframe, halloc⟩ := @takeBlock_whole h x size (hs ▸ hroom)
    refine ⟨⟨some x, hpre.congr fun y hlo hhi => hframe y (by omega), ?_⟩, hs ▸ halloc⟩
    rw [List.cons_append, List.nil_append, linked_cons, hhead]
    exact ⟨rfl, hm, hs, rfl, hpost.congr fun y hlo hhi => hframe y (by omega)⟩

/-- A block that is in use is freed. -/
theorem freeS_linked (hl : Linked h p a (pre ++ c :: post) q) (hc : c.free = false)
    (hin : a + total BLOCK_SIZE pre + BLOCK_SIZE < ALLOC_BUFFER_SIZE) :
    Linked (freeS (some (a + total BLOCK_SIZE pre + BLOCK_SIZE)) h) p a
      (pre ++ { c with free := true } :: post) q ∧
    (freeS (some (a + total BLOCK_SIZE pre + BLOCK_SIZE)) h).allocated =
      h.allocated - (c.size + BLOCK_SIZE : Nat) := by
  obtain ⟨m, hpre, hcell⟩ := linked_append.mp hl
  obtain ⟨rfl, hm, hs, hf, hpost⟩ := linked_cons.mp hcell
  have hpos := block_size_pos
  rw [linked_append]
  generalize hx : a + total BLOCK_SIZE pre = x at hpre hm hs hf hpost hin ⊢
  have hlive : ¬ (h.block x).free = true := by rw [hf, hc]; exact Bool.false_ne_true
  have hfree : freeS (some (x + BLOCK_SIZE)) h =
      { h.put x { h.block x with free := true } with
        allocated := h.allocated - ((h.block x).size + BLOCK_SIZE : Nat) } := by
    simp only [freeS, if_neg (Nat.not_le.mpr hin), Nat.add_sub_cancel, if_neg (not_not.mpr hm),
      if_neg hlive]
  rw [hfree]
  refine ⟨⟨some x, hpre.congr fun y hlo hhi => Heap.put_other h _ (by omega), ?_⟩, by rw [hs]⟩
  rw [linked_cons]
  show _ ∧ ((h.put x _).block x).magic = _ ∧ ((h.put x _).block x).size = _ ∧
    ((h.put x _).block x).free = _ ∧ Linked _ ((h.put x _).block x).next _ _ _
  rw [Heap.put_same]
  exact ⟨rfl, hm, hs, rfl, hpost.congr fun y hlo hhi => Heap.put_other h _ (by omega)⟩

/-! ### What the calls keep -/

/-- The state `s` of the manager is the row `l`, and the live pointers are its cells in use. -/
structure HeapInv (s : MmState) (l : List Cell) : Prop where
  linked : Linked s.heap (some 0) 0 l none
  total_eq : total BLOCK_SIZE l = ALLOC_BUFFER_SIZE
  aligned : ∀ c ∈ l, ALIGNMENT ∣ c.size
  allocated_eq : s.heap.allocated =
    ((used BLOCK_SIZE 0 l).map fun x => x.2.size + BLOCK_SIZE).sum
  owned : (s.live.map Prod.fst).Perm ((used BLOCK_SIZE 0 l).map fun x => x.1 + BLOCK_SIZE)
  sized : ∀ x ∈ s.live, ∀ y ∈ used BLOCK_SIZE 0 l, x.1 = y.1 + BLOCK_SIZE → x.2 ≤ y.2.size
  asked : ∀ x ∈ s.live, 0 < x.2

variable {s : MmState}

/-- Any buffer size is a bound for the walks along the headers. -/
theorem HeapInv.length_lt (hs : HeapInv s l) : l.length < ALLOC_BUFFER_SIZE := by
  have hle := length_mul_le_total BLOCK_SIZE l
  rw [hs.total_eq] at hle
  have hbuffer : ALLOC_BUFFER_SIZE = 512000 := rfl
  have hblock : BLOCK_SIZE = 24 := rfl
  rw [hblock, hbuffer] at hle
  omega

/-- A live pointer is behind the header of a cell in use. -/
theorem HeapInv.mem_used (hs : HeapInv s l) {x : Nat × Nat} (hx : x ∈ s.live) :
    ∃ y ∈ used BLOCK_SIZE 0 l, x.1 = y.1 + BLOCK_SIZE ∧ x.2 ≤ y.2.size := by
  have hmem := hs.owned.subset (List.mem_map_of_mem hx)
  obtain ⟨y, hy, heq⟩ := List.mem_map.mp hmem
  exact ⟨y, hy, heq.symm, hs.sized x hx y hy heq.symm⟩

/-- A free cell is not in use. -/
theorem not_used_of_free (hc : c.free = true) {y : Nat × Cell}
    (hy : y ∈ used BLOCK_SIZE 0 (pre ++ c :: post)) : y.1 ≠ total BLOCK_SIZE pre := by
  intro hpos
  obtain ⟨hplaced, hlive⟩ := List.mem_filter.mp hy
  have hhere : (total BLOCK_SIZE pre, c) ∈ placed BLOCK_SIZE 0 (pre ++ c :: post) := by
    rw [placed_append, Nat.zero_add]
    exact List.mem_append_right _ List.mem_cons_self
  have heq := placed_inj block_size_pos hplaced hhere hpos
  rw [heq] at hlive
  simp [hc] at hlive

/-- Nothing changes for the live pointers when free blocks are joined. -/
theorem HeapInv.joined (hs : HeapInv s l) (hl : Linked h' (some 0) 0 (coalesce BLOCK_SIZE l) none)
    (halloc : h'.allocated = s.heap.allocated) :
    HeapInv { s with heap := h' } (coalesce BLOCK_SIZE l) := by
  have hused : used BLOCK_SIZE 0 (coalesce BLOCK_SIZE l) = used BLOCK_SIZE 0 l := by
    cases l with
    | nil => rfl
    | cons c l => exact used_join 0 c l
  have htotal : total BLOCK_SIZE (coalesce BLOCK_SIZE l) = total BLOCK_SIZE l := by
    cases l with
    | nil => rfl
    | cons c l => exact total_join c l
  have haligned : ∀ c ∈ coalesce BLOCK_SIZE l, ALIGNMENT ∣ c.size := by
    cases l with
    | nil => exact fun c hc => absurd hc List.not_mem_nil
    | cons c l =>
      exact dvd_join (by decide) (hs.aligned c List.mem_cons_self)
        fun d hd => hs.aligned d (List.mem_cons_of_mem c hd)
  exact {
    linked := hl
    total_eq := htotal.trans hs.total_eq
    aligned := haligned
    allocated_eq := by rw [hused]; exact halloc.trans hs.allocated_eq
    owned := by rw [hused]; exact hs.owned
    sized := by rw [hused]; exact hs.sized
    asked := hs.asked }

/-- What is cut is aligned. -/
theorem aligned_cut {size : Nat} (hdvd : ALIGNMENT ∣ size) (hc : ALIGNMENT ∣ c.size) :
    ∀ d ∈ cut BLOCK_SIZE size c, ALIGNMENT ∣ d.size := by
  unfold cut
  split
  · intro d hd
    cases List.mem_cons.mp hd with
    | inl heq => exact heq ▸ hdvd
    | inr hmem =>
      rw [List.mem_singleton.mp hmem]
      exact Nat.dvd_sub (Nat.dvd_sub hc hdvd) (by decide)
  · exact fun d hd => List.mem_singleton.mp hd ▸ hc

/-- A block that is taken is live. -/
theorem HeapInv.taken {size : Nat} (hs : HeapInv s (pre ++ c :: post)) (hc : c.free = true)
    (hsize : size ≤ c.size) (hn : n ≤ size) (hpos : 0 < n) (hdvd : ALIGNMENT ∣ size) :
    HeapInv { heap := takeBlock size (total BLOCK_SIZE pre) s.heap
              live := (total BLOCK_SIZE pre + BLOCK_SIZE, n) :: s.live }
      (pre ++ (cut BLOCK_SIZE size c ++ post)) := by
  have htotal := hs.total_eq
  rw [total_append, total_cons] at htotal
  have hbuffer : ALLOC_BUFFER_SIZE = 512000 := rfl
  obtain ⟨hlinked, halloc⟩ := takeBlock_linked hs.linked hsize (by omega)
  have hperm := @used_cut_perm BLOCK_SIZE 0 size c pre post hc
  rw [Nat.zero_add] at hlinked halloc hperm
  constructor
  · exact hlinked
  · rw [total_append, total_append, total_cut]
    omega
  · intro d hd
    cases List.mem_append.mp hd with
    | inl hpre => exact hs.aligned d (List.mem_append_left _ hpre)
    | inr hrest =>
      cases List.mem_append.mp hrest with
      | inl hcut =>
        have hcdvd := hs.aligned c (List.mem_append_right _ List.mem_cons_self)
        exact aligned_cut hdvd hcdvd d hcut
      | inr hpost =>
        exact hs.aligned d (List.mem_append_right _ (List.mem_cons_of_mem c hpost))
  · rw [halloc, hs.allocated_eq, (hperm.map _).sum_nat, List.map_cons, List.sum_cons]
    push_cast
    omega
  · have hmap := hperm.map fun x => x.1 + BLOCK_SIZE
    exact (hs.owned.cons _).trans hmap.symm
  · intro x hx y hy hxy
    cases List.mem_cons.mp (hperm.subset hy) with
    | inl hnew =>
      cases List.mem_cons.mp hx with
      | inl heq =>
        rw [heq, hnew]
        exact Nat.le_trans hn (le_cutSize hsize)
      | inr hold =>
        obtain ⟨z, hz, hxz, -⟩ := hs.mem_used hold
        rw [hnew] at hxy
        exact absurd (Nat.add_right_cancel (hxz.symm.trans hxy)) (not_used_of_free hc hz)
    | inr hy =>
      cases List.mem_cons.mp hx with
      | inl heq =>
        rw [heq] at hxy
        exact absurd (Nat.add_right_cancel hxy).symm (not_used_of_free hc hy)
      | inr hold => exact hs.sized x hold y hy hxy
  · intro x hx
    cases List.mem_cons.mp hx with
    | inl heq => exact heq ▸ hpos
    | inr hold => exact hs.asked x hold

/-- A live pointer is freed. -/
theorem HeapInv.freed {i : Nat} {x : Nat × Nat} (hs : HeapInv s l) (hi : s.live[i]? = some x) :
    ∃ l', HeapInv { heap := freeS (some x.1) s.heap, live := s.live.eraseIdx i } l' := by
  have hx : x ∈ s.live := List.mem_of_getElem? hi
  obtain ⟨⟨b, c⟩, hy, hxy, hsize⟩ := hs.mem_used hx
  obtain ⟨hplaced, hlive⟩ := List.mem_filter.mp hy
  have hc : c.free = false := by simpa using hlive
  obtain ⟨pre, post, rfl, hb⟩ := mem_placed hplaced
  dsimp only at hxy hsize hb
  rw [Nat.zero_add] at hb
  subst hb
  have hbounds := placed_bounds hplaced
  rw [hs.total_eq] at hbounds
  dsimp only at hbounds
  have hasked := hs.asked x hx
  obtain ⟨hlinked, halloc⟩ := freeS_linked hs.linked hc (by omega)
  have hperm := @used_free_perm BLOCK_SIZE 0 c pre post hc
  rw [Nat.zero_add] at hlinked halloc hperm
  rw [hxy]
  have htotal := hs.total_eq
  rw [total_append, total_cons] at htotal
  refine ⟨_, hlinked, ?_, ?_, ?_, ?_, ?_, ?_⟩
  · rw [total_append, total_cons]
    exact htotal
  · intro d hd
    cases List.mem_append.mp hd with
    | inl hpre => exact hs.aligned d (List.mem_append_left _ hpre)
    | inr hrest =>
      cases List.mem_cons.mp hrest with
      | inl heq =>
        rw [heq]
        exact hs.aligned c (List.mem_append_right _ List.mem_cons_self)
      | inr hpost =>
        exact hs.aligned d (List.mem_append_right _ (List.mem_cons_of_mem c hpost))
  · rw [halloc, hs.allocated_eq, (hperm.map _).sum_nat, List.map_cons, List.sum_cons]
    push_cast
    omega
  · have hmap := hperm.map fun x => x.1 + BLOCK_SIZE
    obtain ⟨hlt, hget⟩ := List.getElem?_eq_some_iff.mp hi
    have herase := (List.getElem_cons_eraseIdx_perm hlt).map Prod.fst
    rw [hget, List.map_cons, hxy] at herase
    exact ((herase.trans hs.owned).trans hmap).cons_inv
  · intro z hz y hy
    exact hs.sized z ((List.eraseIdx_sublist _ _).subset hz) y
      (hperm.symm.subset (List.mem_cons_of_mem _ hy))
  · exact fun z hz => hs.asked z ((List.eraseIdx_sublist _ _).subset hz)

/-! ### The calls -/

/-- Rounding up gives the next multiple of the alignment. -/
theorem roundUp_eq {n : Nat} (hn : n < 2 ^ 63) : roundUp 64 n = (n + 7) / 8 * 8 := by
  have hmod : (n + 7) % 2 ^ 64 = n + 7 := Nat.mod_eq_of_lt (by omega)
  have hmask : 2 ^ 64 - ALIGNMENT = (2 ^ 61 - 1) <<< 3 := by decide
  have hshift : (n + 7) / 8 * 8 = ((n + 7) >>> 3) <<< 3 := by
    rw [Nat.shiftRight_eq_div_pow, Nat.shiftLeft_eq]
  have hround : roundUp 64 n = (n + 7) % 2 ^ 64 &&& (2 ^ 64 - ALIGNMENT) := rfl
  rw [hround, hmod, hmask, hshift]
  refine Nat.eq_of_testBit_eq fun i => ?_
  rw [Nat.testBit_and, Nat.testBit_shiftLeft, Nat.testBit_shiftLeft, Nat.testBit_two_pow_sub_one,
    Nat.testBit_shiftRight]
  by_cases hi : 3 ≤ i
  · have hback : 3 + (i - 3) = i := by omega
    rw [decide_eq_true hi, hback]
    by_cases htop : i - 3 < 61
    · simp [htop]
    · -- The bits above the word are not set.
      have hzero : (n + 7).testBit i = false :=
        Nat.testBit_lt_two_pow (Nat.lt_of_lt_of_le (show n + 7 < 2 ^ 64 by omega)
          (Nat.pow_le_pow_right (by decide) (by omega)))
      simp [hzero]
  · simp [hi]

/-- A call of `__malloc_s` up to its release of the lock. -/
theorem mallocPass_spec {fuel size : Nat} (hs : HeapInv s l) (hfuel : ALLOC_BUFFER_SIZE ≤ fuel)
    (prepareMem : Bool) (hn : n ≤ size) (hpos : 0 < n) (hdvd : ALIGNMENT ∣ size) :
    ∃ r, mallocPass fuel prepareMem size 0 s.heap = some r ∧
      ((∃ p l', r.1 = some p ∧ HeapInv { heap := r.2, live := (p, n) :: s.live } l') ∨
        r.1 = none ∧ ∃ l', HeapInv { s with heap := r.2 } l' ∧
          (l' = if prepareMem then coalesce BLOCK_SIZE l else l) ∧
          ∀ c ∈ l', c.free = true → c.size < size) := by
  have hprep : ∃ h' l', (if prepareMem then coalesceMemory fuel s.heap else some s.heap) = some h' ∧
      HeapInv { s with heap := h' } l' ∧
      l' = if prepareMem then coalesce BLOCK_SIZE l else l := by
    cases prepareMem with
    | false => exact ⟨s.heap, l, rfl, hs, rfl⟩
    | true =>
      have hsmall : total BLOCK_SIZE l < 2 ^ 32 := by
        rw [hs.total_eq]
        decide
      obtain ⟨h', hco, hl', halloc⟩ := coalesceMemory_linked hs.linked hsmall
        (Nat.lt_of_lt_of_le hs.length_lt hfuel)
      exact ⟨h', _, hco, hs.joined hl' halloc, rfl⟩
  obtain ⟨h', l', hheap, hs', hl'⟩ := hprep
  rw [mallocPass, hheap]
  dsimp only
  cases findBlock_linked size hs'.linked (Nat.lt_of_lt_of_le hs'.length_lt hfuel) with
  | inl hnone =>
    rw [hnone.1]
    exact ⟨_, rfl, .inr ⟨rfl, l', hs', hl', hnone.2⟩⟩
  | inr hsome =>
    obtain ⟨pre, c, post, rfl, hfree, hle, hfind⟩ := hsome
    rw [Nat.zero_add] at hfind
    rw [hfind]
    exact ⟨_, rfl, .inl ⟨_, _, rfl, hs'.taken hfree hle hn hpos hdvd⟩⟩

/-- A request returns a block for it, or no free block is large enough after they were joined. -/
theorem mallocS_spec {fuel : Nat} (hs : HeapInv s l) (hfuel : ALLOC_BUFFER_SIZE ≤ fuel)
    (hpos : 0 < n) (hn : n < 2 ^ 32) : ∃ r, mallocS fuel n s.heap = some r ∧
      ((∃ p l', r.1 = some p ∧ HeapInv { heap := r.2, live := (p, n) :: s.live } l') ∨
        r.1 = none ∧ (∃ l', HeapInv { s with heap := r.2 } l') ∧
          ∀ c ∈ coalesce BLOCK_SIZE l, c.free = true → c.size < n) := by
  have hround : roundUp 64 n = (n + 7) / 8 * 8 := roundUp_eq (by omega)
  have hagain : roundUp 64 (roundUp 64 n) = roundUp 64 n := by
    rw [roundUp_eq (by omega), hround]
    omega
  have hoffset : roundUp 32 NO_OFFSET = 0 := by decide
  have hle : n ≤ roundUp 64 n := by omega
  have hdvd : ALIGNMENT ∣ roundUp 64 n := by
    rw [hround]
    exact Nat.dvd_mul_left 8 _
  rw [mallocS, mallocAt, if_neg (by omega)]
  dsimp only
  rw [hoffset, show roundUp 32 0 = 0 from hoffset, hagain]
  obtain ⟨r, hpass, hres⟩ := mallocPass_spec hs hfuel false hle hpos hdvd
  rw [hpass]
  cases hres with
  | inl hsome =>
    obtain ⟨p, l', hp, hs'⟩ := hsome
    obtain ⟨r₁, h'⟩ := r
    obtain rfl : r₁ = some p := hp
    exact ⟨_, rfl, .inl ⟨p, l', rfl, hs'⟩⟩
  | inr hnone =>
    obtain ⟨hp, l', hs', rfl, -⟩ := hnone
    obtain ⟨r₁, h'⟩ := r
    obtain rfl : r₁ = none := hp
    obtain ⟨r, hpass', hres'⟩ := mallocPass_spec hs' hfuel true hle hpos hdvd
    refine ⟨r, (if_neg (by omega)).trans hpass', hres'.imp_right fun hnone' => ?_⟩
    obtain ⟨hp', l', hs'', rfl, hsmall⟩ := hnone'
    refine ⟨hp', ⟨_, hs''⟩, fun c hc hfree => ?_⟩
    -- The sizes are aligned, so one that holds the request holds the rounded request.
    have hlt := hsmall c hc hfree
    obtain ⟨k, hk⟩ := hs''.aligned c hc
    have halign : ALIGNMENT = 8 := rfl
    rw [halign] at hk
    omega

/-- The heap after `nft32_mm_init` is one free block. -/
theorem mmStart_inv : HeapInv mmStart [⟨ALLOC_BUFFER_SIZE - BLOCK_SIZE, true⟩] where
  linked := ⟨rfl, rfl, rfl, rfl, rfl⟩
  total_eq := rfl
  aligned := fun c hc => by
    rw [List.mem_singleton.mp hc]
    exact ⟨63997, rfl⟩
  allocated_eq := rfl
  owned := List.Perm.refl _
  sized := fun x hx => absurd hx List.not_mem_nil
  asked := fun x hx => absurd hx List.not_mem_nil

/-- A call returns, and keeps the row and the live pointers in agreement. -/
theorem mmStep_inv {fuel : Nat} (hs : HeapInv s l) (hfuel : ALLOC_BUFFER_SIZE ≤ fuel)
    (call : MmCall) : ∃ s' l', mmStep fuel s call = some s' ∧ HeapInv s' l' := by
  cases call with
  | malloc size small =>
    by_cases hzero : size = 0
    · refine ⟨s, l, ?_, hs⟩
      simp [mmStep, mallocS, mallocAt, hzero]
    · obtain ⟨r, hmalloc, hres⟩ := mallocS_spec hs hfuel (Nat.pos_of_ne_zero hzero) small
      obtain ⟨r₁, h'⟩ := r
      rw [mmStep, hmalloc]
      cases hres with
      | inl hsome =>
        obtain ⟨p, l', hp, hs'⟩ := hsome
        obtain rfl : r₁ = some p := hp
        exact ⟨_, l', rfl, hs'⟩
      | inr hnone =>
        obtain ⟨hp, ⟨l', hs'⟩, -⟩ := hnone
        obtain rfl : r₁ = none := hp
        exact ⟨_, l', rfl, hs'⟩
  | free i =>
    rw [mmStep]
    split
    · exact ⟨s, l, rfl, hs⟩
    next x hi =>
      obtain ⟨l', hs'⟩ := hs.freed hi
      exact ⟨_, l', rfl, hs'⟩

/-- So does every sequence of calls. -/
theorem mmRun_inv {fuel : Nat} (hs : HeapInv s l) (hfuel : ALLOC_BUFFER_SIZE ≤ fuel)
    (calls : List MmCall) : ∃ s' l', calls.foldlM (mmStep fuel) s = some s' ∧ HeapInv s' l' := by
  induction calls generalizing s l with
  | nil => exact ⟨s, l, rfl, hs⟩
  | cons call calls ih =>
    obtain ⟨s₁, l₁, hstep, hs₁⟩ := mmStep_inv hs hfuel call
    obtain ⟨s₂, l₂, hrun, hs₂⟩ := ih hs₁
    exact ⟨s₂, l₂, by rw [List.foldlM_cons, hstep]; exact hrun, hs₂⟩

/-! ### The blocks in the buffer -/

/-- The headers, by following `next` from the pointer `p` on. -/
def Headers (h : Heap) : (p : Option Nat) → List Nat → Prop
  | p, [] => p = none
  | p, a :: as => p = some a ∧ (h.block a).magic = MM_BLOCK_MAGIC ∧ Headers h (h.block a).next as

/-- Each block ends where the next header starts, and the last one at the end of the buffer. -/
def Tiles (h : Heap) : (start : Nat) → List Nat → Prop
  | start, [] => start = ALLOC_BUFFER_SIZE
  | start, a :: as => a = start ∧ Tiles h (a + BLOCK_SIZE + (h.block a).size) as

/-- The memory that a live pointer owns. -/
def liveSize (s : MmState) (x : Nat × Nat) : Nat := (s.heap.block (x.1 - BLOCK_SIZE)).size

/-- The lengths of blocks with their headers. -/
def blockSum (h : Heap) (as : List Nat) : Nat := (as.map fun a => BLOCK_SIZE + (h.block a).size).sum

/-- The blocks `as` tile the buffer, and the live allocations lie in blocks of their own. A request
fails only when no run of adjacent free blocks is large enough; with nothing live it fails only when
it is larger than the whole buffer. -/
structure HeapSound (s : MmState) (as : List Nat) : Prop where
  headers : Headers s.heap (some 0) as
  tiles : Tiles s.heap 0 as
  sum : blockSum s.heap as = ALLOC_BUFFER_SIZE
  block : ∀ x ∈ s.live, ∃ a ∈ as, x.1 = a + BLOCK_SIZE ∧ (s.heap.block a).free = false
  room : ∀ x ∈ s.live, x.2 ≤ liveSize s x ∧ x.1 + liveSize s x ≤ ALLOC_BUFFER_SIZE
  aligned : ∀ x ∈ s.live, ALIGNMENT ∣ x.1
  apart : ∀ (i j : Nat) (x y : Nat × Nat), i ≠ j → s.live[i]? = some x → s.live[j]? = some y →
    x.1 + liveSize s x ≤ y.1 ∨ y.1 + liveSize s y ≤ x.1
  off_headers : ∀ x ∈ s.live, ∀ a ∈ as, a + BLOCK_SIZE ≤ x.1 ∨ x.1 + liveSize s x ≤ a
  allocated : s.heap.allocated = ((s.live.map fun x => BLOCK_SIZE + liveSize s x).sum : Nat)
  fails : ∀ n, 0 < n → n < 2 ^ 32 → Run.Ensures (fun fuel => mallocS fuel n s.heap) fun r =>
    r.1 = none → ∀ pre run post, as = pre ++ (run ++ post) → run ≠ [] →
      (∀ a ∈ run, (s.heap.block a).free = true) → blockSum s.heap run < BLOCK_SIZE + n
  recovers : s.live = [] → ∀ n, 0 < n → n ≤ ALLOC_BUFFER_SIZE - BLOCK_SIZE →
    Run.Ensures (fun fuel => mallocS fuel n s.heap) fun r => r.1 ≠ none
  largest : ∀ n, ALLOC_BUFFER_SIZE - BLOCK_SIZE < n → n < 2 ^ 32 →
    Run.Ensures (fun fuel => mallocS fuel n s.heap) fun r => r.1 = none

/-- The headers are those of the placed cells. -/
theorem Linked.block_eq (hl : Linked h p a l q) {y : Nat × Cell} (hy : y ∈ placed BLOCK_SIZE a l) :
    (h.block y.1).size = y.2.size ∧ (h.block y.1).free = y.2.free := by
  induction l generalizing p a with
  | nil => cases hy
  | cons c l ih =>
    obtain ⟨rfl, -, hs, hf, hrest⟩ := hl
    cases List.mem_cons.mp hy with
    | inl heq => exact heq ▸ ⟨hs, hf⟩
    | inr hmem => exact ih hrest hmem

theorem Linked.headers (hl : Linked h p a l none) :
    Headers h p ((placed BLOCK_SIZE a l).map Prod.fst) := by
  induction l generalizing p a with
  | nil => exact hl
  | cons c l ih =>
    obtain ⟨rfl, hm, -, -, hrest⟩ := hl
    exact ⟨rfl, hm, ih hrest⟩

theorem Linked.tiles (hl : Linked h p a l none)
    (hend : a + total BLOCK_SIZE l = ALLOC_BUFFER_SIZE) :
    Tiles h a ((placed BLOCK_SIZE a l).map Prod.fst) := by
  induction l generalizing p a with
  | nil => exact hend
  | cons c l ih =>
    obtain ⟨rfl, -, hs, -, hrest⟩ := hl
    refine ⟨rfl, ?_⟩
    rw [hs]
    rw [total_cons] at hend
    exact ih hrest (by omega)

/-- The blocks of a part of the row. -/
theorem Linked.blockSum_eq (hl : Linked h p a l q) {ys : List (Nat × Cell)}
    (hsub : ∀ y ∈ ys, y ∈ placed BLOCK_SIZE a l) :
    blockSum h (ys.map Prod.fst) = total BLOCK_SIZE (ys.map Prod.snd) := by
  rw [blockSum, total, List.map_map, List.map_map]
  refine congrArg List.sum (List.map_congr_left fun y hy => ?_)
  exact congrArg (BLOCK_SIZE + ·) (hl.block_eq (hsub y hy)).1

/-- A request that fails leaves no run of free cells that is large enough. -/
theorem coalesce_small {run : List Cell} (hsmall : ∀ c ∈ coalesce BLOCK_SIZE l, c.free = true →
      c.size < n) (hl : l = pre ++ (run ++ post)) (hne : run ≠ [])
    (hfree : ∀ c ∈ run, c.free = true) : total BLOCK_SIZE run < BLOCK_SIZE + n := by
  cases l with
  | nil =>
    have hnil := (List.append_eq_nil_iff.mp hl.symm).2
    exact absurd (List.append_eq_nil_iff.mp hnil).1 hne
  | cons c l =>
    obtain ⟨d, hd, hdfree, hcover⟩ := join_covers (h := BLOCK_SIZE) hl hne hfree
    have hlt := hsmall d hd hdfree
    omega

section Blocks

variable {x y : Nat × Nat} {z : Nat × Cell}

/-- The memory of a live pointer is its cell. -/
theorem HeapInv.live_cell (hs : HeapInv s l) (hx : x ∈ s.live) :
    ∃ z ∈ placed BLOCK_SIZE 0 l, x.1 = z.1 + BLOCK_SIZE ∧ z.2.free = false ∧
      x.2 ≤ z.2.size ∧ liveSize s x = z.2.size := by
  obtain ⟨z, hz, hxz, hsize⟩ := hs.mem_used hx
  obtain ⟨hplaced, hlive⟩ := List.mem_filter.mp hz
  refine ⟨z, hplaced, hxz, by simpa using hlive, hsize, ?_⟩
  rw [liveSize, hxz, Nat.add_sub_cancel]
  exact (hs.linked.block_eq hplaced).1

/-- Two live pointers are different. -/
theorem HeapInv.live_pairwise (hs : HeapInv s l) : s.live.Pairwise fun x y => x.1 ≠ y.1 := by
  have hpos := block_size_pos
  have hused : (used BLOCK_SIZE 0 l).Pairwise fun x y => x.1 + BLOCK_SIZE ≠ y.1 + BLOCK_SIZE :=
    ((placed_pairwise BLOCK_SIZE 0 l).filter _).imp fun hlt => by omega
  have hlive : (s.live.map Prod.fst).Nodup := hs.owned.nodup_iff.mpr (List.pairwise_map.mpr hused)
  exact List.pairwise_map.mp hlive

theorem HeapInv.apart (hs : HeapInv s l) {i j : Nat} (hij : i ≠ j) (hi : s.live[i]? = some x)
    (hj : s.live[j]? = some y) : x.1 + liveSize s x ≤ y.1 ∨ y.1 + liveSize s y ≤ x.1 := by
  have hne : x.1 ≠ y.1 := by
    obtain ⟨hilt, rfl⟩ := List.getElem?_eq_some_iff.mp hi
    obtain ⟨hjlt, rfl⟩ := List.getElem?_eq_some_iff.mp hj
    have hpair := List.pairwise_iff_getElem.mp hs.live_pairwise
    cases Nat.lt_or_gt_of_ne hij with
    | inl hlt => exact hpair i j hilt hjlt hlt
    | inr hgt => exact (hpair j i hjlt hilt hgt).symm
  obtain ⟨z, hz, hxz, -, -, hsizex⟩ := hs.live_cell (List.mem_of_getElem? hi)
  obtain ⟨w, hw, hyw, -, -, hsizey⟩ := hs.live_cell (List.mem_of_getElem? hj)
  have hzw : z ≠ w := fun heq => hne (by rw [hxz, hyw, heq])
  have hapart := placed_apart hz hw hzw
  omega

theorem HeapInv.off_headers (hs : HeapInv s l) (hx : x ∈ s.live)
    (hz : z ∈ placed BLOCK_SIZE 0 l) : z.1 + BLOCK_SIZE ≤ x.1 ∨ x.1 + liveSize s x ≤ z.1 := by
  obtain ⟨w, hw, hxw, -, -, hsize⟩ := hs.live_cell hx
  by_cases heq : z = w
  · rw [heq, hxw]
    exact .inl (Nat.le_refl _)
  · have hapart := placed_apart hz hw heq
    omega

/-- `_allocated` is what the live pointers take up. -/
theorem HeapInv.live_sum (hs : HeapInv s l) :
    s.heap.allocated = ((s.live.map fun x => BLOCK_SIZE + liveSize s x).sum : Nat) := by
  have hmap := (hs.owned.map fun b => BLOCK_SIZE + (s.heap.block (b - BLOCK_SIZE)).size).sum_nat
  rw [List.map_map, List.map_map] at hmap
  have hlive : (s.live.map fun x => BLOCK_SIZE + liveSize s x).sum =
      ((used BLOCK_SIZE 0 l).map fun z => z.2.size + BLOCK_SIZE).sum := by
    refine hmap.trans (congrArg List.sum (List.map_congr_left fun z hz => ?_))
    have hsize := (hs.linked.block_eq (List.mem_filter.mp hz).1).1
    show BLOCK_SIZE + (s.heap.block (z.1 + BLOCK_SIZE - BLOCK_SIZE)).size = z.2.size + BLOCK_SIZE
    rw [Nat.add_sub_cancel, hsize, Nat.add_comm]
  rw [hlive]
  exact hs.allocated_eq

end Blocks

/-- A request that fails leaves no run of free blocks that is large enough. -/
theorem HeapInv.fails (hs : HeapInv s l) (hpos : 0 < n) (hn : n < 2 ^ 32) :
    Run.Ensures (fun fuel => mallocS fuel n s.heap) fun r => r.1 = none →
      ∀ pre run post, (placed BLOCK_SIZE 0 l).map Prod.fst = pre ++ (run ++ post) → run ≠ [] →
        (∀ a ∈ run, (s.heap.block a).free = true) → blockSum s.heap run < BLOCK_SIZE + n := by
  refine ⟨ALLOC_BUFFER_SIZE, fun fuel hfuel => ?_⟩
  obtain ⟨r, hmalloc, hres⟩ := mallocS_spec hs hfuel hpos hn
  refine ⟨r, hmalloc, fun hnone pre run post heq hne hfree => ?_⟩
  have hsmall : ∀ c ∈ coalesce BLOCK_SIZE l, c.free = true → c.size < n := by
    cases hres with
    | inl hsome =>
      obtain ⟨p, l', hp, -⟩ := hsome
      rw [hnone] at hp
      cases hp
    | inr hfailed => exact hfailed.2.2
  -- The run is a run of placed cells.
  obtain ⟨ys, zs, hplaced, rfl, hrest⟩ := List.map_eq_append_iff.mp heq
  obtain ⟨rs, ts, rfl, rfl, rfl⟩ := List.map_eq_append_iff.mp hrest
  have hsub : ∀ z ∈ rs, z ∈ placed BLOCK_SIZE 0 l := fun z hz => by
    rw [hplaced]
    exact List.mem_append_right _ (List.mem_append_left _ hz)
  rw [hs.linked.blockSum_eq hsub]
  have hl : l = ys.map Prod.snd ++ (rs.map Prod.snd ++ ts.map Prod.snd) := by
    rw [← List.map_append, ← List.map_append, ← hplaced, map_snd_placed]
  refine coalesce_small hsmall hl (fun hnil => hne ?_) fun c hc => ?_
  · rw [List.map_eq_nil_iff] at hnil ⊢
    exact hnil
  · obtain ⟨z, hz, rfl⟩ := List.mem_map.mp hc
    rw [← (hs.linked.block_eq (hsub z hz)).2]
    exact hfree z.1 (List.mem_map_of_mem hz)

/-- With nothing live, every request that fits the buffer succeeds. -/
theorem HeapInv.recovers (hs : HeapInv s l) (hlive : s.live = []) (hpos : 0 < n)
    (hn : n ≤ ALLOC_BUFFER_SIZE - BLOCK_SIZE) :
    Run.Ensures (fun fuel => mallocS fuel n s.heap) fun r => r.1 ≠ none := by
  have hbuffer : ALLOC_BUFFER_SIZE = 512000 := rfl
  refine (hs.fails hpos (by omega)).imp fun r hfails hnone => ?_
  have hfree : ∀ z ∈ placed BLOCK_SIZE 0 l, (s.heap.block z.1).free = true := by
    intro z hz
    rw [(hs.linked.block_eq hz).2]
    have hperm := hs.owned
    rw [hlive] at hperm
    have hused := List.map_eq_nil_iff.mp (List.nil_perm.mp hperm)
    simpa using List.filter_eq_nil_iff.mp hused z hz
  have hlt := hfails hnone [] _ [] (List.append_nil _).symm (fun hnil => ?_) fun a ha => ?_
  · rw [hs.linked.blockSum_eq fun z hz => hz, map_snd_placed, hs.total_eq] at hlt
    have hblock : BLOCK_SIZE = 24 := rfl
    omega
  · have htotal := hs.total_eq
    have hnil' := congrArg (List.map Prod.snd) (List.map_eq_nil_iff.mp hnil)
    rw [map_snd_placed] at hnil'
    rw [hnil'] at htotal
    cases htotal
  · obtain ⟨z, hz, rfl⟩ := List.mem_map.mp ha
    exact hfree z hz

/-- A request that does not fit the buffer fails. -/
theorem HeapInv.largest (hs : HeapInv s l) (hlarge : ALLOC_BUFFER_SIZE - BLOCK_SIZE < n)
    (hn : n < 2 ^ 32) : Run.Ensures (fun fuel => mallocS fuel n s.heap) fun r => r.1 = none := by
  refine ⟨ALLOC_BUFFER_SIZE, fun fuel hfuel => ?_⟩
  obtain ⟨r, hmalloc, hres⟩ := mallocS_spec hs hfuel (by omega) hn
  refine ⟨r, hmalloc, ?_⟩
  cases hres with
  | inl hsome =>
    obtain ⟨p, l', -, hs'⟩ := hsome
    obtain ⟨z, hz, -, -, hsize, -⟩ := hs'.live_cell List.mem_cons_self
    have hbounds := placed_bounds hz
    rw [hs'.total_eq] at hbounds
    dsimp only at hsize
    omega
  | inr hnone => exact hnone.1

/-- What the row says about the blocks. -/
theorem HeapInv.sound (hs : HeapInv s l) :
    HeapSound s ((placed BLOCK_SIZE 0 l).map Prod.fst) where
  headers := hs.linked.headers
  tiles := hs.linked.tiles ((Nat.zero_add _).trans hs.total_eq)
  sum := by
    rw [hs.linked.blockSum_eq fun z hz => hz, map_snd_placed]
    exact hs.total_eq
  block := fun x hx => by
    obtain ⟨z, hz, hxz, hfree, -⟩ := hs.live_cell hx
    exact ⟨z.1, List.mem_map_of_mem hz, hxz, (hs.linked.block_eq hz).2.trans hfree⟩
  room := fun x hx => by
    obtain ⟨z, hz, hxz, -, hle, hsize⟩ := hs.live_cell hx
    have hbounds := placed_bounds hz
    rw [hs.total_eq] at hbounds
    omega
  aligned := fun x hx => by
    obtain ⟨z, hz, hxz, -⟩ := hs.live_cell hx
    obtain ⟨pre, post, hl, hpos⟩ := mem_placed hz
    have haligned := hs.aligned
    rw [hl] at haligned
    rw [hxz, hpos, Nat.zero_add]
    exact Nat.dvd_add (dvd_total (by decide) fun c hc => haligned c (List.mem_append_left _ hc))
      (by decide)
  apart := fun i j x y hij hi hj => hs.apart hij hi hj
  off_headers := fun x hx a ha => by
    obtain ⟨z, hz, rfl⟩ := List.mem_map.mp ha
    exact hs.off_headers hx hz
  allocated := hs.live_sum
  fails := fun n hpos hn => hs.fails hpos hn
  recovers := fun hlive n hpos hn => hs.recovers hlive hpos hn
  largest := fun n hlarge hn => hs.largest hlarge hn

/-- The built-in heap is sound, and does not stay fragmented. -/
theorem heap_sound (calls : List MmCall) :
    Run.Ensures (fun fuel => mmRun fuel calls) fun s => ∃ as, HeapSound s as := by
  refine ⟨ALLOC_BUFFER_SIZE, fun fuel hfuel => ?_⟩
  obtain ⟨s, l, hrun, hs⟩ := mmRun_inv mmStart_inv hfuel calls
  exact ⟨s, hrun, _, hs.sound⟩

end NiFat32.Mm
