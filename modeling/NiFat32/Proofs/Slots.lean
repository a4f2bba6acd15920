import Mathlib.Data.List.ReduceOption
import NiFat32.Proofs.Chains

/-!
# `Proofs.Slots`: the entries of one directory cluster

A directory cluster is a list of slots. A walk sees the slots before the first one that
starts with `ENTRY_END` (`visible`), and among them a removed entry counts as a hole
(`scan`). `slotsIn_repackCluster` is the round trip of the slots through the encoded bytes
of the cluster. `slotLoop_skips` and `slotLoop_hit` are the two ways a walk over a cluster can go:
the handler passes over every visible slot, or it ends the walk at one of them.
-/

set_option autoImplicit false

namespace NiFat32

variable {m : Mount}

/-! ### Slots and bytes -/

/-- The slots of a cluster with the bytes `raw`. -/
def slotsIn (m : Mount) (raw : List UInt8) : List DirEntry :=
  slotsOf (entriesPerCluster m) (unpackMemory raw (decodedLen m))

@[simp] theorem length_slotsOf (n : Nat) (dec : List UInt8) : (slotsOf n dec).length = n := by
  simp [slotsOf]

@[simp] theorem length_slotsIn (raw : List UInt8) :
    (slotsIn m raw).length = entriesPerCluster m := length_slotsOf _ _

@[simp] theorem length_bytesOfSlots (slots : List DirEntry) :
    (bytesOfSlots slots).length = ENTRY_SIZE * slots.length := by
  induction slots with
  | nil => rfl
  | cons e es ih =>
    unfold bytesOfSlots at ih ⊢
    rw [List.flatMap_cons, List.length_append, ih, DirEntry.length_bytes, List.length_cons,
      Nat.mul_succ, Nat.add_comm]

/-- The first slot of a buffer, and the slots of the rest. -/
theorem slotsOf_succ (n : Nat) (dec : List UInt8) :
    slotsOf (n + 1) dec = .ofBytes (dec.take ENTRY_SIZE) :: slotsOf n (dec.drop ENTRY_SIZE) := by
  unfold slotsOf
  rw [List.range_succ_eq_map, List.map_cons, List.map_map]
  congr 1
  refine List.map_congr_left fun i _ => ?_
  rw [Function.comp_apply, List.drop_drop, Nat.mul_succ, Nat.add_comm]

/-- The slots of a buffer that starts with the bytes of the slots. -/
theorem slotsOf_bytesOfSlots (slots : List DirEntry) (rest : List UInt8) :
    slotsOf slots.length (bytesOfSlots slots ++ rest) = slots := by
  induction slots with
  | nil => rfl
  | cons e es ih =>
    have hlen : e.bytes.length = ENTRY_SIZE := e.length_bytes
    have hcons : bytesOfSlots (e :: es) ++ rest = e.bytes ++ (bytesOfSlots es ++ rest) := by
      unfold bytesOfSlots
      rw [List.flatMap_cons, List.append_assoc]
    rw [List.length_cons, slotsOf_succ, hcons, ← hlen, List.take_left, List.drop_left,
      DirEntry.ofBytes_bytes, ih]

/-- The bytes after the last slot of a decoded cluster. -/
theorem slots_le_decodedLen : ENTRY_SIZE * entriesPerCluster m ≤ decodedLen m :=
  Nat.mul_div_le _ _

theorem two_decodedLen_le : 2 * decodedLen m ≤ m.fi.clusterSize := Nat.mul_div_le _ _

section Repack

variable {enc : List UInt8} {slots : List DirEntry}

/-- The decoded part of a cluster, when it is packed again. -/
theorem length_repack_decoded (hlen : slots.length = entriesPerCluster m)
    (henc : enc.length = m.fi.clusterSize) :
    (bytesOfSlots slots ++ (unpackMemory enc (decodedLen m)).drop
      (ENTRY_SIZE * entriesPerCluster m)).length = decodedLen m := by
  have h1 : (unpackMemory enc (decodedLen m)).length = decodedLen m :=
    length_unpackMemory _ _ (by rw [henc]; exact two_decodedLen_le)
  have h2 : ENTRY_SIZE * entriesPerCluster m ≤ decodedLen m := slots_le_decodedLen
  rw [List.length_append, length_bytesOfSlots, List.length_drop, h1, hlen]
  omega

theorem length_repackCluster (hlen : slots.length = entriesPerCluster m)
    (henc : enc.length = m.fi.clusterSize) :
    (repackCluster m enc (unpackMemory enc (decodedLen m)) slots).length = m.fi.clusterSize := by
  have h2 : 2 * decodedLen m ≤ m.fi.clusterSize := two_decodedLen_le
  unfold repackCluster
  rw [List.length_append, length_packMemory, length_repack_decoded hlen henc, List.length_drop,
    henc]
  omega

/-- The round trip of the slots through the encoded cluster. -/
theorem slotsIn_repackCluster (hlen : slots.length = entriesPerCluster m)
    (henc : enc.length = m.fi.clusterSize) :
    slotsIn m (repackCluster m enc (unpackMemory enc (decodedLen m)) slots) = slots := by
  have hdec := unpackMemory_packMemory_append (bytesOfSlots slots ++
    (unpackMemory enc (decodedLen m)).drop (ENTRY_SIZE * entriesPerCluster m))
    (enc.drop (2 * decodedLen m))
  rw [length_repack_decoded hlen henc] at hdec
  unfold slotsIn repackCluster
  rw [hdec, ← hlen, slotsOf_bytesOfSlots]

end Repack

/-! ### Zero-filled clusters -/

/-- The slot of zero bytes. -/
def zeroSlot : DirEntry := .ofBytes (List.replicate ENTRY_SIZE 0)

theorem first_zeroSlot : zeroSlot.first = ENTRY_END := by decide

theorem slotsOf_zero (n k : Nat) (h : ENTRY_SIZE * n ≤ k) :
    slotsOf n (List.replicate k 0) = List.replicate n zeroSlot := by
  induction n generalizing k with
  | zero => rfl
  | succ n ih =>
    rw [Nat.mul_succ] at h
    rw [slotsOf_succ, List.take_replicate, List.drop_replicate, Nat.min_eq_left (by omega),
      ih (k - ENTRY_SIZE) (by omega), List.replicate_succ]
    rfl

/-- The slots of a zero-filled cluster. -/
theorem slotsIn_zero : slotsIn m (List.replicate (2 * decodedLen m) 0)
    = List.replicate (entriesPerCluster m) zeroSlot := by
  unfold slotsIn
  rw [unpackMemory_replicate_zero, slotsOf_zero _ _ slots_le_decodedLen]

/-! ### What a walk sees -/

/-- The slots before the end of the directory. -/
def visible (slots : List DirEntry) : List DirEntry :=
  slots.takeWhile fun e => e.first ≠ ENTRY_END

/-- A slot as a walk takes it: an entry that validates, or a hole. -/
def slotView (e : DirEntry) : Option DirEntry :=
  if e.Valid ∧ e.first ≠ ENTRY_FREE then some e else none

/-- The visible slots of a cluster. -/
def scan (slots : List DirEntry) : List (Option DirEntry) := (visible slots).map slotView

/-- The entries of a cluster. -/
def live (slots : List DirEntry) : List DirEntry := (scan slots).reduceOption

/-- Validation cannot turn a slot of the cluster into an entry: the slot is one, it is free, or
its right checksum differs from the zero that validation stores. -/
def Sound (slots : List DirEntry) : Prop :=
  ∀ e ∈ visible slots, e.first ≠ ENTRY_FREE → e.Valid ∨ e.computedChecksum ≠ 0

theorem slotView_live {e : DirEntry} (hv : e.Valid) (hf : e.first ≠ ENTRY_FREE) :
    slotView e = some e := if_pos ⟨hv, hf⟩

theorem slotView_hole {e : DirEntry} (h : ¬ (e.Valid ∧ e.first ≠ ENTRY_FREE)) :
    slotView e = none := if_neg h

theorem slotView_free {e : DirEntry} (h : e.first = ENTRY_FREE) : slotView e = none :=
  slotView_hole fun hl => hl.2 h

theorem slotView_eq_some {e d : DirEntry} (h : slotView e = some d) :
    e = d ∧ e.Valid ∧ e.first ≠ ENTRY_FREE := by
  unfold slotView at h
  split at h
  · rename_i hl
    exact ⟨Option.some.inj h, hl⟩
  · cases h

theorem visible_cons_end {e : DirEntry} {es : List DirEntry} (h : e.first = ENTRY_END) :
    visible (e :: es) = [] := by
  unfold visible
  rw [List.takeWhile_cons]
  simp [h]

theorem visible_cons {e : DirEntry} {es : List DirEntry} (h : e.first ≠ ENTRY_END) :
    visible (e :: es) = e :: visible es := by
  unfold visible
  rw [List.takeWhile_cons]
  simp [h]

theorem visible_append {pre post : List DirEntry} (h : ∀ e ∈ pre, e.first ≠ ENTRY_END) :
    visible (pre ++ post) = pre ++ visible post := by
  induction pre with
  | nil => rfl
  | cons e pre ih =>
    rw [List.cons_append, visible_cons (h e List.mem_cons_self),
      ih fun d hd => h d (List.mem_cons_of_mem e hd), List.cons_append]

theorem first_of_mem_visible {e : DirEntry} {slots : List DirEntry} (h : e ∈ visible slots) :
    e.first ≠ ENTRY_END := by
  induction slots with
  | nil => exact absurd h List.not_mem_nil
  | cons d es ih =>
    by_cases hend : d.first = ENTRY_END
    · rw [visible_cons_end hend] at h
      exact absurd h List.not_mem_nil
    · rw [visible_cons hend] at h
      cases List.mem_cons.mp h with
      | inl heq => rw [heq]; exact hend
      | inr hmem => exact ih hmem

theorem scan_append {pre post : List DirEntry} (h : ∀ e ∈ pre, e.first ≠ ENTRY_END) :
    scan (pre ++ post) = pre.map slotView ++ scan post := by
  unfold scan
  rw [visible_append h, List.map_append]

theorem scan_cons {e : DirEntry} {es : List DirEntry} (h : e.first ≠ ENTRY_END) :
    scan (e :: es) = slotView e :: scan es := by
  unfold scan
  rw [visible_cons h, List.map_cons]

theorem live_append {pre post : List DirEntry} (h : ∀ e ∈ pre, e.first ≠ ENTRY_END) :
    live (pre ++ post) = (pre.map slotView).reduceOption ++ live post := by
  unfold live
  rw [scan_append h, List.reduceOption_append]

/-- The entries are the visible slots that are no holes. -/
theorem mem_live {e : DirEntry} {slots : List DirEntry} :
    e ∈ live slots ↔ e ∈ visible slots ∧ e.Valid ∧ e.first ≠ ENTRY_FREE := by
  unfold live scan
  rw [List.reduceOption_mem_iff, List.mem_map]
  constructor
  · rintro ⟨d, hd, hv⟩
    obtain ⟨rfl, hl⟩ := slotView_eq_some hv
    exact ⟨hd, hl⟩
  · rintro ⟨hd, hv, hf⟩
    exact ⟨e, hd, slotView_live hv hf⟩

theorem live_cons {e : DirEntry} {es : List DirEntry} (h : e.first ≠ ENTRY_END) (hv : e.Valid)
    (hf : e.first ≠ ENTRY_FREE) : live (e :: es) = e :: live es := by
  unfold live
  rw [scan_cons h, slotView_live hv hf, List.reduceOption_cons_of_some]

theorem live_cons_end {e : DirEntry} {es : List DirEntry} (h : e.first = ENTRY_END) :
    live (e :: es) = [] := by
  unfold live scan
  rw [visible_cons_end h]
  rfl

theorem live_cons_hole {e : DirEntry} {es : List DirEntry} (h : e.first ≠ ENTRY_END)
    (hl : ¬ (e.Valid ∧ e.first ≠ ENTRY_FREE)) : live (e :: es) = live es := by
  unfold live
  rw [scan_cons h, slotView_hole hl, List.reduceOption_cons_of_none]

/-- The first entry of a cluster that satisfies `p`, with the slots around it. -/
theorem exists_first_live (slots : List DirEntry) (p : DirEntry → Bool) :
    (∀ e ∈ live slots, p e = false) ∨
    ∃ pre e post, slots = pre ++ e :: post ∧ (∀ d ∈ pre, d.first ≠ ENTRY_END) ∧
      (∀ d ∈ pre, d.Valid → d.first ≠ ENTRY_FREE → p d = false) ∧ e.first ≠ ENTRY_END ∧
      e.Valid ∧ e.first ≠ ENTRY_FREE ∧ p e = true := by
  induction slots with
  | nil => exact Or.inl fun e he => absurd he List.not_mem_nil
  | cons d es ih =>
    by_cases hend : d.first = ENTRY_END
    · left
      intro e he
      rw [live_cons_end hend] at he
      exact absurd he List.not_mem_nil
    by_cases hhit : d.Valid ∧ d.first ≠ ENTRY_FREE ∧ p d = true
    · right
      exact ⟨[], d, es, rfl, fun e he => absurd he List.not_mem_nil,
        fun e he => absurd he List.not_mem_nil, hend, hhit⟩
    have hd : d.Valid → d.first ≠ ENTRY_FREE → p d = false := fun hv hne => by
      cases hp : p d with
      | false => rfl
      | true => exact absurd ⟨hv, hne, hp⟩ hhit
    cases ih with
    | inl hnone =>
      left
      intro e he
      rw [mem_live, visible_cons hend, List.mem_cons] at he
      obtain ⟨hm, hv, hne⟩ := he
      cases hm with
      | inl heq => rw [heq] at hv hne ⊢; exact hd hv hne
      | inr hm => exact hnone e (mem_live.mpr ⟨hm, hv, hne⟩)
    | inr hsome =>
      right
      obtain ⟨pre, e, post, hsplit, hpre, hmiss, hrest⟩ := hsome
      refine ⟨d :: pre, e, post, by rw [hsplit]; rfl, ?_, ?_, hrest⟩
      · intro c hc
        cases List.mem_cons.mp hc with
        | inl h => rw [h]; exact hend
        | inr h => exact hpre c h
      · intro c hc
        cases List.mem_cons.mp hc with
        | inl h => rw [h]; exact hd
        | inr h => exact hmiss c h

/-! ### Validation -/

/-- What `_validate_entry` leaves in a slot. -/
def cleaned (e : DirEntry) : DirEntry := if e.Valid then e else { e with checksum := 0 }

theorem validateEntry_eq (e : DirEntry) : validateEntry e = (decide e.Valid, cleaned e) := by
  unfold validateEntry cleaned
  split
  · rename_i h
    rw [decide_eq_true h]
  · rename_i h
    rw [decide_eq_false h]

theorem cleaned_of_valid {e : DirEntry} (h : e.Valid) : cleaned e = e := by
  unfold cleaned
  rw [if_pos h]

@[simp] theorem first_cleaned (e : DirEntry) : (cleaned e).first = e.first := by
  unfold cleaned
  split <;> rfl

@[simp] theorem computedChecksum_cleaned (e : DirEntry) :
    (cleaned e).computedChecksum = e.computedChecksum := by
  unfold cleaned
  split <;> rfl

/-- An entry with a wrong checksum, where zero is wrong as well, stays invalid. -/
theorem cleaned_not_valid {e : DirEntry} (h : ¬ e.Valid) (h0 : e.computedChecksum ≠ 0) :
    ¬ (cleaned e).Valid := by
  have hsum : (cleaned e).checksum = 0 := by
    unfold cleaned
    rw [if_neg h]
  unfold DirEntry.Valid
  rw [computedChecksum_cleaned, hsum]
  exact h0

/-- Validation does not change what a walk sees of a sound slot. -/
theorem slotView_cleaned {e : DirEntry}
    (h : e.first ≠ ENTRY_FREE → e.Valid ∨ e.computedChecksum ≠ 0) :
    slotView (cleaned e) = slotView e := by
  by_cases hf : e.first = ENTRY_FREE
  · rw [slotView_free hf, slotView_free (by rw [first_cleaned]; exact hf)]
  by_cases hv : e.Valid
  · rw [cleaned_of_valid hv]
  · have h0 := (h hf).resolve_left hv
    rw [slotView_hole fun hl => hv hl.1, slotView_hole fun hl => cleaned_not_valid hv h0 hl.1]

theorem map_slotView_cleaned {pre : List DirEntry}
    (h : ∀ e ∈ pre, e.first ≠ ENTRY_FREE → e.Valid ∨ e.computedChecksum ≠ 0) :
    (pre.map cleaned).map slotView = pre.map slotView := by
  rw [List.map_map]
  exact List.map_congr_left fun e he => slotView_cleaned (h e he)

/-- A cluster after a walk that validated its visible slots. -/
def cleanSlots : List DirEntry → List DirEntry
  | [] => []
  | e :: es => if e.first = ENTRY_END then e :: es else cleaned e :: cleanSlots es

@[simp] theorem length_cleanSlots (slots : List DirEntry) :
    (cleanSlots slots).length = slots.length := by
  induction slots with
  | nil => rfl
  | cons e es ih =>
    unfold cleanSlots
    split
    · rfl
    · rw [List.length_cons, ih, List.length_cons]

/-- A sound cluster looks the same after the walk. -/
theorem scan_cleanSlots {slots : List DirEntry} (h : Sound slots) :
    scan (cleanSlots slots) = scan slots := by
  induction slots with
  | nil => rfl
  | cons e es ih =>
    unfold cleanSlots
    by_cases hend : e.first = ENTRY_END
    · rw [if_pos hend]
    · have hvis : visible (e :: es) = e :: visible es := visible_cons hend
      have hes : Sound es := fun d hd => h d (by rw [hvis]; exact List.mem_cons_of_mem e hd)
      rw [if_neg hend, scan_cons (by rw [first_cleaned]; exact hend), scan_cons hend, ih hes,
        slotView_cleaned (h e (by rw [hvis]; exact List.mem_cons_self))]

/-- The cluster stays sound. -/
theorem sound_cleanSlots {slots : List DirEntry} (h : Sound slots) :
    Sound (cleanSlots slots) := by
  induction slots with
  | nil => exact h
  | cons e es ih =>
    unfold cleanSlots
    by_cases hend : e.first = ENTRY_END
    · rw [if_pos hend]
      exact h
    · have hvis : visible (e :: es) = e :: visible es := visible_cons hend
      have hes : Sound es := fun d hd => h d (by rw [hvis]; exact List.mem_cons_of_mem e hd)
      rw [if_neg hend]
      intro d hd hf
      rw [visible_cons (by rw [first_cleaned]; exact hend)] at hd
      cases List.mem_cons.mp hd with
      | inl heq =>
        rw [heq] at hf ⊢
        rw [first_cleaned] at hf
        rw [computedChecksum_cleaned]
        by_cases hv : e.Valid
        · rw [cleaned_of_valid hv]
          exact Or.inl hv
        · exact Or.inr ((h e (by rw [hvis]; exact List.mem_cons_self) hf).resolve_left hv)
      | inr hm => exact ih hes d hm hf

/-- A sound cluster stays sound when an entry in it is replaced by a sound one. -/
theorem sound_replace {pre post : List DirEntry} {e e' : DirEntry}
    (h : Sound (pre ++ e :: post)) (hpre : ∀ d ∈ pre, d.first ≠ ENTRY_END)
    (he : e.first ≠ ENTRY_END)
    (he' : e'.first ≠ ENTRY_FREE → e'.Valid ∨ e'.computedChecksum ≠ 0) :
    Sound (pre.map cleaned ++ e' :: post) := by
  have hvis : visible (pre ++ e :: post) = pre ++ e :: visible post := by
    rw [visible_append hpre, visible_cons he]
  have hclean : ∀ d ∈ pre.map cleaned, d.first ≠ ENTRY_END := fun d hd => by
    obtain ⟨x, hx, rfl⟩ := List.mem_map.mp hd
    rw [first_cleaned]
    exact hpre x hx
  intro d hd hf
  rw [visible_append hclean, List.mem_append] at hd
  cases hd with
  | inl hd =>
    obtain ⟨x, hx, rfl⟩ := List.mem_map.mp hd
    rw [first_cleaned] at hf
    rw [computedChecksum_cleaned]
    by_cases hv : x.Valid
    · rw [cleaned_of_valid hv]
      exact Or.inl hv
    · have hxv : x ∈ visible (pre ++ e :: post) := by
        rw [hvis]
        exact List.mem_append_left _ hx
      exact Or.inr ((h x hxv hf).resolve_left hv)
  | inr hd =>
    by_cases hend : e'.first = ENTRY_END
    · rw [visible_cons_end hend] at hd
      exact absurd hd List.not_mem_nil
    rw [visible_cons hend] at hd
    cases List.mem_cons.mp hd with
    | inl heq =>
      rw [heq] at hf ⊢
      exact he' hf
    | inr hm =>
      refine h d ?_ hf
      rw [hvis]
      exact List.mem_append_right _ (List.mem_cons_of_mem e hm)

/-! ### A walk over one cluster -/

section Walk

variable {σ : Type} {handler : Handler σ} {ctx ctx' : σ} {s s' : FS} {ca : Nat}

/-- The handler validates the slot and passes over it. -/
def Skips (handler : Handler σ) (ctx : σ) (e : DirEntry) : Prop :=
  ∀ info s, handler info e ctx s = some (false, cleaned e, ctx, s)

theorem slotLoop_skips {slots : List DirEntry} (h : ∀ e ∈ visible slots, Skips handler ctx e)
    (i : Nat) : slotLoop handler ca i slots ctx s = some (false, cleanSlots slots, ctx, s) := by
  induction slots generalizing i with
  | nil => rfl
  | cons e es ih =>
    unfold slotLoop cleanSlots
    by_cases hend : e.first = ENTRY_END
    · rw [if_pos hend, if_pos hend]
    · rw [if_neg hend, if_neg hend, h e (by rw [visible_cons hend]; exact List.mem_cons_self)]
      simp only
      rw [ih (fun d hd => h d (by rw [visible_cons hend]; exact List.mem_cons_of_mem e hd)) (i + 1)]
      rfl

/-- The handler ends the walk at the slot `e`. -/
theorem slotLoop_hit {pre post : List DirEntry} {e e' : DirEntry}
    (hpre : ∀ d ∈ pre, d.first ≠ ENTRY_END) (hskip : ∀ d ∈ pre, Skips handler ctx d)
    (he : e.first ≠ ENTRY_END) (i : Nat)
    (hhit : handler ⟨ca, i + pre.length⟩ e ctx s = some (true, e', ctx', s')) :
    slotLoop handler ca i (pre ++ e :: post) ctx s
      = some (true, pre.map cleaned ++ e' :: post, ctx', s') := by
  induction pre generalizing i with
  | nil =>
    rw [List.length_nil, Nat.add_zero] at hhit
    rw [List.nil_append]
    unfold slotLoop
    rw [if_neg he, hhit]
    rfl
  | cons d pre ih =>
    rw [List.cons_append]
    unfold slotLoop
    rw [if_neg (hpre d List.mem_cons_self), hskip d List.mem_cons_self]
    simp only
    rw [ih (fun c hc => hpre c (List.mem_cons_of_mem d hc))
      (fun c hc => hskip c (List.mem_cons_of_mem d hc)) (i + 1)
      (by rw [List.length_cons] at hhit; rw [← hhit]; congr 2; omega)]
    rfl

/-- The handler does not complete at the slot `e`. -/
theorem slotLoop_none {pre post : List DirEntry} {e : DirEntry}
    (hpre : ∀ d ∈ pre, d.first ≠ ENTRY_END) (hskip : ∀ d ∈ pre, Skips handler ctx d)
    (he : e.first ≠ ENTRY_END) (i : Nat) (hhit : handler ⟨ca, i + pre.length⟩ e ctx s = none) :
    slotLoop handler ca i (pre ++ e :: post) ctx s = none := by
  induction pre generalizing i with
  | nil =>
    rw [List.length_nil, Nat.add_zero] at hhit
    rw [List.nil_append]
    unfold slotLoop
    rw [if_neg he, hhit]
  | cons d pre ih =>
    rw [List.cons_append]
    unfold slotLoop
    rw [if_neg (hpre d List.mem_cons_self), hskip d List.mem_cons_self]
    simp only
    rw [ih (fun c hc => hpre c (List.mem_cons_of_mem d hc))
      (fun c hc => hskip c (List.mem_cons_of_mem d hc)) (i + 1)
      (by rw [List.length_cons] at hhit; rw [← hhit]; congr 2; omega)]
    rfl

end Walk

end NiFat32
