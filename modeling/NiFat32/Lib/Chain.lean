import Mathlib.Data.List.Nodup

/-!
# `Chain`: linked chains

`Path next a cs b` says that following `next` from `a` visits the cells `cs` in order and
arrives at `b`. It is the shape of a list whose links live in a table.

* `Path.append_iff`: paths compose;
* `Path.congr`: a path depends only on the links of its own cells, the frame rule of every
  update of the table;
* `Path.unique` and `Path.nodup`: a path to a cell outside it is determined by its start and
  visits no cell twice, so a terminated chain is acyclic;
* `Path.snoc`: a chain grows by one cell when its last link is moved.
-/

set_option autoImplicit false

namespace Chain

variable {α : Type}

/-- Following `next` from `a` visits `cs` in order and arrives at `b`. -/
def Path (next : α → α) : (a : α) → (cs : List α) → (b : α) → Prop
  | a, [], b => a = b
  | a, c :: cs, b => a = c ∧ Path next (next c) cs b

namespace Path

variable {next next' : α → α} {a b : α} {cs ds : List α}

@[simp] theorem nil_iff : Path next a [] b ↔ a = b := Iff.rfl

@[simp] theorem cons_iff {c : α} :
    Path next a (c :: cs) b ↔ a = c ∧ Path next (next c) cs b := Iff.rfl

/-- A path that is not empty starts at its head. -/
theorem head_eq {c : α} (h : Path next a (c :: cs) b) : a = c := h.1

/-- A path to a different place is not empty. -/
theorem ne_nil (h : Path next a cs b) (hab : a ≠ b) : cs ≠ [] := by
  intro hnil
  rw [hnil] at h
  exact hab h

/-- A path to a different place, taken apart at its head. -/
theorem exists_cons (h : Path next a cs b) (hab : a ≠ b) :
    ∃ rest, cs = a :: rest ∧ Path next (next a) rest b := by
  cases cs with
  | nil => exact absurd h hab
  | cons c rest =>
    obtain ⟨rfl, hrest⟩ := h
    exact ⟨rest, rfl, hrest⟩

/-- Paths compose. -/
theorem append_iff :
    Path next a (cs ++ ds) b ↔ ∃ m, Path next a cs m ∧ Path next m ds b := by
  induction cs generalizing a with
  | nil => simp
  | cons c cs ih =>
    simp only [List.cons_append, cons_iff, ih]
    constructor
    · rintro ⟨hac, m, h1, h2⟩
      exact ⟨m, ⟨hac, h1⟩, h2⟩
    · rintro ⟨m, ⟨hac, h1⟩, h2⟩
      exact ⟨hac, m, h1, h2⟩

/-- The frame rule: a path depends only on the links of its own cells. -/
theorem congr (h : Path next a cs b) (hc : ∀ c ∈ cs, next' c = next c) : Path next' a cs b := by
  induction cs generalizing a with
  | nil => exact h
  | cons c cs ih =>
    obtain ⟨hac, hrest⟩ := h
    refine ⟨hac, ?_⟩
    rw [hc c List.mem_cons_self]
    exact ih hrest fun d hd => hc d (List.mem_cons_of_mem c hd)

/-- The cells of a path are determined by its ends, when the end lies outside. -/
theorem unique (h : Path next a cs b) (h' : Path next a ds b) (hb : b ∉ cs) (hb' : b ∉ ds) :
    cs = ds := by
  induction cs generalizing a ds with
  | nil =>
    cases ds with
    | nil => rfl
    | cons d ds =>
      have hab : a = b := h
      exact absurd (hab ▸ h'.1 ▸ List.mem_cons_self) hb'
  | cons c cs ih =>
    cases ds with
    | nil =>
      have hab : a = b := h'
      exact absurd (hab ▸ h.1 ▸ List.mem_cons_self) hb
    | cons d ds =>
      obtain ⟨rfl, hrest⟩ := h
      obtain ⟨rfl, hrest'⟩ := h'
      rw [ih hrest hrest' (fun hm => hb (List.mem_cons_of_mem _ hm))
        (fun hm => hb' (List.mem_cons_of_mem _ hm))]

/-- A path to a cell outside it visits no cell twice. -/
theorem nodup (h : Path next a cs b) (hb : b ∉ cs) : cs.Nodup := by
  induction cs generalizing a with
  | nil => exact List.nodup_nil
  | cons c cs ih =>
    obtain ⟨rfl, hrest⟩ := h
    have hb' : b ∉ cs := fun hm => hb (List.mem_cons_of_mem _ hm)
    refine List.nodup_cons.mpr ⟨?_, ih hrest hb'⟩
    -- a second visit would start the same path again, one cell shorter
    intro hmem
    obtain ⟨xs, ys, hsplit⟩ := List.append_of_mem hmem
    have hlong : Path next a (a :: cs) b := ⟨rfl, hrest⟩
    rw [hsplit] at hrest
    obtain ⟨m, _, hm⟩ := append_iff.mp hrest
    obtain ⟨rfl, hys⟩ := hm
    have hshort : Path next m (m :: ys) b := ⟨rfl, hys⟩
    have heq := unique hlong hshort hb (by
      intro hm
      apply hb
      rw [hsplit]
      cases List.mem_cons.mp hm with
      | inl h => rw [h]; exact List.mem_cons_self
      | inr h => exact List.mem_cons_of_mem _ (List.mem_append_right xs (List.mem_cons_of_mem _ h)))
    have hlen := congrArg List.length heq
    rw [hsplit] at hlen
    simp only [List.length_cons, List.length_append] at hlen
    omega

/-- The suffix of a path from one of its cells. -/
theorem of_mem {c : α} (h : Path next a cs b) (hc : c ∈ cs) :
    ∃ xs ys, cs = xs ++ c :: ys ∧ Path next a xs c ∧ Path next (next c) ys b := by
  obtain ⟨xs, ys, hsplit⟩ := List.append_of_mem hc
  rw [hsplit] at h
  obtain ⟨m, h1, hm, h2⟩ := append_iff.mp h
  subst hm
  exact ⟨xs, ys, hsplit, h1, h2⟩

/-- A chain grows by the cell `n`: its last link moves to `n`, and `n` takes over the end. -/
theorem snoc {last n : α} (h : Path next a (cs ++ [last]) b)
    (hkeep : ∀ c ∈ cs, next' c = next c) (hlast : next' last = n) (hn : next' n = b) :
    Path next' a (cs ++ [last] ++ [n]) b := by
  obtain ⟨m, h1, hm, _⟩ := append_iff.mp h
  subst hm
  rw [append_iff]
  refine ⟨n, append_iff.mpr ⟨m, h1.congr hkeep, rfl, hlast⟩, rfl, hn⟩

end Path

end Chain
