import Mathlib.Data.List.Pairwise
import Mathlib.Data.List.Perm.Basic

/-!
# `Lib.Holders`: programs that take and give back records of a shared table

A party runs a program, step by step, and many parties interleave. `lock` asks the table for a
record, which the table may refuse. `unlock` gives back by a key: the table drops some record with
that key, not necessarily the one that the party put there. `call` is any other step, with an
answer from outside.

`Owes` says that a program gives back what it holds on all its paths. `Lawful` is what a table
promises. `Sound.run` is what follows for every interleaving: the records of the table are the
records that the parties hold, and no two of them exclude each other.
-/

set_option autoImplicit false

namespace Holders

variable {α κ ε ω ρ τ β : Type}

/-- A program over records `α` with keys `κ`, and requests `ε` that are answered by `ω`. -/
inductive Prog (α κ ε ω ρ : Type) where
  | ret (v : ρ)
  | lock (r : α) (k : Bool → Prog α κ ε ω ρ)
  | unlock (c : κ) (k : Prog α κ ε ω ρ)
  | call (e : ε) (k : ω → Prog α κ ε ω ρ)

/-- A program, and the records that it took and did not give back. -/
structure Party (α κ ε ω ρ : Type) where
  prog : Prog α κ ε ω ρ
  held : List α

/-- The party is not in the middle of a program. -/
def Party.Idle (p : Party α κ ε ω ρ) : Prop := ∃ v, p.prog = .ret v

/-- A shared table and the parties. -/
structure Sys (τ α κ ε ω ρ : Type) where
  table : τ
  parties : List (Party α κ ε ω ρ)

/-- The operations of a table. -/
structure Table (τ α κ : Type) where
  records : τ → List α
  tryLock : α → τ → Option τ
  release : κ → τ → τ

/-- A table records what it grants, grants nothing that a recorded record excludes, and drops one
record with the key that it is asked for. Compatible records with one key are equal. -/
structure Lawful (T : Table τ α κ) (R : α → α → Prop) (Good : α → Prop) (key : α → κ) : Prop where
  symm : ∀ x y, R x y → R y x
  key_inj : ∀ x y, Good x → Good y → R x y → key x = key y → x = y
  granted : ∀ r t t', (∀ x ∈ T.records t, Good x) → Good r → T.tryLock r t = some t' →
    (T.records t').Perm (r :: T.records t) ∧ ∀ x ∈ T.records t, R r x
  released : ∀ c t, (∀ x ∈ T.records t, Good x) → (∃ r ∈ T.records t, key r = c) →
    ∃ r, key r = c ∧ (T.records t).Perm (r :: T.records (T.release c t))

/-! ### Tables -/

section Lawful

variable {T : Table τ α κ} {R : α → α → Prop} {Good : α → Prop} {key : α → κ} {t t' : τ} {r : α}

/-- A granted record joins the others. -/
theorem Lawful.grant (hT : Lawful T R Good key) (hgood : ∀ x ∈ T.records t, Good x) (hr : Good r)
    (hex : (T.records t).Pairwise R) (hlock : T.tryLock r t = some t') :
    (T.records t').Perm (r :: T.records t) ∧ (T.records t').Pairwise R ∧
      ∀ x ∈ T.records t', Good x := by
  obtain ⟨hperm, hcompat⟩ := hT.granted r t t' hgood hr hlock
  refine ⟨hperm, ?_, fun x hx => ?_⟩
  · exact hperm.symm.pairwise (List.pairwise_cons.mpr ⟨hcompat, hex⟩) (hT.symm _ _)
  · cases List.mem_cons.mp (hperm.subset hx) with
    | inl heq => exact heq ▸ hr
    | inr hold => exact hgood x hold

/-- What the table drops by a key is equal to any record with the key: two holders of one key do not
exclude each other. -/
theorem Lawful.drop (hT : Lawful T R Good key) (hgood : ∀ x ∈ T.records t, Good x)
    (hex : (T.records t).Pairwise R) (hr : r ∈ T.records t) :
    (T.records t).Perm (r :: T.records (T.release (key r) t)) := by
  have hsymm : Std.Symm R := ⟨hT.symm⟩
  obtain ⟨x, hkey, hperm⟩ := hT.released (key r) t hgood ⟨r, hr, rfl⟩
  have hx : x ∈ T.records t := hperm.symm.subset List.mem_cons_self
  by_cases heq : x = r
  · rwa [heq] at hperm
  · have hcompat : R x r := hex.forall hx hr heq
    exact absurd (hT.key_inj x r (hgood x hx) (hgood r hr) hcompat hkey) heq

end Lawful

/-! ### Holders -/

section Others

variable {ps : List (Party α κ ε ω ρ)} {i : Nat} {p : Party α κ ε ω ρ}

/-- What all hold, but for the party `i`. -/
def others (i : Nat) (ps : List (Party α κ ε ω ρ)) : List α := (ps.eraseIdx i).flatMap Party.held

theorem flatMap_held (h : ps[i]? = some p) :
    (ps.flatMap Party.held).Perm (p.held ++ others i ps) := by
  obtain ⟨hi, rfl⟩ := List.getElem?_eq_some_iff.mp h
  exact (List.getElem_cons_eraseIdx_perm hi).symm.flatMap_right _

theorem flatMap_set_held (h : ps[i]? = some p) (q : Party α κ ε ω ρ) :
    ((ps.set i q).flatMap Party.held).Perm (q.held ++ others i ps) := by
  obtain ⟨hi, -⟩ := List.getElem?_eq_some_iff.mp h
  exact (List.set_perm_cons_eraseIdx hi q).flatMap_right _

end Others

/-! ### Programs -/

variable [DecidableEq κ]

/-- What a holder has left after giving back by a key. -/
def giveBack (key : α → κ) (c : κ) (held : List α) : List α := held.eraseP fun r => key r = c

/-- The program gives back what it holds, by keys of records that it holds. It asks for good records
only. -/
def Owes (Good : α → Prop) (key : α → κ) : Prog α κ ε ω ρ → List α → Prop
  | .ret _, held => held = []
  | .lock r k, held => Good r ∧ Owes Good key (k true) (r :: held) ∧ Owes Good key (k false) held
  | .unlock c k, held => (∃ r ∈ held, key r = c) ∧ Owes Good key k (giveBack key c held)
  | .call _ k, held => ∀ v, Owes Good key (k v) held

/-- One step of a party; `v` answers its call. -/
def Party.step (T : Table τ α κ) (key : α → κ) (v : ω) (t : τ) (p : Party α κ ε ω ρ) :
    τ × Party α κ ε ω ρ :=
  match p.prog with
  | .ret _ => (t, p)
  | .lock r k =>
    match T.tryLock r t with
    | some t => (t, { prog := k true, held := r :: p.held })
    | none => (t, { p with prog := k false })
  | .unlock c k => (T.release c t, { prog := k, held := giveBack key c p.held })
  | .call _ k => (t, { p with prog := k v })

/-- What happens next: the idle party `i` begins a program, or the party `i` makes a step. -/
inductive Act (β ω : Type) where
  | start (i : Nat) (b : β)
  | step (i : Nat) (v : ω)

/-- The system after one act. An act of a party that is not there, or of one that cannot do it, is
no act. -/
def Sys.act (T : Table τ α κ) (key : α → κ) (code : β → Prog α κ ε ω ρ)
    (s : Sys τ α κ ε ω ρ) : Act β ω → Sys τ α κ ε ω ρ
  | .start i b =>
    match s.parties[i]? with
    | some { prog := .ret _, held } =>
      { s with parties := s.parties.set i { prog := code b, held } }
    | _ => s
  | .step i v =>
    match s.parties[i]? with
    | some p =>
      { table := (p.step T key v s.table).1
        parties := s.parties.set i (p.step T key v s.table).2 }
    | none => s

/-- The system after the acts, in order. -/
def Sys.run (T : Table τ α κ) (key : α → κ) (code : β → Prog α κ ε ω ρ)
    (s : Sys τ α κ ε ω ρ) (acts : List (Act β ω)) : Sys τ α κ ε ω ρ :=
  acts.foldl (Sys.act T key code) s

/-- The records of the table are those that the parties hold. They are good, none excludes another,
and every party gives back what it holds. -/
structure Sound (T : Table τ α κ) (R : α → α → Prop) (Good : α → Prop) (key : α → κ)
    (s : Sys τ α κ ε ω ρ) : Prop where
  owned : (T.records s.table).Perm (s.parties.flatMap Party.held)
  exclusive : (T.records s.table).Pairwise R
  good : ∀ r ∈ T.records s.table, Good r
  owes : ∀ p ∈ s.parties, Owes Good key p.prog p.held

/-- Giving back takes out a record with the key. -/
theorem giveBack_perm {key : α → κ} {c : κ} {held : List α} (h : ∃ r ∈ held, key r = c) :
    ∃ r, key r = c ∧ held.Perm (r :: giveBack key c held) := by
  obtain ⟨r, hmem, hkey⟩ := h
  obtain ⟨x, l₁, l₂, -, hx, hheld, hback⟩ :=
    List.exists_of_eraseP (p := fun r => decide (key r = c)) hmem (decide_eq_true hkey)
  refine ⟨x, of_decide_eq_true hx, ?_⟩
  rw [giveBack, hback, hheld]
  exact List.perm_middle

/-! ### Runs -/

section Run

variable {T : Table τ α κ} {R : α → α → Prop} {Good : α → Prop} {key : α → κ}
  {s : Sys τ α κ ε ω ρ} {p q : Party α κ ε ω ρ} {i : Nat} {t : τ}

/-- Another party in the place of `p`, that holds the records of the table but for the others'. -/
theorem Sound.replace (h : Sound T R Good key s) (hi : s.parties[i]? = some p)
    (howned : (T.records t).Perm (q.held ++ others i s.parties)) (hex : (T.records t).Pairwise R)
    (hgood : ∀ r ∈ T.records t, Good r) (howes : Owes Good key q.prog q.held) :
    Sound T R Good key { table := t, parties := s.parties.set i q } where
  owned := howned.trans (flatMap_set_held hi q).symm
  exclusive := hex
  good := hgood
  owes := by
    intro x hx
    cases List.mem_or_eq_of_mem_set hx with
    | inl hold => exact h.owes x hold
    | inr heq => exact heq ▸ howes

/-- A step of a party keeps the table and the holders in agreement. -/
theorem Sound.step (hT : Lawful T R Good key) (h : Sound T R Good key s)
    (hi : s.parties[i]? = some p) (v : ω) :
    Sound T R Good key { table := (p.step T key v s.table).1
                         parties := s.parties.set i (p.step T key v s.table).2 } := by
  have howed : Owes Good key p.prog p.held := h.owes p (List.mem_of_getElem? hi)
  have howned : (T.records s.table).Perm (p.held ++ others i s.parties) :=
    h.owned.trans (flatMap_held hi)
  unfold Party.step
  cases hprog : p.prog with
  | ret v => exact h.replace hi howned h.exclusive h.good howed
  | call e k =>
    rw [hprog] at howed
    exact h.replace hi howned h.exclusive h.good (howed v)
  | lock r k =>
    rw [hprog] at howed
    obtain ⟨hr, hyes, hno⟩ := howed
    cases hlock : T.tryLock r s.table with
    | none =>
      simp only [hlock]
      exact h.replace hi howned h.exclusive h.good hno
    | some t =>
      simp only [hlock]
      obtain ⟨hperm, hex, hgood⟩ := hT.grant h.good hr h.exclusive hlock
      exact h.replace hi (hperm.trans (howned.cons r)) hex hgood hyes
  | unlock c k =>
    rw [hprog] at howed
    obtain ⟨hkey, hrest⟩ := howed
    -- The table drops a record that is equal to the one that the party gives back.
    obtain ⟨r, rfl, hback⟩ := giveBack_perm hkey
    have hmem : r ∈ T.records s.table :=
      howned.symm.subset (List.mem_append_left _ (hback.symm.subset List.mem_cons_self))
    have hdrop := hT.drop h.good h.exclusive hmem
    have hleft : (T.records (T.release (key r) s.table)).Perm
        (giveBack key (key r) p.held ++ others i s.parties) :=
      ((hdrop.symm.trans howned).trans (hback.append_right _)).cons_inv
    refine h.replace hi hleft ?_ (fun x hx => ?_) hrest
    · exact (List.pairwise_cons.mp (hdrop.pairwise h.exclusive (hT.symm _ _))).2
    · exact h.good x (hdrop.symm.subset (List.mem_cons_of_mem _ hx))

/-- An act keeps it, when the programs that begin give back what they take. -/
theorem Sound.act {code : β → Prog α κ ε ω ρ} (hT : Lawful T R Good key)
    (hcode : ∀ b, Owes Good key (code b) []) (h : Sound T R Good key s) (a : Act β ω) :
    Sound T R Good key (s.act T key code a) := by
  cases a with
  | start i b =>
    simp only [Sys.act]
    split
    next held hi =>
      have hnone : held = [] := h.owes _ (List.mem_of_getElem? hi)
      have howned := h.owned.trans (flatMap_held hi)
      exact h.replace hi howned h.exclusive h.good (hnone ▸ hcode b)
    next => exact h
  | step i v =>
    simp only [Sys.act]
    split
    next p hi => exact h.step hT hi v
    next => exact h

/-- Every interleaving keeps it. -/
theorem Sound.run {code : β → Prog α κ ε ω ρ} (hT : Lawful T R Good key)
    (hcode : ∀ b, Owes Good key (code b) []) (h : Sound T R Good key s) (acts : List (Act β ω)) :
    Sound T R Good key (s.run T key code acts) := by
  induction acts generalizing s with
  | nil => exact h
  | cons a acts ih => exact ih (h.act hT hcode a)

/-- An idle party holds nothing. -/
theorem Sound.idle_held (h : Sound T R Good key s) (hp : p ∈ s.parties) (hidle : p.Idle) :
    p.held = [] := by
  obtain ⟨v, hv⟩ := hidle
  have howed := h.owes p hp
  rwa [hv] at howed

/-- When every party is idle, the table has no records. -/
theorem Sound.records_nil (h : Sound T R Good key s) (hidle : ∀ p ∈ s.parties, p.Idle) :
    T.records s.table = [] := by
  have hnil : s.parties.flatMap Party.held = [] :=
    List.flatMap_eq_nil_iff.mpr fun p hp => h.idle_held hp (hidle p hp)
  exact List.perm_nil.mp (hnil ▸ h.owned)

end Run

end Holders
