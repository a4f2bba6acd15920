/-!
# `Lib.Run`: operations with bounded loops, and runs of them

An operation whose loops take a bound on the number of passes is a function of the bound, `none`
when the bound is used up. `Ensures f post` is total correctness: every large enough bound gives
a result, and it satisfies `post`.

`Always` is total correctness of a sequence of calls. `Always.of_invariant` proves it from an
invariant, and `Always.step` executes one call of it. `Throughout` is its partial counterpart: it
speaks of the states that the sequence reaches.
-/

set_option autoImplicit false

namespace Run

variable {β γ : Type}

/-- With every bound on its loops from some one on, the operation `f` completes with a result
that satisfies `post`. -/
def Ensures (f : (fuel : Nat) → Option β) (post : β → Prop) : Prop :=
  ∃ bound, ∀ fuel, bound ≤ fuel → ∃ r, f fuel = some r ∧ post r

namespace Ensures

variable {f : Nat → Option β} {post post' : β → Prop}

theorem imp (h : Ensures f post) (hp : ∀ r, post r → post' r) : Ensures f post' := by
  obtain ⟨bound, hb⟩ := h
  refine ⟨bound, fun fuel hfuel => ?_⟩
  obtain ⟨r, hr, hpr⟩ := hb fuel hfuel
  exact ⟨r, hr, hp r hpr⟩

/-- The two postconditions hold of the same result. -/
theorem and (h : Ensures f post) (h' : Ensures f post') :
    Ensures f fun r => post r ∧ post' r := by
  obtain ⟨bound, hb⟩ := h
  obtain ⟨bound', hb'⟩ := h'
  refine ⟨max bound bound', fun fuel hfuel => ?_⟩
  obtain ⟨r, hr, hp⟩ := hb fuel (by omega)
  obtain ⟨r', hr', hp'⟩ := hb' fuel (by omega)
  obtain rfl : r = r' := Option.some.inj (hr.symm.trans hr')
  exact ⟨r, hr, hp, hp'⟩

/-- An operation that completes has a result. -/
theorem result (h : Ensures f post) : ∃ r, post r := by
  obtain ⟨bound, hb⟩ := h
  obtain ⟨r, _, hp⟩ := hb bound (Nat.le_refl bound)
  exact ⟨r, hp⟩

/-- The result is passed on to a function. -/
theorem map {g : β → γ} {post : γ → Prop} (h : Ensures f fun r => post (g r)) :
    Ensures (fun fuel => (f fuel).map g) post := by
  obtain ⟨bound, hb⟩ := h
  refine ⟨bound, fun fuel hfuel => ?_⟩
  obtain ⟨r, hr, hp⟩ := hb fuel hfuel
  exact ⟨g r, congrArg (Option.map g) hr, hp⟩

end Ensures

section Always

variable {σ χ : Type} (ok : σ → χ → Prop) (exec : χ → σ → (fuel : Nat) → Option σ)
  (post : σ → Prop)

/-- `post` holds before and after every call of the sequence, as long as the calls are `ok` where
they are made; and such a call completes. -/
def Always : List χ → σ → Prop
  | [], s => post s
  | c :: cs, s => post s ∧ (ok s c → Run.Ensures (exec c s) (Always cs))

variable {ok exec post}

/-- The invariant rule. -/
theorem Always.of_invariant (inv : σ → Prop) (hpost : ∀ s, inv s → post s)
    (hstep : ∀ s c, inv s → ok s c → Ensures (exec c s) inv) (cs : List χ) {s : σ}
    (h : inv s) : Always ok exec post cs s := by
  induction cs generalizing s with
  | nil => exact hpost s h
  | cons c cs ih => exact ⟨hpost s h, fun hok => (hstep s c h hok).imp fun s' hs' => ih hs'⟩

/-- What holds in every state of a run holds in the first one. -/
theorem Always.now {cs : List χ} {s : σ} (h : Always ok exec post cs s) : post s := by
  cases cs with
  | nil => exact h
  | cons c cs => exact h.1

/-- One call of a run, with a fact about its result. -/
theorem Always.step {c : χ} {cs : List χ} {s : σ} {fact : σ → Prop}
    (h : Always ok exec post (c :: cs) s) (hok : ok s c) (hf : Ensures (exec c s) fact) :
    ∃ s', fact s' ∧ Always ok exec post cs s' := (hf.and (h.2 hok)).result

/-- One call of a run that has the same result with every bound. -/
theorem Always.next {c : χ} {cs : List χ} {s s' : σ} (h : Always ok exec post (c :: cs) s)
    (hok : ok s c) (he : ∀ fuel, exec c s fuel = some s') : Always ok exec post cs s' := by
  obtain ⟨bound, hb⟩ := h.2 hok
  obtain ⟨r, hr, hcs⟩ := hb bound (Nat.le_refl bound)
  obtain rfl : s' = r := Option.some.inj ((he bound).symm.trans hr)
  exact hcs

variable (ok exec post)

/-- `post` holds before and after every call of the sequence that completes, as long as the calls
are `ok` where they are made. -/
def Throughout : List χ → σ → Prop
  | [], s => post s
  | c :: cs, s => post s ∧ (ok s c → ∀ fuel s', exec c s fuel = some s' → Throughout cs s')

variable {ok exec post}

/-- The invariant rule. -/
theorem Throughout.of_invariant (inv : σ → Prop) (hpost : ∀ s, inv s → post s)
    (hstep : ∀ s c fuel s', inv s → ok s c → exec c s fuel = some s' → inv s') (cs : List χ) {s : σ}
    (h : inv s) : Throughout ok exec post cs s := by
  induction cs generalizing s with
  | nil => exact hpost s h
  | cons c cs ih =>
    exact ⟨hpost s h, fun hok fuel s' hrun => ih (hstep s c fuel s' h hok hrun)⟩

theorem Throughout.now {cs : List χ} {s : σ} (h : Throughout ok exec post cs s) : post s := by
  cases cs with
  | nil => exact h
  | cons c cs => exact h.1

end Always

end Run
