import NiFat32.Core.Process
import NiFat32.Proofs.Calls
import NiFat32.Proofs.Logs

/-!
# `Proofs.Requests`: the answers of the library in two runs

`TableBisim.runCall` compares the values that the calls return. The request of a program gets more
than that: a read fills its buffer, a `stat` its record, and the error ring can be asked.
-/

set_option autoImplicit false

namespace NiFat32

open Relational

variable {m : Mount} {R : FS → FS → Prop} {slot : Nat → Content → Content → Prop} {s t : FS}

/-- The rebuilt boot sectors come from the geometry alone. -/
theorem LogBisim.repairBootsectors (hl : LogBisim m R) (h : R s t) (pointerSize : Nat) :
    Pairs R (repairBootsectors m pointerSize s) (repairBootsectors m pointerSize t) := by
  apply Pairs.mk true
  apply foldl_related (R := R) _ _ h
  intro s t i h'
  simp only [hl.medium h']
  exact hl.setMedium h' _

/-- A request from related states that read the same through its handles. -/
theorem TableBisim.serve (hb : TableBisim m R slot) (hl : LogBisim m R)
    (hroot : ∀ {i c c'}, slot i c c' → ∀ root,
      slot i { c with indexRoot := root } { c' with indexRoot := root })
    (hstat : ∀ {s t}, R s t → ∀ i info, statContent i info s = statContent i info t)
    {q : Request} (h : R s t) (fuel : Nat) (hreads : ∀ c, q = .call c → c.ReadsSame s t) :
    Ends R Prod.mk (serve m q fuel s) (serve m q fuel t) := by
  cases q with
  | getLastError =>
    obtain ⟨code, s', t', hs, ht, h'⟩ := hl.lastError h
    simp only [NiFat32.serve, hs, ht]
    exact Ends.some _ h'
  | repairBootsectors pointerSize =>
    obtain ⟨ok, s', t', hs, ht, h'⟩ := hl.repairBootsectors h pointerSize
    simp only [NiFat32.serve, hs, ht]
    exact Ends.some _ h'
  | call c =>
    have hsame := hreads c rfl
    have hrun : Ends R Prod.mk (NiFat32.runCall m c fuel s) (NiFat32.runCall m c fuel t) := by
      apply hb.runCall h fuel hsame
      rintro ci - - root s' t' - h'
      exact hroot (hb.table h' ci.toNat) root
    -- a call that fills no buffer of its caller
    have hvalue : Ends R Prod.mk
        ((NiFat32.runCall m c fuel s).map fun r => ((⟨r.1, [], none⟩ : Reply), r.2))
        ((NiFat32.runCall m c fuel t).map fun r => ((⟨r.1, [], none⟩ : Reply), r.2)) := by
      refine hrun.map ?_
      intro value s' t' h'
      exact ⟨_, s', t', rfl, rfl, h'⟩
    cases c with
    | readContent2buffer ci offset size =>
      refine (hb.readContent2buffer h (hsame ci (List.mem_singleton_self ci)) fuel offset
        size).map ?_
      intro r s' t' h'
      exact ⟨_, s', t', rfl, rfl, h'⟩
    | statContent ci info =>
      simp only [NiFat32.serve, nifat32StatContent, hstat h]
      split
      · exact Ends.some _ h
      · exact Ends.none
    | _ => exact hvalue

/-! ### Invariants of the requests -/

namespace StepInvariant

variable {P : FS → Prop} (hP : StepInvariant m P)

include hP

theorem logBisim : LogBisim m fun s t => s = t ∧ P s where
  medium h := congrArg FS.medium h.1
  setMedium := hP.bisim.setMedium
  errors h := Or.inl (congrArg FS.errors h.1)
  setErrors := by
    rintro s _ ⟨rfl, h⟩ r
    exact ⟨rfl, hP.logs h ⟨rfl, rfl, rfl, rfl, rfl, rfl, rfl⟩⟩
  journalIndex h := Or.inr (congrArg FS.journalIndex h.1)
  setJournalIndex := by
    rintro s _ ⟨rfl, h⟩ i
    exact ⟨rfl, hP.logs h ⟨rfl, rfl, rfl, rfl, rfl, rfl, rfl⟩⟩
  setAdded := by
    rintro s _ ⟨rfl, h⟩ n
    exact ⟨rfl, hP.logs h ⟨rfl, rfl, rfl, rfl, rfl, rfl, rfl⟩⟩
  setSolving := by
    rintro s _ ⟨rfl, h⟩ n
    exact ⟨rfl, hP.logs h ⟨rfl, rfl, rfl, rfl, rfl, rfl, rfl⟩⟩

/-- An invariant that does not speak of the content table. -/
theorem table (hcontent : ∀ {s}, P s → ∀ i c, P (s.setContent i c)) :
    TableBisim m (fun s t => s = t ∧ P s) fun _ c c' => c = c' where
  bisim := hP.bisim
  table := by
    rintro s _ ⟨rfl, -⟩ i
    rfl
  setContent := by
    rintro s _ ⟨rfl, h⟩ i c _ rfl
    exact ⟨rfl, hcontent h i c⟩
  contentType h := congrArg _ h
  indexRoot h := congrArg _ h
  emptied h := congrArg _ h
  taken h := congrArg _ h
  filled := by
    rintro i c _ rfl isDir name e mode
    rfl
  moved := by
    rintro i c _ rfl ca
    rfl

/-- A request keeps the invariant. -/
theorem serve (hcontent : ∀ {s}, P s → ∀ i c, P (s.setContent i c)) {q : Request} {fuel : Nat}
    {r : Reply} {s' : FS} (h : P s) (hrun : serve m q fuel s = some (r, s')) : P s' := by
  have hends := (hP.table hcontent).serve hP.logBisim (by rintro i c _ rfl root; rfl)
    (by rintro s _ ⟨rfl, -⟩ i info; rfl) (q := q) ⟨rfl, h⟩ fuel
    (fun c _ => c.readsSame_refl s)
  rcases hends with ⟨hnone, -⟩ | ⟨r', u, _, hu, -, rfl, hu'⟩
  · rw [hnone] at hrun
    cases hrun
  · rw [hu] at hrun
    cases hrun
    exact hu'

end StepInvariant

end NiFat32
