import NiFat32.Core.Formatter
import NiFat32.Proofs.Names

/-!
# `Proofs.FormatNames`: the names that the formatter stores

The library ends a base at the first dot and the formatter at the last one; the library takes what
is behind a base of eight bytes for an extension, dot or not, and the formatter needs the dot. Both
know `.` and `..`, but the formatter keeps what follows a dot at the start of a name.
`to83Name_fatname_iff` lists the names on which they agree.
-/

set_option autoImplicit false

namespace NiFat32.Formatter

variable {c : UInt8} {k n : Nat} {xs ys name front rest : List UInt8}

/-! ### The last dot -/

theorem strrchr_none : strrchr c xs = none ↔ c ∉ xs := by
  induction xs with
  | nil => simp [strrchr]
  | cons d xs ih =>
    rw [strrchr]
    cases hrest : strrchr c xs with
    | some i =>
      have hmem : c ∈ xs := by
        by_contra h
        rw [ih.mpr h] at hrest
        cases hrest
      simp [hmem]
    | none =>
      have hnot := ih.mp hrest
      by_cases hd : d = c
      · simp [hd]
      · simp [hd, hnot, Ne.symm hd]

/-- The last one stands behind the first one. -/
theorem strrchr_append (ys : List UInt8) :
    strrchr c (xs ++ ys) = ((strrchr c ys).map (xs.length + ·)).or (strrchr c xs) := by
  induction xs with
  | nil =>
    cases h : strrchr c ys with
    | none => simp [strrchr, h]
    | some i => simp [h]
  | cons d xs ih =>
    rw [List.cons_append, strrchr, strrchr, ih]
    cases h : strrchr c ys with
    | none => simp
    | some i =>
      simp
      omega

theorem strrchr_last (h : c ∉ ys) : strrchr c (xs ++ c :: ys) = some xs.length := by
  rw [strrchr_append, strrchr, strrchr_none.mpr h]
  simp

/-- A list is what stands before its last `c`, and the others. -/
theorem split_last (h : c ∈ xs) : ∃ front rest, xs = front ++ c :: rest ∧ c ∉ rest := by
  obtain ⟨as, bs, heq, hnot⟩ := List.eq_append_cons_of_mem (List.mem_reverse.mpr h)
  refine ⟨bs.reverse, as.reverse, ?_, fun hmem => hnot (List.mem_reverse.mp hmem)⟩
  rw [← List.reverse_reverse xs, heq]
  simp

/-- The name before its last dot; a dot at the start does not count. -/
def beforeLastDot (name : List UInt8) : List UInt8 :=
  match strrchr DOT name with
  | some (dot + 1) => name.take (dot + 1)
  | _ => name

/-- The name behind its last dot; a dot at the start does not count. -/
def behindLastDot (name : List UInt8) : List UInt8 :=
  match strrchr DOT name with
  | some (dot + 1) => name.drop (dot + 2)
  | _ => []

theorem split83_eq (name : List UInt8) :
    split83 name = ((beforeLastDot name).take 8, (behindLastDot name).take 3) := by
  rw [split83, beforeLastDot, behindLastDot]
  cases strrchr DOT name with
  | none => rfl
  | some dot =>
    cases dot with
    | zero => rfl
    | succ dot => rfl

theorem lastDot_eq (hne : front ≠ []) (hrest : DOT ∉ rest) :
    beforeLastDot (front ++ DOT :: rest) = front ∧ behindLastDot (front ++ DOT :: rest) = rest := by
  obtain ⟨k, hk⟩ := Nat.exists_eq_succ_of_ne_zero fun h => hne (List.length_eq_zero_iff.mp h)
  rw [beforeLastDot, behindLastDot, strrchr_last hrest, hk]
  simp only
  constructor
  · exact List.take_left' hk
  · rw [show k + 2 = front.length + 1 by omega, List.drop_append]
    simp

/-! ### Filled lists -/

/-- The lists agree on `n` bytes up to case, when both are filled with blanks. -/
def SameFilled (n : Nat) (xs ys : List UInt8) : Prop :=
  (padTo n SPACE xs).map toUpper = (padTo n SPACE ys).map toUpper

/-- Nothing but blanks. -/
def Blank (xs : List UInt8) : Prop := ∀ c ∈ xs, c = SPACE

instance : Decidable (SameFilled n xs ys) := inferInstanceAs (Decidable (_ = _))

instance : Decidable (Blank xs) := inferInstanceAs (Decidable (∀ c ∈ xs, c = SPACE))

theorem padTo_take : padTo n c (xs.take n) = padTo n c xs := by
  rw [padTo, padTo, List.take_take, Nat.min_self, List.length_take]
  congr 2
  omega

theorem blank_iff_replicate : Blank xs ↔ xs = List.replicate xs.length SPACE :=
  List.eq_replicate_length.symm

/-- A list is filled to a longer one exactly when blanks follow. -/
theorem sameFilled_append (h : xs.length ≤ n) :
    SameFilled n xs (xs ++ ys) ↔ Blank (ys.take (n - xs.length)) := by
  have hfill : padTo n SPACE xs = xs ++ padTo (n - xs.length) SPACE [] := by
    rw [← padTo_append h, List.append_nil]
  rw [SameFilled, padTo_append h, hfill, List.map_append, List.map_append,
    List.append_cancel_left_eq]
  constructor
  · intro heq c hc
    have hmem : toUpper c ∈ (padTo (n - xs.length) SPACE []).map toUpper := by
      rw [heq]
      exact List.mem_map_of_mem (List.mem_append_left _ hc)
    obtain ⟨d, hd, hcase⟩ := List.mem_map.mp hmem
    rcases mem_padTo hd with hnil | hblank
    · cases hnil
    · rw [hblank] at hcase
      exact toUpper_eq_space.mp hcase.symm
  · intro hblank
    rw [padTo, padTo, blank_iff_replicate.mp hblank, List.take_nil, List.nil_append,
      List.replicate_append_replicate, List.length_take]
    congr 2
    rw [List.length_nil]
    omega

/-- A byte in a list and a blank in the filling of the other. -/
theorem not_sameFilled (hk : k < n) (hxs : xs.length ≤ k) (hys : ys[k]? = some c)
    (hc : c ≠ SPACE) : ¬ SameFilled n xs ys := by
  intro h
  have hlen : k < ys.length := (List.getElem?_eq_some_iff.mp hys).1
  have hbyte := congrArg (fun l => l[k]?) h
  simp only [List.getElem?_map] at hbyte
  rw [getElem?_padTo_fill hxs hk, getElem?_padTo hlen hk, hys] at hbyte
  exact hc (toUpper_eq_space.mp (Option.some.inj hbyte).symm)

theorem sameFilled_take : SameFilled n (xs.take n) ys ↔ SameFilled n xs ys := by
  rw [SameFilled, SameFilled, padTo_take]

theorem takeWhile_front (h : DOT ∉ xs) :
    (xs ++ ys).takeWhile (· ≠ DOT) = xs ++ ys.takeWhile (· ≠ DOT) := by
  apply List.takeWhile_append_of_pos
  intro c hc
  exact decide_eq_true fun hdot => h (hdot ▸ hc)

/-- What the library reads from a name, in the form of the formatter. -/
theorem to83Name_eq_iff {base ext : List UInt8}
    (hbytes : fatnameBytes name = padTo 8 SPACE base ++ padTo 3 SPACE ext) :
    to83Name name = (nameToFatname name).toList ↔
      SameFilled 8 base (beforeLastDot name) ∧ SameFilled 3 ext (behindLastDot name) := by
  rw [to83Name, split83_eq, nameToFatname_toList, hbytes, List.map_append, SameFilled, SameFilled]
  simp only [padTo_take]
  constructor
  · intro h
    have hparts := List.append_inj h (by simp)
    exact ⟨hparts.1.symm, hparts.2.symm⟩
  · intro h
    rw [h.1, h.2]

/-! ### The names on which the two agree -/

/-- The dots that the library keeps of a name that starts with one. -/
def dirDots (name : List UInt8) : List UInt8 :=
  if name.tail.head? = some DOT then [DOT, DOT] else [DOT]

/-- The three bytes that the library takes for the extension behind a base of eight bytes. -/
def behindEighth (name : List UInt8) : List UInt8 :=
  if (name.drop 8).head? = some DOT then (name.drop 8).tail else name.drop 8

/-- A name with a dot at the start is one or two dots and blanks. A name with a dot in its first
eight bytes has no other one. Of another name both take the same bytes for the extension: those
behind the eighth, or behind a dot there, and those behind the last dot. -/
def NamedAlike (name : List UInt8) : Prop :=
  if name.head? = some DOT then
    (dirDots name).length ≤ (beforeLastDot name).length ∧
    Blank (((beforeLastDot name).take 8).drop (dirDots name).length) ∧
    Blank ((behindLastDot name).take 3)
  else if DOT ∈ name.take 8 then name.count DOT = 1
  else SameFilled 3 (behindEighth name) (behindLastDot name)

/-- The last dot of a name that does not start with one. -/
theorem lastDot_cases (hhead : name.head? ≠ some DOT) :
    (DOT ∉ name ∧ beforeLastDot name = name ∧ behindLastDot name = []) ∨
    ∃ front rest, name = front ++ DOT :: rest ∧ DOT ∉ rest ∧ beforeLastDot name = front ∧
      behindLastDot name = rest := by
  by_cases hdot : DOT ∈ name
  · obtain ⟨front, rest, rfl, hrest⟩ := split_last hdot
    have hne : front ≠ [] := by
      intro h
      rw [h] at hhead
      exact hhead rfl
    obtain ⟨hbefore, hbehind⟩ := lastDot_eq hne hrest
    exact Or.inr ⟨front, rest, rfl, hrest, hbefore, hbehind⟩
  · refine Or.inl ⟨hdot, ?_, ?_⟩
    · rw [beforeLastDot, strrchr_none.mpr hdot]
    · rw [behindLastDot, strrchr_none.mpr hdot]

/-- Without a dot in the first eight bytes the base is those bytes. -/
theorem long_alike (hdot : DOT ∉ name.take 8) :
    to83Name name = (nameToFatname name).toList ↔
      SameFilled 3 (behindEighth name) (behindLastDot name) := by
  have hhead : name.head? ≠ some DOT := by
    intro h
    rw [List.head?_eq_some_iff] at h
    obtain ⟨rest, rfl⟩ := h
    exact hdot List.mem_cons_self
  have hbase : fatnameBase name = name.take 8 := by
    have hsplit : name.takeWhile (· ≠ DOT) = name.take 8 ++ (name.drop 8).takeWhile (· ≠ DOT) := by
      conv => lhs; rw [← List.take_append_drop 8 name]
      rw [takeWhile_front hdot]
    rw [fatnameBase, hsplit, List.take_append, List.take_take, Nat.min_self]
    by_cases hlen : name.length ≤ 8
    · rw [List.drop_of_length_le hlen]
      simp
    · rw [List.length_take, Nat.min_eq_left (by omega), Nat.sub_self, List.take_zero,
        List.append_nil]
  have hext : fatnameExt name = (behindEighth name).take 3 := by
    have hdrop : name.drop (name.take 8).length = name.drop 8 := by
      rw [List.length_take]
      by_cases hlen : 8 ≤ name.length
      · rw [Nat.min_eq_left hlen]
      · rw [Nat.min_eq_right (by omega), List.drop_of_length_le (Nat.le_refl _),
          List.drop_of_length_le (by omega)]
    rw [fatnameExt, hbase, hdrop, behindEighth]
  have hbytes : fatnameBytes name
      = padTo 8 SPACE (name.take 8) ++ padTo 3 SPACE ((behindEighth name).take 3) := by
    have hpad : (padTo 8 SPACE (name.take 8)).length = 8 := length_padTo 8 SPACE _
    rw [fatnameBytes, if_neg hhead, hbase, hext, padTo_append (by omega), hpad]
  -- the last dot is not among the first eight bytes
  have hsame : SameFilled 8 (name.take 8) (beforeLastDot name) := by
    rcases lastDot_cases hhead with ⟨-, hbefore, -⟩ | ⟨front, rest, hname, -, hbefore, -⟩
    · rw [hbefore, SameFilled, padTo_take]
    · have hfront : 8 ≤ front.length := by
        by_contra hlt
        apply hdot
        rw [hname, List.take_append, List.take_of_length_le (by omega)]
        apply List.mem_append_right
        rw [show 8 - front.length = (8 - front.length - 1) + 1 by omega, List.take_succ_cons]
        exact List.mem_cons_self
      rw [hbefore, hname, List.take_append_of_le_length hfront, SameFilled, padTo_take]
  rw [to83Name_eq_iff hbytes, sameFilled_take]
  exact ⟨fun h => sameFilled_take.mp h.2,
    fun h => ⟨sameFilled_take.mp hsame, sameFilled_take.mpr h⟩⟩

/-- With a dot in the first eight bytes it has to be the only one. -/
theorem short_alike (hhead : name.head? ≠ some DOT) (hdot : DOT ∈ name.take 8) :
    to83Name name = (nameToFatname name).toList ↔ name.count DOT = 1 := by
  obtain ⟨front, rest, rfl, hfront⟩ := List.eq_append_cons_of_mem (List.mem_of_mem_take hdot)
  have hlen : front.length < 8 := by
    by_contra hlt
    rw [List.take_append_of_le_length (by omega)] at hdot
    exact hfront (List.mem_of_mem_take hdot)
  have hne : front ≠ [] := by
    intro h
    rw [h] at hhead
    exact hhead rfl
  have hbase : fatnameBase (front ++ DOT :: rest) = front := by
    rw [fatnameBase, takeWhile_front hfront, List.takeWhile_cons_of_neg (by decide),
      List.append_nil, List.take_of_length_le (by omega)]
  have hext : fatnameExt (front ++ DOT :: rest) = rest.take 3 := by
    rw [fatnameExt, hbase, List.drop_left, if_pos (by rfl), List.tail_cons]
  have hbytes : fatnameBytes (front ++ DOT :: rest)
      = padTo 8 SPACE front ++ padTo 3 SPACE (rest.take 3) := by
    have hpad : (padTo 8 SPACE front).length = 8 := length_padTo 8 SPACE _
    rw [fatnameBytes, if_neg hhead, hbase, hext, padTo_append (by omega), hpad]
  rw [to83Name_eq_iff hbytes, List.count_append, List.count_cons_self,
    List.count_eq_zero_of_not_mem hfront]
  by_cases hrest : DOT ∈ rest
  · -- the formatter's base goes on behind the first dot
    obtain ⟨mid, ext, rfl, hlast⟩ := split_last hrest
    have hbefore : beforeLastDot (front ++ DOT :: (mid ++ DOT :: ext)) = front ++ DOT :: mid := by
      rw [show front ++ DOT :: (mid ++ DOT :: ext) = (front ++ DOT :: mid) ++ DOT :: ext by simp]
      exact (lastDot_eq (by simp) hlast).1
    have hbyte : (front ++ DOT :: mid)[front.length]? = some DOT := by
      rw [List.getElem?_append_right (Nat.le_refl _), Nat.sub_self]
      rfl
    have hcount : 0 < (mid ++ DOT :: ext).count DOT := List.count_pos_iff.mpr hrest
    constructor
    · intro h
      rw [hbefore] at h
      exact absurd h.1 (not_sameFilled hlen (Nat.le_refl _) hbyte (by decide))
    · intro h
      omega
  · obtain ⟨hbefore, hbehind⟩ := lastDot_eq hne hrest
    rw [hbefore, hbehind, List.count_eq_zero_of_not_mem hrest, SameFilled, SameFilled, padTo_take]
    simp

theorem beforeLastDot_prefix (name : List UInt8) : beforeLastDot name <+: name := by
  rw [beforeLastDot]
  split
  · exact List.take_prefix _ _
  · exact List.prefix_rfl

theorem dirDots_prefix (hhead : name.head? = some DOT) :
    name.take (dirDots name).length = dirDots name := by
  obtain ⟨tail, rfl⟩ := List.head?_eq_some_iff.mp hhead
  rw [dirDots, List.tail_cons]
  split
  · rename_i htail
    obtain ⟨rest, rfl⟩ := List.head?_eq_some_iff.mp htail
    rfl
  · rfl

theorem dirDots_dots (hk : k < (dirDots name).length) : (dirDots name)[k]? = some DOT := by
  have hall : ∀ c ∈ dirDots name, c = DOT := by
    rw [dirDots]
    split
    · simp
    · simp
  rw [List.getElem?_eq_getElem hk, hall _ (List.getElem_mem hk)]

/-- A name with a dot at the start names the directory or its parent to the library. -/
theorem dots_alike (hhead : name.head? = some DOT) :
    to83Name name = (nameToFatname name).toList ↔
      (dirDots name).length ≤ (beforeLastDot name).length ∧
      Blank (((beforeLastDot name).take 8).drop (dirDots name).length) ∧
      Blank ((behindLastDot name).take 3) := by
  have hdots : (dirDots name).length ≤ 8 := by
    rw [dirDots]
    split
    · decide
    · decide
  have hbytes : fatnameBytes name = padTo 8 SPACE (dirDots name) ++ padTo 3 SPACE [] := by
    rw [fatnameBytes, if_pos hhead, dirDots]
    split
    · rfl
    · rfl
  have hext : SameFilled 3 [] (behindLastDot name) ↔ Blank ((behindLastDot name).take 3) :=
    sameFilled_append (Nat.zero_le 3)
  rw [to83Name_eq_iff hbytes, hext]
  by_cases hlen : (dirDots name).length ≤ (beforeLastDot name).length
  · have hsplit : beforeLastDot name
        = dirDots name ++ (beforeLastDot name).drop (dirDots name).length := by
      have hfront : (beforeLastDot name).take (dirDots name).length = dirDots name := by
        obtain ⟨tail, htail⟩ := beforeLastDot_prefix name
        have hname := dirDots_prefix hhead
        have htake := @List.take_append_of_le_length _ _ tail _ hlen
        rw [htail, hname] at htake
        exact htake.symm
      conv => lhs; rw [← List.take_append_drop (dirDots name).length (beforeLastDot name), hfront]
    have hbase := @sameFilled_append 8 _ ((beforeLastDot name).drop (dirDots name).length) hdots
    rw [← hsplit, ← List.drop_take] at hbase
    rw [hbase]
    exact ⟨fun h => ⟨hlen, h⟩, fun h => h.2⟩
  · -- the formatter keeps one dot only
    have hdot : (dirDots name)[(beforeLastDot name).length]? = some DOT :=
      dirDots_dots (Nat.lt_of_not_le hlen)
    constructor
    · intro h
      exact absurd h.1.symm (not_sameFilled (by omega) (Nat.le_refl _) hdot (by decide))
    · intro h
      exact absurd h.1 hlen

/-- The formatter stores the name that the library looks for exactly when `NamedAlike` holds. -/
theorem to83Name_fatname_iff (name : List UInt8) :
    to83Name name = (nameToFatname name).toList ↔ NamedAlike name := by
  rw [NamedAlike]
  by_cases hhead : name.head? = some DOT
  · rw [if_pos hhead]
    exact dots_alike hhead
  · rw [if_neg hhead]
    by_cases hdot : DOT ∈ name.take 8
    · rw [if_pos hdot]
      exact short_alike hhead hdot
    · rw [if_neg hdot]
      exact long_alike hdot

/-- `"notes.v2.txt"` is stored as `"NOTES.V2TXT"` and looked up as `"NOTES   V2."`. -/
theorem not_to83Name_fatname :
    let name : List UInt8 :=
      [0x6E, 0x6F, 0x74, 0x65, 0x73, 0x2E, 0x76, 0x32, 0x2E, 0x74, 0x78, 0x74]
    PATH_SPLITTER ∉ name ∧ 0 ∉ name ∧
    to83Name name = [0x4E, 0x4F, 0x54, 0x45, 0x53, 0x2E, 0x56, 0x32, 0x54, 0x58, 0x54] ∧
    (nameToFatname name).toList
      = [0x4E, 0x4F, 0x54, 0x45, 0x53, 0x20, 0x20, 0x20, 0x56, 0x32, 0x2E] ∧
    to83Name name ≠ (nameToFatname name).toList := by
  decide

end NiFat32.Formatter
