import Mathlib.Data.List.TakeWhile
import NiFat32.Core.NiFat32
import NiFat32.Proofs.OpenPath
import NiFat32.Std.FatPath

/-!
# `Proofs.Names`: 8.3 names and paths of them

`Plain83` is a plain name: a base of one to eight bytes and an extension of at most three, without
dots, blanks and zero bytes inside. Its 11 bytes are the two parts in upper case, each filled with
blanks, and the parts are read back from them (`fatname_round_trip`).

`nft32_path_to_fatnames` converts the last component of a path and leaves the others to the second
conversion. It takes the second byte of a path for the start of the last component when there is no
splitter, so `path_to_fatnames_names_iff` leaves out a single component with an extension.
-/

set_option autoImplicit false

namespace NiFat32

variable {c : UInt8} {k : Nat} {xs ys : List UInt8}

/-! ### Upper case -/

private theorem toUpper_bitVec : ∀ b : BitVec 8,
    toUpper (toUpper (UInt8.ofBitVec b)) = toUpper (UInt8.ofBitVec b) ∧
    (toUpper (UInt8.ofBitVec b) = DOT ↔ UInt8.ofBitVec b = DOT) ∧
    (toUpper (UInt8.ofBitVec b) = SPACE ↔ UInt8.ofBitVec b = SPACE) ∧
    (toUpper (UInt8.ofBitVec b) = PATH_SPLITTER ↔ UInt8.ofBitVec b = PATH_SPLITTER) ∧
    (toUpper (UInt8.ofBitVec b) = 0 ↔ UInt8.ofBitVec b = 0) := by
  decide +kernel

@[simp] theorem toUpper_toUpper (c : UInt8) : toUpper (toUpper c) = toUpper c :=
  (toUpper_bitVec c.toBitVec).1

@[simp] theorem toUpper_eq_dot : toUpper c = DOT ↔ c = DOT := (toUpper_bitVec c.toBitVec).2.1

@[simp] theorem toUpper_eq_space : toUpper c = SPACE ↔ c = SPACE :=
  (toUpper_bitVec c.toBitVec).2.2.1

@[simp] theorem toUpper_eq_splitter : toUpper c = PATH_SPLITTER ↔ c = PATH_SPLITTER :=
  (toUpper_bitVec c.toBitVec).2.2.2.1

@[simp] theorem toUpper_eq_zero : toUpper c = 0 ↔ c = 0 := (toUpper_bitVec c.toBitVec).2.2.2.2

theorem map_toUpper_twice : (xs.map toUpper).map toUpper = xs.map toUpper := by
  simp

/-- A filled list in upper case. -/
theorem map_padTo (n : Nat) : (padTo n SPACE xs).map toUpper = padTo n SPACE (xs.map toUpper) := by
  rw [padTo, padTo, List.map_append, List.map_take, List.map_replicate, List.length_map]
  rfl

/-- The dots stay where they are. -/
theorem takeWhile_dot_upper :
    (xs.map toUpper).takeWhile (· ≠ DOT) = (xs.takeWhile (· ≠ DOT)).map toUpper := by
  rw [List.takeWhile_map]
  congr 1
  apply congrArg (fun p => List.takeWhile p xs)
  funext c
  simp

theorem head_dot_upper : (xs.map toUpper).head? = some DOT ↔ xs.head? = some DOT := by
  cases xs with
  | nil => simp
  | cons c xs => simp

/-- The conversion does not see the case of a name. -/
theorem fatnameBytes_upper :
    fatnameBytes (xs.map toUpper) = (fatnameBytes xs).map toUpper := by
  have hbase : fatnameBase (xs.map toUpper) = (fatnameBase xs).map toUpper := by
    rw [fatnameBase, fatnameBase, takeWhile_dot_upper, List.map_take]
  have hext : fatnameExt (xs.map toUpper) = (fatnameExt xs).map toUpper := by
    rw [fatnameExt, fatnameExt, hbase, List.length_map, ← List.map_drop]
    simp only [head_dot_upper]
    split
    · rw [← List.map_tail, List.map_take]
    · rw [List.map_take]
  rw [fatnameBytes, fatnameBytes]
  simp only [head_dot_upper, ← List.map_tail]
  split
  · rw [map_padTo]
    split
    · rfl
    · rfl
  · rw [map_padTo, List.map_append, map_padTo, hbase, hext]

/-- The 11 bytes of a name. -/
theorem nameToFatname_toList (name : List UInt8) :
    (nameToFatname name).toList = (fatnameBytes name).map toUpper := by
  simp [nameToFatname]

theorem nameToFatname_eq {x y : List UInt8}
    (h : (fatnameBytes x).map toUpper = (fatnameBytes y).map toUpper) :
    nameToFatname x = nameToFatname y := by
  apply Vector.toList_inj.mp
  rw [nameToFatname_toList, nameToFatname_toList, h]

theorem nameToFatname_upper (name : List UInt8) :
    nameToFatname (name.map toUpper) = nameToFatname name := by
  apply nameToFatname_eq
  rw [fatnameBytes_upper, map_toUpper_twice]

/-! ### Filled lists -/

theorem padTo_append {n : Nat} {c : UInt8} (h : xs.length ≤ n) :
    padTo n c (xs ++ ys) = xs ++ padTo (n - xs.length) c ys := by
  rw [padTo, padTo, List.take_append, List.take_of_length_le h, List.length_append,
    List.append_assoc, Nat.sub_sub]

/-- A list that is already filled with the byte. -/
theorem padTo_fill {n : Nat} {c : UInt8} (h : xs.length ≤ n) (k : Nat) :
    padTo n c (xs ++ List.replicate k c) = padTo n c xs := by
  rw [padTo_append h, padTo, padTo, List.take_of_length_le h, List.take_replicate,
    List.length_replicate, List.replicate_append_replicate]
  congr 2
  omega

theorem padTo_of_length {n : Nat} {c : UInt8} (h : xs.length = n) : padTo n c xs = xs := by
  rw [padTo, h, Nat.sub_self, List.replicate_zero, List.append_nil,
    List.take_of_length_le (Nat.le_of_eq h)]

/-- The filling. -/
theorem getElem?_padTo_fill {i n : Nat} {c : UInt8} (h : xs.length ≤ i) (hi : i < n) :
    (padTo n c xs)[i]? = some c := by
  rw [padTo, List.take_of_length_le (by omega), List.getElem?_append_right h,
    List.getElem?_replicate, if_pos (by omega)]

theorem getElem?_padTo {i n : Nat} {c : UInt8} (h : i < xs.length) (hi : i < n) :
    (padTo n c xs)[i]? = xs[i]? := by
  have htake : i < (xs.take n).length := by
    rw [List.length_take]
    omega
  rw [padTo, List.getElem?_append_left htake, List.getElem?_take_of_lt hi]

theorem mem_padTo {n : Nat} {d : UInt8} (h : c ∈ padTo n d xs) : c ∈ xs ∨ c = d := by
  rcases List.mem_append.mp h with htake | hfill
  · exact Or.inl (List.mem_of_mem_take htake)
  · exact Or.inr (List.eq_of_mem_replicate hfill)

theorem takeWhile_padTo {n : Nat} (h : xs.length ≤ n) (hxs : ∀ c ∈ xs, c ≠ SPACE) :
    (padTo n SPACE xs).takeWhile (· ≠ SPACE) = xs := by
  rw [padTo, List.take_of_length_le h,
    List.takeWhile_append_of_pos fun c hc => decide_eq_true (hxs c hc)]
  cases n - xs.length with
  | zero => simp
  | succ n => rw [List.replicate_succ, List.takeWhile_cons_of_neg (by decide), List.append_nil]

/-! ### Plain names -/

/-- A byte of a plain name. -/
def PlainByte (c : UInt8) : Prop := c ≠ DOT ∧ c ≠ SPACE ∧ c ≠ 0

/-- A plain 8.3 name. -/
structure Plain83 where
  base : List UInt8
  ext : List UInt8
  base_ne : base ≠ []
  base_le : base.length ≤ 8
  ext_le : ext.length ≤ 3
  base_plain : ∀ c ∈ base, PlainByte c
  ext_plain : ∀ c ∈ ext, PlainByte c

namespace Plain83

/-- The name as it is written: the dot is there with an extension only. -/
def bytes (n : Plain83) : List UInt8 := n.base ++ if n.ext = [] then [] else DOT :: n.ext

variable (n : Plain83)

theorem toUpper_plain (h : PlainByte c) : PlainByte (toUpper c) := by
  simpa [PlainByte] using h

/-- The name in upper case. -/
def upper : Plain83 where
  base := n.base.map toUpper
  ext := n.ext.map toUpper
  base_ne := by simpa using n.base_ne
  base_le := by simpa using n.base_le
  ext_le := by simpa using n.ext_le
  base_plain := by
    intro c hc
    obtain ⟨d, hd, rfl⟩ := List.mem_map.mp hc
    exact toUpper_plain (n.base_plain d hd)
  ext_plain := by
    intro c hc
    obtain ⟨d, hd, rfl⟩ := List.mem_map.mp hc
    exact toUpper_plain (n.ext_plain d hd)

theorem upper_bytes : n.upper.bytes = n.bytes.map toUpper := by
  rw [bytes, bytes, upper, List.map_append]
  by_cases h : n.ext = []
  · simp [h]
  · simp [h]
    rfl

theorem base_head : n.base.head? ≠ some DOT := by
  intro h
  exact (n.base_plain DOT (List.mem_of_head? h)).1 rfl

theorem bytes_head : n.bytes.head? ≠ some DOT := by
  rw [bytes, List.head?_append_of_ne_nil _ n.base_ne]
  exact n.base_head

/-- The scan for the base ends at the dot or at the end of the name. -/
theorem bytes_takeWhile : n.bytes.takeWhile (· ≠ DOT) = n.base := by
  rw [bytes, List.takeWhile_append_of_pos fun c hc => decide_eq_true (n.base_plain c hc).1]
  split
  · rw [List.takeWhile_nil, List.append_nil]
  · rw [List.takeWhile_cons_of_neg (by decide), List.append_nil]

theorem fatnameBase_bytes : fatnameBase n.bytes = n.base := by
  rw [fatnameBase, bytes_takeWhile, List.take_of_length_le n.base_le]

theorem fatnameExt_bytes : fatnameExt n.bytes = n.ext := by
  rw [fatnameExt, fatnameBase_bytes, bytes, List.drop_left]
  by_cases h : n.ext = []
  · simp [h]
  · rw [if_neg h, if_pos (by rfl)]
    exact List.take_of_length_le n.ext_le

/-- The parts of a name, each filled with blanks. -/
theorem fatnameBytes_bytes :
    fatnameBytes n.bytes = padTo 8 SPACE n.base ++ padTo 3 SPACE n.ext := by
  have hpad : (padTo 8 SPACE n.base).length = 8 := length_padTo 8 SPACE n.base
  rw [fatnameBytes, if_neg n.bytes_head, fatnameBase_bytes, fatnameExt_bytes,
    padTo_append (by omega), hpad]

/-- The 11 bytes of a plain name. -/
theorem nameToFatname_bytes : (nameToFatname n.bytes).toList =
    padTo 8 SPACE n.upper.base ++ padTo 3 SPACE n.upper.ext := by
  rw [nameToFatname_toList, fatnameBytes_bytes, List.map_append, map_padTo, map_padTo]
  rfl

/-- The parts are read back up to their filling. -/
theorem fatnameToName_parts :
    fatnameToName (padTo 8 SPACE n.base ++ padTo 3 SPACE n.ext) = n.bytes := by
  have hpad : (padTo 8 SPACE n.base).length = 8 := length_padTo 8 SPACE n.base
  have hext : (padTo 3 SPACE n.ext).length = 3 := length_padTo 3 SPACE n.ext
  have htake : (padTo 8 SPACE n.base ++ padTo 3 SPACE n.ext).take 8 = padTo 8 SPACE n.base := by
    exact List.take_left' hpad
  have hdrop : (padTo 8 SPACE n.base ++ padTo 3 SPACE n.ext).drop 8 = padTo 3 SPACE n.ext := by
    exact List.drop_left' hpad
  have hhead : (padTo 8 SPACE n.base ++ padTo 3 SPACE n.ext).head? ≠ some DOT := by
    have hne : padTo 8 SPACE n.base ≠ [] := by
      intro h0
      rw [h0] at hpad
      cases hpad
    rw [List.head?_append_of_ne_nil _ hne, padTo, List.take_of_length_le n.base_le,
      List.head?_append_of_ne_nil _ n.base_ne]
    exact n.base_head
  rw [fatnameToName, if_neg hhead, htake, hdrop, List.take_of_length_le (by omega),
    takeWhile_padTo n.base_le fun c hc => (n.base_plain c hc).2.1]
  simp only
  rw [takeWhile_padTo n.ext_le fun c hc => (n.ext_plain c hc).2.1, bytes]
  by_cases h : n.ext = []
  · simp [h, padTo]
  · -- the first byte of the extension is not a blank
    have hany : (padTo 3 SPACE n.ext).any (· ≠ SPACE) = true := by
      obtain ⟨c, rest, hcons⟩ := List.exists_cons_of_ne_nil h
      have hc : c ∈ n.ext := hcons ▸ List.mem_cons_self
      rw [List.any_eq_true]
      refine ⟨c, ?_, decide_eq_true (n.ext_plain c hc).2.1⟩
      rw [padTo, List.take_of_length_le n.ext_le]
      exact List.mem_append_left _ hc
    rw [if_neg h, if_pos hany, List.append_assoc]
    rfl

end Plain83

/-! ### Names in buffers -/

/-- The conversion brings in blanks and dots only. -/
theorem notMem_fatnameBytes (hspace : c ≠ SPACE) (hdot : c ≠ DOT) (h : c ∉ xs) :
    c ∉ fatnameBytes xs := by
  have hpad : ∀ {n : Nat} {ys : List UInt8}, c ∉ ys → c ∉ padTo n SPACE ys :=
    fun hys hmem => (mem_padTo hmem).elim hys hspace
  have hbase : c ∉ fatnameBase xs := fun hmem =>
    h ((List.takeWhile_prefix _).subset (List.mem_of_mem_take hmem))
  have hext : c ∉ fatnameExt xs := by
    intro hmem
    rw [fatnameExt] at hmem
    have hrest := List.mem_of_mem_take hmem
    split at hrest
    · exact h (List.mem_of_mem_drop (List.mem_of_mem_tail hrest))
    · exact h (List.mem_of_mem_drop hrest)
  rw [fatnameBytes]
  split
  · apply hpad
    split
    · simp [hdot]
    · simp [hdot]
  · apply hpad
    intro hmem
    exact (List.mem_append.mp hmem).elim (hpad hbase) hext

theorem zero_notMem_fatnameBytes (h : 0 ∉ xs) : 0 ∉ fatnameBytes xs :=
  notMem_fatnameBytes (by decide) (by decide) h

theorem length_fatnameBytes (name : List UInt8) : (fatnameBytes name).length = 11 := by
  rw [fatnameBytes]
  split
  · rw [length_padTo]
  · rw [length_padTo]

/-- The conversion leaves the 11 bytes and a terminator, whatever the buffer held. -/
theorem nameToFatnameInto_eq {name : List UInt8} (h : 0 ∉ name) (buf : List UInt8) :
    ∃ rest, nameToFatnameInto name buf = (nameToFatname name).toList ++ 0 :: rest := by
  have hlen : (nameToFatname name).toList.length = 11 := Vector.length_toList
  have hstored : strUppercase (store buf 0 (fatnameBytes name)) =
      (nameToFatname name).toList ++ strUppercase (buf.drop 11) := by
    rw [store, List.take_zero, List.nil_append, strUppercase_append (zero_notMem_fatnameBytes h),
      length_fatnameBytes, nameToFatname_toList]
  refine ⟨(strUppercase (buf.drop 11)).drop 1, ?_⟩
  rw [nameToFatnameInto, hstored, store_append hlen]
  rfl

theorem zero_notMem_fatname {name : List UInt8} (h : 0 ∉ name) :
    0 ∉ (nameToFatname name).toList := by
  rw [nameToFatname_toList]
  intro hmem
  obtain ⟨c, hc, hzero⟩ := List.mem_map.mp hmem
  exact zero_notMem_fatnameBytes h (toUpper_eq_zero.mp hzero ▸ hc)

theorem splitter_notMem_fatname {name : List UInt8} (h : PATH_SPLITTER ∉ name) :
    PATH_SPLITTER ∉ (nameToFatname name).toList := by
  rw [nameToFatname_toList]
  intro hmem
  obtain ⟨c, hc, hupper⟩ := List.mem_map.mp hmem
  exact notMem_fatnameBytes (by decide) (by decide) h (toUpper_eq_splitter.mp hupper ▸ hc)

theorem cString_nameToFatnameInto {name : List UInt8} (h : 0 ∉ name) (buf : List UInt8) :
    cString (nameToFatnameInto name buf) = (nameToFatname name).toList := by
  obtain ⟨rest, hrest⟩ := nameToFatnameInto_eq h buf
  rw [hrest, cString_terminated (zero_notMem_fatname h)]

theorem Plain83.zero_notMem (n : Plain83) : 0 ∉ n.bytes := by
  rw [Plain83.bytes]
  intro hmem
  rcases List.mem_append.mp hmem with hb | he
  · exact (n.base_plain 0 hb).2.2 rfl
  · split at he
    · cases he
    · rcases List.mem_cons.mp he with hdot | hext
      · exact absurd hdot (by decide)
      · exact (n.ext_plain 0 hext).2.2 rfl

/-- The 11 bytes of a name read back as the name in upper case. -/
theorem Plain83.fatnameToName_fatname (n : Plain83) :
    fatnameToName (nameToFatname n.bytes).toList = n.bytes.map toUpper := by
  rw [n.nameToFatname_bytes, n.upper.fatnameToName_parts, n.upper_bytes]

/-- A name and its 11 bytes, both ways, whatever the destination buffers hold; the 11 bytes tell
names apart that differ other than in the case of a letter. -/
theorem fatname_round_trip (n : Plain83) (buf buf' : List UInt8) :
    let fatname := cString (nameToFatnameInto n.bytes buf)
    let name := cString (fatnameToNameInto fatname buf')
    fatname = (nameToFatname n.bytes).toList ∧
    name = n.bytes.map toUpper ∧
    cString (nameToFatnameInto name buf) = fatname ∧
    ∀ n' : Plain83, n'.bytes.map toUpper ≠ n.bytes.map toUpper →
      cString (nameToFatnameInto n'.bytes buf) ≠ fatname := by
  have hfatname := cString_nameToFatnameInto n.zero_notMem buf
  have hupper : 0 ∉ n.bytes.map toUpper := by
    rw [← n.upper_bytes]
    exact n.upper.zero_notMem
  have hname : cString (fatnameToNameInto (nameToFatname n.bytes).toList buf') =
      n.bytes.map toUpper := by
    rw [fatnameToNameInto, n.fatnameToName_fatname, store, List.take_zero, List.nil_append,
      List.append_assoc]
    exact cString_terminated hupper
  simp only [hfatname, hname]
  refine ⟨trivial, trivial, ?_, ?_⟩
  · rw [cString_nameToFatnameInto hupper, nameToFatname_upper]
  · intro n' hne heq
    rw [cString_nameToFatnameInto n'.zero_notMem] at heq
    apply hne
    rw [← n'.fatnameToName_fatname, heq, n.fatnameToName_fatname]

/-! ### Names without a dot -/

theorem takeWhile_noDot (h : DOT ∉ xs) : xs.takeWhile (· ≠ DOT) = xs := by
  rw [List.takeWhile_eq_self_iff]
  intro c hc
  exact decide_eq_true fun hdot => h (hdot ▸ hc)

/-- A name without a dot is cut at eight bytes. -/
theorem fatnameBytes_noDot (h : DOT ∉ xs) :
    fatnameBytes xs = padTo 11 SPACE (padTo 8 SPACE (xs.take 8) ++ (xs.drop 8).take 3) := by
  have hhead : xs.head? ≠ some DOT := fun hd => h (List.mem_of_head? hd)
  have hbase : fatnameBase xs = xs.take 8 := by rw [fatnameBase, takeWhile_noDot h]
  have hdrop : xs.drop (xs.take 8).length = xs.drop 8 := by
    rw [List.length_take]
    by_cases hlen : 8 ≤ xs.length
    · rw [Nat.min_eq_left hlen]
    · rw [Nat.min_eq_right (by omega), List.drop_of_length_le (Nat.le_refl _),
        List.drop_of_length_le (by omega)]
  have hext : fatnameExt xs = (xs.drop 8).take 3 := by
    rw [fatnameExt, hbase, hdrop, if_neg fun hd => h (List.mem_of_mem_drop (List.mem_of_head? hd))]
  rw [fatnameBytes, if_neg hhead, hbase, hext]

/-- Blanks behind a short name without a dot do not count. -/
theorem fatnameBytes_blanks (h : DOT ∉ xs) (hlen : xs.length ≤ 8) (k : Nat) :
    fatnameBytes (xs ++ List.replicate k SPACE) = padTo 11 SPACE xs := by
  have hdot : DOT ∉ xs ++ List.replicate k SPACE := by
    intro hmem
    rcases List.mem_append.mp hmem with hxs | hfill
    · exact h hxs
    · exact absurd (List.eq_of_mem_replicate hfill) (by decide)
  have hpad : (padTo 8 SPACE xs).length = 8 := length_padTo 8 SPACE xs
  rw [fatnameBytes_noDot hdot, List.take_append, List.take_of_length_le hlen, List.take_replicate,
    padTo_fill hlen, List.drop_append, List.drop_of_length_le hlen, List.nil_append,
    List.drop_replicate, List.take_replicate, padTo_fill (by omega)]
  conv => lhs; arg 3; rw [padTo, List.take_of_length_le hlen]
  rw [padTo_fill (by omega)]

/-! ### Paths -/

variable {path pre last : List UInt8}

/-- The backwards scan ends at the last splitter, or at the first byte. -/
theorem lastSplitter_eq {i n : Nat} (hi : i ≤ n)
    (hafter : ∀ k, i < k → k ≤ n → path.getD k 0 ≠ PATH_SPLITTER)
    (hat : i = 0 ∨ path.getD i 0 = PATH_SPLITTER) : lastSplitter path n = i := by
  induction n with
  | zero => rw [lastSplitter, Nat.le_zero.mp hi]
  | succ n ih =>
    rw [lastSplitter]
    by_cases heq : i = n + 1
    · rw [if_pos (heq ▸ hat.resolve_left (by omega)), heq]
    · rw [if_neg (hafter (n + 1) (by omega) (Nat.le_refl _))]
      exact ih (by omega) fun k hk hle => hafter k hk (by omega)

/-- The string that `nft32_path_to_fatnames` leaves, for the place it takes for the start of the
last component. -/
theorem cString_pathToFatnamesInto (hpath : pre ++ last ≠ []) (hzero : 0 ∉ pre ++ last)
    (hpre : lastSplitter (pre ++ last) (pre ++ last).length + 1 = pre.length) (buf : List UInt8) :
    cString (pathToFatnamesInto (pre ++ last) buf)
      = pre.map toUpper ++ (nameToFatname last).toList := by
  have hzpre : 0 ∉ pre := fun h => hzero (List.mem_append_left _ h)
  have hzlast : 0 ∉ last := fun h => hzero (List.mem_append_right _ h)
  obtain ⟨rest, hrest⟩ := nameToFatnameInto_eq hzlast ((strcpy buf (pre ++ last)).drop pre.length)
  have htake : (strcpy buf (pre ++ last)).take pre.length = pre := by
    rw [strcpy, if_neg hpath, store, List.take_zero, List.nil_append, List.append_assoc,
      List.append_assoc, List.take_left]
  have hupper : (nameToFatname last).toList.map toUpper = (nameToFatname last).toList := by
    rw [nameToFatname_toList, map_toUpper_twice]
  have hz : 0 ∉ pre.map toUpper ++ (nameToFatname last).toList := by
    intro hmem
    rcases List.mem_append.mp hmem with hp | hl
    · obtain ⟨c, hc, hc0⟩ := List.mem_map.mp hp
      exact hzpre (toUpper_eq_zero.mp hc0 ▸ hc)
    · exact zero_notMem_fatname hzlast hl
  rw [pathToFatnamesInto, hpre, htake, List.drop_left, hrest, strUppercase_append hzpre,
    strUppercase_append (zero_notMem_fatname hzlast), hupper, strUppercase_zero,
    ← List.append_assoc, cString_terminated hz]

theorem splitPath_end (h : PATH_SPLITTER ∉ xs) : splitPath xs = [xs] := by
  induction xs with
  | nil => rfl
  | cons c xs ih =>
    rw [List.mem_cons, not_or] at h
    rw [splitPath_cons, if_neg (Ne.symm h.1), ih h.2]
    rfl

theorem splitPath_append (h : PATH_SPLITTER ∉ xs) (path : List UInt8) :
    splitPath (xs ++ PATH_SPLITTER :: path) = xs :: splitPath path := by
  induction xs with
  | nil => rw [List.nil_append, splitPath_cons, if_pos rfl]
  | cons c xs ih =>
    rw [List.mem_cons, not_or] at h
    rw [List.cons_append, splitPath_cons, if_neg (Ne.symm h.1), ih h.2]
    rfl

/-- Components with a splitter behind each. -/
def joinDirs (comps : List (List UInt8)) : List UInt8 := comps.flatMap (· ++ [PATH_SPLITTER])

/-- The components of a path from its first one on. -/
def joinPath (comps : List (List UInt8)) : List UInt8 := [PATH_SPLITTER].intercalate comps

theorem joinPath_concat (comps : List (List UInt8)) (last : List UInt8) :
    joinPath (comps ++ [last]) = joinDirs comps ++ last := by
  induction comps with
  | nil => simp [joinPath, joinDirs]
  | cons c comps ih =>
    have hstep : joinPath (c :: (comps ++ [last]))
        = c ++ [PATH_SPLITTER] ++ joinPath (comps ++ [last]) := by
      cases comps with
      | nil => simp [joinPath]
      | cons d comps => simp [joinPath]
    rw [List.cons_append, hstep, ih]
    simp [joinDirs]

theorem splitPath_joinDirs {comps : List (List UInt8)} (h : ∀ c ∈ comps, PATH_SPLITTER ∉ c)
    (hlast : PATH_SPLITTER ∉ last) : splitPath (joinDirs comps ++ last) = comps ++ [last] := by
  induction comps with
  | nil => exact splitPath_end hlast
  | cons c comps ih =>
    have hrest := ih fun d hd => h d (List.mem_cons_of_mem c hd)
    rw [joinDirs, List.flatMap_cons, List.append_assoc, List.append_assoc, List.singleton_append,
      splitPath_append (h c List.mem_cons_self)]
    exact congrArg (List.cons c) hrest

theorem joinDirs_upper (comps : List (List UInt8)) :
    (joinDirs comps).map toUpper = joinDirs (comps.map (List.map toUpper)) := by
  rw [joinDirs, joinDirs, List.map_flatMap, List.flatMap_map]
  apply congrArg (fun f => List.flatMap f comps)
  funext c
  rw [List.map_append]
  rfl

/-- The scan ends at the last splitter. -/
theorem lastSplitter_append (hlast : PATH_SPLITTER ∉ last) (n : Nat) :
    lastSplitter (pre ++ PATH_SPLITTER :: last) (pre.length + n) = pre.length := by
  apply lastSplitter_eq (Nat.le_add_right _ n)
  · intro k hk _
    rw [List.getD_eq_getElem?_getD, List.getElem?_append_right (Nat.le_of_lt hk)]
    obtain ⟨j, hj⟩ := Nat.exists_eq_add_of_lt hk
    rw [show k - pre.length = j + 1 by omega, List.getElem?_cons_succ]
    cases hget : last[j]? with
    | none => exact (by decide : (0 : UInt8) ≠ PATH_SPLITTER)
    | some c => exact fun hc => hlast (hc ▸ List.mem_of_getElem? hget)
  · refine Or.inr ?_
    rw [List.getD_eq_getElem?_getD, List.getElem?_append_right (Nat.le_refl _), Nat.sub_self]
    rfl

/-- Without a splitter the scan ends at the first byte. -/
theorem lastSplitter_zero (h : PATH_SPLITTER ∉ path) (n : Nat) : lastSplitter path n = 0 := by
  apply lastSplitter_eq (Nat.zero_le n)
  · intro k _ _
    rw [List.getD_eq_getElem?_getD]
    cases hget : path[k]? with
    | none => exact (by decide : (0 : UInt8) ≠ PATH_SPLITTER)
    | some c => exact fun hc => h (hc ▸ List.mem_of_getElem? hget)
  · exact Or.inl rfl

/-- The first bytes of a path with directories end with a splitter. -/
theorem joinDirs_ends {comps : List (List UInt8)} (hne : comps ≠ []) :
    ∃ pre, joinDirs comps = pre ++ [PATH_SPLITTER] := by
  obtain ⟨init, c, rfl⟩ := (List.eq_nil_or_concat comps).resolve_left hne
  refine ⟨joinDirs init ++ c, ?_⟩
  simp [joinDirs, List.flatMap_append]

/-! ### The second conversion -/

namespace Plain83

variable (n : Plain83)

theorem base_dot : DOT ∉ n.base := fun h => (n.base_plain DOT h).1 rfl

theorem ext_dot : DOT ∉ n.ext := fun h => (n.ext_plain DOT h).1 rfl

/-- A converted name converts to itself. -/
theorem nameToFatname_fatname :
    nameToFatname (nameToFatname n.bytes).toList = nameToFatname n.bytes := by
  have hb : (padTo 8 SPACE n.base).length = 8 := length_padTo 8 SPACE n.base
  have he : (padTo 3 SPACE n.ext).length = 3 := length_padTo 3 SPACE n.ext
  have hdot : DOT ∉ padTo 8 SPACE n.base ++ padTo 3 SPACE n.ext := by
    intro hmem
    rcases List.mem_append.mp hmem with hbase | hext
    · exact (mem_padTo hbase).elim n.base_dot (by decide)
    · exact (mem_padTo hext).elim n.ext_dot (by decide)
  rw [nameToFatname_toList, nameToFatname_upper]
  apply nameToFatname_eq
  rw [n.fatnameBytes_bytes, fatnameBytes_noDot hdot, List.take_left' hb, List.drop_left' hb,
    padTo_of_length hb, List.take_of_length_le (Nat.le_of_eq he), padTo_of_length]
  rw [List.length_append, hb, he]

/-- An extension starts with a byte that is not a blank. -/
theorem getElem?_ext (hext : n.ext ≠ []) : (nameToFatname n.bytes).toList[8]? ≠ some SPACE := by
  obtain ⟨e, es, he⟩ := List.exists_cons_of_ne_nil hext
  have hspace : toUpper e ≠ SPACE := fun h =>
    (n.ext_plain e (he ▸ List.mem_cons_self)).2.1 (toUpper_eq_space.mp h)
  have hb : (padTo 8 SPACE n.base).length = 8 := length_padTo 8 SPACE n.base
  rw [nameToFatname_toList, n.fatnameBytes_bytes, List.getElem?_map,
    List.getElem?_append_right (by omega), hb, getElem?_padTo (by rw [he]; exact Nat.succ_pos _)
      (by decide), he]
  exact fun h => hspace (Option.some.inj h)

/-- The first byte of a name without an extension, apart from the conversion of the others. -/
theorem split_first_noExt (hext : n.ext = []) {x : UInt8} {rest : List UInt8}
    (hbytes : n.bytes = x :: rest) :
    fatnameBytes (x :: fatnameBytes rest) = fatnameBytes n.bytes := by
  have hbase : n.base = x :: rest := by
    rw [bytes, if_pos hext, List.append_nil] at hbytes
    exact hbytes
  have hdot : DOT ∉ x :: rest := hbase ▸ n.base_dot
  have hlen : (x :: rest).length ≤ 8 := hbase ▸ n.base_le
  have hrest : fatnameBytes rest = padTo 11 SPACE rest := by
    have hshort := fatnameBytes_blanks (fun h => hdot (List.mem_cons_of_mem x h))
      (Nat.le_of_succ_le hlen) 0
    rw [List.replicate_zero, List.append_nil] at hshort
    exact hshort
  have hrestlen : rest.length ≤ 11 := by
    rw [List.length_cons] at hlen
    omega
  have hwhole := fatnameBytes_blanks hdot hlen 0
  rw [List.replicate_zero, List.append_nil] at hwhole
  rw [hrest, padTo, List.take_of_length_le hrestlen, ← List.cons_append,
    fatnameBytes_blanks hdot hlen, hbytes, hwhole]

/-- Of a name with an extension, the byte where the extension starts becomes a blank. -/
theorem split_first_ext (hext : n.ext ≠ []) {x : UInt8} {rest : List UInt8}
    (hbytes : n.bytes = x :: rest) :
    (fatnameBytes (x :: fatnameBytes rest))[8]? = some SPACE := by
  obtain ⟨b, hbase⟩ : ∃ b, n.base = x :: b ∧ rest = b ++ DOT :: n.ext := by
    rw [bytes, if_neg hext] at hbytes
    obtain ⟨y, b, hb⟩ := List.exists_cons_of_ne_nil n.base_ne
    rw [hb, List.cons_append, List.cons.injEq] at hbytes
    exact ⟨b, hbytes.1 ▸ hb, hbytes.2.symm⟩
  obtain ⟨hbase, hrest⟩ := hbase
  have hx : x ≠ DOT := fun h => n.base_dot (by rw [hbase, h]; exact List.mem_cons_self)
  have hlen : (x :: b).length ≤ 8 := hbase ▸ n.base_le
  rw [List.length_cons] at hlen
  cases b with
  | nil =>
    -- what is left starts with the dot and converts to the name of a directory
    obtain ⟨e, es, he⟩ := List.exists_cons_of_ne_nil hext
    have hedot : e ≠ DOT := fun h => n.ext_dot (by rw [he, h]; exact List.mem_cons_self)
    have hdots : fatnameBytes rest = padTo 11 SPACE [DOT] := by
      rw [hrest, he, fatnameBytes]
      simp [hedot]
    rw [hdots]
    simp [fatnameBytes, fatnameBase, fatnameExt, padTo, hx]
  | cons y b =>
    let short : Plain83 :=
      { n with
        base := y :: b
        base_ne := List.cons_ne_nil y b
        base_le := by omega
        base_plain := fun c hc => n.base_plain c (by rw [hbase]; exact List.mem_cons_of_mem x hc) }
    have hshort : rest = short.bytes := by
      rw [hrest, bytes, if_neg hext]
    have hdot : DOT ∉ x :: (padTo 8 SPACE short.base ++ padTo 3 SPACE short.ext) := by
      intro hmem
      rcases List.mem_cons.mp hmem with hfirst | hparts
      · exact hx hfirst.symm
      · rcases List.mem_append.mp hparts with hb | he
        · exact (mem_padTo hb).elim short.base_dot (by decide)
        · exact (mem_padTo he).elim short.ext_dot (by decide)
    have hpad : (padTo 8 SPACE short.base).length = 8 := length_padTo 8 SPACE short.base
    have hpad3 : (padTo 3 SPACE short.ext).length = 3 := length_padTo 3 SPACE short.ext
    have hblank : (padTo 8 SPACE short.base)[7]? = some SPACE :=
      getElem?_padTo_fill (by show (y :: b).length ≤ 7; omega) (by omega)
    have hfront : (padTo 8 SPACE
        ((x :: (padTo 8 SPACE short.base ++ padTo 3 SPACE short.ext)).take 8)).length = 8 :=
      length_padTo 8 SPACE _
    rw [hshort, short.fatnameBytes_bytes, fatnameBytes_noDot hdot, getElem?_padTo, 
      List.getElem?_append_right (by omega), hfront, List.getElem?_take_of_lt (by omega),
      List.getElem?_drop, List.getElem?_cons_succ, List.getElem?_append_left (by omega)]
    · exact hblank
    · rw [List.length_append, hfront, List.length_take, List.length_drop, List.length_cons,
        List.length_append, hpad, hpad3]
      decide
    · decide

end Plain83

/-- The converted path of a single name: its first byte, and the conversion of the others. -/
theorem pathToFatnames_single (n : Plain83) (hsplit : PATH_SPLITTER ∉ n.bytes) {x : UInt8}
    {rest : List UInt8} (hbytes : n.bytes = x :: rest) (buf : List UInt8) :
    (splitPath (cString (pathToFatnamesInto n.bytes buf))).map nameToFatname
      = [nameToFatname (x :: fatnameBytes rest)] := by
  have hzero : 0 ∉ [x] ++ rest := by
    rw [List.singleton_append, ← hbytes]
    exact n.zero_notMem
  have hsplit' : PATH_SPLITTER ∉ [x] ++ rest := by
    rw [List.singleton_append, ← hbytes]
    exact hsplit
  have hstring := @cString_pathToFatnamesInto [x] rest (by simp) hzero
    (by rw [lastSplitter_zero hsplit']; rfl) buf
  rw [List.singleton_append, ← hbytes] at hstring
  rw [hstring, nameToFatname_toList, ← List.map_append, List.singleton_append, splitPath_end,
    List.map_singleton, nameToFatname_upper]
  intro hmem
  obtain ⟨c, hc, hupper⟩ := List.mem_map.mp hmem
  rcases List.mem_cons.mp hc with hfirst | hrest
  · exact hsplit' (by rw [← toUpper_eq_splitter.mp hupper, hfirst]; exact List.mem_cons_self)
  · exact notMem_fatnameBytes (by decide) (by decide)
      (fun h => hsplit' (List.mem_append_right _ h)) (toUpper_eq_splitter.mp hupper ▸ hrest)

/-- The converted path of several names. -/
theorem pathToFatnames_dirs {dirs : List Plain83} (hne : dirs ≠ [])
    (hdirs : ∀ n ∈ dirs, PATH_SPLITTER ∉ n.bytes) (n : Plain83) (hsplit : PATH_SPLITTER ∉ n.bytes)
    (buf : List UInt8) :
    splitPath (cString (pathToFatnamesInto (joinDirs (dirs.map Plain83.bytes) ++ n.bytes) buf))
      = dirs.map (fun d => d.bytes.map toUpper) ++ [(nameToFatname n.bytes).toList] := by
  have hzero : 0 ∉ joinDirs (dirs.map Plain83.bytes) ++ n.bytes := by
    intro hmem
    rcases List.mem_append.mp hmem with hd | hn
    · obtain ⟨comp, hcomp, hc⟩ := List.mem_flatMap.mp hd
      obtain ⟨d, -, rfl⟩ := List.mem_map.mp hcomp
      rcases List.mem_append.mp hc with hbytes | hsep
      · exact d.zero_notMem hbytes
      · exact absurd (List.mem_singleton.mp hsep) (by decide)
    · exact n.zero_notMem hn
  have hdirsne : dirs.map Plain83.bytes ≠ [] := fun h => hne (List.map_eq_nil_iff.mp h)
  obtain ⟨pre, hpre⟩ := joinDirs_ends hdirsne
  have hscan : lastSplitter (joinDirs (dirs.map Plain83.bytes) ++ n.bytes)
      (joinDirs (dirs.map Plain83.bytes) ++ n.bytes).length + 1
      = (joinDirs (dirs.map Plain83.bytes)).length := by
    have hlast := @lastSplitter_append pre _ hsplit (n.bytes.length + 1)
    rw [hpre, List.append_assoc, List.singleton_append, List.length_append, List.length_cons, hlast,
      List.length_append, List.length_singleton]
  have hne' : joinDirs (dirs.map Plain83.bytes) ++ n.bytes ≠ [] := by
    rw [hpre]
    simp
  rw [cString_pathToFatnamesInto hne' hzero hscan, joinDirs_upper, List.map_map,
    splitPath_joinDirs _ (splitter_notMem_fatname hsplit)]
  · rfl
  · intro comp hcomp
    obtain ⟨d, hd, rfl⟩ := List.mem_map.mp hcomp
    intro hmem
    obtain ⟨c, hc, hupper⟩ := List.mem_map.mp hmem
    exact hdirs d hd (toUpper_eq_splitter.mp hupper ▸ hc)

/-- A converted path names what the path names, exactly when the path is not one name with an
extension. -/
theorem pathToFatnames_names_iff {comps : List Plain83} (hne : comps ≠ [])
    (hsplit : ∀ n ∈ comps, PATH_SPLITTER ∉ n.bytes) (buf : List UInt8) :
    (splitPath (cString (pathToFatnamesInto (joinPath (comps.map Plain83.bytes)) buf))).map
        nameToFatname
      = comps.map (fun n => nameToFatname n.bytes) ↔
    ∀ n, comps = [n] → n.ext = [] := by
  obtain ⟨dirs, n, rfl⟩ := (List.eq_nil_or_concat comps).resolve_left hne
  rw [List.concat_eq_append] at hsplit ⊢
  have hn : PATH_SPLITTER ∉ n.bytes := hsplit n (by simp)
  have hdirs : ∀ d ∈ dirs, PATH_SPLITTER ∉ d.bytes := fun d hd => hsplit d (by simp [hd])
  rw [List.map_append, List.map_singleton, joinPath_concat]
  by_cases hsingle : dirs = []
  · -- the scan does not tell the first byte from a splitter
    obtain ⟨x, rest, hbytes⟩ : ∃ x rest, n.bytes = x :: rest := by
      obtain ⟨x, b, hb⟩ := List.exists_cons_of_ne_nil n.base_ne
      exact ⟨x, _, by rw [Plain83.bytes, hb, List.cons_append]⟩
    rw [hsingle]
    rw [List.map_nil, joinDirs, List.flatMap_nil, List.nil_append,
      pathToFatnames_single n hn hbytes, List.nil_append]
    constructor
    · intro heq n' hn'
      rw [← (List.cons.inj hn').1]
      by_contra hext
      have hbyte := n.getElem?_ext hext
      have hname : nameToFatname (x :: fatnameBytes rest) = nameToFatname n.bytes :=
        (List.cons.inj heq).1
      rw [← hname, nameToFatname_toList, List.getElem?_map,
        n.split_first_ext hext hbytes] at hbyte
      exact hbyte (by decide)
    · intro hext
      exact congrArg (fun name => [name])
        (nameToFatname_eq (congrArg (List.map toUpper) (n.split_first_noExt (hext n rfl) hbytes)))
  · rw [pathToFatnames_dirs hsingle hdirs n hn]
    constructor
    · intro _ n' hn'
      have hlen := congrArg List.length hn'
      rw [List.length_append, List.length_singleton, List.length_singleton] at hlen
      exact absurd (List.length_eq_zero_iff.mp (by omega)) hsingle
    · intro _
      rw [List.map_append, List.map_append, List.map_map, List.map_singleton, List.map_singleton,
        n.nameToFatname_fatname]
      congr 1
      apply List.map_congr_left
      intro d _
      exact nameToFatname_upper d.bytes

/-- `"file.bin"` -/
def fileBin : Plain83 where
  base := [0x66, 0x69, 0x6C, 0x65]
  ext := [0x62, 0x69, 0x6E]
  base_ne := by decide
  base_le := by decide
  ext_le := by decide
  base_plain := by simp [PlainByte, DOT, SPACE]
  ext_plain := by simp [PlainByte, DOT, SPACE]

/-- `"dir"` -/
def dirName : Plain83 where
  base := [0x64, 0x69, 0x72]
  ext := []
  base_ne := by decide
  base_le := by decide
  ext_le := by decide
  base_plain := by simp [PlainByte, DOT, SPACE]
  ext_plain := by simp [PlainByte, DOT, SPACE]

/-- `"dir/file.bin"` -/
theorem pathToFatnames_names_two :
    (splitPath (cString (pathToFatnamesInto
        (joinPath ([dirName, fileBin].map Plain83.bytes)) (List.replicate 32 0)))).map nameToFatname
      = [dirName, fileBin].map (fun n => nameToFatname n.bytes) ↔
    ∀ n, [dirName, fileBin] = [n] → n.ext = [] :=
  pathToFatnames_names_iff (by decide) (by
    intro n hn
    rcases List.mem_cons.mp hn with rfl | hn
    · decide
    · rw [List.mem_singleton.mp hn]
      decide) _

/-- `"file.bin"` alone becomes `"FILE     BIN"`, which names `"FILE     BI"`. -/
theorem not_pathToFatnames_names :
    (splitPath (cString (pathToFatnamesInto (joinPath ([fileBin].map Plain83.bytes))
        (List.replicate 32 0)))).map nameToFatname
      = [nameToFatname [0x46, 0x49, 0x4C, 0x45, 0x20, 0x20, 0x20, 0x20, 0x20, 0x42, 0x49]] ∧
    (splitPath (cString (pathToFatnamesInto (joinPath ([fileBin].map Plain83.bytes))
        (List.replicate 32 0)))).map nameToFatname
      ≠ [fileBin].map (fun n => nameToFatname n.bytes) := by
  decide

end NiFat32
