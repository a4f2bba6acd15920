import NiFat32.Std.FatName

/-!
# `Std.FatPath`: names and paths in their buffers (`std/fatname.c`, `std/str.c`)

The functions that write a C string into a buffer of the caller. A buffer is the list of its bytes;
what it holds behind the terminator stays, and a later scan can run into it: `nft32_str_uppercase`
ends at the first zero byte, wherever that is.
-/

set_option autoImplicit false

namespace NiFat32

/-- The C string at the front of a buffer. -/
def cString (buf : List UInt8) : List UInt8 := buf.takeWhile (· ≠ 0)

/-- A buffer with `bytes` stored from `pos` on. -/
def store (buf : List UInt8) (pos : Nat) (bytes : List UInt8) : List UInt8 :=
  buf.take pos ++ bytes ++ buf.drop (pos + bytes.length)

/-- `nft32_str_uppercase` -/
def strUppercase (buf : List UInt8) : List UInt8 :=
  (cString buf).map toUpper ++ buf.dropWhile (· ≠ 0)

/-- `nft32_str_strcpy`: an empty source leaves the buffer alone. -/
def strcpy (buf src : List UInt8) : List UInt8 := if src = [] then buf else store buf 0 (src ++ [0])

/-- The bytes that `nft32_fatname_to_name` stores, without the terminator. -/
def fatnameToName (fatname : List UInt8) : List UInt8 :=
  if fatname.head? = some DOT then
    if fatname.tail.head? = some DOT then [DOT, DOT] else [DOT]
  else
    let ext := (fatname.drop 8).take 3
    let hasExt := ext.any (· ≠ SPACE)
    (fatname.take 8).takeWhile (· ≠ SPACE) ++ (if hasExt then [DOT] else []) ++
      ext.takeWhile (· ≠ SPACE)

/-- `nft32_fatname_to_name` -/
def fatnameToNameInto (fatname buf : List UInt8) : List UInt8 :=
  store buf 0 (fatnameToName fatname ++ [0])

/-- `nft32_name_to_fatname`: the change of case comes before the terminator. -/
def nameToFatnameInto (name buf : List UInt8) : List UInt8 :=
  store (strUppercase (store buf 0 (fatnameBytes name))) 11 [0]

/-- `for (i = ...; path[i] != PATH_SPLITTER && i > 0; i--);` -/
def lastSplitter (path : List UInt8) : (i : Nat) → Nat
  | 0 => 0
  | i + 1 => if path.getD (i + 1) 0 = PATH_SPLITTER then i + 1 else lastSplitter path i

/-- `nft32_path_to_fatnames`: the scan ends at `0` in a path without a splitter too, so the
conversion starts at the second byte of such a path. -/
def pathToFatnamesInto (path buf : List UInt8) : List UInt8 :=
  let buf := strcpy buf path
  let i := lastSplitter path path.length + 1
  strUppercase (buf.take i ++ nameToFatnameInto (path.drop i) (buf.drop i))

/-- `nft32_extract_name` -/
def extractNameInto (path name : List UInt8) : List UInt8 :=
  let i := lastSplitter path path.length
  let i := if path.getD i 0 = PATH_SPLITTER then i + 1 else i
  strcpy name (path.drop i)

/-! ### Strings in buffers -/

variable {xs ys buf : List UInt8}

theorem cString_append (h : 0 ∉ xs) : cString (xs ++ ys) = xs ++ cString ys := by
  rw [cString, cString, List.takeWhile_append_of_pos]
  intro c hc
  exact decide_eq_true fun h0 => h (h0 ▸ hc)

/-- A string and its terminator. -/
theorem cString_terminated (h : 0 ∉ xs) : cString (xs ++ 0 :: ys) = xs := by
  rw [cString_append h, cString, List.takeWhile_cons_of_neg (by decide), List.append_nil]

theorem dropWhile_append (h : 0 ∉ xs) : (xs ++ ys).dropWhile (· ≠ 0) = ys.dropWhile (· ≠ 0) := by
  rw [List.dropWhile_append_of_pos]
  intro c hc
  exact decide_eq_true fun h0 => h (h0 ▸ hc)

/-- The bytes before the first zero byte change case, the others are looked at in turn. -/
theorem strUppercase_append (h : 0 ∉ xs) :
    strUppercase (xs ++ ys) = xs.map toUpper ++ strUppercase ys := by
  rw [strUppercase, strUppercase, cString_append h, dropWhile_append h, List.map_append,
    List.append_assoc]

theorem strUppercase_zero : strUppercase (0 :: ys) = 0 :: ys := by
  rw [strUppercase, cString, List.takeWhile_cons_of_neg (by decide),
    List.dropWhile_cons_of_neg (by decide)]
  rfl

/-- Bytes stored behind the first ones leave them. -/
theorem store_append {pos : Nat} (h : xs.length = pos) (bytes : List UInt8) :
    store (xs ++ ys) pos bytes = xs ++ (bytes ++ ys.drop bytes.length) := by
  rw [store, List.take_left' h, List.append_assoc, ← h, List.drop_append, Nat.add_sub_cancel_left,
    List.drop_of_length_le (by omega), List.nil_append]

end NiFat32
