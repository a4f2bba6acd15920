import NiFat32.Core.DirEntry

/-!
# `Std.FatName`: 8.3 names (`std/fatname.c`, `std/str.c`)

A C string is the list of its bytes before the terminator.
-/

set_option autoImplicit false

namespace NiFat32

/-- The byte `' '`. -/
abbrev SPACE : UInt8 := 0x20

/-- The byte `'.'`. -/
abbrev DOT : UInt8 := 0x2E

/-- `PATH_SPLITTER`, the byte `'/'`. -/
abbrev PATH_SPLITTER : UInt8 := 0x2F

/-- `_toupper` -/
def toUpper (c : UInt8) : UInt8 := if 0x61 ≤ c ∧ c ≤ 0x7A then c - 0x61 + 0x41 else c

/-- A list cut or filled with `c` to `n` bytes. -/
def padTo (n : Nat) (c : UInt8) (l : List UInt8) : List UInt8 :=
  l.take n ++ List.replicate (n - l.length) c

@[simp] theorem length_padTo (n : Nat) (c : UInt8) (l : List UInt8) :
    (padTo n c l).length = n := by
  simp only [padTo, List.length_append, List.length_take, List.length_replicate]
  omega

/-- `nft32_str_strncpy`: the `n` bytes it stores. -/
def strncpy (src : List UInt8) (n : Nat) : List UInt8 := padTo n 0 (src.takeWhile (· ≠ 0))

/-- The base of a name: up to eight bytes before a dot. -/
def fatnameBase (name : List UInt8) : List UInt8 := (name.takeWhile (· ≠ DOT)).take 8

/-- The extension: what follows the base, without the dot that ends it. -/
def fatnameExt (name : List UInt8) : List UInt8 :=
  let rest := name.drop (fatnameBase name).length
  (if rest.head? = some DOT then rest.tail else rest).take 3

/-- The 11 bytes that `nft32_name_to_fatname` stores, before the change of case. -/
def fatnameBytes (name : List UInt8) : List UInt8 :=
  if name.head? = some DOT then
    padTo 11 SPACE (if name.tail.head? = some DOT then [DOT, DOT] else [DOT])
  else padTo 11 SPACE (padTo 8 SPACE (fatnameBase name) ++ fatnameExt name)

/-- `nft32_name_to_fatname` -/
def nameToFatname (name : List UInt8) : Name :=
  ⟨((fatnameBytes name).map toUpper).toArray, by
    rw [List.size_toArray, List.length_map]
    unfold fatnameBytes
    split <;> rw [length_padTo]⟩

/-- `nft32_unpack_83_name`: the base and the extension of an 11-byte name. -/
def unpack83Name (name83 : List UInt8) : List UInt8 × List UInt8 :=
  (name83.take 8, (name83.drop 8).take 3)

/-- `"a.txt"` and a long name without a dot. -/
example : (nameToFatname [97, 46, 116, 120, 116]).toList
    = [65, 32, 32, 32, 32, 32, 32, 32, 84, 88, 84] := by decide

end NiFat32
