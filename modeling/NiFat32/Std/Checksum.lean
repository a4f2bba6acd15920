import Mathlib.Data.List.Basic

/-!
# `Std.Checksum`: the 32-bit Murmur3 checksum (`std/checksum.c`)

`murmur3` works on 4-byte blocks, low byte first, then on the tail of at most three bytes.
The rest of the development uses it as a function of the bytes it is given.
-/

set_option autoImplicit false

namespace NiFat32

/-- The four bytes of a 32-bit value, low byte first. -/
def bytesOfU32 (x : UInt32) : List UInt8 :=
  [UInt8.ofNat (x.toNat % 256), UInt8.ofNat (x.toNat / 256 % 256),
   UInt8.ofNat (x.toNat / 65536 % 256), UInt8.ofNat (x.toNat / 16777216 % 256)]

/-- The 32-bit value of four bytes, low byte first. -/
def u32OfBytes (a b c d : UInt8) : UInt32 :=
  UInt32.ofNat (a.toNat + 256 * b.toNat + 65536 * c.toNat + 16777216 * d.toNat)

@[simp] theorem length_bytesOfU32 (x : UInt32) : (bytesOfU32 x).length = 4 := rfl

/-- The round trip of a 32-bit value through its bytes. -/
theorem u32OfBytes_bytesOfU32 (x : UInt32) :
    u32OfBytes (UInt8.ofNat (x.toNat % 256)) (UInt8.ofNat (x.toNat / 256 % 256))
      (UInt8.ofNat (x.toNat / 65536 % 256)) (UInt8.ofNat (x.toNat / 16777216 % 256)) = x := by
  have hx := x.toNat_lt
  apply UInt32.toNat_inj.mp
  simp only [u32OfBytes, UInt8.toNat_ofNat', UInt32.toNat_ofNat']
  omega

/-- The round trip of four bytes through their 32-bit value. -/
theorem bytesOfU32_u32OfBytes (a b c d : UInt8) :
    bytesOfU32 (u32OfBytes a b c d) = [a, b, c, d] := by
  have ha := a.toNat_lt
  have hb := b.toNat_lt
  have hc := c.toNat_lt
  have hd := d.toNat_lt
  simp only [bytesOfU32, u32OfBytes, UInt32.toNat_ofNat', List.cons.injEq, and_true]
  refine ⟨?_, ?_, ?_, ?_⟩ <;>
    · apply UInt8.toNat_inj.mp
      simp only [UInt8.toNat_ofNat']
      omega

/-- `_rotl32` -/
def rotl32 (x : UInt32) (r : UInt32) : UInt32 := (x <<< r) ||| (x >>> (32 - r))

/-- `_fmix32` -/
def fmix32 (h : UInt32) : UInt32 :=
  let h := h ^^^ (h >>> 16)
  let h := h * 0x85ebca6b
  let h := h ^^^ (h >>> 13)
  let h := h * 0xc2b2ae35
  h ^^^ (h >>> 16)

/-- The mixing of one block: `k1 *= c1; k1 = rotl32(k1, 15); k1 *= c2`. -/
def mixBlock (k1 : UInt32) : UInt32 := rotl32 (k1 * 0xcc9e2d51) 15 * 0x1b873593

/-- The block loop of `nft32_murmur3_x86_32`, the tail switch, and the final mixing with the
length of the key. -/
def murmur3Loop (len : UInt32) : List UInt8 → (h1 : UInt32) → UInt32
  | a :: b :: c :: d :: rest, h1 =>
    murmur3Loop len rest (rotl32 (h1 ^^^ mixBlock (u32OfBytes a b c d)) 13 * 5 + 0xe6546b64)
  | [a, b, c], h1 => fmix32 (h1 ^^^ mixBlock (u32OfBytes a b c 0) ^^^ len)
  | [a, b], h1 => fmix32 (h1 ^^^ mixBlock (u32OfBytes a b 0 0) ^^^ len)
  | [a], h1 => fmix32 (h1 ^^^ mixBlock (u32OfBytes a 0 0 0) ^^^ len)
  | [], h1 => fmix32 (h1 ^^^ len)

/-- `nft32_murmur3_x86_32` -/
def murmur3 (key : List UInt8) (seed : UInt32) : UInt32 :=
  murmur3Loop (UInt32.ofNat key.length) key seed

/-- The check vectors of the unit tests: `""`, `"hello"` and `"NIFAT32"` with seed 123. -/
example : murmur3 [] 0 = 0 := by decide
example : murmur3 [104, 101, 108, 108, 111] 0 = 0x248BFA47 := by decide
example : murmur3 [78, 73, 70, 65, 84, 51, 50] 123 = 0xE5D8AC74 := by decide

end NiFat32
