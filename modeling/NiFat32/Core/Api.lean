import NiFat32.Core.NiFat32

/-!
# `Core.Api`: the calls of the library (`nifat32.h`)

A program talks to the library by calls, one after the other. `ApiCall` is a call with its
arguments, and `runCall` makes it: the value that it returns, and the state that it leaves. A size
is the length of a buffer.
-/

set_option autoImplicit false

namespace NiFat32

/-- A call of the library. -/
inductive ApiCall
  | repairFat
  | contentExists (path : List UInt8)
  | openContent (rci : Int) (path : Option (List UInt8)) (mode : UInt8)
  | indexContent (ci : Int)
  | closeContent (ci : Int)
  | readContent2buffer (ci : Int) (offset size : Nat)
  | writeBuffer2content (ci : Int) (offset : Nat) (data : List UInt8)
  | changeMeta (ci : Int) (info : CInfo)
  | truncateContent (ci : Int) (offset : Nat) (size : Int)
  | putContent (ci : Int) (info : CInfo) (reserve : Int)
  | copyContent (src dst deep : Int)
  | deleteContent (ci : Int)
  | statContent (ci : Int) (info : CInfo)
  | repairContent (ci rec : Int)

/-- The `int` that a call returns for success and failure. -/
def intOfBool (x : Bool × FS) : Int × FS := (if x.1 then 1 else 0, x.2)

variable (m : Mount)

/-- The call: the value that it returns, and the state. There is none when it does not complete. -/
def runCall : ApiCall → (fuel : Nat) → FS → Option (Int × FS)
  | .repairFat, _, s => some (intOfBool (repairFat m s))
  | .contentExists path, fuel, s => (contentExists m fuel path s).map intOfBool
  | .openContent rci path mode, fuel, s => openContent m fuel rci path mode s
  | .indexContent ci, fuel, s => (nifat32IndexContent m fuel ci s).map intOfBool
  | .closeContent ci, fuel, s => (closeContent fuel ci s).map intOfBool
  | .readContent2buffer ci offset size, fuel, s =>
    (readContent2buffer m fuel ci offset size s).map fun (n, _, s) => ((n : Int), s)
  | .writeBuffer2content ci offset data, fuel, s =>
    (writeBuffer2content m fuel ci offset data s).map fun (n, s) => ((n : Int), s)
  | .changeMeta ci info, fuel, s => (changeMeta m fuel ci info s).map intOfBool
  | .truncateContent ci offset size, fuel, s =>
    (truncateContent m fuel ci offset size s).map intOfBool
  | .putContent ci info reserve, fuel, s => (putContent m fuel ci info reserve s).map intOfBool
  | .copyContent src dst deep, fuel, s => (copyContent m fuel src dst deep s).map intOfBool
  | .deleteContent ci, fuel, s => (deleteContent m fuel ci s).map intOfBool
  | .statContent ci info, _, s =>
    (nifat32StatContent ci info s).map fun r => (if r.isSome then 1 else 0, s)
  | .repairContent ci rec, fuel, s => (repairContent m fuel ci rec s).map intOfBool

/-- The slot of the content table is in use: `alloc_ci` hands out the slots that are empty, and
`destroy_content` empties them. -/
def isOpen (ci : Int) (s : FS) : Prop := inTable ci ∧ (s.contents ci.toNat).contentType ≠ .empty

instance (ci : Int) (s : FS) : Decidable (isOpen ci s) := inferInstanceAs (Decidable (_ ∧ _))

namespace ApiCall

/-- The handles through which the call reads or changes a content. -/
def handles : ApiCall → List Int
  | readContent2buffer ci _ _ | writeBuffer2content ci _ _ | changeMeta ci _
  | truncateContent ci _ _ | putContent ci _ _ | deleteContent ci | statContent ci _ => [ci]
  | copyContent src dst _ => [src, dst]
  | _ => []

end ApiCall

end NiFat32
