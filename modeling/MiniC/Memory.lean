/-
  MiniC.Memory

  Sizes of types and the addresses of arrays.

  Memory is addressed by 32-bit words: a number that would not fit stays at
  the largest one.  Every array variable has one fixed place in memory, given
  out in order of declaration from a small base on, so no array has address
  zero.
-/
import MiniC.Ty

namespace MiniC

/-! ## §1. Sizes -/

namespace Memory

/-- The largest 32-bit word. -/
def maxWord : Nat := 0xFFFFFFFF

/-- A number, or the largest word if it does not fit. -/
def saturate (n : Nat) : Nat := min n maxWord

/-- Bytes in a page of memory. -/
def pageSize : Nat := 0x10000

/-- The first address given to an array. -/
def staticBase : Nat := 16

/-- `n / d`, rounded up. -/
def divCeil (n d : Nat) : Nat := n / d + if n % d = 0 then 0 else 1

/-- The least multiple of `align` from `offset` on. -/
def alignUp (offset align : Nat) : Nat := saturate (divCeil offset align * align)

end Memory

open Memory

namespace Ty

/-- Bytes that a value takes in memory. -/
def size : Ty → Nat
  | .int | .float | .pointer _ => 4
  | .void => 0
  | .array base n => saturate (base.size * n)

/-- What the address of a value is a multiple of. -/
def align : Ty → Nat
  | .int | .float | .pointer _ => 4
  | .void => 1
  | .array base _ => base.align

/-- Bytes between neighbours for arithmetic on a pointer or array. -/
def stride (ty : Ty) : Nat :=
  match ty.base? with
  | some base => max base.size 1
  | none => 1

end Ty

/-! ## §2. Places of arrays -/

/-- The places of the arrays among a list of variables. -/
structure StaticLayout where
  /-- The address of each variable that is an array. -/
  slots : List (Option Nat)
  /-- The first address after all arrays. -/
  finish : Nat
  deriving DecidableEq, Repr

namespace StaticLayout

/-- Places variables of the types given, from an address on. -/
def place (offset : Nat) : List Ty → StaticLayout
  | [] => ⟨[], offset⟩
  | ty :: tys =>
    if ty.isArray then
      let address := alignUp offset ty.align
      let later := place (saturate (address + ty.size)) tys
      ⟨some address :: later.slots, later.finish⟩
    else
      let later := place offset tys
      ⟨none :: later.slots, later.finish⟩

/-- The places of variables of the types given. -/
def ofTypes (tys : List Ty) : StaticLayout := place staticBase tys

/-- The address of variable `i`, if it is an array. -/
def address? (l : StaticLayout) (i : Nat) : Option Nat := (l.slots[i]?).join

/-- No variable is an array. -/
def isEmpty (l : StaticLayout) : Bool := l.slots.all Option.isNone

/-- Pages of memory that hold all arrays; at least one. -/
def pages (l : StaticLayout) : Nat := max (divCeil l.finish pageSize) 1

end StaticLayout

end MiniC
