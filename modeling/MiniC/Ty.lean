/-
  MiniC.Ty

  The types of the language.

  A type is written the way a declaration reads: the element or pointee
  first, a star for each pointer, and the lengths of an array of arrays from
  the outermost to the innermost.
-/
import MiniC.Text.Digits

namespace MiniC

/-- A type. -/
inductive Ty where
  /-- 32-bit integers. -/
  | int
  /-- Single-precision floats. -/
  | float
  /-- No value. -/
  | void
  /-- Addresses of values of a type. -/
  | pointer (base : Ty)
  /-- A fixed number of elements of a type. -/
  | array (base : Ty) (length : Nat)
  deriving DecidableEq, Repr, Inhabited

namespace Ty

/-- A single value that can be compared with zero. -/
def isScalar : Ty → Bool
  | .int | .float | .pointer _ => true
  | .void | .array .. => false

/-- A pointer, or an array, which stands for the address of its first
element. -/
def isPointerLike : Ty → Bool
  | .pointer _ | .array .. => true
  | _ => false

/-- An array. -/
def isArray : Ty → Bool
  | .array .. => true
  | _ => false

/-- What a pointer points to, or what an array is made of. -/
def base? : Ty → Option Ty
  | .pointer base | .array base _ => some base
  | _ => none

/-- An array as the pointer it is used as; any other type is itself. -/
def decay : Ty → Ty
  | .array base _ => .pointer base
  | ty => ty

/-- The array that a declaration with these lengths has, the first length
being the outermost. -/
def arrayOf (element : Ty) (lengths : List Nat) : Ty :=
  lengths.foldr (fun n ty => .array ty n) element

/-- The type in words, followed by the lengths of the arrays around it. -/
def displayBefore (lengths : String) : Ty → String
  | .int => "int" ++ lengths
  | .float => "float" ++ lengths
  | .void => "void" ++ lengths
  | .pointer base => base.displayBefore "" ++ "*" ++ lengths
  | .array base n => base.displayBefore (lengths ++ "[" ++ Text.unsigned n ++ "]")

/-- The type in words. -/
def display (ty : Ty) : String := ty.displayBefore ""

/-- Decaying twice is decaying once. -/
theorem decay_decay (ty : Ty) : ty.decay.decay = ty.decay := by
  cases ty <;> rfl

/-- Decaying keeps what a type is made of. -/
theorem base?_decay (ty : Ty) : ty.decay.base? = ty.base? := by
  cases ty <;> rfl

end Ty

end MiniC
