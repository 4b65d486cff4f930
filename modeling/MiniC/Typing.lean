/-
  MiniC.Typing

  The typing rules of operators and the conversions they bring in.

  Where a float is wanted an integer will do, and where a pointer is wanted an
  array of the same elements will do; nothing else is converted unasked.
  Arithmetic on a pointer counts in elements.  Each rule takes checked
  operands and gives the checked expression or the reason why there is none.
-/
import MiniC.Expr

namespace MiniC

/-- Why an operator does not apply. -/
inductive TypeError where
  /-- Two types that have to agree do not. -/
  | mismatch
  /-- The operator has no meaning for these types. -/
  | invalidOperation
  /-- An operand has no value. -/
  | voidOperand
  /-- The target of an assignment is no variable, or is an array. -/
  | invalidAssignTarget
  /-- There is no conversion from one type to the other. -/
  | invalidCast (source target : Ty)
  /-- The expression is no place in memory. -/
  | invalidAddressOf
  /-- A value of this type does not point to a value. -/
  | invalidDeref (ty : Ty)
  deriving DecidableEq, Repr

/-- What is said about a type error. -/
def TypeError.message : TypeError → String
  | .mismatch => "types mismatching"
  | .invalidOperation => "invalid operation"
  | .voidOperand => "void value used in an expression"
  | .invalidAssignTarget => "only variables can be assigned to"
  | .invalidCast source target =>
    "cannot cast `" ++ source.display ++ "` to `" ++ target.display ++ "`"
  | .invalidAddressOf => "cannot take the address of this expression"
  | .invalidDeref ty => "cannot dereference `" ++ ty.display ++ "`"

namespace Typing

/-! ## §1. Conversions -/

/-- A conversion that the source leaves unsaid. -/
def implicitCast (e : Expr) (ty : Ty) : Expr := .unary .cast e ty e.line

/-- An expression where a value of type `ty` is wanted. -/
def coerce (e : Expr) (ty : Ty) : Except TypeError Expr :=
  if e.ty = ty then .ok e
  else
    match e.ty, ty with
    | .int, .float => .ok (implicitCast e .float)
    | .array base _, .pointer target =>
      if base = target then .ok (e.retype ty) else .error .mismatch
    | _, _ => .error .mismatch

/-- Two numbers brought to a common type. -/
def promote (l r : Expr) : Except TypeError (Expr × Expr) :=
  match l.ty, r.ty with
  | .int, .float => .ok (implicitCast l .float, r)
  | .float, .int => .ok (l, implicitCast r .float)
  | a, b => if a = b then .ok (l, r) else .error .mismatch

/-- An explicit conversion exists between numbers, and between integers and
pointers. -/
def castable : Ty → Ty → Bool
  | .int, .int | .int, .float | .float, .int | .float, .float => true
  | .int, .pointer _ | .pointer _, .int | .pointer _, .pointer _ => true
  | _, _ => false

/-! ## §2. Operators with two operands -/

/-- The type of a sum, difference or other arithmetic with a pointer. -/
def pointerArith (op : ArithOp) (l r : Ty) : Except TypeError Ty :=
  match op, l, r with
  | .add, .int, r => if r.isPointerLike then .ok r.decay else .error .invalidOperation
  | op, l, .int =>
    if (op = .add ∨ op = .sub) ∧ l.isPointerLike then .ok l.decay else .error .invalidOperation
  | op, l, r =>
    if l.isPointerLike && r.isPointerLike then
      if l.decay ≠ r.decay then .error .mismatch
      else if op = .sub then .ok .int
      else .error .invalidOperation
    else .error .invalidOperation

/-- The type of a comparison with a pointer. -/
def pointerCompare (l r : Ty) : Except TypeError Ty :=
  if l.isPointerLike && r.isPointerLike then
    if l.decay = r.decay then .ok .int else .error .mismatch
  else .error .invalidOperation

/-- An assignment.  It has no value. -/
def assign (l r : Expr) (line : Nat) : Except TypeError Expr :=
  match l with
  | .var _ ty _ =>
    if ty.isArray then .error .invalidAssignTarget
    else if r.ty = .void then .error .voidOperand
    else do
      let r ← coerce r ty
      return .binary .assign l r .void line
  | _ => .error .invalidAssignTarget

/-- Both operands have a value. -/
def requireValues (l r : Expr) : Except TypeError Unit :=
  if l.ty = .void ∨ r.ty = .void then .error .voidOperand else .ok ()

/-- An operator with two operands. -/
def binary (op : BinaryOp) (l r : Expr) (line : Nat) : Except TypeError Expr :=
  match op with
  | .assign => assign l r line
  | .logical _ => do
    requireValues l r
    if l.ty.isScalar && r.ty.isScalar then return .binary op l r .int line
    else throw .invalidOperation
  | .bitwise _ => do
    requireValues l r
    if l.ty = .int ∧ r.ty = .int then return .binary op l r .int line
    else throw .invalidOperation
  | .arith a => do
    requireValues l r
    if l.ty.isPointerLike || r.ty.isPointerLike then
      let ty ← pointerArith a l.ty r.ty
      return .binary op l r ty line
    else
      let (l, r) ← promote l r
      return .binary op l r l.ty line
  | .compare _ => do
    requireValues l r
    if l.ty.isPointerLike || r.ty.isPointerLike then
      let ty ← pointerCompare l.ty r.ty
      return .binary op l r ty line
    else
      let (l, r) ← promote l r
      return .binary op l r .int line

/-! ## §3. Operators with one operand -/

/-- The type of an operator with one operand; `target` is the type a cast
names, and the operand's own if it names none. -/
def unaryTy (op : UnaryOp) (target : Option Ty) (e : Expr) : Except TypeError Ty :=
  match op with
  | .negate =>
    match e.ty with
    | .int => .ok .int
    | .float => .ok .float
    | .void => .error .voidOperand
    | _ => .error .invalidOperation
  | .not =>
    if e.ty = .void then .error .voidOperand
    else if e.ty.isScalar then .ok .int
    else .error .invalidOperation
  | .deref =>
    match e.ty.base? with
    | some base => if base = .void then .error (.invalidDeref e.ty) else .ok base
    | none => .error (.invalidDeref e.ty)
  | .addressOf =>
    match e with
    | .var _ ty _ => if ty.isArray then .ok (.pointer ty) else .error .invalidAddressOf
    | .unary .deref inner _ _ => .ok inner.ty
    | _ => .error .invalidAddressOf
  | .cast =>
    let target := target.getD e.ty
    if castable e.ty target then .ok target else .error (.invalidCast e.ty target)

/-- An operator with one operand. -/
def unary (op : UnaryOp) (target : Option Ty) (e : Expr) (line : Nat) :
    Except TypeError Expr := do
  return .unary op e (← unaryTy op target e) line

/-! ## §4. What a conversion gives -/

/-- A converted expression has the type that was wanted. -/
theorem ty_of_coerce {e e' : Expr} {ty : Ty} (h : coerce e ty = .ok e') : e'.ty = ty := by
  unfold coerce at h
  split at h
  · cases h
    assumption
  · split at h
    · rename_i hty
      cases h
      rfl
    · split at h
      · cases h
        exact Expr.ty_retype _ _
      · cases h
    · cases h

end Typing

end MiniC
