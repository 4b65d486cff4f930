/-
  MiniC.Expr

  Typed expressions.

  Every node carries its type and the line it is reported on.  Conversions
  that the source leaves unsaid are casts in the tree, so that whoever reads
  the tree need not know when they apply.  A cast converts to the type of its
  own node.
-/
import MiniC.Binary32.Basic
import MiniC.Ty

namespace MiniC

/-! ## §1. Operators -/

/-- Operators that compute a number. -/
inductive ArithOp where
  | add | sub | mul | div
  deriving DecidableEq, Repr

/-- Operators that compare two values. -/
inductive CompareOp where
  | eq | notEq | lt | gt | ltEq | gtEq
  deriving DecidableEq, Repr

/-- Operators that evaluate their second operand only if they have to. -/
inductive LogicOp where
  | and | or
  deriving DecidableEq, Repr

/-- Operators on the bits of two integers. -/
inductive BitOp where
  | and | or
  deriving DecidableEq, Repr

/-- Operators with two operands. -/
inductive BinaryOp where
  /-- Stores the second operand in the first, a variable. -/
  | assign
  /-- Computes a number. -/
  | arith (op : ArithOp)
  /-- Compares. -/
  | compare (op : CompareOp)
  /-- Combines truth values. -/
  | logical (op : LogicOp)
  /-- Combines bits. -/
  | bitwise (op : BitOp)
  deriving DecidableEq, Repr

/-- Operators with one operand. -/
inductive UnaryOp where
  /-- The number with the other sign. -/
  | negate
  /-- One for zero, zero for all else. -/
  | not
  /-- The address of a place. -/
  | addressOf
  /-- What is at an address. -/
  | deref
  /-- Conversion to the type of the node. -/
  | cast
  deriving DecidableEq, Repr

/-! ## §2. Expressions -/

/-- A constant. -/
inductive Literal where
  | int (n : Int32)
  | float (x : Binary32)
  deriving DecidableEq, Repr

/-- The type of a constant. -/
def Literal.ty : Literal → Ty
  | .int _ => .int
  | .float _ => .float

/-- A variable, by its place in the table of variables. -/
structure VarId where
  /-- How many variables were declared before it. -/
  index : Nat
  deriving DecidableEq, Repr, Inhabited

/-- A function, by its place in the table of functions. -/
structure FuncId where
  /-- How many functions were declared before it. -/
  index : Nat
  deriving DecidableEq, Repr, Inhabited

/-- A typed expression. -/
inductive Expr where
  /-- A constant. -/
  | literal (value : Literal) (ty : Ty) (line : Nat)
  /-- The value of a variable. -/
  | var (v : VarId) (ty : Ty) (line : Nat)
  /-- A call of a function. -/
  | call (f : FuncId) (args : List Expr) (ty : Ty) (line : Nat)
  /-- An operator with one operand. -/
  | unary (op : UnaryOp) (operand : Expr) (ty : Ty) (line : Nat)
  /-- An operator with two operands. -/
  | binary (op : BinaryOp) (left right : Expr) (ty : Ty) (line : Nat)
  deriving Repr

namespace Expr

/-- The type of an expression. -/
def ty : Expr → Ty
  | .literal _ ty _ | .var _ ty _ | .call _ _ ty _ | .unary _ _ ty _ | .binary _ _ _ ty _ => ty

/-- The line an expression is reported on. -/
def line : Expr → Nat
  | .literal _ _ line | .var _ _ line | .call _ _ _ line | .unary _ _ _ line
  | .binary _ _ _ _ line => line

/-- The same expression, taken as of another type. -/
def retype (ty : Ty) : Expr → Expr
  | .literal value _ line => .literal value ty line
  | .var v _ line => .var v ty line
  | .call f args _ line => .call f args ty line
  | .unary op operand _ line => .unary op operand ty line
  | .binary op left right _ line => .binary op left right ty line

/-- The constant that an expression made of constants, sign changes and casts
stands for. -/
def constant? : Expr → Option Literal
  | .literal value _ _ => some value
  | .unary .negate operand _ _ =>
    match operand.constant? with
    | some (.int n) => some (.int (-n))
    | some (.float x) => some (.float x.neg)
    | none => none
  | .unary .cast operand ty _ =>
    match operand.constant?, ty with
    | some (.int n), .float => some (.float (Binary32.ofInt32 n))
    | some (.float x), .int => some (.int x.toInt32)
    | value?, _ => value?
  | _ => none

@[simp]
theorem ty_retype (ty : Ty) (e : Expr) : (e.retype ty).ty = ty := by
  cases e <;> rfl

end Expr

end MiniC
