/-
  MiniC.Lower.Exprs

  Instructions for expressions.

  The code of an expression leaves its value on top of the stack; that of an
  assignment or of a call without a result leaves nothing.  Operands come from
  left to right, then the operator.

  An array is its own address, so it is never loaded.  A number added to or
  taken from a pointer is scaled by the size of what it points to, and the
  difference of two pointers is divided by it.
-/
import MiniC.Memory
import MiniC.Program
import MiniC.Wasm.Instr

namespace MiniC

open Wasm (ValType Instr IntOp FloatOp)

/-- The type of the stack value that holds a value of a type. -/
def Ty.valType : Ty → ValType
  | .float => .f32
  | _ => .i32

/-- The type of the stack value that a call leaves, if it leaves one. -/
def Ty.result? (ty : Ty) : Option ValType := if ty = .void then none else some ty.valType

namespace Lower

/-- What the code of a program refers to. -/
structure Env where
  /-- All variables and functions. -/
  symbols : Symbols
  /-- The addresses of the arrays among the variables. -/
  layout : StaticLayout
  deriving DecidableEq, Repr

namespace Env

/-- The tables of a program, and places for its arrays. -/
def ofSymbols (symbols : Symbols) : Env := ⟨symbols, .ofTypes symbols.varTypes⟩

/-- The address of a variable that is an array. -/
def address? (env : Env) (v : VarId) : Option UInt32 :=
  (env.layout.address? v.index).map UInt32.ofNat

/-- The variable is one of the whole program. -/
def isGlobal (env : Env) (v : VarId) : Bool :=
  (env.symbols.var? v).any (·.storage = .globalVar)

/-- The type of a variable. -/
def varTy (env : Env) (v : VarId) : Ty := ((env.symbols.var? v).map (·.ty)).getD .int

/-- The name of a function. -/
def funcName (env : Env) (f : FuncId) : String :=
  ((env.symbols.func? f).map (·.name)).getD ""

/-- Pushes the value of a variable. -/
def get (env : Env) (v : VarId) : Instr :=
  if env.isGlobal v then .globalGet v else .localGet v

/-- Pops a value into a variable. -/
def set (env : Env) (v : VarId) : Instr :=
  if env.isGlobal v then .globalSet v else .localSet v

end Env

/-! ## §1. Operators -/

/-- The instruction for arithmetic on integers. -/
def intArith : ArithOp → IntOp
  | .add => .add
  | .sub => .sub
  | .mul => .mul
  | .div => .divS

/-- The instruction for arithmetic on floats. -/
def floatArith : ArithOp → FloatOp
  | .add => .add
  | .sub => .sub
  | .mul => .mul
  | .div => .div

/-- The instruction for comparing integers. -/
def intCompare (signed : Bool) : CompareOp → IntOp
  | .eq => .eq
  | .notEq => .ne
  | .lt => .lt signed
  | .gt => .gt signed
  | .ltEq => .le signed
  | .gtEq => .ge signed

/-- The instruction for comparing floats. -/
def floatCompare : CompareOp → FloatOp
  | .eq => .eq
  | .notEq => .ne
  | .lt => .lt
  | .gt => .gt
  | .ltEq => .le
  | .gtEq => .ge

/-- The instruction for combining bits. -/
def bitwise : BitOp → IntOp
  | .and => .and
  | .or => .or

/-- Multiplies by a number of bytes. -/
def scale (stride : Nat) : List Instr :=
  if stride = 1 then [] else [.const (.word (UInt32.ofNat stride)), .int .mul]

/-- Divides by a number of bytes. -/
def unscale (stride : Nat) : List Instr :=
  if stride = 1 then [] else [.const (.word (UInt32.ofNat stride)), .int .divS]

/-- The operator counts in elements if one side is a pointer. -/
def movesPointer : ArithOp → Bool
  | .add | .sub => true
  | .mul | .div => false

/-- After the left operand of arithmetic: scales it if the other side is the
pointer. -/
def afterLeft (op : ArithOp) (l r : Ty) : List Instr :=
  if movesPointer op && r.isPointerLike && !l.isPointerLike then scale r.stride else []

/-- After the right operand of arithmetic: scales it if the other side is the
pointer. -/
def afterRight (op : ArithOp) (l r : Ty) : List Instr :=
  if movesPointer op && l.isPointerLike && !r.isPointerLike then scale l.stride else []

/-- The operator of arithmetic itself. -/
def arithmetic (op : ArithOp) (l r : Ty) : List Instr :=
  if l = .float then [.float (floatArith op)]
  else .int (intArith op) ::
    (if op = .sub ∧ l.isPointerLike ∧ r.isPointerLike then unscale l.stride else [])

/-- The operator of a comparison; pointers compare as unsigned numbers. -/
def comparison (op : CompareOp) (l : Ty) : Instr :=
  if l = .float then .float (floatCompare op) else .int (intCompare (!l.isPointerLike) op)

/-! ## §2. Conditions -/

/-- Turns a value into an integer that is zero exactly if the value is. -/
def toCondition (ty : Ty) : List Instr :=
  if ty = .float then [.const (.zero .f32), .float .ne] else []

/-- The value is zero or one. -/
def isBoolean : Expr → Bool
  | .binary (.compare _) .. | .binary (.logical _) .. | .unary .not .. => true
  | _ => false

/-- Turns the value of an expression into zero or one. -/
def toTruth (e : Expr) : List Instr :=
  if e.ty = .float then toCondition e.ty
  else if isBoolean e then []
  else [.const (.int 0), .int .ne]

/-- What a value of type `ty` points to is pushed in place of the address. -/
def loadFrom (pointee : Ty) : List Instr :=
  if pointee.isArray then [] else [.load pointee.valType]

/-- Converts between integers and floats. -/
def convert : Ty → Ty → List Instr
  | .int, .float => [.convert]
  | .float, .int => [.truncate]
  | _, _ => []

/-! ## §3. Expressions -/

mutual

/-- The code of an expression. -/
def expr (env : Env) : Expr → List Instr
  | .literal (.int n) _ _ => [.const (.int n)]
  | .literal (.float x) _ _ => [.const (.float x)]
  | .var v _ _ => [env.get v]
  | .call f args _ _ => exprs env args ++ [.call (env.funcName f)]
  | .unary .negate e ty _ =>
    if ty = .float then expr env e ++ [.floatNeg]
    else .const (.int 0) :: (expr env e ++ [.int .sub])
  | .unary .not e _ _ =>
    expr env e ++ (if e.ty = .float then [.const (.zero .f32), .float .eq] else [.eqz])
  | .unary .deref e ty _ => expr env e ++ loadFrom (e.ty.base?.getD ty)
  | .unary .addressOf (.unary .deref e _ _) _ _ => expr env e
  | .unary .addressOf e _ _ => expr env e
  | .unary .cast e ty _ => expr env e ++ convert e.ty ty
  | .binary .assign (.var v _ _) r _ _ => expr env r ++ [env.set v]
  | .binary .assign _ r _ _ => expr env r
  | .binary (.arith op) l r _ _ =>
    expr env l ++ afterLeft op l.ty r.ty ++ expr env r ++ afterRight op l.ty r.ty ++
      arithmetic op l.ty r.ty
  | .binary (.compare op) l r _ _ => expr env l ++ expr env r ++ [comparison op l.ty]
  | .binary (.bitwise op) l r _ _ => expr env l ++ expr env r ++ [.int (bitwise op)]
  | .binary (.logical .and) l r _ _ =>
    expr env l ++ toTruth l ++ [.ifValue (expr env r ++ toTruth r) [.const (.int 0)]]
  | .binary (.logical .or) l r _ _ =>
    expr env l ++ toTruth l ++ [.ifValue [.const (.int 1)] (expr env r ++ toTruth r)]

/-- The code of expressions, one after the other. -/
def exprs (env : Env) : List Expr → List Instr
  | [] => []
  | e :: es => expr env e ++ exprs env es

end

/-- The code of a condition, which leaves an integer. -/
def condition (env : Env) (e : Expr) : List Instr := expr env e ++ toCondition e.ty

end Lower

end MiniC
