/-
  MiniC.Check.Runs

  Checking expressions: every name is looked up, every call has its
  arguments, and every operator is typed.

  The elements of a run are checked from left to right, what they enclose
  included, before the run is collapsed and its operators are typed.
-/
import MiniC.Outline
import MiniC.Precedence
import MiniC.Program
import MiniC.Scope

namespace MiniC.Check

open Outline (Node Run Args)

/-- What an expression may refer to. -/
structure Env where
  scope : Scope := {}
  symbols : Symbols := {}
  deriving DecidableEq, Repr

namespace Env

/-- The variable that a name stands for. -/
def var (env : Env) (name : String) (line : Nat) : Except Fault (VarId × VarSymbol) :=
  match env.scope.get? name with
  | some (.var v) =>
    match env.symbols.var? v with
    | some sym => .ok (v, sym)
    | none => .error ⟨.unknown name, line⟩
  | some (.func _) => .error ⟨.notVariable name, line⟩
  | none => .error ⟨.unknown name, line⟩

/-- The function that a name stands for. -/
def func (env : Env) (name : String) (line : Nat) : Except Fault (FuncId × FuncSymbol) :=
  match env.scope.get? name with
  | some (.func f) =>
    match env.symbols.func? f with
    | some sym => .ok (f, sym)
    | none => .error ⟨.unknown name, line⟩
  | some (.var _) => .error ⟨.notFunction name, line⟩
  | none => .error ⟨.unknown name, line⟩

end Env

/-- A checked expression as an operand. -/
def operand (e : Expr) : Part Expr := .operand e e.line

mutual

/-- Checks one element of a run. -/
def node (env : Env) : Node → Except Fault (Part Expr)
  | .int n line => .ok (operand (.literal (.int n) .int line))
  | .float x line => .ok (operand (.literal (.float x) .float line))
  | .name x line => do
    let (v, sym) ← env.var x line
    return operand (.var v sym.ty line)
  | .call f line args => do
    let (f, sym) ← env.func f line
    let args ← arguments env line sym.params args
    return operand (.call f args sym.ret line)
  | .group inner => do
    let e ← Precedence.resolve (← parts env inner)
    return operand e
  | .unary op target line => .ok (.unary op target line)
  | .binary op line => .ok (.binary op line)
  | .broken f => .error f

/-- Checks the elements of a run from left to right. -/
def parts (env : Env) : Run → Except Fault (List (Part Expr))
  | .last n => do
    return [← node env n]
  | .more n rest => do
    let p ← node env n
    return p :: (← parts env rest)

/-- Checks the arguments of a call on `line` against the parameters' types. -/
def arguments (env : Env) (line : Nat) (params : List Ty) : Args → Except Fault (List Expr)
  | .none =>
    match params with
    | [] => .ok []
    | _ :: _ => .error ⟨.notEnoughArguments, line⟩
  | .arg e rest =>
    match params with
    | [] => .error ⟨.tooManyArguments, line⟩
    | ty :: params => do
      let e ← Precedence.resolve (← parts env e)
      let e ← typed e.line (Typing.coerce e ty)
      return e :: (← arguments env line params rest)

end

/-- Checks an expression. -/
def run (env : Env) (r : Run) : Except Fault Expr := do
  Precedence.resolve (← parts env r)

/-- Checks an expression where a value of type `ty` is wanted. -/
def runAs (env : Env) (ty : Ty) (r : Run) : Except Fault Expr := do
  let e ← run env r
  typed e.line (Typing.coerce e ty)

/-- Checks the condition of a test or loop. -/
def condition (env : Env) (r : Run) : Except Fault Expr := do
  let e ← run env r
  if e.ty = .void then throw ⟨.voidCondition, e.line⟩
  return e

end MiniC.Check
