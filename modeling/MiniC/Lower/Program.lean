/-
  MiniC.Lower.Program

  Instructions for statements, and the module of a program.

  A loop is a block around a loop: leaving goes to the end of the block, and
  testing again to the start of the loop.  Both carry the number of loops
  around them in their names.  A function that must return a value ends in an
  instruction that stops the machine, unless a return comes last.
-/
import MiniC.Lower.Exprs
import MiniC.Wasm.Module

namespace MiniC.Lower

open Wasm (Instr Slot Func Global Import Module)

/-! ## §1. Statements -/

mutual

/-- The code of a statement with `depth` loops around it. -/
def stmt (env : Env) (depth : Nat) : Stmt → List Instr
  | .declare v init =>
    match env.address? v with
    | some address => [.const (.word address), env.set v]
    | none =>
      match init with
      | some e => expr env e ++ [env.set v]
      | none => []
  | .expr e => expr env e ++ (if e.ty = .void then [] else [.drop])
  | .ret none => [.ret]
  | .ret (some e) => expr env e ++ [.ret]
  | .branch cond body otherwise =>
    condition env cond ++ branch env depth (stmts env depth body) otherwise
  | .loop cond body =>
    [.block (.exit (depth + 1)) [.loop (.entry (depth + 1))
      (condition env cond ++ [.eqz, .brIf (.exit (depth + 1))] ++
        stmts env (depth + 1) body ++ [.br (.entry (depth + 1))])]]
  | .leave => [.br (.exit depth)]
  | .again => [.br (.entry depth)]

/-- The test of a branch with the code `body`, once its condition is on the
stack. -/
def branch (env : Env) (depth : Nat) (body : List Instr) : Else → List Instr
  | .nothing => [.ifThen body]
  | .branch cond other otherwise =>
    [.ifElse body (condition env cond ++ branch env depth (stmts env depth other) otherwise)]
  | .block other => [.ifElse body (stmts env depth other)]

/-- The code of statements, one after the other. -/
def stmts (env : Env) (depth : Nat) : List Stmt → List Instr
  | [] => []
  | s :: ss => stmt env depth s ++ stmts env depth ss

end

/-! ## §2. Items -/

/-- A variable with the type of its value. -/
def slot (env : Env) (v : VarId) : Slot := ⟨v, (env.varTy v).valType⟩

/-- The code of a function. -/
def function (env : Env) (f : Function) : Func where
  name := f.name
  params := f.params.map (slot env)
  result := f.ret.result?
  locals := (f.locals.drop f.params.length).map (slot env)
  body := stmts env 0 f.body ++
    (if f.ret ≠ .void ∧ !(f.body.getLast?.any Stmt.isReturn) then [.unreachable] else [])

/-- A global variable.  An array keeps its address and cannot be changed. -/
def global (env : Env) (v : VarId) (init : Option Literal) : Global :=
  match env.address? v with
  | some address => ⟨v, .word address, false⟩
  | none =>
    match init with
    | some (.int n) => ⟨v, .int n, true⟩
    | some (.float x) => ⟨v, .float x, true⟩
    | none => ⟨v, .zero (env.varTy v).valType, true⟩

/-- A function of the host. -/
def hostFunction (env : Env) (f : FuncId) : Option Import :=
  (env.symbols.func? f).map fun sym =>
    ⟨sym.name, sym.params.map Ty.valType, sym.ret.result?⟩

/-- The functions among items. -/
def functions (env : Env) (items : List Item) : List Func :=
  items.filterMap fun
    | .function f => some (function env f)
    | .global .. => none

/-- The globals among items. -/
def globals (env : Env) (items : List Item) : List Global :=
  items.filterMap fun
    | .global v init => some (global env v init)
    | .function _ => none

/-- The module of a program.  It has memory if an array needs it or if memory
is read. -/
def program (p : Program) : Module :=
  let env := Env.ofSymbols p.symbols
  let funcs := functions env p.items
  { imports := p.imports.filterMap (hostFunction env)
    memory :=
      if funcs.any (Wasm.codeReadsMemory ·.body) || !env.layout.isEmpty then
        some env.layout.pages
      else none
    globals := globals env p.items
    funcs := funcs }

end MiniC.Lower
