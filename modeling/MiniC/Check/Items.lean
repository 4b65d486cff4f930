/-
  MiniC.Check.Items

  Checking functions, global variables and whole programs.

  A function may be declared any number of times with the same types, and
  defined once; a function of the host may be declared once.  A function is
  known from its first declaration on, its own body included.  In the end
  every function that was declared must have been defined.
-/
import MiniC.Check.Stmts

namespace MiniC.Check

open Outline (Param Signature Declaration)

/-- What has been found of a program so far. -/
structure Found where
  env : Env := {}
  /-- Functions and globals in source order. -/
  items : List Item := []
  /-- The functions of the host in source order. -/
  imports : List FuncId := []
  deriving Repr

/-! ## §1. Heads of functions -/

/-- No parameter lacks a value. -/
def params : List Param → Except Fault (List Ty)
  | [] => .ok []
  | p :: ps => do
    if p.ty = .void then throw ⟨.voidVariable p.name, p.line⟩
    return p.ty :: (← params ps)

/-- Checks the head of a function and gives the parameters' types. -/
def signature (sig : Signature) : Except Fault (List Ty) := do
  let tys ← params sig.params
  raise sig.fault
  return tys

/-- Enters a new function in the table of symbols and binds its name. -/
def newFunction (env : Env) (sym : FuncSymbol) : Except Fault (FuncId × Env) :=
  let (key, funcs) := env.symbols.funcs.insert sym
  match env.scope.add sym.name (.func ⟨key⟩) with
  | .ok scope => .ok (⟨key⟩, ⟨scope, { env.symbols with funcs := funcs }⟩)
  | .error _ => .error ⟨.redefined sym.name, sym.line⟩

/-- The function that a head declares: a new one, or one declared before with
the same types. -/
def declareFunction (env : Env) (sig : Signature) (tys : List Ty) : Except Fault (FuncId × Env) :=
  match env.scope.get? sig.name with
  | none => newFunction env ⟨sig.name, sig.ret, tys, .declared, sig.line⟩
  | some (.var _) => .error ⟨.redefined sig.name, sig.line⟩
  | some (.func f) =>
    match env.symbols.func? f with
    | none => .error ⟨.redefined sig.name, sig.line⟩
    | some sym =>
      if sym.state = .imported then .error ⟨.redefined sig.name, sig.line⟩
      else if sym.ret = sig.ret ∧ sym.params = tys then .ok (f, env)
      else .error ⟨.conflicting sig.name, sig.line⟩

/-- Notes that a function has a body, unless it has one already. -/
def defineFunction (env : Env) (f : FuncId) (sig : Signature) : Except Fault Env :=
  if (env.symbols.func? f).any (·.state = .defined) then .error ⟨.redefined sig.name, sig.line⟩
  else
    let funcs := env.symbols.funcs.modify f.index fun sym => { sym with state := .defined }
    .ok { env with symbols := { env.symbols with funcs := funcs } }

/-! ## §2. Items -/

/-- Declares the parameters of a function in the frame of its body. -/
def declareParams (st : State) : List Param → Except Fault (List VarId × State)
  | [] => .ok ([], st)
  | p :: ps => do
    let (v, st) ← st.declare ⟨p.name, p.ty, .localVar, p.line⟩
    let (vs, st) ← declareParams st ps
    return (v :: vs, st)

/-- Checks a function of the host. -/
def importItem (found : Found) (sig : Signature) (fault : Option Fault) : Except Fault Found := do
  let tys ← signature sig
  raise fault
  let (f, env) ← newFunction found.env ⟨sig.name, sig.ret, tys, .imported, sig.line⟩
  return { found with env := env, imports := found.imports ++ [f] }

/-- Checks the body of a function. -/
def functionBody (env : Env) (f : FuncId) (sig : Signature) (body : List Outline.Stmt) :
    Except Fault (Function × Env) := do
  let env ← defineFunction env f sig
  let st : State := { env with locals := [] }
  let (vs, st) ← declareParams st.push sig.params
  let (body, st) ← stmts sig.ret 0 st body
  return (⟨f, sig.name, sig.ret, vs, st.locals, body⟩, st.pop.toEnv)

/-- Checks a function. -/
def functionItem (found : Found) (sig : Signature) (body : Outline.Body) : Except Fault Found := do
  let tys ← signature sig
  let (f, env) ← declareFunction found.env sig tys
  match body with
  | .none => return { found with env := env }
  | .broken fault => throw fault
  | .block body =>
    let (function, env) ← functionBody env f sig body
    return { found with env := env, items := found.items ++ [.function function] }

/-- The constant that a global starts with. -/
def constant (init : Option Expr) : Except Fault (Option Literal) :=
  match init with
  | none => .ok none
  | some e =>
    match e.constant? with
    | some value => .ok (some value)
    | none => .error ⟨.notConstant, e.line⟩

/-- Checks a global variable. -/
def globalItem (found : Found) (d : Declaration) : Except Fault Found := do
  let ((v, init), st) ← declaration { found.env with locals := [] } .globalVar d
  let value ← constant init
  return { found with env := st.toEnv, items := found.items ++ [.global v value] }

/-- Checks one item. -/
def item (found : Found) : Outline.Item → Except Fault Found
  | .imported sig fault => importItem found sig fault
  | .function sig body => functionItem found sig body
  | .global d => globalItem found d
  | .broken f => .error f

/-! ## §3. Programs -/

/-- Checks items in order. -/
def items (found : Found) : List Outline.Item → Except Fault Found
  | [] => .ok found
  | i :: is => do
    items (← item found i) is

/-- Every function that was declared has a body. -/
def allDefined (symbols : Symbols) : Except Fault Unit :=
  match symbols.funcs.rows.toList.find? (·.state = .declared) with
  | none => .ok ()
  | some sym => .error ⟨.neverDefined sym.name, sym.line⟩

/-- Checks a whole program. -/
def program (outline : List Outline.Item) : Except Fault Program := do
  let found ← items {} outline
  allDefined found.env.symbols
  return ⟨found.items, found.imports, found.env.symbols⟩

end MiniC.Check
