/-
  MiniC.Check.Stmts

  Checking declarations and statements.

  The statements of a block are checked in order, each in the scope that those
  before it leave.  A block has a frame of its own, which ends with it; the
  variables it declares stay in the table of symbols and belong to the
  function.  A variable is bound after the expressions in its declaration, so
  these do not see it.
-/
import MiniC.Check.Runs

namespace MiniC.Check

open Outline (Declaration Run)

/-! ## §1. Declarations -/

/-- What checking has found so far. -/
structure State extends Env where
  /-- The variables of the function being checked, in order. -/
  locals : List VarId := []
  deriving DecidableEq, Repr

namespace State

/-- Opens a block. -/
def push (st : State) : State := { st with scope := st.scope.push }

/-- Closes a block. -/
def pop (st : State) : State := { st with scope := st.scope.pop }

/-- Gives a name a meaning in the innermost block. -/
def bind (st : State) (name : String) (b : Binding) (line : Nat) : Except Fault State :=
  match st.scope.add name b with
  | .ok scope => .ok { st with scope := scope }
  | .error _ => .error ⟨.redefined name, line⟩

/-- Enters a variable in the table of symbols. -/
def enter (st : State) (sym : VarSymbol) : VarId × State :=
  let (key, vars) := st.symbols.vars.insert sym
  (⟨key⟩, { st with
    symbols := { st.symbols with vars := vars }
    locals := match sym.storage with
      | .localVar => st.locals ++ [⟨key⟩]
      | .globalVar => st.locals })

/-- Declares a variable. -/
def declare (st : State) (sym : VarSymbol) : Except Fault (VarId × State) := do
  let (v, st) := st.enter sym
  return (v, ← st.bind sym.name (.var v) sym.line)

end State

/-- The length of an array that a checked expression gives. -/
def lengthOf (e : Expr) : Except Fault Nat :=
  match e with
  | .literal (.int n) _ line =>
    if 0 < n.toInt then .ok n.toInt.toNat else .error ⟨.lengthNotPositive, line⟩
  | e => .error ⟨.lengthNotConstant, e.line⟩

/-- Checks the lengths of an array. -/
def lengths (env : Env) : List Run → Except Fault (List Nat)
  | [] => .ok []
  | r :: rs => do
    let n ← lengthOf (← run env r)
    return n :: (← lengths env rs)

/-- Checks what a variable of type `ty`, named on `line`, starts with. -/
def initial (env : Env) (ty : Ty) (line : Nat) : Outline.Initial → Except Fault (Option Expr)
  | .none => .ok none
  | .broken f => .error f
  | .value r =>
    if ty.isArray then .error ⟨.arrayInitializer, line⟩
    else do
      return some (← runAs env ty r)

/-- Checks the declaration of a variable. -/
def declaration (st : State) (storage : Storage) (d : Declaration) :
    Except Fault ((VarId × Option Expr) × State) := do
  if d.base = .void then throw ⟨.voidVariable d.name, d.line⟩
  let ty := Ty.arrayOf d.base (← lengths st.toEnv d.lengths)
  let init ← initial st.toEnv ty d.line d.init
  let (v, st) ← st.declare ⟨d.name, ty, storage, d.line⟩
  return ((v, init), st)

/-! ## §2. Statements -/

/-- Raises a fault if there is one. -/
def raise : Option Fault → Except Fault Unit
  | none => .ok ()
  | some f => .error f

/-- Checks a jump on `line` with `depth` loops around it, and the semicolon
after it. -/
def jump (word : Keyword) (depth line : Nat) (fault : Option Fault) : Except Fault Unit :=
  if depth = 0 then .error ⟨.outsideLoop word, line⟩ else raise fault

mutual

/-- Checks a statement of a function that returns `ret`, with `depth` loops
around it. -/
def stmt (ret : Ty) (depth : Nat) (st : State) : Outline.Stmt → Except Fault (Stmt × State)
  | .declare d => do
    let ((v, init), st) ← declaration st .localVar d
    return (.declare v init, st)
  | .expr e => do
    return (.expr (← run st.toEnv e), st)
  | .ret line =>
    if ret = .void then .ok (.ret none, st) else .error ⟨.missingValue ret, line⟩
  | .retValue e => do
    let e ← run st.toEnv e
    if ret = .void then throw ⟨.unwantedValue, e.line⟩
    let e ← typed e.line (Typing.coerce e ret)
    return (.ret (some e), st)
  | .branch cond body otherwise => do
    let cond ← condition st.toEnv cond
    let (body, st) ← stmts ret depth st.push body
    let (otherwise, st) ← elseBranch ret depth st.pop otherwise
    return (.branch cond body otherwise, st)
  | .loop cond body => do
    let cond ← condition st.toEnv cond
    let (body, st) ← stmts ret (depth + 1) st.push body
    return (.loop cond body, st.pop)
  | .leave line fault => do
    jump .kwBreak depth line fault
    return (.leave, st)
  | .again line fault => do
    jump .kwContinue depth line fault
    return (.again, st)
  | .broken f => .error f

/-- Checks what is done if a condition fails. -/
def elseBranch (ret : Ty) (depth : Nat) (st : State) : Outline.Else → Except Fault (Else × State)
  | .nothing => .ok (.nothing, st)
  | .branch cond body otherwise => do
    let cond ← condition st.toEnv cond
    let (body, st) ← stmts ret depth st.push body
    let (otherwise, st) ← elseBranch ret depth st.pop otherwise
    return (.branch cond body otherwise, st)
  | .block body => do
    let (body, st) ← stmts ret depth st.push body
    return (.block body, st.pop)

/-- Checks statements in order. -/
def stmts (ret : Ty) (depth : Nat) (st : State) :
    List Outline.Stmt → Except Fault (List Stmt × State)
  | [] => .ok ([], st)
  | s :: ss => do
    let (s, st) ← stmt ret depth st s
    let (ss, st) ← stmts ret depth st ss
    return (s :: ss, st)

end

end MiniC.Check
