/-
  MiniC.Proofs.Strict.Emission

  Emitting code with look-ups and counters that can break off.

  Code refers to the rows of variables and functions and to the names of
  functions, counts the loops around it, and is written with an indentation
  that grows and shrinks.  A row or name that is not there breaks off, and so
  does a counter that would fall below zero.

  In a well-formed program every expression and statement refers to rows that
  are there, and what is emitted for one statement, or written for one form,
  leaves the counters as they were.  So emission gives what it gives without
  breaking off (`program_eq`, `text_eq`).
-/
import MiniC.Lower.Program
import MiniC.Proofs.Strict.Breach
import MiniC.Proofs.Typing.Judgement

namespace MiniC.Strict.Emit

open Wasm (Instr Slot Func Global Import Module Form)
open Lower (Env)

variable {names : Names} {env : Env}

/-! ## §1. Expressions -/

/-- Pushes the value of a variable. -/
def get (env : Env) (v : VarId) : Except Breach Instr := do
  let sym ← varRow env.symbols v
  return if sym.storage = .globalVar then .globalGet v else .localGet v

/-- Pops a value into a variable. -/
def set (env : Env) (v : VarId) : Except Breach Instr := do
  let sym ← varRow env.symbols v
  return if sym.storage = .globalVar then .globalSet v else .localSet v

/-- The name of a function. -/
def funcName (names : Names) (env : Env) (f : FuncId) : Except Breach String := do
  spell names (← funcRow env.symbols f).name

mutual

/-- The code of an expression. -/
def expr (names : Names) (env : Env) : Expr → Except Breach (List Instr)
  | .literal (.int n) _ _ => return [.const (.int n)]
  | .literal (.float x) _ _ => return [.const (.float x)]
  | .var v _ _ => do return [← get env v]
  | .call f args _ _ => do
    let args ← exprs names env args
    return args ++ [.call (← funcName names env f)]
  | .unary .negate e ty _ => do
    let code ← expr names env e
    return if ty = .float then code ++ [.floatNeg] else .const (.int 0) :: (code ++ [.int .sub])
  | .unary .not e _ _ => do
    let code ← expr names env e
    return code ++ (if e.ty = .float then [.const (.zero .f32), .float .eq] else [.eqz])
  | .unary .deref e ty _ => do
    return (← expr names env e) ++ Lower.loadFrom (e.ty.base?.getD ty)
  | .unary .addressOf (.unary .deref e _ _) _ _ => expr names env e
  | .unary .addressOf e _ _ => expr names env e
  | .unary .cast e ty _ => do return (← expr names env e) ++ Lower.convert e.ty ty
  | .binary .assign (.var v _ _) r _ _ => do
    let code ← expr names env r
    return code ++ [← set env v]
  | .binary .assign _ r _ _ => expr names env r
  | .binary (.arith op) l r _ _ => do
    let left ← expr names env l
    let right ← expr names env r
    return left ++ Lower.afterLeft op l.ty r.ty ++ right ++ Lower.afterRight op l.ty r.ty ++
      Lower.arithmetic op l.ty r.ty
  | .binary (.compare op) l r _ _ => do
    let left ← expr names env l
    let right ← expr names env r
    return left ++ right ++ [Lower.comparison op l.ty]
  | .binary (.bitwise op) l r _ _ => do
    let left ← expr names env l
    let right ← expr names env r
    return left ++ right ++ [.int (Lower.bitwise op)]
  | .binary (.logical .and) l r _ _ => do
    let left ← expr names env l
    let right ← expr names env r
    return left ++ Lower.toTruth l ++ [.ifValue (right ++ Lower.toTruth r) [.const (.int 0)]]
  | .binary (.logical .or) l r _ _ => do
    let left ← expr names env l
    let right ← expr names env r
    return left ++ Lower.toTruth l ++ [.ifValue [.const (.int 1)] (right ++ Lower.toTruth r)]

/-- The code of expressions, one after the other. -/
def exprs (names : Names) (env : Env) : List Expr → Except Breach (List Instr)
  | [] => return []
  | e :: es => do
    let code ← expr names env e
    return code ++ (← exprs names env es)

end

/-- The code of a condition, which leaves an integer. -/
def condition (names : Names) (env : Env) (e : Expr) : Except Breach (List Instr) := do
  return (← expr names env e) ++ Lower.toCondition e.ty

/-! ## §2. Statements -/

/-- Emission counts the loops around. -/
abbrev Emission := StateT Nat (Except Breach)

/-- Goes into a loop, and gives the number of loops with it. -/
def enterLoop : Emission Nat := fun loops => .ok (loops + 1, loops + 1)

/-- Leaves the innermost loop, which must be there. -/
def leaveLoop : Emission Unit
  | 0 => .error .loopsBelowZero
  | loops + 1 => .ok ((), loops)

/-- The number of loops around. -/
def loopsAround : Emission Nat := fun loops => .ok (loops, loops)

mutual

/-- The code of a statement. -/
def stmt (names : Names) (env : Env) : Stmt → Emission (List Instr)
  | .declare v init =>
    match env.address? v with
    | some address => do return [.const (.word address), ← set env v]
    | none =>
      match init with
      | some e => do
        let code ← expr names env e
        return code ++ [← set env v]
      | none => return []
  | .expr e => do return (← expr names env e) ++ (if e.ty = .void then [] else [.drop])
  | .ret none => return [.ret]
  | .ret (some e) => do return (← expr names env e) ++ [.ret]
  | .branch cond body otherwise => do
    let test ← condition names env cond
    let body ← stmts names env body
    return test ++ (← branch names env body otherwise)
  | .loop cond body => do
    let depth ← enterLoop
    let test ← condition names env cond
    let body ← stmts names env body
    leaveLoop
    return [.block (.exit depth) [.loop (.entry depth)
      (test ++ [.eqz, .brIf (.exit depth)] ++ body ++ [.br (.entry depth)])]]
  | .leave => do return [.br (.exit (← loopsAround))]
  | .again => do return [.br (.entry (← loopsAround))]

/-- The test of a branch with the code `body`, once its condition is on the
stack. -/
def branch (names : Names) (env : Env) (body : List Instr) : Else → Emission (List Instr)
  | .nothing => return [.ifThen body]
  | .branch cond other otherwise => do
    let test ← condition names env cond
    let other ← stmts names env other
    return [.ifElse body (test ++ (← branch names env other otherwise))]
  | .block other => do return [.ifElse body (← stmts names env other)]

/-- The code of statements, one after the other. -/
def stmts (names : Names) (env : Env) : List Stmt → Emission (List Instr)
  | [] => return []
  | s :: ss => do
    let code ← stmt names env s
    return code ++ (← stmts names env ss)

end

/-! ## §3. Items -/

/-- A variable with the type of its value. -/
def slot (env : Env) (v : VarId) : Except Breach Slot := do
  return ⟨v, (← varRow env.symbols v).ty.valType⟩

/-- Variables with the types of their values. -/
def slots (env : Env) (vs : List VarId) : Except Breach (List Slot) := vs.mapM (slot env)

/-- The code of a function. -/
def function (names : Names) (env : Env) (f : Function) : Emission Func := do
  let name ← spell names f.name
  let params ← slots env f.params
  let locals ← slots env (f.locals.drop f.params.length)
  let body ← stmts names env f.body
  return {
    name := name
    params := params
    result := f.ret.result?
    locals := locals
    body := body ++
      (if f.ret ≠ .void ∧ !(f.body.getLast?.any Stmt.isReturn) then [.unreachable] else []) }

/-- A global variable. -/
def global (env : Env) (v : VarId) (init : Option Literal) : Except Breach Global :=
  match env.address? v with
  | some address => return ⟨v, .word address, false⟩
  | none => do
    let sym ← varRow env.symbols v
    return match init with
      | some (.int n) => ⟨v, .int n, true⟩
      | some (.float x) => ⟨v, .float x, true⟩
      | none => ⟨v, .zero sym.ty.valType, true⟩

/-- A function of the host. -/
def hostFunction (names : Names) (env : Env) (f : FuncId) : Except Breach Import := do
  let sym ← funcRow env.symbols f
  return ⟨← spell names sym.name, sym.params.map Ty.valType, sym.ret.result?⟩

/-- The functions among items. -/
def functions (names : Names) (env : Env) : List Item → Emission (List Func)
  | [] => return []
  | .function f :: is => do
    let code ← function names env f
    return code :: (← functions names env is)
  | .global .. :: is => functions names env is

/-- The globals among items. -/
def globals (env : Env) : List Item → Except Breach (List Global)
  | [] => return []
  | .function _ :: is => globals env is
  | .global v init :: is => do
    let g ← global env v init
    return g :: (← globals env is)

/-- The module of a program. -/
def program (names : Names) (p : Program) : Except Breach Module := do
  let env := Env.ofSymbols p.symbols
  let globals ← globals env p.items
  let (funcs, _) ← (functions names env p.items).run 0
  let imports ← p.imports.mapM (hostFunction names env)
  return {
    imports := imports
    memory :=
      if funcs.any (Wasm.codeReadsMemory ·.body) || !env.layout.isEmpty then
        some env.layout.pages
      else none
    globals := globals
    funcs := funcs }

/-! ## §4. Text -/

/-- The lines written so far, and the indentation of the next one. -/
structure Page where
  lines : List String := []
  indent : Nat := 0
  deriving DecidableEq, Repr

/-- Writing adds lines to a page. -/
abbrev Writing := StateT Page (Except Breach)

/-- Writes one line. -/
def line (text : String) : Writing Unit := fun page =>
  .ok ((), { page with lines := page.lines ++ [Form.indent page.indent ++ text] })

/-- Indents by one step more. -/
def indent : Writing Unit := fun page => .ok ((), { page with indent := page.indent + 1 })

/-- Indents by one step less, which must be possible. -/
def unindent : Writing Unit := fun page =>
  match page.indent with
  | 0 => .error .indentBelowZero
  | n + 1 => .ok ((), { page with indent := n })

mutual

/-- Writes a form. -/
def form : Form → Writing Unit
  | .line text => line text
  | .group head body => do
    line ("(" ++ head)
    indent
    forms body
    unindent
    line ")"

/-- Writes forms, one after the other. -/
def forms : List Form → Writing Unit
  | [] => return ()
  | f :: fs => do
    form f
    forms fs

end

/-- The text of a module. -/
def text (m : Module) : Except Breach String := do
  let (_, page) ← (form m.form).run {}
  return String.join (page.lines.map (· ++ "\n"))

/-! ## §5. Emission does not break off -/

section Exprs

variable {U : VarId → Prop}

theorem get_eq {v : VarId} {sym : VarSymbol} (h : env.symbols.var? v = some sym) :
    get env v = .ok (env.get v) := by
  rw [get, varRow_eq h, Env.get, Env.isGlobal, h, Option.any_some]
  simp

theorem set_eq {v : VarId} {sym : VarSymbol} (h : env.symbols.var? v = some sym) :
    set env v = .ok (env.set v) := by
  rw [set, varRow_eq h, Env.set, Env.isGlobal, h, Option.any_some]
  simp

theorem funcName_eq (hnames : NamesEntered names env.symbols) {f : FuncId} {sym : FuncSymbol}
    (h : env.symbols.func? f = some sym) : funcName names env f = .ok (env.funcName f) := by
  rw [funcName, funcRow_eq h, Env.funcName, h]
  exact spell_eq (hnames h)

mutual

/-- **A well-typed expression refers to rows that are there.** -/
theorem expr_eq (hnames : NamesEntered names env.symbols) {e : Expr} {t : Ty}
    (h : HasTy env.symbols U e t) : expr names env e = .ok (Lower.expr env e) := by
  cases h with
  | @literal value ty line => cases value <;> rw [expr, Lower.expr] <;> rfl
  | var hv hu hne =>
    rw [expr, get_eq hv, Lower.expr]
    rfl
  | call hf hargs =>
    rw [expr, exprs_eq hnames hargs, funcName_eq hnames hf, Lower.expr]
    rfl
  | negate he hn =>
    rw [expr, expr_eq hnames he, Lower.expr]
    split <;> rfl
  | not he hs =>
    rw [expr, expr_eq hnames he, Lower.expr]
    rfl
  | deref he hb hne =>
    rw [expr, expr_eq hnames he, Lower.expr]
    rfl
  | addressOfVar hv ha =>
    cases hv with
    | var hv hu hne =>
      simp only [expr, get_eq hv, Lower.expr]
      rfl
  | addressOfDeref he =>
    -- the address of what a pointer points to is the pointer
    cases he with
    | deref he hb hne =>
      rw [expr, expr_eq hnames he, Lower.expr]
  | cast he hc =>
    rw [expr, expr_eq hnames he, Lower.expr]
    rfl
  | assign hv ha hr hd hty =>
    cases hv with
    | var hv hu hne =>
      rw [expr, expr_eq hnames hr, set_eq hv, Lower.expr]
      rfl
  | arith hl hr hop =>
    rw [expr, expr_eq hnames hl, expr_eq hnames hr, Lower.expr]
    rfl
  | compare hl hr hop =>
    rw [expr, expr_eq hnames hl, expr_eq hnames hr, Lower.expr]
    rfl
  | bitwise hl hr hop =>
    rw [expr, expr_eq hnames hl, expr_eq hnames hr, Lower.expr]
    rfl
  | @logical op l r ty line hl hr hs =>
    cases op <;> rw [expr, expr_eq hnames hl, expr_eq hnames hr, Lower.expr] <;> rfl

/-- Arguments are emitted without a breach. -/
theorem exprs_eq (hnames : NamesEntered names env.symbols) {es : List Expr} {tys : List Ty}
    (h : HaveTys env.symbols U es tys) : exprs names env es = .ok (Lower.exprs env es) := by
  cases h with
  | nil =>
    rw [exprs, Lower.exprs]
    rfl
  | cons he hd hty hne hes =>
    rw [exprs, expr_eq hnames he, exprs_eq hnames hes, Lower.exprs]
    rfl

end

theorem condition_eq (hnames : NamesEntered names env.symbols) {e : Expr}
    (h : Condition env.symbols U e) : condition names env e = .ok (Lower.condition env e) := by
  rw [condition, expr_eq hnames h.1]
  rfl

theorem passed_eq (hnames : NamesEntered names env.symbols) {e : Expr} {ty : Ty}
    (h : Passed env.symbols U e ty) : expr names env e = .ok (Lower.expr env e) := by
  obtain ⟨_, t, ht, _⟩ := h
  exact expr_eq hnames ht

end Exprs

section Steps

variable {σ α β : Type} {f : α → StateT σ (Except Breach) β} {s s' : σ} {a : α}

/-- Steps of which the first does not break off. -/
theorem bind_ok {x : StateT σ (Except Breach) α} (h : x s = .ok (a, s')) :
    (x >>= f) s = f a s' := by
  show (x s >>= fun p => f p.1 p.2) = _
  rw [h]
  rfl

theorem lift_ok {x : Except Breach α} (h : x = .ok a) :
    ((liftM x : StateT σ (Except Breach) α) >>= f) s = f a s := by
  rw [h]
  rfl

end Steps

section Stmts

variable {U : VarId → Prop} {ret : Ty}

/-- A declaration is emitted without a breach. -/
theorem declare_eq (hnames : NamesEntered names env.symbols) {v : VarId} {sym : VarSymbol}
    {init : Option Expr} {depth : Nat} (hv : env.symbols.var? v = some sym)
    (hinit : ∀ e ∈ init, sym.ty.isArray = false ∧ Passed env.symbols U e sym.ty) :
    stmt names env (.declare v init) depth =
      .ok (Lower.stmt env depth (.declare v init), depth) := by
  unfold stmt Lower.stmt
  cases env.address? v with
  | some address =>
    dsimp only
    rw [lift_ok (set_eq hv)]
    rfl
  | none =>
    cases init with
    | none => rfl
    | some e =>
      dsimp only
      rw [lift_ok (passed_eq hnames (hinit e rfl).2), lift_ok (set_eq hv)]
      rfl

mutual

/-- **What is emitted for a statement leaves as many loops around.** -/
theorem stmt_eq (hnames : NamesEntered names env.symbols) {depth : Nat} {s : Stmt}
    (h : StmtTyped env.symbols U ret depth s) :
    stmt names env s depth = .ok (Lower.stmt env depth s, depth) := by
  cases h with
  | declare hv hu hs hne hinit => exact declare_eq hnames hv hinit
  | expr he =>
    rw [stmt, lift_ok (expr_eq hnames he), Lower.stmt]
    rfl
  | ret h =>
    rw [stmt, Lower.stmt]
    rfl
  | retValue hne he =>
    rw [stmt, lift_ok (passed_eq hnames he), Lower.stmt]
    rfl
  | branch hc hb ho =>
    rw [stmt, lift_ok (condition_eq hnames hc), bind_ok (stmts_eq hnames hb),
      bind_ok (branch_eq hnames ho _), Lower.stmt]
    rfl
  | @loop depth cond body hc hb =>
    have henter : enterLoop depth = .ok (depth + 1, depth + 1) := rfl
    have hleave : leaveLoop (depth + 1) = .ok ((), depth) := rfl
    rw [stmt, bind_ok henter, lift_ok (condition_eq hnames hc), bind_ok (stmts_eq hnames hb),
      bind_ok hleave, Lower.stmt]
    rfl
  | leave h =>
    rw [stmt, Lower.stmt]
    rfl
  | again h =>
    rw [stmt, Lower.stmt]
    rfl

/-- A test is emitted without a breach. -/
theorem branch_eq (hnames : NamesEntered names env.symbols) {depth : Nat} {o : Else}
    (h : ElseTyped env.symbols U ret depth o) (body : List Instr) :
    branch names env body o depth = .ok (Lower.branch env depth body o, depth) := by
  cases h with
  | nothing =>
    rw [branch, Lower.branch]
    rfl
  | branch hc hb ho =>
    rw [branch, lift_ok (condition_eq hnames hc), bind_ok (stmts_eq hnames hb),
      bind_ok (branch_eq hnames ho _), Lower.branch]
    rfl
  | block hb =>
    rw [branch, bind_ok (stmts_eq hnames hb), Lower.branch]
    rfl

/-- Statements are emitted without a breach. -/
theorem stmts_eq (hnames : NamesEntered names env.symbols) {depth : Nat} {ss : List Stmt}
    (h : StmtsTyped env.symbols U ret depth ss) :
    stmts names env ss depth = .ok (Lower.stmts env depth ss, depth) := by
  cases h with
  | nil =>
    rw [stmts, Lower.stmts]
    rfl
  | cons h hs =>
    rw [stmts, bind_ok (stmt_eq hnames h), bind_ok (stmts_eq hnames hs), Lower.stmts]
    rfl

end

end Stmts

section Items

/-- A list has no breach if its members have none. -/
theorem mapM_eq {α β : Type} {f : α → Except Breach β} {g : α → β} {xs : List α}
    (h : ∀ x ∈ xs, f x = .ok (g x)) : xs.mapM f = .ok (xs.map g) := by
  induction xs with
  | nil => rfl
  | cons x xs ih =>
    rw [List.mapM_cons, h x List.mem_cons_self, ih fun y hy => h y (List.mem_cons_of_mem _ hy)]
    rfl

/-- Parameters and locals are emitted without a breach. -/
theorem slots_eq {vs : List VarId} (h : ∀ v ∈ vs, ∃ sym, env.symbols.var? v = some sym) :
    slots env vs = .ok (vs.map (Lower.slot env)) := by
  refine mapM_eq fun v hv => ?_
  obtain ⟨sym, hsym⟩ := h v hv
  rw [slot, varRow_eq hsym, Lower.slot, Env.varTy, hsym]
  rfl

/-- **The code of a function refers to rows that are there.** -/
theorem function_eq (hnames : NamesEntered names env.symbols) {G : List VarId} {f : Function}
    (hf : f.WellFormed env.symbols G) :
    function names env f 0 = .ok (Lower.function env f, 0) := by
  obtain ⟨sym, hsym, hname, _⟩ := hf.symbol
  have hlocal : ∀ v ∈ f.locals, ∃ sym, env.symbols.var? v = some sym := by
    intro v hv
    obtain ⟨sym, hsym, _⟩ := hf.locals_local v hv
    exact ⟨sym, hsym⟩
  have hparams := slots_eq fun v hv => hlocal v (hf.params_prefix.subset hv)
  have hlocals : slots env (f.locals.drop f.params.length) = _ :=
    slots_eq fun v hv => hlocal v (List.mem_of_mem_drop hv)
  rw [function, lift_ok (spell_eq (hname ▸ hnames hsym)), lift_ok hparams, lift_ok hlocals,
    bind_ok (stmts_eq hnames hf.body)]
  rfl

/-- A global is emitted without a breach. -/
theorem global_eq {v : VarId} {init : Option Literal} {sym : VarSymbol}
    (h : env.symbols.var? v = some sym) : global env v init = .ok (Lower.global env v init) := by
  unfold global Lower.global
  cases env.address? v with
  | some address => rfl
  | none =>
    rw [varRow_eq h, Env.varTy, h]
    rfl

/-- Imports are emitted without a breach. -/
theorem imports_eq (hnames : NamesEntered names env.symbols) {fs : List FuncId}
    (h : ∀ f ∈ fs, (env.symbols.func? f).isSome) :
    fs.mapM (hostFunction names env) = .ok (fs.filterMap (Lower.hostFunction env)) := by
  induction fs with
  | nil => rfl
  | cons f fs ih =>
    obtain ⟨sym, hsym⟩ := Option.isSome_iff_exists.1 (h f List.mem_cons_self)
    have hhost : hostFunction names env f =
        .ok ⟨sym.name, sym.params.map Ty.valType, sym.ret.result?⟩ := by
      rw [hostFunction, funcRow_eq hsym]
      show (spell names sym.name >>= _) = _
      rw [spell_eq (hnames hsym)]
      rfl
    have hmodel : Lower.hostFunction env f =
        some ⟨sym.name, sym.params.map Ty.valType, sym.ret.result?⟩ := by
      rw [Lower.hostFunction, hsym]
      rfl
    rw [List.mapM_cons, hhost, ih fun g hg => h g (List.mem_cons_of_mem _ hg),
      List.filterMap_cons, hmodel]
    rfl

/-- Functions are emitted without a breach. -/
theorem functions_eq (hnames : NamesEntered names env.symbols) {G : List VarId} {is : List Item}
    (h : ∀ f, .function f ∈ is → f.WellFormed env.symbols G) :
    functions names env is 0 = .ok (Lower.functions env is, 0) := by
  induction is with
  | nil => rfl
  | cons i is ih =>
    have ih := ih fun f hf => h f (List.mem_cons_of_mem _ hf)
    cases i with
    | function f =>
      rw [functions, bind_ok (function_eq hnames (h f List.mem_cons_self)), bind_ok ih]
      rfl
    | global v init =>
      rw [functions, ih]
      rfl

/-- Globals are emitted without a breach. -/
theorem globals_eq {is : List Item}
    (h : ∀ v init, .global v init ∈ is → ∃ sym, env.symbols.var? v = some sym) :
    globals env is = .ok (Lower.globals env is) := by
  induction is with
  | nil => rfl
  | cons i is ih =>
    have ih := ih fun v init hv => h v init (List.mem_cons_of_mem _ hv)
    cases i with
    | function f =>
      rw [globals, ih]
      rfl
    | global v init =>
      obtain ⟨sym, hsym⟩ := h v init List.mem_cons_self
      rw [globals, global_eq hsym, ih]
      rfl

/-- **The code of a well-formed program is emitted without breaking off.** -/
theorem program_eq {p : Program} (hp : p.WellFormed) (hnames : NamesEntered names p.symbols) :
    program names p = .ok (Lower.program p) := by
  have hglobals : globals (.ofSymbols p.symbols) p.items = _ :=
    globals_eq fun v init hv =>
      let ⟨sym, hsym⟩ := hp.globals v init hv
      ⟨sym, hsym.symbol⟩
  have hfuncs : functions names (.ofSymbols p.symbols) p.items 0 = _ :=
    functions_eq hnames fun f hf => hp.functions f (List.mem_filterMap.2 ⟨_, hf, rfl⟩)
  have himports : p.imports.mapM (hostFunction names (.ofSymbols p.symbols)) = _ :=
    imports_eq hnames hp.imports_known
  unfold program
  dsimp only
  rw [hglobals, himports]
  show ((functions names (.ofSymbols p.symbols) p.items).run 0 >>= _) = _
  rw [StateT.run, hfuncs]
  rfl

end Items

section Text

mutual

/-- **Writing a form leaves the indentation as it was.** -/
theorem form_eq : ∀ (f : Form) (lines : List String) (depth : Nat),
    form f ⟨lines, depth⟩ = .ok ((), ⟨lines ++ f.lines depth, depth⟩)
  | .line text, lines, depth => by
    rw [form, Form.lines]
    rfl
  | .group head body, lines, depth => by
    have hopen : line ("(" ++ head) ⟨lines, depth⟩ =
        .ok ((), ⟨lines ++ [Form.indent depth ++ ("(" ++ head)], depth⟩) := rfl
    have hindent : ∀ lines, indent ⟨lines, depth⟩ = .ok ((), ⟨lines, depth + 1⟩) := fun _ => rfl
    have hunindent : ∀ lines, unindent ⟨lines, depth + 1⟩ = .ok ((), ⟨lines, depth⟩) :=
      fun _ => rfl
    rw [form, Form.lines, bind_ok hopen, bind_ok (hindent _), bind_ok (forms_eq body _ _),
      bind_ok (hunindent _)]
    show Except.ok ((), Page.mk _ depth) = _
    simp [String.append_assoc]

/-- Writing forms returns to the depth it started at. -/
theorem forms_eq : ∀ (fs : List Form) (lines : List String) (depth : Nat),
    forms fs ⟨lines, depth⟩ = .ok ((), ⟨lines ++ Form.linesAll depth fs, depth⟩)
  | [], lines, depth => by
    rw [forms, Form.linesAll, List.append_nil]
    rfl
  | f :: fs, lines, depth => by
    rw [forms, Form.linesAll, bind_ok (form_eq f _ _), forms_eq fs, List.append_assoc]

end

/-- **The text of a module is written without breaking off.** -/
theorem text_eq (m : Module) : text m = .ok m.text := by
  have hform : form m.form ⟨[], 0⟩ = _ := form_eq m.form [] 0
  show (form m.form ⟨[], 0⟩ >>= _) = _
  rw [hform]
  rfl

end Text

end MiniC.Strict.Emit
