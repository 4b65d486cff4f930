/-
  MiniC.Proofs.Relabelling.Modules

  **A relabelled program has the same module.**

  Code refers to variables by their place, which stays, and to functions by
  their name.  So a program and a relabelled one are lowered to the same
  module if the names of functions stay, wherever these stand in the table.
-/
import MiniC.Lower.Program
import MiniC.Proofs.Relabelling.Items

namespace MiniC.Relabelling

/-- What code refers to is found under the same names. -/
structure SameCode (φ : Relabelling) (env env' : Lower.Env) : Prop where
  layout : env'.layout = env.layout
  vars : ∀ v, env'.symbols.var? v = (env.symbols.var? v).map φ.varSymbol
  funcName : ∀ f, env'.funcName (φ.func f) = env.funcName f

variable {φ : Relabelling} {env env' : Lower.Env}

namespace SameCode

variable (h : φ.SameCode env env')
include h

theorem address? (v : VarId) : env'.address? v = env.address? v := by
  rw [Lower.Env.address?, Lower.Env.address?, h.layout]

theorem isGlobal (v : VarId) : env'.isGlobal v = env.isGlobal v := by
  rw [Lower.Env.isGlobal, Lower.Env.isGlobal, h.vars]
  cases env.symbols.var? v <;> rfl

theorem varTy (v : VarId) : env'.varTy v = env.varTy v := by
  rw [Lower.Env.varTy, Lower.Env.varTy, h.vars]
  cases env.symbols.var? v <;> rfl

theorem get (v : VarId) : env'.get v = env.get v := by
  rw [Lower.Env.get, Lower.Env.get, h.isGlobal]

theorem set (v : VarId) : env'.set v = env.set v := by
  rw [Lower.Env.set, Lower.Env.set, h.isGlobal]

end SameCode

/-! ## §1. Expressions -/

theorem isBoolean_expr (φ : Relabelling) : ∀ e : Expr,
    Lower.isBoolean (φ.expr e) = Lower.isBoolean e
  | .literal .. | .var .. | .call .. => rfl
  | .unary op .. => by cases op <;> rfl
  | .binary op .. => by cases op <;> rfl

theorem toTruth_expr (φ : Relabelling) (e : Expr) :
    Lower.toTruth (φ.expr e) = Lower.toTruth e := by
  rw [Lower.toTruth, Lower.toTruth, ty_expr, isBoolean_expr]

mutual

/-- Code of expressions does not depend on names and lines. -/
theorem code_expr (h : φ.SameCode env env') : ∀ e : Expr,
    Lower.expr env' (φ.expr e) = Lower.expr env e
  | .literal (.int _) _ _ | .literal (.float _) _ _ => rfl
  | .var v _ _ => congrArg (fun i => [i]) (h.get v)
  | .call f as _ _ => by
    rw [expr, Lower.expr, Lower.expr, code_exprs h as, h.funcName]
  | .unary .negate e _ _ => by
    rw [expr, Lower.expr, Lower.expr, code_expr h e]
  | .unary .not e _ _ => by
    rw [expr, Lower.expr, Lower.expr, code_expr h e, ty_expr]
  | .unary .deref e _ _ => by
    rw [expr, Lower.expr, Lower.expr, code_expr h e, ty_expr]
  | .unary .addressOf (.unary .deref e _ _) _ _ => by
    rw [expr, expr, Lower.expr, Lower.expr, code_expr h e]
  | .unary .addressOf (.literal value ty line) _ _ => code_expr h (.literal value ty line)
  | .unary .addressOf (.var v ty line) _ _ => code_expr h (.var v ty line)
  | .unary .addressOf (.call f as ty line) _ _ => code_expr h (.call f as ty line)
  | .unary .addressOf (.binary op l r ty line) _ _ => code_expr h (.binary op l r ty line)
  | .unary .addressOf (.unary .negate e ty line) _ _ => code_expr h (.unary .negate e ty line)
  | .unary .addressOf (.unary .not e ty line) _ _ => code_expr h (.unary .not e ty line)
  | .unary .addressOf (.unary .cast e ty line) _ _ => code_expr h (.unary .cast e ty line)
  | .unary .addressOf (.unary .addressOf e ty line) _ _ =>
    code_expr h (.unary .addressOf e ty line)
  | .unary .cast e _ _ => by
    rw [expr, Lower.expr, Lower.expr, code_expr h e, ty_expr]
  | .binary .assign (.var v _ _) r _ _ => by
    rw [expr, expr, Lower.expr, Lower.expr, code_expr h r, h.set]
  | .binary .assign (.literal ..) r _ _ | .binary .assign (.call ..) r _ _
  | .binary .assign (.unary ..) r _ _ | .binary .assign (.binary ..) r _ _ => code_expr h r
  | .binary (.arith op) l r _ _ => by
    rw [expr, Lower.expr, Lower.expr, code_expr h l, code_expr h r, ty_expr, ty_expr]
  | .binary (.compare op) l r _ _ => by
    rw [expr, Lower.expr, Lower.expr, code_expr h l, code_expr h r, ty_expr]
  | .binary (.bitwise op) l r _ _ => by
    rw [expr, Lower.expr, Lower.expr, code_expr h l, code_expr h r]
  | .binary (.logical .and) l r _ _ => by
    rw [expr, Lower.expr, Lower.expr, code_expr h l, code_expr h r, toTruth_expr, toTruth_expr]
  | .binary (.logical .or) l r _ _ => by
    rw [expr, Lower.expr, Lower.expr, code_expr h l, code_expr h r, toTruth_expr, toTruth_expr]

theorem code_exprs (h : φ.SameCode env env') : ∀ es : List Expr,
    Lower.exprs env' (φ.exprs es) = Lower.exprs env es
  | [] => rfl
  | e :: es => by
    rw [exprs, Lower.exprs, Lower.exprs, code_expr h e, code_exprs h es]

end

theorem code_condition (h : φ.SameCode env env') (e : Expr) :
    Lower.condition env' (φ.expr e) = Lower.condition env e := by
  rw [Lower.condition, Lower.condition, code_expr h, ty_expr]

/-! ## §2. Statements -/

mutual

/-- Code of statements does not depend on them either. -/
theorem code_stmt (h : φ.SameCode env env') (depth : Nat) : ∀ s : Stmt,
    Lower.stmt env' depth (φ.checkedStmt s) = Lower.stmt env depth s
  | .declare v init => by
    simp only [checkedStmt, Lower.stmt, h.address?, h.set]
    cases init with
    | none => rfl
    | some e => simp only [Option.map_some, code_expr h e]
  | .expr e => by rw [checkedStmt, Lower.stmt, Lower.stmt, code_expr h, ty_expr]
  | .ret none | .leave | .again => rfl
  | .ret (some e) => by
    show Lower.expr env' (φ.expr e) ++ _ = _
    rw [Lower.stmt, code_expr h]
  | .branch cond body otherwise => by
    rw [checkedStmt, Lower.stmt, Lower.stmt, code_condition h, code_stmts h depth body,
      code_else h depth _ otherwise]
  | .loop cond body => by
    rw [checkedStmt, Lower.stmt, Lower.stmt, code_condition h, code_stmts h (depth + 1) body]

/-- The code of the other branch does not depend on them. -/
theorem code_else (h : φ.SameCode env env') (depth : Nat) (code : List Wasm.Instr) : ∀ e : Else,
    Lower.branch env' depth code (φ.checkedElse e) = Lower.branch env depth code e
  | .nothing => rfl
  | .branch cond body otherwise => by
    rw [checkedElse, Lower.branch, Lower.branch, code_condition h, code_stmts h depth body,
      code_else h depth _ otherwise]
  | .block body => by rw [checkedElse, Lower.branch, Lower.branch, code_stmts h depth body]

theorem code_stmts (h : φ.SameCode env env') (depth : Nat) : ∀ ss : List Stmt,
    Lower.stmts env' depth (φ.checkedStmts ss) = Lower.stmts env depth ss
  | [] => rfl
  | s :: ss => by
    rw [checkedStmts, Lower.stmts, Lower.stmts, code_stmt h depth s, code_stmts h depth ss]

end

/-! ## §3. Programs -/

theorem checkedStmts_eq_map (φ : Relabelling) (ss : List Stmt) :
    φ.checkedStmts ss = ss.map φ.checkedStmt := by
  induction ss with
  | nil => rfl
  | cons s ss ih => rw [checkedStmts, ih, List.map_cons]

theorem slot_sameCode (h : φ.SameCode env env') : Lower.slot env' = Lower.slot env := by
  funext v
  rw [Lower.slot, Lower.slot, h.varTy]

/-- A function that keeps its name keeps its code. -/
theorem code_function (h : φ.SameCode env env') {f : Function} (hname : φ.name f.name = f.name) :
    Lower.function env' (φ.function f) = Lower.function env f := by
  have hreturn : (φ.checkedStmts f.body).getLast?.any Stmt.isReturn =
      f.body.getLast?.any Stmt.isReturn := by
    rw [checkedStmts_eq_map, List.getLast?_map]
    cases f.body.getLast? with
    | none => rfl
    | some s => cases s <;> rfl
  unfold Lower.function
  dsimp only [function]
  simp only [hname, slot_sameCode h, code_stmts h, hreturn]

theorem code_global (h : φ.SameCode env env') (v : VarId) (init : Option Literal) :
    Lower.global env' v init = Lower.global env v init := by
  unfold Lower.global
  rw [h.address?, h.varTy]

/-- The names of functions stay. -/
def KeepsFunctions (φ : Relabelling) (p : Program) : Prop :=
  (∀ {f sym}, p.symbols.func? f = some sym → φ.name sym.name = sym.name) ∧
    ∀ {f}, Item.function f ∈ p.items → φ.name f.name = f.name

/-- Rows that differ in names alone give the same code. -/
theorem Programs.sameCode {p p' : Program} (h : φ.Programs p p') (hkeeps : φ.KeepsFunctions p) :
    φ.SameCode (.ofSymbols p.symbols) (.ofSymbols p'.symbols) := by
  constructor
  · show StaticLayout.ofTypes p'.symbols.varTypes = StaticLayout.ofTypes p.symbols.varTypes
    rw [Symbols.varTypes, h.vars, Array.toList_map, List.map_map]
    rfl
  · exact var?_of_rows h.vars
  · intro f
    show ((p'.symbols.func? (φ.func f)).map (·.name)).getD "" =
      ((p.symbols.func? f).map (·.name)).getD ""
    cases hf : p.symbols.func? f with
    | none => rw [h.missing hf]
    | some sym =>
      rw [h.funcs hf]
      exact hkeeps.1 hf

/-- **Related programs have the same module.** -/
theorem program_eq {p p' : Program} (h : φ.Programs p p') (hkeeps : φ.KeepsFunctions p) :
    Lower.program p' = Lower.program p := by
  have hcode := h.sameCode hkeeps
  have hfunctions : Lower.functions (.ofSymbols p'.symbols) p'.items =
      Lower.functions (.ofSymbols p.symbols) p.items := by
    unfold Lower.functions
    rw [h.items, List.filterMap_map]
    refine List.filterMap_congr fun i hi => ?_
    cases i with
    | function f => exact congrArg some (code_function hcode (hkeeps.2 hi))
    | global v init => rfl
  have hglobals : Lower.globals (.ofSymbols p'.symbols) p'.items =
      Lower.globals (.ofSymbols p.symbols) p.items := by
    unfold Lower.globals
    rw [h.items, List.filterMap_map]
    refine List.filterMap_congr fun i _ => ?_
    cases i with
    | function f => rfl
    | global v init => exact congrArg some (code_global hcode v init)
  have himports : p'.imports.filterMap (Lower.hostFunction (.ofSymbols p'.symbols)) =
      p.imports.filterMap (Lower.hostFunction (.ofSymbols p.symbols)) := by
    rw [h.imports, List.filterMap_map]
    refine List.filterMap_congr fun f _ => ?_
    show (p'.symbols.func? (φ.func f)).map _ = (p.symbols.func? f).map _
    cases hf : p.symbols.func? f with
    | none => rw [h.missing hf]
    | some sym =>
      rw [h.funcs hf, Option.map_some, Option.map_some]
      dsimp only [funcSymbol]
      rw [hkeeps.1 hf]
  unfold Lower.program
  dsimp only
  rw [hfunctions, hglobals, himports, hcode.layout]

/-- **A relabelled outline compiles to the same module**, if no function gets
another name. -/
theorem module_follows {strict : Prop} (hid : ∀ f, φ.func f = f) (is : List Outline.Item)
    (hkeeps : ∀ p, Check.program is = .ok p → φ.KeepsFunctions p) :
    φ.Follows strict (fun p p' => Lower.program p' = Lower.program p) (Check.program is)
      (Check.program (is.map φ.item)) := by
  have hfollows : φ.Follows strict φ.Programs (Check.program is) (Check.program (is.map φ.item)) :=
    program_follows hid is
  refine ⟨fun {p} hp => ?_, hfollows.error⟩
  obtain ⟨p', hp', hrelated⟩ := hfollows.ok hp
  exact ⟨p', hp', program_eq hrelated (hkeeps p hp)⟩

end MiniC.Relabelling
