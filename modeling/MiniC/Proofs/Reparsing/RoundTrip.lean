/-
  MiniC.Proofs.Reparsing.RoundTrip

  **Expressions survive printing and reparsing.**

  An expression is read from a text and checked, wherever a parse may stand.
  Printed with all its parentheses and casts, and read and checked again in the
  same place, it is the same expression, up to lines (`reparse_of_printed`).

    • `binary_of_hasTy`, `unary_of_hasTy`: an operator that is typed already is
      typed again as it is.  The casts that were put in make both operands of
      one type, so that no further one is called for; an array that was taken
      as a pointer is an array again, and is taken as a pointer again,
    • `run_outline`: so the outline of an expression is checked to be that
      expression,
    • `run_lineless`: on which lines an outline stands does not matter.
-/
import MiniC.Proofs.Relabelling.Stmts
import MiniC.Proofs.Reparsing.Reading

namespace MiniC

open Outline
open Relabelling (lineless)

/-! ## §1. Operators that are typed already -/

theorem Expr.retype_ty (e : Expr) : e.retype e.ty = e := by
  cases e <;> rfl

theorem Expr.retype_retype (e : Expr) (t u : Ty) : (e.retype t).retype u = e.retype u := by
  cases e <;> rfl

namespace Typing

/-- Where an expression was taken as of the type that is wanted, what it was
before is taken as of that type again. -/
theorem coerce_retype {e : Expr} {t ty : Ty} (hd : t.Decays ty) (hty : e.ty = ty) :
    coerce (e.retype t) ty = .ok e := by
  unfold coerce
  rw [Expr.ty_retype]
  cases hd with
  | refl =>
    subst hty
    rw [if_pos rfl, Expr.retype_ty]
  | array base n =>
    rw [if_neg nofun]
    dsimp only
    rw [if_pos rfl, Expr.retype_retype, ← hty, Expr.retype_ty]

/-- A comparison with a pointer that obeys the rules gives an integer. -/
theorem pointerCompare_of_compareTyped {l r : Ty} (h : CompareTyped l r)
    (hp : (l.isPointerLike || r.isPointerLike) = true) : pointerCompare l r = .ok .int := by
  cases h with
  | int => cases hp
  | float => cases hp
  | pointer hl hr hd =>
    unfold pointerCompare
    rw [if_pos (Bool.and_eq_true_iff.2 ⟨hl, hr⟩), if_pos hd]

/-- Numbers are compared with their like. -/
theorem eq_of_compareTyped {l r : Ty} (h : CompareTyped l r)
    (hp : ¬ (l.isPointerLike || r.isPointerLike) = true) : l = r := by
  cases h with
  | int => rfl
  | float => rfl
  | pointer hl hr hd => exact absurd (Bool.or_eq_true_iff.2 (.inl hl)) hp

section Operators

variable {Γ : Symbols} {U : VarId → Prop}
variable {ty t : Ty} {line : Nat}

theorem ne_void_of_var {v : VarId} (h : HasTy Γ U (.var v ty line) t) : t ≠ .void := by
  cases h with
  | var _ _ hne => exact hne

/-- An assigned value that was taken as of the type of the variable is so taken
again. -/
theorem assign_of_hasTy {v : VarId} {r : Expr} {varLine : Nat} (line : Nat)
    (hv : HasTy Γ U (.var v ty varLine) ty) (ha : ty.isArray = false) (hd : t.Decays ty)
    (hty : r.ty = ty) :
    assign (.var v ty varLine) (r.retype t) line =
      .ok (.binary .assign (.var v ty varLine) r .void line) := by
  have hne : t ≠ .void := by
    rintro rfl
    cases hd
    exact ne_void_of_var hv rfl
  unfold assign
  dsimp only
  rw [if_neg (Bool.eq_false_iff.1 ha), Expr.ty_retype, if_neg hne, coerce_retype hd hty]
  rfl

/-- **An operator between two operands is typed again as it is**, with the
second as it was before it was passed on. -/
theorem binary_of_hasTy {op : BinaryOp} {l r : Expr} (h : HasTy Γ U (.binary op l r ty line) t) :
    HasTy Γ U l l.ty ∧ ∃ u, HasTy Γ U r u ∧
      binary op l (r.retype u) line = .ok (.binary op l r t line) := by
  cases h with
  | assign hv ha hr hd hty => exact ⟨hv, _, hr, assign_of_hasTy line hv ha hd hty⟩
  | arith hl hr h =>
    refine ⟨hl, r.ty, hr, ?_⟩
    rw [Expr.retype_ty]
    exact binary_of_arithTyped h line
  | compare hl hr h =>
    refine ⟨hl, r.ty, hr, ?_⟩
    rw [Expr.retype_ty, binary, requireValues_of_ne h.ne_void.1 h.ne_void.2]
    show (if _ then _ else _) = _
    by_cases hp : (l.ty.isPointerLike || r.ty.isPointerLike) = true
    · rw [if_pos hp, pointerCompare_of_compareTyped h hp]
      rfl
    · rw [if_neg hp, promote_of_ty (eq_of_compareTyped h hp)]
      rfl
  | bitwise hl hr h =>
    refine ⟨hl, r.ty, hr, ?_⟩
    have hne : l.ty ≠ .void ∧ r.ty ≠ .void := by
      rw [h.1, h.2]
      decide
    rw [Expr.retype_ty, binary, requireValues_of_ne hne.1 hne.2]
    show (if _ then _ else _) = _
    rw [if_pos h]
    rfl
  | logical hl hr h =>
    refine ⟨hl, r.ty, hr, ?_⟩
    have hl' := Ty.ne_void_of_isScalar h.1
    have hr' := Ty.ne_void_of_isScalar h.2
    rw [Expr.retype_ty, binary, requireValues_of_ne hl' hr']
    show (if _ then _ else _) = _
    rw [if_pos (Bool.and_eq_true_iff.2 h)]
    rfl

/-- **An operator in front is typed again as it is.** -/
theorem unary_of_hasTy {op : UnaryOp} {e : Expr} (h : HasTy Γ U (.unary op e ty line) t) :
    HasTy Γ U e e.ty ∧ unary op (op.named ty) e line = .ok (.unary op e t line) := by
  have hunary (target : Option Ty) (hty : unaryTy op target e = .ok t) :
      unary op target e line = .ok (.unary op e t line) := by
    rw [unary, hty]
    rfl
  cases h with
  | negate he hn =>
    refine ⟨he, hunary none ?_⟩
    unfold unaryTy
    dsimp only
    rcases hn with hn | hn
    · rw [hn]
    · rw [hn]
  | not he hs =>
    refine ⟨he, hunary none ?_⟩
    unfold unaryTy
    dsimp only
    rw [if_neg (Ty.ne_void_of_isScalar hs), if_pos hs]
  | deref he hb hne =>
    refine ⟨he, hunary none ?_⟩
    unfold unaryTy
    dsimp only
    rw [hb]
    dsimp only
    rw [if_neg hne]
  | addressOfVar hv ha =>
    refine ⟨hv, hunary none ?_⟩
    unfold unaryTy
    dsimp only
    rw [if_pos ha]
  | addressOfDeref he => exact ⟨he, hunary none rfl⟩
  | cast he hc =>
    refine ⟨he, hunary (some ty) ?_⟩
    unfold unaryTy
    dsimp only
    rw [Option.getD_some, if_pos hc]

end Operators

end Typing

/-! ## §2. Outlines that are checked -/

namespace Precedence

theorem resolve_operand (e : Expr) (line : Nat) : resolve [.operand e line] = .ok e := by
  unfold resolve
  rw [List.map_singleton, collapse]
  rfl

/-- A run that one pass makes a tree of. -/
theorem collapse_of_pass {first second root : Tree Expr} {rest : List (Tree Expr)}
    (h : pass [] first (second :: rest) = .ok [root]) :
    collapse (first :: second :: rest) = .ok root := by
  have hlt : [root].length < (first :: second :: rest).length := by
    simp only [List.length_cons, List.length_nil]
    omega
  rw [collapse, h]
  dsimp only
  rw [if_pos hlt, collapse]

/-- An operator and the operand after it. -/
theorem resolve_unary (op : UnaryOp) (target : Option Ty) (e : Expr) (line line' : Nat) :
    resolve [.unary op target line, .operand e line'] =
      typed line (Typing.unary op target e line) := by
  have hcollapse : collapse ([.unary op target line, .operand e line'].map Part.toTree) =
      .ok (.unary op target line (.operand e line')) :=
    collapse_of_pass rfl
  unfold resolve
  rw [hcollapse]
  rfl

/-- Two operands and the operator between them. -/
theorem resolve_binary (op : BinaryOp) (l r : Expr) (line line' line'' : Nat) :
    resolve [.operand l line', .binary op line, .operand r line''] =
      typed line (Typing.binary op l r line) := by
  have hcollapse :
      collapse ([.operand l line', .binary op line, .operand r line''].map Part.toTree) =
        .ok (.binary op line (.operand l line') (.operand r line'')) :=
    collapse_of_pass rfl
  unfold resolve
  rw [hcollapse]
  rfl

end Precedence

namespace Check

variable {env : Env} {U : VarId → Prop}

/-- A run in parentheses is an operand. -/
theorem node_group {r : Run} {e : Expr} (h : run env r = .ok e) :
    node env (.group r) = .ok (operand e) := by
  obtain ⟨ps, hps, he⟩ := bind_eq_ok.1 h
  rw [node, hps]
  show (Precedence.resolve ps >>= fun e => Except.ok (operand e)) = _
  rw [he]
  rfl

/-- A variable bound to a row is found. -/
theorem Env.var_of_get? {x : String} {v : VarId} {sym : VarSymbol} (line : Nat)
    (hx : env.scope.get? x = some (.var v)) (hv : env.symbols.var? v = some sym) :
    env.var x line = .ok (v, sym) := by
  rw [Env.var, hx]
  dsimp only
  rw [hv]

/-- A function bound to a row is found. -/
theorem Env.func_of_get? {x : String} {f : FuncId} {sym : FuncSymbol} (line : Nat)
    (hx : env.scope.get? x = some (.func f)) (hf : env.symbols.func? f = some sym) :
    env.func x line = .ok (f, sym) := by
  rw [Env.func, hx]
  dsimp only
  rw [hf]

mutual

/-- **The outline of an expression is checked to be the expression**, with the
type that the rules give to its root. -/
theorem run_outline : (e : Expr) → {t : Ty} → HasTy env.symbols U e t → e.Printable env →
    run env (e.outline env.symbols) = .ok (lineless.expr (e.retype t))
  | .literal value ty line, t, hty, _ => by
    cases hty
    cases value <;> exact Precedence.resolve_operand _ _
  | .var v ty line, t, hty, h => by
    cases h with
    | @var _ sym _ _ hv hname _ =>
      cases hty with
      | @var _ sym' _ _ hv' _ _ =>
        cases hv.symm.trans hv'
        have hnode : node env (.name (env.symbols.varName v) 0) =
            .ok (operand (.var v sym.ty 0)) := by
          rw [node, Symbols.varName_eq hv, Env.var_of_get? 0 hname hv]
          rfl
        rw [Expr.outline, run, parts, hnode]
        exact Precedence.resolve_operand _ _
  | .call f args ty line, t, hty, h => by
    cases h with
    | @call _ sym _ _ _ hf hname _ hargs =>
      cases hty with
      | @call _ sym' _ _ _ hf' htys =>
        cases hf.symm.trans hf'
        have hnode : node env (.call (env.symbols.funcName f) 0
            (Expr.outlines env.symbols args)) =
              .ok (operand (.call f (lineless.exprs args) sym.ret 0)) := by
          rw [node, Symbols.funcName_eq hf, Env.func_of_get? 0 hname hf]
          show (arguments env 0 sym.params _ >>= _) = _
          rw [arguments_outlines args htys hargs]
          rfl
        rw [Expr.outline, run, parts, hnode]
        exact Precedence.resolve_operand _ _
  | .unary op e ty line, t, hty, h => by
    cases h with
    | unary _ he =>
      obtain ⟨hety, hunary⟩ := Typing.unary_of_hasTy hty
      have hrun := run_outline e hety he
      rw [Expr.retype_ty] at hrun
      have hparts : parts env (Expr.outline env.symbols (.unary op e ty line)) =
          .ok [.unary op (op.named ty) 0, operand (lineless.expr e)] := by
        rw [Expr.outline, parts, parts, node_group hrun]
        rfl
      rw [run, hparts]
      show Precedence.resolve _ = _
      rw [operand, Precedence.resolve_unary]
      -- what is typed without lines is what was typed with them
      have htyped := lineless.unary_expr op (op.named ty) e line
      rw [hunary] at htyped
      exact congrArg (typed 0) htyped
  | .binary op l r ty line, t, hty, h => by
    cases h with
    | binary hl hr =>
      obtain ⟨hlty, u, hrty, hbinary⟩ := Typing.binary_of_hasTy hty
      have hrunl := run_outline l hlty hl
      rw [Expr.retype_ty] at hrunl
      have hrunr := run_outline r hrty hr
      have hparts : parts env (Expr.outline env.symbols (.binary op l r ty line)) =
          .ok [operand (lineless.expr l), .binary op 0,
            operand (lineless.expr (r.retype u))] := by
        rw [Expr.outline, parts, parts, parts, node_group hrunl, node_group hrunr]
        rfl
      rw [run, hparts]
      show Precedence.resolve _ = _
      rw [operand, operand, Precedence.resolve_binary]
      have htyped := lineless.binary_expr op l (r.retype u) line
      rw [hbinary] at htyped
      exact congrArg (typed 0) htyped

/-- The outlines of arguments are checked to be the arguments, each passed on
as before. -/
theorem arguments_outlines : (args : List Expr) → {params : List Ty} →
    HaveTys env.symbols U args params → (∀ a ∈ args, a.Printable env) →
    arguments env 0 params (Expr.outlines env.symbols args) = .ok (lineless.exprs args)
  | [], params, htys, _ => by
    cases htys
    rfl
  | e :: es, params, htys, h => by
    cases htys with
    | @cons _ _ t ty tys hty hd hety _ hes =>
      obtain ⟨he, hargs⟩ := List.forall_mem_cons.1 h
      obtain ⟨ps, hps, hresolve⟩ := bind_eq_ok.1 (run_outline e hty he)
      have hcoerce := lineless.coerce_expr (e.retype t) ty
      rw [Typing.coerce_retype hd hety] at hcoerce
      have hlater := arguments_outlines es hes hargs
      rw [Expr.outlines, arguments, hps]
      show (Precedence.resolve ps >>= _) = _
      rw [hresolve]
      show (typed _ (Typing.coerce (lineless.expr (e.retype t)) ty) >>= _) = _
      rw [hcoerce]
      show (arguments env 0 tys _ >>= _) = _
      rw [hlater]
      rfl

end

end Check

/-! ## §3. Lines do not matter -/

namespace Relabelling

/-- An environment without its lines. -/
def linelessEnv (env : Check.Env) : Check.Env :=
  ⟨env.scope, ⟨⟨env.symbols.vars.rows.map lineless.varSymbol⟩,
    ⟨env.symbols.funcs.rows.map lineless.funcSymbol⟩⟩⟩

theorem binding_lineless (b : Binding) : lineless.binding b = b := by
  cases b <;> rfl

theorem frame_lineless (fr : Frame) : lineless.frame fr = fr := by
  unfold frame
  refine (List.map_congr_left fun entry _ => ?_).trans (List.map_id fr)
  rw [binding_lineless]
  rfl

/-- Names stand for the same in an environment without its lines. -/
theorem envs_lineless (env : Check.Env) : lineless.Envs ∅ env (linelessEnv env) where
  scope := {
    inner := by
      rw [List.map_congr_left fun fr _ => frame_lineless fr, List.map_id']
      rfl
    outer := fun h => by
      rw [binding_lineless]
      exact h
    fresh := fun _ h => h }
  vars := rfl
  funcs := fun {f sym} h => by
    show (env.symbols.funcs.rows.map lineless.funcSymbol)[f.index]? = _
    rw [Array.getElem?_map]
    show Option.map _ (env.symbols.func? f) = _
    rw [h]
    rfl
  table := {
    size := Array.size_map
    hidden := nofun
    beyond := fun _ _ _ => rfl }

end Relabelling

mutual

/-- Lines can be forgotten but once. -/
theorem Expr.lineless_lineless : (e : Expr) →
    lineless.expr (lineless.expr e) = lineless.expr e
  | .literal .. => rfl
  | .var .. => rfl
  | .call f args ty line => by
    rw [Relabelling.expr, Relabelling.expr, Expr.lineless_linelesses args]
    rfl
  | .unary op e ty line => by
    rw [Relabelling.expr, Relabelling.expr, e.lineless_lineless]
    rfl
  | .binary op l r ty line => by
    rw [Relabelling.expr, Relabelling.expr, l.lineless_lineless, r.lineless_lineless]
    rfl

theorem Expr.lineless_linelesses : (es : List Expr) →
    lineless.exprs (lineless.exprs es) = lineless.exprs es
  | [] => rfl
  | e :: es => by
    rw [Relabelling.exprs, Relabelling.exprs, e.lineless_lineless, Expr.lineless_linelesses es]

end

/-- **Outlines that differ only in their lines are checked alike.** -/
theorem Check.run_lineless {env : Check.Env} {r r' : Run} {e : Expr}
    (hr : lineless.run r' = lineless.run r) (h : Check.run env r = .ok e) :
    ∃ e', Check.run env r' = .ok e' ∧ lineless.expr e' = lineless.expr e := by
  have hfollows (r : Run) : lineless.Follows True (fun e e' => e' = lineless.expr e)
      (Check.run env r) (Check.run (Relabelling.linelessEnv env) (lineless.run r)) :=
    (Relabelling.envs_lineless env).run_follows (fun _ => rfl) r
  -- both go the way of the outline that has no lines
  obtain ⟨_, hplain, rfl⟩ := (hfollows r).ok h
  cases h' : Check.run env r' with
  | error f =>
    have hfail := (hfollows r').error h' trivial
    rw [hr, hplain] at hfail
    cases hfail
  | ok e' =>
    obtain ⟨_, hplain', rfl⟩ := (hfollows r').ok h'
    rw [hr, hplain] at hplain'
    exact ⟨e', rfl, (Except.ok.inj hplain').symm⟩

mutual

/-- The outline of an expression has no lines. -/
theorem Expr.lineless_outline (Γ : Symbols) : (e : Expr) →
    lineless.run (e.outline Γ) = e.outline Γ
  | .literal value ty line => by cases value <;> rfl
  | .var v ty line => rfl
  | .call f args ty line => by
    rw [Expr.outline, Relabelling.run, Relabelling.node, Expr.lineless_outlines Γ args]
    rfl
  | .unary op e ty line => by
    rw [Expr.outline, Relabelling.run, Relabelling.run, Relabelling.node, Relabelling.node,
      Expr.lineless_outline Γ e]
    rfl
  | .binary op l r ty line => by
    rw [Expr.outline, Relabelling.run, Relabelling.run, Relabelling.run, Relabelling.node,
      Relabelling.node, Relabelling.node, Expr.lineless_outline Γ l, Expr.lineless_outline Γ r]
    rfl

theorem Expr.lineless_outlines (Γ : Symbols) : (es : List Expr) →
    lineless.args (Expr.outlines Γ es) = Expr.outlines Γ es
  | [] => rfl
  | e :: es => by
    rw [Expr.outlines, Relabelling.args, Expr.lineless_outline Γ e, Expr.lineless_outlines Γ es]

end

/-! ## §4. There and back -/

namespace Check

variable {stop : Stop} {e : Expr}

/-- Reads an expression up to the token that ends it and checks it.  That token
and those after it are left. -/
def exprAt (env : Env) (stop : Stop) (ts : Scan.Tokens) : Except Fault (Expr × List Token) := do
  let (r, rest) := readRun ts.endLine stop false ts.list
  let e ← run env r
  return (e, (rest.map fun (s, after) => s :: after.1).getD [])

/-- The words that a checked expression was read from can be written. -/
theorem writableWords_of_run {env : Env} {p : Scan.Place} {last : Nat}
    (h : run env (readRun last stop false (Scan.tokensFrom p).list).1 = .ok e) :
    WritableWords (readRun last stop false (Scan.tokensFrom p).list).1.marks := by
  have hwhole := Run.whole_of_faultsIn ((run_judged _).passed h)
  have htook := ((expressions_read last).2.1 stop false (Scan.tokensFrom p).list).took
  intro k hk hvalid
  cases hrest : (readRun last stop false (Scan.tokensFrom p).list).2 with
  | none =>
    -- reading would have ended within the expression
    rw [hrest] at htook
    rw [htook.1] at hwhole
    cases hwhole
  | some rest =>
    rw [hrest] at htook
    have hkinds : k ∈ kinds (Scan.tokensFrom p).list := by
      rw [show kinds (Scan.tokensFrom p).list = _ from htook]
      exact List.mem_append_left _ hk
    obtain ⟨t, ht, rfl⟩ := List.mem_map.1 hkinds
    exact Scan.writable_of_mem ht hvalid

/-- An expression that is read and checked where names are coherent can be
printed, and is well typed. -/
theorem printable_of_exprAt {env : Env} {p : Scan.Place} {left : List Token} (henv : env.Coherent)
    (h : exprAt env stop (Scan.tokensFrom p) = .ok (e, left)) :
    e.Printable env ∧ HasTy env.symbols (fun _ => True) e e.ty := by
  obtain ⟨e', hrun, h⟩ := bind_eq_ok.1 h
  cases h
  have hread := (expressions_read (Scan.tokensFrom p).endLine).2.1 stop false
    (Scan.tokensFrom p).list
  have hfits : env.Fits env.symbols fun _ => True :=
    ⟨.refl _, henv.valued, fun _ => trivial⟩
  exact ⟨printable_of_run henv (writableWords_of_run hrun) hread.castsNamed hrun,
    hasTy_of_run hfits hrun⟩

/-- Tokens that are the words of an expression, up to one that ends it. -/
theorem exprAt_of_kinds {env : Env} {ts : Scan.Tokens} {k : Kind} {after : List Kind}
    (hprint : e.Printable env) (hty : HasTy env.symbols (fun _ => True) e e.ty)
    (hk : stop.ends k = true) (hts : kinds ts.list = e.words env.symbols ++ k :: after) :
    ∃ e' left, exprAt env stop ts = .ok (e', left) ∧ lineless.expr e' = lineless.expr e ∧
      kinds left = k :: after := by
  obtain ⟨r, s, rest, hread, hs, hrest, hr⟩ :=
    reads_words env.symbols e hprint ts.endLine stop ts.list k after hk hts
  obtain ⟨hlt, hread⟩ := hread.eq_some
  have houtline := run_outline e hty hprint
  rw [Expr.retype_ty] at houtline
  rw [← Expr.lineless_outline] at hr
  obtain ⟨e', hrun, he'⟩ := run_lineless hr houtline
  refine ⟨e', s :: rest, ?_, ?_, ?_⟩
  · rw [exprAt, hread]
    dsimp only
    rw [hrun]
    rfl
  · rw [he', Expr.lineless_lineless]
  · rw [kinds_cons, hs, hrest]

/-- **Expressions survive printing and reparsing.**  Wherever a parse may stand,
an expression that is read and checked there can be printed, with all
parentheses and casts and the names that the table has.  However it is printed,
with any token that may end it after it and any text after that, it is read and
checked there again as the same expression, up to lines, and what is left
begins with that token. -/
theorem reparse_of_printed {st : State} (hst : Reached st) {stop : Stop} {p : Scan.Place}
    {e : Expr} {left : List Token} (h : exprAt st.toEnv stop (Scan.tokensFrom p) = .ok (e, left))
    {k : Kind} (hk : stop.ends k = true) {more : Text.Cursor}
    (hmore : Scan.begins (· = '.') more = false) :
    (∃ text, Scan.Printed more (e.words st.symbols ++ [k]) text) ∧
      ∀ (text : Text.Cursor) (line : Nat), Scan.Printed more (e.words st.symbols ++ [k]) text →
        ∃ e' left', exprAt st.toEnv stop (Scan.tokensFrom ⟨text, line⟩) = .ok (e', left') ∧
          lineless.expr e' = lineless.expr e ∧ kinds left' = k :: Scan.kindsOf more := by
  obtain ⟨hprint, hty⟩ := printable_of_exprAt (coherent_of_reached hst) h
  constructor
  · obtain ⟨sign, _, rfl⟩ := closers_of_ends hk
    refine Scan.exists_printed hmore (List.forall_mem_append.2 ⟨hprint.writable, ?_⟩)
    exact List.forall_mem_singleton.2 (writable_punct sign)
  · intro text line hprinted
    have hkinds := Scan.kinds_tokensFrom ⟨text, line⟩
    rw [Scan.kindsOf_printed hprinted, List.append_assoc] at hkinds
    exact exprAt_of_kinds hprint hty hk hkinds

/-- What is found once `int m[2][3];` is checked. -/
def gridFound : Found where
  env :=
    { scope := { outer := [("m", .var ⟨0⟩)] }
      symbols := { vars := ⟨#[⟨"m", .array (.array .int 3) 2, .globalVar, 1⟩]⟩ } }
  items := [.global ⟨0⟩ none]

/-- The state after `int m[2][3]; float f(int *p, float x);`. -/
def gridState : State where
  scope := { outer := [("f", .func ⟨0⟩), ("m", .var ⟨0⟩)] }
  symbols :=
    { vars := gridFound.env.symbols.vars
      funcs := ⟨#[⟨"f", .float, [.pointer .int, .float], .declared, 1⟩]⟩ }

/-- The expression `f(*m, 1) + 2`, with an array that is taken as a pointer and
two casts that the text leaves unsaid. -/
def gridExpr : Expr :=
  .binary (.arith .add)
    (.call ⟨0⟩
      [.unary .deref (.var ⟨0⟩ (.array (.array .int 3) 2) 1) (.pointer .int) 1,
        .unary .cast (.literal (.int 1) .int 1) .float 1] .float 1)
    (.unary .cast (.literal (.int 2) .int 1) .float 1) .float 1

/-- The state is one that checking reaches. -/
theorem reached_gridState : Reached gridState := by
  have hgrid : item {} (.global ⟨.int, "m", 1, [.last (.int 2 1), .last (.int 3 1)], .none⟩) =
      .ok gridFound := by
    cbv
  have hhead : item gridFound (.function
      ⟨.float, "f", 1, [⟨.pointer .int, "p", 1⟩, ⟨.float, "x", 1⟩], none⟩ .none) =
        .ok { env := gridState.toEnv, items := [.global ⟨0⟩ none] } := by
    cbv
  exact .item (.item .start hgrid) hhead

theorem exprAt_gridExpr : exprAt gridState.toEnv .semicolon (Scan.tokens "f(*m, 1) + 2;") =
    .ok (gridExpr, [⟨.punct .semicolon, 1⟩]) := by
  cbv

/-- The text of the expression, with the blanks that it can do without left
out. -/
theorem printed_gridExpr : Scan.Printed [] (gridExpr.words gridState.symbols ++ [.punct .semicolon])
    "(f(*(m),(float)(1)))+((float)(2));".toList :=
  .joined (.punct .lparen) (by decide) <|
  .joined (.identifier (by decide)) (by decide) <|
  .joined (.punct .lparen) (by decide) <|
  .joined (.punct .star) (by decide) <|
  .joined (.punct .lparen) (by decide) <|
  .joined (.identifier (by decide)) (by decide) <|
  .joined (.punct .rparen) (by decide) <|
  .joined (.punct .comma) (by decide) <|
  .joined (.punct .lparen) (by decide) <|
  .joined (.keyword .kwFloat) (by decide) <|
  .joined (.punct .rparen) (by decide) <|
  .joined (.punct .lparen) (by decide) <|
  .joined (.integer 0 (by decide)) (by decide) <|
  .joined (.punct .rparen) (by decide) <|
  .joined (.punct .rparen) (by decide) <|
  .joined (.punct .rparen) (by decide) <|
  .joined (.punct .plus) (by decide) <|
  .joined (.punct .lparen) (by decide) <|
  .joined (.punct .lparen) (by decide) <|
  .joined (.keyword .kwFloat) (by decide) <|
  .joined (.punct .rparen) (by decide) <|
  .joined (.punct .lparen) (by decide) <|
  .joined (.integer 0 (by decide)) (by decide) <|
  .joined (.punct .rparen) (by decide) <|
  .joined (.punct .rparen) (by decide) <|
  .joined (.punct .semicolon) (by decide) <|
  .nil rfl

/-- Casts and the pointer that an array is taken as are found again. -/
theorem reparse_of_printed_grid :
    Reached gridState ∧
      exprAt gridState.toEnv .semicolon (Scan.tokens "f(*m, 1) + 2;") =
        .ok (gridExpr, [⟨.punct .semicolon, 1⟩]) ∧
      Stop.semicolon.ends (.punct .semicolon) = true ∧
      ∃ e' left', exprAt gridState.toEnv .semicolon
          (Scan.tokensFrom ⟨"(f(*(m),(float)(1)))+((float)(2));".toList, 7⟩) = .ok (e', left') ∧
        lineless.expr e' = lineless.expr gridExpr ∧
        kinds left' = .punct .semicolon :: Scan.kindsOf [] := by
  have hstop : Stop.semicolon.ends (.punct .semicolon) = true := by decide
  have hmore : Scan.begins (· = '.') [] = false := rfl
  have hback := (reparse_of_printed reached_gridState exprAt_gridExpr hstop hmore).2
  exact ⟨reached_gridState, exprAt_gridExpr, hstop, hback _ 7 printed_gridExpr⟩

end Check

end MiniC
