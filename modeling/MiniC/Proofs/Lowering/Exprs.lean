/-
  MiniC.Proofs.Lowering.Exprs

  **The code of an expression computes its value.**

  On any stack, the code of a well-typed expression pushes the value that the
  expression has and leaves the rest of the stack as it was; it traps if and
  only if the evaluation does, and in the same state.  The induction is on the
  judgement, with the stack arbitrary.

  What the machine knows of the names in the code has to agree with the table
  of symbols (`Agrees`), and what calls do must be the same on both sides
  (`CallsAgree`).
-/
import MiniC.Proofs.Lowering.Names
import MiniC.Proofs.Lowering.Operators
import MiniC.Proofs.Typing.Items

namespace MiniC.Lower

open Exec Wasm

/-! ## §1. Variables -/

/-- Calls of the functions in the table do the same by name and by place. -/
def CallsAgree (Γ : Symbols) (callM : String → List Word → Store → Option Reply)
    (callE : FuncId → List Word → Store → Reply) : Prop :=
  ∀ {f : FuncId} {sym : FuncSymbol}, Γ.func? f = some sym → ∀ args s,
    args.length = sym.params.length → callM sym.name args s = some (callE f args s)

section Exprs

variable {Γ : Symbols} {U : VarId → Prop} {C : Context} {F : FloatUnit}
  {callM : String → List Word → Store → Option Reply}
  {callE : FuncId → List Word → Store → Reply}
variable {tys : List Ty} {ws : List Word} {ty : Ty} {e l r : Expr} {line : Nat}

/-- Reading a variable pushes its value. -/
theorem exec_get (hC : Agrees Γ U C) {v : VarId} {sym : VarSymbol} (hv : Γ.var? v = some sym)
    (hu : U v) (vs : List Value) (st : State) :
    exec C F callM ((Env.ofSymbols Γ).get v) vs st =
      .next (⟨sym.ty.valType, Eval.read Γ v st⟩ :: vs) st := by
  cases hs : sym.storage with
  | globalVar =>
    have hg := isGlobal_of_globalVar hv hs
    have hcode := (get_set_of_globalVar hv hs).1
    rw [hcode, exec, hC.globalTy hv hu hs, Eval.read, if_pos hg]
  | localVar =>
    have hg := not_isGlobal_of_localVar hv hs
    have hcode := (get_set_of_localVar hv hs).1
    rw [hcode, exec, hC.localTy hv hu hs, Eval.read, if_neg hg]

/-- Writing a variable pops its value. -/
theorem exec_set (hC : Agrees Γ U C) {v : VarId} {sym : VarSymbol} (hv : Γ.var? v = some sym)
    (hu : U v) (ha : sym.storage = .globalVar → sym.ty.isArray = false) (w : Word)
    (vs : List Value) (st : State) :
    exec C F callM ((Env.ofSymbols Γ).set v) (⟨sym.ty.valType, w⟩ :: vs) st =
      .next vs (Eval.write Γ v w st) := by
  cases hs : sym.storage with
  | globalVar =>
    have hg := isGlobal_of_globalVar hv hs
    have hcode := (get_set_of_globalVar hv hs).2
    rw [hcode, exec, hC.globalTy hv hu hs, ha hs, Eval.write, if_pos hg]
    exact pop_cons _ _ _ _
  | localVar =>
    have hg := not_isGlobal_of_localVar hv hs
    have hcode := (get_set_of_localVar hv hs).2
    rw [hcode, exec, hC.localTy hv hu hs, Eval.write, if_neg hg]
    exact pop_cons _ _ _ _

/-! ## §2. Calls -/

/-- Pushes the values of arguments, the last one on top. -/
def pushArgs (tys : List Ty) (ws : List Word) (vs : List Value) : List Value :=
  (List.zipWith (fun ty w => ⟨ty.valType, w⟩) tys ws).reverse ++ vs

theorem pushArgs_cons (ty : Ty) (tys : List Ty) (w : Word) (ws : List Word) (vs : List Value) :
    pushArgs (ty :: tys) (w :: ws) vs = pushArgs tys ws (⟨ty.valType, w⟩ :: vs) := by
  simp [pushArgs]

/-- Arguments have the types of the parameters. -/
theorem map_ty_zipWith (h : ws.length = tys.length) :
    (List.zipWith (fun ty w => Value.mk ty.valType w) tys ws).map (·.ty) =
      tys.map Ty.valType := by
  induction tys generalizing ws with
  | nil => rfl
  | cons ty tys ih =>
    cases ws with
    | nil => cases h
    | cons w ws => simp [ih (Nat.succ.inj h)]

/-- Arguments are the words they were. -/
theorem map_bits_zipWith (h : ws.length = tys.length) :
    (List.zipWith (fun ty w => Value.mk ty.valType w) tys ws).map (·.bits) = ws := by
  induction tys generalizing ws with
  | nil => exact (List.length_eq_zero_iff.1 h).symm
  | cons ty tys ih =>
    cases ws with
    | nil => rfl
    | cons w ws => simp [ih (Nat.succ.inj h)]

/-- A call takes the arguments that were pushed. -/
theorem popArgs_pushArgs (h : ws.length = tys.length) (vs : List Value) :
    popArgs (tys.map Ty.valType) (pushArgs tys ws vs) = some (ws, vs) := by
  have hlen : (List.zipWith (fun ty w => Value.mk ty.valType w) tys ws).reverse.length =
      (tys.map Ty.valType).length := by
    simp [h]
  unfold popArgs pushArgs
  rw [List.take_append_of_le_length (Nat.le_of_eq hlen.symm), ← hlen, List.take_length,
    List.reverse_reverse, List.drop_left, if_pos (map_ty_zipWith h), map_bits_zipWith h]

/-- A call takes its arguments and leaves its result. -/
theorem exec_call (hC : Agrees Γ U C) (hcall : CallsAgree Γ callM callE) {f : FuncId}
    {sym : FuncSymbol} (hf : Γ.func? f = some sym) (hlen : ws.length = sym.params.length)
    (vs : List Value) (st : State) :
    exec C F callM (.call ((Env.ofSymbols Γ).funcName f)) (pushArgs sym.params ws vs) st =
      (Eval.Result.ofReply st (callE f ws st.store)).flow (pushResult sym.ret.result?) vs := by
  have hname : (Env.ofSymbols Γ).funcName f = sym.name := Eval.nameOf_eq hf
  rw [hname, exec, hC.funcTy hf]
  dsimp only
  rw [popArgs_pushArgs hlen]
  dsimp only
  rw [hcall hf ws st.store hlen]
  cases callE f ws st.store <;> rfl

/-- There are as many values as expressions. -/
theorem length_of_exprs {es : List Expr} {st st' : State}
    (h : Eval.exprs Γ F callE es st = .value ws st') : ws.length = es.length := by
  induction es generalizing st ws with
  | nil =>
    rw [Eval.exprs] at h
    cases h
    rfl
  | cons e es ih =>
    rw [Eval.exprs] at h
    obtain ⟨w, st₁, _, h⟩ := Eval.Result.andThen_eq_value h
    obtain ⟨ws', st₂, hes, h⟩ := Eval.Result.andThen_eq_value h
    cases h
    rw [List.length_cons, List.length_cons, ih hes]

/-! ## §3. Expressions -/

theorem pushResult_of_ne_void (h : ty ≠ .void) : pushResult ty.result? = push ty.valType := by
  rw [Ty.result?_of_ne_void h]
  rfl

/-- A result that is zero or one. -/
def IsTruth (r : Eval.Result Word) : Prop :=
  r.andThen (fun w st => .value (truth (w ≠ 0)) st) = r

theorem isTruth_value (b : Bool) (st : State) : IsTruth (.value (truth b) st) := by
  show Eval.Result.value (truth (decide (truth b ≠ 0))) st = _
  rw [truth_truth]

/-- The last step leaves a truth value. -/
theorem isTruth_andThen {α : Type} {r : Eval.Result α} {k : α → State → Eval.Result Word}
    (h : ∀ a st, IsTruth (k a st)) : IsTruth (r.andThen k) := by
  unfold IsTruth
  rw [Eval.Result.andThen_andThen]
  congr 1
  funext a st
  exact h a st

/-- A boolean expression has the value zero or one. -/
theorem isTruth_of_isBoolean (h : isBoolean e = true) (st : State) :
    IsTruth (Eval.expr Γ F callE e st) := by
  cases e with
  | literal => cases h
  | var => cases h
  | call => cases h
  | unary op a ty line =>
    cases op with
    | not =>
      rw [Eval.expr]
      exact isTruth_andThen fun _ _ => isTruth_value _ _
    | _ => cases h
  | binary op l r ty line =>
    cases op with
    | compare op =>
      rw [Eval.expr]
      exact isTruth_andThen fun _ _ => isTruth_andThen fun _ _ => isTruth_value _ _
    | logical op =>
      cases op with
      | and =>
        rw [Eval.expr]
        refine isTruth_andThen fun a st => ?_
        split
        · exact isTruth_andThen fun _ _ => isTruth_value _ _
        · exact isTruth_value false st
      | or =>
        rw [Eval.expr]
        refine isTruth_andThen fun a st => ?_
        split
        · exact isTruth_value true st
        · exact isTruth_andThen fun _ _ => isTruth_value _ _
    | _ => cases h

/-- The code of an expression pushes its value. -/
def Pushes (Γ : Symbols) (C : Context) (F : FloatUnit)
    (callM : String → List Word → Store → Option Reply)
    (callE : FuncId → List Word → Store → Reply) (e : Expr) : Prop :=
  ∀ vs st, execAll C F callM (expr (.ofSymbols Γ) e) vs st =
    (Eval.expr Γ F callE e st).flow (push e.ty.valType) vs

/-- An operand carries the type that its rule gives, and has a value. -/
theorem pushes_of_flow (hne : e.ty ≠ .void)
    (h : ∀ vs st, execAll C F callM (expr (.ofSymbols Γ) e) vs st =
      (Eval.expr Γ F callE e st).flow (pushResult e.ty.result?) vs) :
    Pushes Γ C F callM callE e := by
  rw [pushResult_of_ne_void hne] at h
  exact h

/-- The code that turns a value into zero or one. -/
theorem exec_toTruth (he : Pushes Γ C F callM callE e) (vs : List Value) (st : State) :
    execAll C F callM (expr (.ofSymbols Γ) e ++ toTruth e) vs st =
      ((Eval.expr Γ F callE e st).andThen
        fun w st => .value (truth (Eval.holds F e.ty w)) st).flow (push .i32) vs := by
  by_cases hf : e.ty = .float
  · rw [execAll_append, he]
    refine Eval.Result.flow_andThen fun w st _ => ?_
    rw [toTruth, if_pos hf, push, exec_toCondition, conditionWord, if_pos hf]
    rfl
  · have hholds : ∀ w, Eval.holds F e.ty w = decide (w ≠ 0) := fun w => if_neg hf
    simp only [hholds]
    by_cases hb : isBoolean e = true
    · -- the value is zero or one as it is
      rw [toTruth, if_neg hf, if_pos hb, List.append_nil, he, Ty.valType_of_ne_float hf]
      exact congrArg (·.flow (push .i32) vs) (isTruth_of_isBoolean hb st).symm
    · rw [execAll_append, he]
      refine Eval.Result.flow_andThen fun w st _ => ?_
      rw [toTruth, if_neg hf, if_neg hb, push, Ty.valType_of_ne_float hf,
        exec_const_int _ _ _ 0 rfl]
      rfl

/-- The code of a condition. -/
theorem exec_condition (he : Pushes Γ C F callM callE e) (vs : List Value) (st : State) :
    execAll C F callM (condition (.ofSymbols Γ) e) vs st =
      ((Eval.expr Γ F callE e st).andThen
        fun w st => .value (conditionWord F e.ty w) st).flow (push .i32) vs := by
  rw [condition, execAll_append, he]
  refine Eval.Result.flow_andThen fun w st _ => ?_
  rw [push, exec_toCondition]
  rfl

/-- A value that leaves a block is on the stack around it. -/
theorem leave_flow (r : Eval.Result Word) (vs : List Value) :
    (r.flow (push .i32) []).leave [.i32] vs = r.flow (push .i32) vs := by
  cases r <;> rfl

/-- A choice of values runs one side. -/
theorem exec_ifValue (body other : List Instr) (w : Word) (vs : List Value) (st : State) :
    exec C F callM (.ifValue body other) (⟨.i32, w⟩ :: vs) st =
      if w = 0 then (execAll C F callM other [] st).leave [.i32] vs
      else (execAll C F callM body [] st).leave [.i32] vs := by
  rw [exec, pop_cons]

/-- An operator on two values, from the code of its operands. -/
theorem exec_operands (hl : Pushes Γ C F callM callE l) (hr : Pushes Γ C F callM callE r)
    {code : List Instr} {t : ValType} {k : Word → Word → State → Eval.Result Word}
    {vs : List Value}
    (hcode : ∀ a b st, execAll C F callM code (⟨r.ty.valType, b⟩ :: ⟨l.ty.valType, a⟩ :: vs) st =
      (k a b st).flow (push t) vs)
    (st : State) :
    execAll C F callM (expr (.ofSymbols Γ) l ++ expr (.ofSymbols Γ) r ++ code) vs st =
      ((Eval.expr Γ F callE l st).andThen fun a st => (Eval.expr Γ F callE r st).andThen
        fun b st => k a b st).flow (push t) vs := by
  rw [List.append_assoc, execAll_append, hl]
  refine Eval.Result.flow_andThen fun a st _ => ?_
  rw [execAll_append, hr]
  exact Eval.Result.flow_andThen fun b st _ => hcode a b st

/-- A sign change is a difference from zero. -/
theorem exec_negate (hn : e.ty = .int ∨ e.ty = .float) (he : Pushes Γ C F callM callE e)
    (vs : List Value) (st : State) :
    execAll C F callM (expr (.ofSymbols Γ) (.unary .negate e e.ty line)) vs st =
      (Eval.expr Γ F callE (.unary .negate e e.ty line) st).flow (push e.ty.valType) vs := by
  rw [expr, Eval.expr]
  rcases hn with hi | hf
  · rw [if_neg (by rw [hi]; decide), execAll_cons, exec_const, Flow.andThen, execAll_append,
      he]
    refine Eval.Result.flow_andThen fun w st _ => ?_
    have hmeans : Eval.negate F e.ty w = 0 - w := by
      rw [Eval.negate, if_neg (by rw [hi]; decide), BitVec.ofInt_neg, BitVec.ofInt_toInt]
      exact (BitVec.zero_sub w).symm
    rw [hmeans, hi, execAll_singleton]
    exact exec_int _ _ _ _ _
  · rw [if_pos hf, execAll_append, he]
    refine Eval.Result.flow_andThen fun w st _ => ?_
    rw [Eval.negate, if_pos hf, hf, execAll_singleton]
    exact exec_floatNeg _ _ _

/-- Denial is executed as it is evaluated. -/
theorem exec_not (he : Pushes Γ C F callM callE e) (vs : List Value) (st : State) :
    execAll C F callM (expr (.ofSymbols Γ) (.unary .not e ty line)) vs st =
      (Eval.expr Γ F callE (.unary .not e ty line) st).flow (push .i32) vs := by
  rw [expr, Eval.expr, execAll_append, he]
  refine Eval.Result.flow_andThen fun w st _ => ?_
  by_cases hf : e.ty = .float
  · rw [if_pos hf, Eval.holds, if_pos hf, Bool.not_not, hf, execAll_cons, exec_const, Flow.andThen,
      execAll_singleton]
    exact exec_float _ _ _ _ _
  · rw [if_neg hf, Eval.holds, if_neg hf, Ty.valType_of_ne_float hf, execAll_singleton, push,
      exec_eqz]
    simp [Eval.Result.flow, push]

/-- Going through a pointer is executed as it is evaluated. -/
theorem exec_deref {base : Ty} (hb : e.ty.base? = some base) (he : Pushes Γ C F callM callE e)
    (vs : List Value) (st : State) :
    execAll C F callM (expr (.ofSymbols Γ) (.unary .deref e ty line)) vs st =
      (Eval.expr Γ F callE (.unary .deref e ty line) st).flow (push base.valType) vs := by
  have hv : e.ty.valType = .i32 := by
    apply Ty.valType_of_ne_float
    intro hf
    rw [hf] at hb
    cases hb
  rw [expr, Eval.expr, hb, Option.getD_some, execAll_append, he, hv]
  refine Eval.Result.flow_andThen fun w st _ => ?_
  exact exec_loadFrom base w vs st

/-- A cast is executed as it is evaluated. -/
theorem exec_cast (hc : Typing.castable e.ty ty = true) (he : Pushes Γ C F callM callE e)
    (vs : List Value) (st : State) :
    execAll C F callM (expr (.ofSymbols Γ) (.unary .cast e ty line)) vs st =
      (Eval.expr Γ F callE (.unary .cast e ty line) st).flow (push ty.valType) vs := by
  rw [expr, Eval.expr, execAll_append, he]
  exact Eval.Result.flow_andThen fun w st _ => exec_convertTy hc w vs st

/-- The code of arithmetic, from the code of its operands. -/
theorem exec_arith {op : ArithOp} {t : Ty} (h : ArithTyped op l.ty r.ty t)
    (hl : Pushes Γ C F callM callE l) (hr : Pushes Γ C F callM callE r) (vs : List Value)
    (st : State) :
    execAll C F callM (expr (.ofSymbols Γ) (.binary (.arith op) l r ty line)) vs st =
      (Eval.expr Γ F callE (.binary (.arith op) l r ty line) st).flow (push t.valType) vs := by
  rw [expr, Eval.expr]
  simp only [List.append_assoc]
  rw [execAll_append, hl]
  refine Eval.Result.flow_andThen fun a st _ => ?_
  rw [execAll_append, push, exec_afterLeft h, Flow.andThen, execAll_append, hr]
  refine Eval.Result.flow_andThen fun b st _ => ?_
  rw [execAll_append, push, exec_afterRight h, Flow.andThen]
  exact exec_arithmetic h a b vs st

/-- The test of the first operand, and what it decides. -/
theorem exec_choice (hl : Pushes Γ C F callM callE l) {body other : List Instr}
    {ifTrue ifFalse : State → Eval.Result Word} {vs : List Value}
    (hbody : ∀ st, execAll C F callM body [] st = (ifTrue st).flow (push .i32) [])
    (hother : ∀ st, execAll C F callM other [] st = (ifFalse st).flow (push .i32) []) (st : State) :
    execAll C F callM (expr (.ofSymbols Γ) l ++ toTruth l ++ [.ifValue body other]) vs st =
      ((Eval.expr Γ F callE l st).andThen fun a st =>
        if Eval.holds F l.ty a then ifTrue st else ifFalse st).flow (push .i32) vs := by
  -- the code tests the truth of the value, which is zero if and only if it fails
  have hsplit : ((Eval.expr Γ F callE l st).andThen fun a st =>
      if Eval.holds F l.ty a then ifTrue st else ifFalse st) =
      ((Eval.expr Γ F callE l st).andThen fun a st =>
        .value (truth (Eval.holds F l.ty a)) st).andThen fun w st =>
          if w = 0 then ifFalse st else ifTrue st := by
    rw [Eval.Result.andThen_andThen]
    congr 1
    funext a st
    show _ = if truth (Eval.holds F l.ty a) = 0 then ifFalse st else ifTrue st
    cases Eval.holds F l.ty a <;> rfl
  rw [hsplit, execAll_append, exec_toTruth hl]
  refine Eval.Result.flow_andThen fun w st _ => ?_
  rw [execAll_singleton, push, exec_ifValue, hbody, hother, leave_flow, leave_flow]
  split <;> rfl

/-- The code of an operator that may leave its second operand alone. -/
theorem exec_logical {op : LogicOp} (hl : Pushes Γ C F callM callE l)
    (hr : Pushes Γ C F callM callE r) (vs : List Value) (st : State) :
    execAll C F callM (expr (.ofSymbols Γ) (.binary (.logical op) l r ty line)) vs st =
      (Eval.expr Γ F callE (.binary (.logical op) l r ty line) st).flow (push .i32) vs := by
  have hconst : ∀ (n : Int32) st, execAll C F callM [.const (.int n)] [] st =
      (Eval.Result.value n.toBitVec st).flow (push .i32) [] := by
    intro n st
    rw [execAll_singleton, exec_const]
    rfl
  cases op with
  | and =>
    rw [expr, Eval.expr]
    exact exec_choice hl (fun st => exec_toTruth hr [] st) (hconst 0) st
  | or =>
    rw [expr, Eval.expr]
    exact exec_choice hl (hconst 1) (fun st => exec_toTruth hr [] st) st

mutual

/-- **The code of an expression computes its value**, and pushes it if there is
one. -/
theorem exec_expr (hC : Agrees Γ U C) (hcall : CallsAgree Γ callM callE) {e : Expr} {t : Ty}
    (h : HasTy Γ U e t) (hd : t.Decays e.ty) (vs : List Value) (st : State) :
    execAll C F callM (expr (.ofSymbols Γ) e) vs st =
      (Eval.expr Γ F callE e st).flow (pushResult t.result?) vs := by
  cases h with
  | @literal value ty line =>
    cases value with
    | int n =>
      rw [expr, execAll_singleton, exec_const, Eval.expr]
      rfl
    | float x =>
      rw [expr, execAll_singleton, exec_const, Eval.expr]
      rfl
  | var hv hu hne =>
    rw [expr, execAll_singleton, exec_get hC hv hu, Eval.expr, pushResult_of_ne_void hne]
    rfl
  | call hf hargs =>
    rw [expr, execAll_append, exec_exprs hC hcall hargs, Eval.expr]
    -- the values on the stack are as many as the function has parameters
    refine Eval.Result.flow_andThen fun ws st hws => ?_
    rw [execAll_singleton]
    exact exec_call hC hcall hf ((length_of_exprs hws).trans hargs.length_eq) vs st
  | @negate e ty line he hn =>
    -- the code looks at the type of the node, which is no array
    have hty : ty = e.ty := hd.eq_of_number hn
    have hne := Ty.ne_void_of_number hn
    rw [hty, pushResult_of_ne_void hne]
    exact exec_negate hn (pushes_of_flow hne (exec_expr hC hcall he (.refl _))) vs st
  | not he hs =>
    have hne := Ty.ne_void_of_isScalar hs
    exact exec_not (pushes_of_flow hne (exec_expr hC hcall he (.refl _))) vs st
  | deref he hb hne =>
    have hne' := Ty.ne_void_of_base? hb
    rw [pushResult_of_ne_void hne]
    exact exec_deref hb (pushes_of_flow hne' (exec_expr hC hcall he (.refl _))) vs st
  | addressOfVar hv ha =>
    -- an array is its own address
    cases hv with
    | var hv hu hne =>
      simp only [expr, Eval.expr, execAll_singleton]
      rw [exec_get hC hv hu, Ty.valType_of_isArray ha]
      rfl
  | addressOfDeref he =>
    -- neither side loads what is at the address
    cases he with
    | deref he hb hne =>
      rw [expr, Eval.expr]
      exact exec_expr hC hcall he (.refl _) vs st
  | cast he hc =>
    have hne := Typing.ne_void_of_castable hc
    rw [pushResult_of_ne_void hne.2]
    exact exec_cast hc (pushes_of_flow hne.1 (exec_expr hC hcall he (.refl _))) vs st
  | assign hv ha hr hd' hty =>
    cases hv with
    | var hv hu hne =>
      rw [expr, Eval.expr, execAll_append, exec_expr hC hcall hr (hty ▸ hd'), hd'.result?_eq,
        pushResult_of_ne_void hne]
      refine Eval.Result.flow_andThen fun w st _ => ?_
      rw [execAll_singleton]
      exact exec_set hC hv hu (fun _ => ha) w vs st
  | arith hl hr hop =>
    have hne := hop.ne_void
    rw [pushResult_of_ne_void hne.2.2]
    exact exec_arith hop (pushes_of_flow hne.1 (exec_expr hC hcall hl (.refl _)))
      (pushes_of_flow hne.2.1 (exec_expr hC hcall hr (.refl _))) vs st
  | compare hl hr hop =>
    have hne := hop.ne_void
    rw [expr, Eval.expr]
    refine exec_operands (pushes_of_flow hne.1 (exec_expr hC hcall hl (.refl _)))
      (pushes_of_flow hne.2 (exec_expr hC hcall hr (.refl _))) (fun a b st => ?_) st
    rw [execAll_singleton]
    exact exec_comparison hop a b vs st
  | bitwise hl hr hop =>
    have hl' := pushes_of_flow (by rw [hop.1]; exact nofun) (exec_expr hC hcall hl (.refl _))
    have hr' := pushes_of_flow (by rw [hop.2]; exact nofun) (exec_expr hC hcall hr (.refl _))
    rw [expr, Eval.expr]
    refine exec_operands hl' hr' (fun a b st => ?_) st
    rw [hop.1, hop.2, execAll_singleton]
    exact (exec_int _ _ _ _ _).trans (by rw [eval_bitwise]; rfl)
  | logical hl hr hs =>
    exact exec_logical
      (pushes_of_flow (Ty.ne_void_of_isScalar hs.1) (exec_expr hC hcall hl (.refl _)))
      (pushes_of_flow (Ty.ne_void_of_isScalar hs.2) (exec_expr hC hcall hr (.refl _))) vs st

/-- The code of arguments pushes their values. -/
theorem exec_exprs (hC : Agrees Γ U C) (hcall : CallsAgree Γ callM callE) {es : List Expr}
    {tys : List Ty} (h : HaveTys Γ U es tys) (vs : List Value) (st : State) :
    execAll C F callM (exprs (.ofSymbols Γ) es) vs st =
      (Eval.exprs Γ F callE es st).flow (pushArgs tys) vs := by
  cases h with
  | nil =>
    rw [exprs, execAll_nil, Eval.exprs]
    rfl
  | cons he hd hty hne hes =>
    rw [exprs, execAll_append, exec_expr hC hcall he (hty ▸ hd), hd.result?_eq,
      pushResult_of_ne_void hne, Eval.exprs]
    refine Eval.Result.flow_andThen fun w st _ => ?_
    rw [exec_exprs hC hcall hes]
    cases Eval.exprs Γ F callE _ st with
    | value ws st => exact congrArg (Flow.next · st) (pushArgs_cons _ _ w ws vs).symm
    | trap s => rfl
    | exhausted s => rfl

end

end Exprs

/-! ## §4. Expressions of a program -/

/-- **Expressions mean the same on the machine and in the tree**: whatever the
stack, the state, the floats and the functions called are, the code of an
expression with a value pushes that value and nothing else, in the state that
the evaluation ends in, and traps if and only if the evaluation does.  There,
the difference of two pointers is divided by the size of an element, as long as
that is a signed word. -/
theorem exec_expr_eq_eval {text : String} {p : Program} (h : parse text = .ok p) {f : Function}
    (hf : f ∈ p.functions) {e : Expr} (he : f.Mentions e) (hne : e.ty ≠ .void) (F : FloatUnit)
    (behaviour : String → List Word → Store → Reply) (vs : List Value) (st : State) :
    (execAll ((program p).context (function (.ofSymbols p.symbols) f)) F
        (fun name args s => some (behaviour name args s)) (expr (.ofSymbols p.symbols) e) vs st =
      match Eval.expr p.symbols F (fun g => behaviour (Eval.nameOf p.symbols g)) e st with
      | .value w st' => .next (⟨e.ty.valType, w⟩ :: vs) st'
      | .trap s => .trap s
      | .exhausted s => .exhausted s) ∧
      ∀ {l r : Ty}, l.isPointerLike = true → r.isPointerLike = true → l.stride < 2 ^ 31 →
        ∀ a b : Word,
          Eval.arith F .sub l r a b = some (.ofInt 32 ((a - b).toInt.tdiv l.stride)) := by
  have hp := wellFormed_of_parse h
  obtain ⟨t, ht, hd⟩ := (hp.functions f hf).wholeTyped he
  have hcall : CallsAgree p.symbols (fun name args s => some (behaviour name args s))
      (fun g => behaviour (Eval.nameOf p.symbols g)) := by
    intro g sym hg args s _
    dsimp only
    rw [Eval.nameOf_eq hg]
  refine ⟨?_, arith_difference_of_lt⟩
  rw [exec_expr (agrees hp hf) hcall ht hd, hd.result?_eq, pushResult_of_ne_void hne]
  cases Eval.expr p.symbols F _ e st with
  | value w st' => rfl
  | trap s => rfl
  | exhausted s => rfl

/-- Floats whose operators work on the bits as on numbers. -/
def sampleFloats : FloatUnit where
  add := (· + ·)
  sub := (· - ·)
  mul := (· * ·)
  div := BitVec.sdiv
  eq := (· == ·)
  lt := BitVec.slt
  le := BitVec.sle
  neg := (- ·)
  ofInt := id
  toInt? := some

/-- A state with four bytes of memory, all ones, and globals at an address
outside of it. -/
def sampleState : State := ⟨fun _ => 0, ⟨⟨fun _ => 16, ⟨4, fun _ => 255⟩⟩, [], 8⟩⟩

/-- One divided by the minus one in memory, above a float on the stack; and the
eight bytes from one pointer back to another are two elements. -/
theorem exec_expr_eq_eval_quotient :
    sampleFunction ∈ sampleProgram.functions ∧ sampleFunction.Mentions sampleQuotient ∧
      execAll ((program sampleProgram).context
          (function (.ofSymbols sampleProgram.symbols) sampleFunction)) sampleFloats
          (fun _ _ s => some (.trap s)) (expr (.ofSymbols sampleProgram.symbols) sampleQuotient)
          [⟨.f32, 7⟩] sampleState =
        .next [⟨.i32, -1⟩, ⟨.f32, 7⟩] sampleState ∧
      Eval.arith sampleFloats .sub (.pointer .int) (.array .int 2) 16 24 = some (-2) := by
  have hf : sampleFunction ∈ sampleProgram.functions := List.mem_singleton.2 rfl
  have he : sampleFunction.Mentions sampleQuotient :=
    ⟨sampleQuotient, .tail _ (.tail _ (.head _)), .refl⟩
  obtain ⟨hexec, hdifference⟩ := exec_expr_eq_eval parse_sampleText hf he nofun sampleFloats
    (fun _ _ s => .trap s) [⟨.f32, 7⟩] sampleState
  exact ⟨hf, he, hexec, hdifference rfl rfl (by decide) 16 24⟩

/-! ## §5. Elements too large for a signed word -/

/-- A program that subtracts the addresses of two arrays of almost 4 GiB. -/
def hugeText : String :=
  "int pre[1000]; int x[1073741808]; int y[1073741808]; int f() { return &y - &x; }"

/-- The type of the arrays. -/
def hugeTy : Ty := .array .int 1073741808

/-- The difference in the program. -/
def hugeDifference : Expr :=
  .binary (.arith .sub) (.unary .addressOf (.var ⟨2⟩ hugeTy 1) (.pointer hugeTy) 1)
    (.unary .addressOf (.var ⟨1⟩ hugeTy 1) (.pointer hugeTy) 1) .int 1

/-- The function of the program. -/
def hugeFunction : Function where
  id := ⟨0⟩
  name := "f"
  ret := .int
  params := []
  locals := []
  body := [.ret (some hugeDifference)]

/-- The program itself. -/
def hugeProgram : Program where
  items := [.global ⟨0⟩ none, .global ⟨1⟩ none, .global ⟨2⟩ none, .function hugeFunction]
  imports := []
  symbols :=
    { vars := ⟨#[⟨"pre", .array .int 1000, .globalVar, 1⟩, ⟨"x", hugeTy, .globalVar, 1⟩,
        ⟨"y", hugeTy, .globalVar, 1⟩]⟩
      funcs := ⟨#[⟨"f", .int, [], .defined, 1⟩]⟩ }

/-- The state that the program starts in: every array is at its address. -/
def hugeState : State where
  locals _ := 0
  store :=
    { globals := fun v => (((Env.ofSymbols hugeProgram.symbols).address? v).getD 0).toBitVec
      memory := ⟨0, fun _ => 0⟩
      calls := []
      ticks := 0 }

set_option maxRecDepth 10000 in
/-- A size from 2 ^ 31 on is a negative divisor: the code finds 62 elements
between arrays that are not one element apart. -/
theorem exec_hugeDifference :
    parse hugeText = .ok hugeProgram ∧ hugeFunction ∈ hugeProgram.functions ∧
      hugeFunction.Mentions hugeDifference ∧
      execAll ((program hugeProgram).context
          (function (.ofSymbols hugeProgram.symbols) hugeFunction)) sampleFloats
          (fun _ _ s => some (.trap s)) (expr (.ofSymbols hugeProgram.symbols) hugeDifference)
          [] hugeState = .next [⟨.i32, 62⟩] hugeState ∧
      (hugeState.store.globals ⟨2⟩ - hugeState.store.globals ⟨1⟩).toInt.tdiv hugeTy.size = 0 ∧
      (hugeState.store.globals ⟨2⟩ - hugeState.store.globals ⟨1⟩).toNat / hugeTy.size = 0 := by
  refine ⟨by cbv, List.mem_singleton.2 rfl, ⟨hugeDifference, .head _, .refl⟩, ?_, ?_, ?_⟩
  · rfl
  · decide
  · decide

end MiniC.Lower
