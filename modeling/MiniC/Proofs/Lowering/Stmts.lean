/-
  MiniC.Proofs.Lowering.Stmts

  **The code of statements does what the statements do.**

  On the machine, a statement that completes normally reaches the end of its
  code with nothing left on the stack; leaving a loop is a branch to the block
  around it, testing again is a branch to the loop itself, and a return ends
  the function with the value on the stack (`completion`).  The induction is
  on the rules for statements; that for loops is on the ticks that are left.

  From this, calls of functions do the same on the machine and in the tree, by
  an induction on the ticks: a body runs with fewer than its call had.
-/
import MiniC.Proofs.Lowering.Exprs
import MiniC.Proofs.Typing.Items

namespace MiniC

open Exec Wasm

/-! ## §1. Loops on both sides -/

namespace Wasm

variable {l : Label} {body : State → Flow} {st : State}

/-- Without ticks, a loop gives up. -/
theorem turns_of_zero (h : st.store.ticks = 0) : turns l body st = .exhausted st.store := by
  rw [turns]
  split
  · rfl
  · rename_i h'
    rw [h] at h'
    cases h'

/-- A tick pays for one turn. -/
theorem turns_of_succ {n : Nat} (h : st.store.ticks = n + 1) :
    turns l body st = match body (st.withTicks n) with
      | .branch l' st' =>
        if l' = l then turns l body { st' with store := st'.store.atMost n } else .branch l' st'
      | flow => flow := by
  rw [turns]
  split
  · rename_i h'
    rw [h] at h'
    cases h'
  · rename_i m h'
    rw [h] at h'
    cases h'
    rfl

end Wasm

namespace Eval

variable {cond : State → Result Bool} {body : State → Result Completion} {st : State}

/-- Evaluation gives up as well. -/
theorem whileLoop_of_zero (h : st.store.ticks = 0) :
    whileLoop cond body st = .exhausted st.store := by
  rw [whileLoop]
  split
  · rfl
  · rename_i h'
    rw [h] at h'
    cases h'

/-- One turn of a loop; a condition that fails leaves it. -/
def turn (cond : State → Result Bool) (body : State → Result Completion) (st : State) :
    Result Completion :=
  (cond st).andThen fun b st => if b then body st else .value .leave st

/-- A loop is a turn, and the loop again unless that has left it. -/
theorem whileLoop_of_succ {n : Nat} (h : st.store.ticks = n + 1) :
    whileLoop cond body st = (turn cond body (st.withTicks n)).andThen fun c st' =>
      match c with
      | .normal | .again => whileLoop cond body { st' with store := st'.store.atMost n }
      | .leave => .value .normal st'
      | .ret w => .value (.ret w) st' := by
  rw [whileLoop]
  split
  · rename_i h'
    rw [h] at h'
    cases h'
  · rename_i m h'
    rw [h] at h'
    cases h'
    rw [turn, Result.andThen_andThen]
    congr 1
    funext b st'
    cases b <;> rfl

end Eval

namespace Lower

/-! ## §2. Completions on the machine -/

/-- How the machine shows a completion, with `depth` loops around and a
function that returns `ret`. -/
def completion (ret : Ty) (depth : Nat) : Eval.Completion → State → Flow
  | .normal, st => .next [] st
  | .leave, st => .branch (.exit depth) st
  | .again, st => .branch (.entry depth) st
  | .ret w, st => .returned (w.toList.map fun w => ⟨ret.valType, w⟩) st

/-- How the machine shows the result of statements. -/
def completions (ret : Ty) (depth : Nat) : Eval.Result Eval.Completion → Flow
  | .value c st => completion ret depth c st
  | .trap s => .trap s
  | .exhausted s => .exhausted s

variable {ret : Ty} {depth : Nat}

/-- A statement leaves nothing on the stack. -/
theorem leave_completions (r : Eval.Result Eval.Completion) :
    (completions ret depth r).leave [] [] = completions ret depth r := by
  cases r with
  | value c st => cases c <;> rfl
  | trap s => rfl
  | exhausted s => rfl

/-- Going on after a value, at a statement. -/
theorem completions_andThen {α : Type} {push : α → List Value → List Value}
    {vs : List Value} {r : Eval.Result α} {f : α → State → Eval.Result Eval.Completion}
    {k : List Value → State → Flow}
    (h : ∀ a st, k (push a vs) st = completions ret depth (f a st)) :
    (r.flow push vs).andThen k = completions ret depth (r.andThen f) := by
  cases r with
  | value a st => exact h a st
  | trap s => rfl
  | exhausted s => rfl

section Stmts

variable {Γ : Symbols} {U : VarId → Prop} {C : Context} {F : FloatUnit}
  {callM : String → List Word → Store → Option Reply}
  {callE : FuncId → List Word → Store → Reply}
variable {e : Expr}

/-- Code for statements one after the other. -/
theorem completions_cons {code code' : List Instr} {first : State → Eval.Result Eval.Completion}
    {rest : State → Eval.Result Eval.Completion}
    (h : ∀ st, execAll C F callM code [] st = completions ret depth (first st))
    (h' : ∀ st, execAll C F callM code' [] st = completions ret depth (rest st)) (st : State) :
    execAll C F callM (code ++ code') [] st =
      completions ret depth ((first st).andThen fun c st =>
        match c with
        | .normal => rest st
        | c => .value c st) := by
  rw [execAll_append, h]
  cases first st with
  | value c st =>
    cases c with
    | normal => exact h' st
    | leave => rfl
    | again => rfl
    | ret w => rfl
  | trap s => rfl
  | exhausted s => rfl

/-- The code of an expression that is passed on pushes its value. -/
theorem exec_passed (hC : Agrees Γ U C) (hcall : CallsAgree Γ callM callE) {ty : Ty}
    (h : Passed Γ U e ty) (hne : ty ≠ .void) (vs : List Value) (st : State) :
    execAll C F callM (expr (.ofSymbols Γ) e) vs st =
      (Eval.expr Γ F callE e st).flow (push ty.valType) vs := by
  obtain ⟨hty, t, he, hd⟩ := h
  rw [exec_expr hC hcall he (hty ▸ hd), hd.result?_eq, pushResult_of_ne_void hne]

theorem pushes_of_condition (hC : Agrees Γ U C) (hcall : CallsAgree Γ callM callE)
    (h : Condition Γ U e) : Pushes Γ C F callM callE e :=
  pushes_of_flow h.2 (exec_expr hC hcall h.1 (.refl _))

/-- A test: the condition's word decides between two ways to go on. -/
theorem exec_test (he : Pushes Γ C F callM callE e) {k : List Value → State → Flow}
    {ifTrue ifFalse : State → Eval.Result Eval.Completion}
    (hk : ∀ w st, k [⟨.i32, w⟩] st =
      completions ret depth (if w = 0 then ifFalse st else ifTrue st))
    (st : State) :
    (execAll C F callM (condition (.ofSymbols Γ) e) [] st).andThen k =
      completions ret depth ((Eval.test Γ F callE e st).andThen fun b st =>
        if b then ifTrue st else ifFalse st) := by
  rw [exec_condition he, Eval.test, Eval.Result.andThen_andThen]
  have hword : ∀ w st, (if conditionWord F e.ty w = 0 then ifFalse st else ifTrue st) =
      if Eval.holds F e.ty w then ifTrue st else ifFalse st := by
    intro w st
    by_cases hw : Eval.holds F e.ty w = true
    · rw [if_pos hw, if_neg ((conditionWord_ne_zero F e.ty w).2 hw)]
    · rw [if_neg hw, if_pos (not_not.1 fun h => hw ((conditionWord_ne_zero F e.ty w).1 h))]
  cases Eval.expr Γ F callE e st with
  | value w st =>
    show k [⟨.i32, conditionWord F e.ty w⟩] st = completions ret depth
      (if Eval.holds F e.ty w then ifTrue st else ifFalse st)
    rw [hk, hword]
  | trap s => rfl
  | exhausted s => rfl

/-! ## §3. Loops -/

/-- The code inside a loop: the test, the body, and the way back. -/
def loopCode (Γ : Symbols) (depth : Nat) (cond : Expr) (body : List Stmt) : List Instr :=
  condition (.ofSymbols Γ) cond ++ [.eqz, .brIf (.exit (depth + 1))] ++
    stmts (.ofSymbols Γ) (depth + 1) body ++ [.br (.entry (depth + 1))]

/-- How the machine shows the end of one turn. -/
def turnEnd (ret : Ty) (depth : Nat) : Eval.Result Eval.Completion → Flow
  | .value .normal st | .value .again st => .branch (.entry (depth + 1)) st
  | .value .leave st => .branch (.exit (depth + 1)) st
  | .value (.ret w) st => completion ret depth (.ret w) st
  | .trap s => .trap s
  | .exhausted s => .exhausted s

/-- After the test: out of the loop if the condition failed. -/
theorem exec_exit (l : Label) (code : List Instr) (w : Word) (st : State) :
    execAll C F callM (.eqz :: .brIf l :: code) [⟨.i32, w⟩] st =
      if w = 0 then .branch l st else execAll C F callM code [] st := by
  rw [execAll_cons, exec_eqz, Flow.andThen, execAll_cons, exec, pop_cons]
  by_cases hw : w = 0
  · subst hw
    rfl
  · have htruth : truth (decide (w = 0)) = 0 := by
      rw [decide_eq_false hw]
      rfl
    rw [if_pos htruth, if_neg hw]
    rfl

/-- One turn of a loop on the machine. -/
theorem exec_loopCode {cond : Expr} {body : List Stmt} (hc : Pushes Γ C F callM callE cond)
    (hb : ∀ st, execAll C F callM (stmts (.ofSymbols Γ) (depth + 1) body) [] st =
      completions ret (depth + 1) (Eval.stmts Γ F callE body st)) (st : State) :
    execAll C F callM (loopCode Γ depth cond body) [] st =
      turnEnd ret depth (Eval.turn (Eval.test Γ F callE cond) (Eval.stmts Γ F callE body) st) := by
  have htest : execAll C F callM (condition (.ofSymbols Γ) cond ++
      ([.eqz, .brIf (.exit (depth + 1))] ++ stmts (.ofSymbols Γ) (depth + 1) body)) [] st =
      completions ret (depth + 1)
        (Eval.turn (Eval.test Γ F callE cond) (Eval.stmts Γ F callE body) st) := by
    rw [execAll_append]
    refine exec_test hc (fun w st => ?_) st
    rw [List.cons_append, List.cons_append, List.nil_append, exec_exit, hb]
    split <;> rfl
  -- after the body comes a jump back, which a normal end reaches and no other does
  rw [loopCode, List.append_assoc (condition _ _), execAll_append, htest]
  cases Eval.turn (Eval.test Γ F callE cond) (Eval.stmts Γ F callE body) st with
  | value c st =>
    cases c with
    | normal =>
      show execAll C F callM [.br (.entry (depth + 1))] [] st = _
      rw [execAll_singleton, exec]
      rfl
    | leave => rfl
    | again => rfl
    | ret w => rfl
  | trap s => rfl
  | exhausted s => rfl

/-- **A loop on the machine is the loop of the tree.** -/
theorem catchAt_turns {code : State → Flow} {cond : State → Eval.Result Bool}
    {body : State → Eval.Result Eval.Completion}
    (hcode : ∀ st, code st = turnEnd ret depth (Eval.turn cond body st)) (st : State) :
    ((turns (.entry (depth + 1)) code st).leave [] []).catchAt (.exit (depth + 1)) =
      completions ret depth (Eval.whileLoop cond body st) := by
  -- each turn takes a tick
  induction hn : st.store.ticks using Nat.strong_induction_on generalizing st with
  | _ n ih =>
    cases n with
    | zero =>
      rw [turns_of_zero hn, Eval.whileLoop_of_zero hn]
      rfl
    | succ n =>
      rw [turns_of_succ hn, Eval.whileLoop_of_succ hn, hcode]
      have hagain : ∀ st' : State,
          ((if Label.entry (depth + 1) = .entry (depth + 1) then
            turns (.entry (depth + 1)) code { st' with store := st'.store.atMost n }
            else .branch (.entry (depth + 1)) st').leave [] []).catchAt
              (.exit (depth + 1)) = completions ret depth
                (Eval.whileLoop cond body { st' with store := st'.store.atMost n }) := by
        intro st'
        have hlt : min st'.store.ticks n < n + 1 := by omega
        rw [if_pos rfl]
        exact ih _ hlt _ rfl
      cases Eval.turn cond body (st.withTicks n) with
      | value c st' =>
        cases c with
        | normal => exact hagain st'
        | again => exact hagain st'
        | leave => exact if_pos rfl
        | ret w => rfl
      | trap s => rfl
      | exhausted s => rfl

/-! ## §4. Statements -/

/-- A choice runs one side. -/
theorem exec_ifElse (body other : List Instr) (w : Word) (st : State) :
    exec C F callM (.ifElse body other) [⟨.i32, w⟩] st =
      if w = 0 then (execAll C F callM other [] st).leave [] []
      else (execAll C F callM body [] st).leave [] [] := by
  rw [exec, pop_cons]

/-- Nothing is left of the value of an expression that is a statement. -/
theorem exec_discard (ty : Ty) (w : Word) (st : State) :
    execAll C F callM (if ty = .void then [] else [.drop]) (pushResult ty.result? w []) st =
      .next [] st := by
  rw [Ty.result?]
  by_cases hty : ty = .void
  · rw [if_pos hty, if_pos hty]
    exact execAll_nil [] st
  · rw [if_neg hty, if_neg hty, execAll_singleton, pushResult, exec]

/-- A declaration gives an array its place, and a variable its first value. -/
theorem exec_declare (hC : Agrees Γ U C) (hcall : CallsAgree Γ callM callE) {v : VarId}
    {sym : VarSymbol} {init : Option Expr} (hv : Γ.var? v = some sym) (hu : U v)
    (hs : sym.storage = .localVar) (hne : sym.ty ≠ .void)
    (hinit : ∀ e ∈ init, sym.ty.isArray = false ∧ Passed Γ U e sym.ty) (st : State) :
    execAll C F callM (stmt (.ofSymbols Γ) depth (.declare v init)) [] st =
      completions ret depth (Eval.stmt Γ F callE (.declare v init) st) := by
  have hset : ∀ w st, exec C F callM ((Env.ofSymbols Γ).set v) [⟨sym.ty.valType, w⟩] st =
      .next [] (Eval.write Γ v w st) := by
    intro w st
    refine exec_set hC hv hu (fun hg => ?_) w [] st
    rw [hs] at hg
    cases hg
  have hplace := Env.address?_eq_place? Γ v
  unfold stmt Eval.stmt
  cases haddr : (Env.ofSymbols Γ).address? v with
  | some address =>
    -- only arrays have an address, and on the stack it is an integer
    have harray := Env.isSome_address? Γ v
    rw [haddr, hv] at harray
    rw [haddr] at hplace
    rw [← hplace]
    have hword := hset address.toBitVec st
    rw [Ty.valType_of_isArray harray.symm] at hword
    dsimp only [Option.map_some]
    rw [execAll_cons, exec_const, Flow.andThen, execAll_singleton]
    exact hword
  | none =>
    rw [haddr] at hplace
    rw [← hplace]
    cases init with
    | none => exact execAll_nil [] st
    | some e =>
      dsimp only [Option.map_none]
      rw [execAll_append, exec_passed hC hcall (hinit e rfl).2 hne]
      refine completions_andThen fun w st => ?_
      rw [execAll_singleton]
      exact hset w st

mutual

/-- **The code of a statement does what the statement does.** -/
theorem exec_stmt (hC : Agrees Γ U C) (hcall : CallsAgree Γ callM callE) {depth : Nat} {s : Stmt}
    (h : StmtTyped Γ U ret depth s) (st : State) :
    execAll C F callM (stmt (.ofSymbols Γ) depth s) [] st =
      completions ret depth (Eval.stmt Γ F callE s st) := by
  cases h with
  | declare hv hu hs hne hinit => exact exec_declare hC hcall hv hu hs hne hinit st
  | expr he =>
    rw [stmt, Eval.stmt, execAll_append, exec_expr hC hcall he (.refl _)]
    refine completions_andThen fun w st => ?_
    exact exec_discard _ w st
  | ret hr =>
    rw [stmt, Eval.stmt, execAll_singleton, exec]
    rfl
  | retValue hne he =>
    rw [stmt, Eval.stmt, execAll_append, exec_passed hC hcall he hne]
    refine completions_andThen fun w st => ?_
    rw [execAll_singleton, exec]
    rfl
  | branch hc hb ho =>
    rw [stmt, Eval.stmt, execAll_append]
    exact exec_test (pushes_of_condition hC hcall hc)
      (exec_branch hC hcall ho (exec_stmts hC hcall hb)) st
  | loop hc hb =>
    have hturn := exec_loopCode (pushes_of_condition hC hcall hc) (exec_stmts hC hcall hb)
    rw [stmt, Eval.stmt, execAll_singleton, exec, execAll_singleton, exec]
    have hloop := catchAt_turns hturn st
    rw [loopCode] at hloop
    rw [hloop, leave_completions]
  | leave hpos =>
    rw [stmt, Eval.stmt, execAll_singleton, exec]
    rfl
  | again hpos =>
    rw [stmt, Eval.stmt, execAll_singleton, exec]
    rfl

/-- After the test of a branch. -/
theorem exec_branch (hC : Agrees Γ U C) (hcall : CallsAgree Γ callM callE) {depth : Nat}
    {o : Else} (h : ElseTyped Γ U ret depth o) {code : List Instr} {body : List Stmt}
    (hbody : ∀ st, execAll C F callM code [] st =
      completions ret depth (Eval.stmts Γ F callE body st)) (w : Word) (st : State) :
    execAll C F callM (branch (.ofSymbols Γ) depth code o) [⟨.i32, w⟩] st =
      completions ret depth (if w = 0 then Eval.elseBranch Γ F callE o st
        else Eval.stmts Γ F callE body st) := by
  cases h with
  | nothing =>
    rw [branch, execAll_singleton, exec, pop_cons, hbody, leave_completions, Eval.elseBranch]
    split <;> rfl
  | branch hc hb ho =>
    rw [branch, execAll_singleton, exec_ifElse, hbody, leave_completions, execAll_append,
      exec_test (pushes_of_condition hC hcall hc)
        (exec_branch hC hcall ho (exec_stmts hC hcall hb)), leave_completions, Eval.elseBranch]
    split <;> rfl
  | block hb =>
    rw [branch, execAll_singleton, exec_ifElse, hbody, leave_completions,
      exec_stmts hC hcall hb, leave_completions, Eval.elseBranch]
    split <;> rfl

/-- The code of statements does what they do in order. -/
theorem exec_stmts (hC : Agrees Γ U C) (hcall : CallsAgree Γ callM callE) {depth : Nat}
    {ss : List Stmt} (h : StmtsTyped Γ U ret depth ss) (st : State) :
    execAll C F callM (stmts (.ofSymbols Γ) depth ss) [] st =
      completions ret depth (Eval.stmts Γ F callE ss st) := by
  cases h with
  | nil =>
    rw [stmts, Eval.stmts]
    exact execAll_nil [] st
  | cons h hs =>
    rw [stmts, Eval.stmts]
    exact completions_cons (exec_stmt hC hcall h) (exec_stmts hC hcall hs) st

end

end Stmts

end Lower

end MiniC
