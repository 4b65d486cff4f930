/-
  MiniC.Proofs.Validation.Stmts

  **The code of well-typed statements is valid.**

  The code of a statement takes any stack and leaves it as it was.  Where a
  loop is left or tested again, the labels of the loops around are those that
  the code has put there (`loopLabels`).  After a return the stack may be
  anything, so a body that ends in one has the result of its function; any
  other body of a function with a result ends in a stop.

  The same is said of every statement at any depth of a body (`Stmt.nested`).
-/
import MiniC.Proofs.Validation.Exprs

namespace MiniC

open Wasm

namespace Lower

/-! ## §1. Contexts -/

/-- The labels of the loops around, the innermost first. -/
def loopLabels : Nat → List Label
  | 0 => []
  | depth + 1 => .entry (depth + 1) :: .exit (depth + 1) :: loopLabels depth

theorem mem_loopLabels {depth : Nat} (h : 0 < depth) :
    .exit depth ∈ loopLabels depth ∧ .entry depth ∈ loopLabels depth := by
  cases depth with
  | zero => cases h
  | succ depth => exact ⟨.tail _ (.head _), .head _⟩

/-- What the code of statements is valid in: the names agree with the table,
there is memory, and the result and the labels are those of the function and
of the loops around. -/
structure Covers (Γ : Symbols) (U : VarId → Prop) (ret : Ty) (depth : Nat) (C : Context) :
    Prop where
  agrees : Agrees Γ U C
  memory : C.memory = true
  result : C.result = ret.result?
  labels : C.labels = loopLabels depth

variable {Γ : Symbols} {U : VarId → Prop} {ret : Ty} {depth : Nat} {C : Context}

/-- Inside one more loop. -/
theorem Covers.inside (h : Covers Γ U ret depth C) :
    Covers Γ U ret (depth + 1)
      ((C.inside (.exit (depth + 1))).inside (.entry (depth + 1))) where
  agrees := ⟨h.agrees.globalTy, h.agrees.localTy, h.agrees.funcTy⟩
  memory := h.memory
  result := h.result
  labels := by
    show _ :: _ :: C.labels = _
    rw [h.labels]
    rfl

/-! ## §2. Statements -/

/-- A passed value is left as its parameter's type. -/
theorem leaves_passed (hC : Agrees Γ U C) (hm : C.memory = true) {e : Expr} {ty : Ty}
    (h : Passed Γ U e ty) (hne : ty ≠ .void) :
    Leaves C (expr (.ofSymbols Γ) e) ty.valType := by
  obtain ⟨hty, t, he, hd⟩ := h
  intro ts
  have hcode := codeTyped_expr hC hm he (hty ▸ hd) ts
  rwa [hd.result?_eq, toList_result? hne] at hcode

theorem leaves_condition (hC : Agrees Γ U C) (hm : C.memory = true) {e : Expr}
    (h : Condition Γ U e) : Leaves C (condition (.ofSymbols Γ) e) .i32 :=
  (leaves_of_ne_void h.2 (codeTyped_expr hC hm h.1 (.refl _))).then
    fun ts => codeTyped_toCondition ts e.ty

/-- Nothing is left of the value of an expression that is a statement. -/
theorem codeTyped_discard (ty : Ty) (ts : List ValType) :
    CodeTyped C (if ty = .void then [] else [.drop]) (ty.result?.toList ++ ts) ts := by
  split
  · rename_i hty
    rw [hty]
    exact .nil
  · rename_i hty
    rw [toList_result? hty]
    exact (InstrTyped.drop _).code ts

/-- A declaration leaves the stack as it was. -/
theorem codeTyped_declare (hC : Covers Γ U ret depth C) {v : VarId} {sym : VarSymbol}
    {init : Option Expr} (hv : Γ.var? v = some sym) (hu : U v) (hs : sym.storage = .localVar)
    (hne : sym.ty ≠ .void)
    (hinit : ∀ e ∈ init, sym.ty.isArray = false ∧ Passed Γ U e sym.ty) (ts : List ValType) :
    CodeTyped C (stmt (.ofSymbols Γ) depth (.declare v init)) ts ts := by
  have hset : CodeTyped C [(Env.ofSymbols Γ).set v] (sym.ty.valType :: ts) ts := by
    refine (instrTyped_set hC.agrees hv hu fun hg => ?_).code ts
    rw [hs] at hg
    cases hg
  unfold stmt
  cases haddr : (Env.ofSymbols Γ).address? v with
  | some address =>
    have harray := Env.isSome_address? Γ v
    rw [haddr, hv] at harray
    rw [Ty.valType_of_isArray harray.symm] at hset
    exact .cons (.const (.word address)) hset
  | none =>
    cases init with
    | none => exact .nil
    | some e => exact (leaves_passed hC.agrees hC.memory (hinit e rfl).2 hne ts).append hset

/-- A return is valid where the stack has the result on top. -/
theorem codeTyped_ret (hC : Covers Γ U ret depth C) (ts us : List ValType) :
    CodeTyped C [.ret] (ret.result?.toList ++ ts) us := by
  have hret := InstrTyped.ret (C := C) ts us
  rw [hC.result] at hret
  have hcode := hret.code []
  rwa [List.append_nil, List.append_nil] at hcode

/-- Code that goes to a label does not go on. -/
theorem codeTyped_br {l : Label} (h : l ∈ C.labels) (ts us : List ValType) :
    CodeTyped C [.br l] ts us := by
  have hcode := (InstrTyped.br h ts us).code []
  rwa [List.append_nil, List.append_nil] at hcode

/-- **The code of a return can leave any stack.** -/
theorem codeTyped_return (hC : Covers Γ U ret depth C) {s : Stmt} (hs : s.isReturn = true)
    (h : StmtTyped Γ U ret depth s) (ts us : List ValType) :
    CodeTyped C (stmt (.ofSymbols Γ) depth s) ts us := by
  cases h with
  | ret hr =>
    have hret := codeTyped_ret hC ts us
    rw [hr] at hret
    rw [stmt]
    exact hret
  | retValue hne he =>
    have hret := codeTyped_ret hC ts us
    rw [toList_result? hne] at hret
    rw [stmt]
    exact (leaves_passed hC.agrees hC.memory he hne ts).append hret
  | _ => cases hs

/-- The code inside a loop. -/
theorem codeTyped_loop (hC : Covers Γ U ret depth C) {cond : Expr} {body : List Instr}
    (hc : Condition Γ U cond)
    (hb : CodeTyped ((C.inside (.exit (depth + 1))).inside (.entry (depth + 1))) body [] [])
    (ts : List ValType) :
    CodeTyped C [.block (.exit (depth + 1)) [.loop (.entry (depth + 1))
      (condition (.ofSymbols Γ) cond ++ [.eqz, .brIf (.exit (depth + 1))] ++
        body ++ [.br (.entry (depth + 1))])]] ts ts := by
  have hin := hC.inside
  -- the code inside leaves for the block and goes back to the loop
  have hlabels := mem_loopLabels (Nat.succ_pos depth)
  rw [← hin.labels] at hlabels
  have htest := (InstrTyped.eqz.code []).append ((InstrTyped.brIf hlabels.1).code [])
  have hcode := (((leaves_condition hin.agrees hin.memory hc []).append htest).append hb).append
    (codeTyped_br hlabels.2 [] [])
  exact (InstrTyped.block ((InstrTyped.loop hcode).code [])).code ts

mutual

/-- **The code of a statement leaves the stack as it was.** -/
theorem codeTyped_stmt {depth : Nat} {C : Context} (hC : Covers Γ U ret depth C) {s : Stmt}
    (h : StmtTyped Γ U ret depth s) (ts : List ValType) :
    CodeTyped C (stmt (.ofSymbols Γ) depth s) ts ts := by
  cases h with
  | declare hv hu hs hne hinit => exact codeTyped_declare hC hv hu hs hne hinit ts
  | expr he =>
    rw [stmt]
    exact (codeTyped_expr hC.agrees hC.memory he (.refl _) ts).append (codeTyped_discard _ ts)
  | ret hr => exact codeTyped_return hC rfl (.ret hr) ts ts
  | retValue hne he => exact codeTyped_return hC rfl (.retValue hne he) ts ts
  | branch hc hb ho =>
    rw [stmt]
    exact (leaves_condition hC.agrees hC.memory hc ts).append
      (codeTyped_branch hC ho (codeTyped_stmts hC hb []) ts)
  | loop hc hb =>
    rw [stmt]
    exact codeTyped_loop hC hc (codeTyped_stmts hC.inside hb []) ts
  | leave hpos =>
    have hl := (mem_loopLabels hpos).1
    rw [← hC.labels] at hl
    rw [stmt]
    exact codeTyped_br hl ts ts
  | again hpos =>
    have hl := (mem_loopLabels hpos).2
    rw [← hC.labels] at hl
    rw [stmt]
    exact codeTyped_br hl ts ts

/-- After the test of a branch. -/
theorem codeTyped_branch {depth : Nat} {C : Context} (hC : Covers Γ U ret depth C) {o : Else}
    (h : ElseTyped Γ U ret depth o) {body : List Instr} (hbody : CodeTyped C body [] [])
    (ts : List ValType) :
    CodeTyped C (branch (.ofSymbols Γ) depth body o) (.i32 :: ts) ts := by
  cases h with
  | nothing =>
    rw [branch]
    exact (InstrTyped.ifThen hbody).code ts
  | branch hc hb ho =>
    have hother := (leaves_condition hC.agrees hC.memory hc []).append
      (codeTyped_branch hC ho (codeTyped_stmts hC hb []) [])
    rw [branch]
    exact (InstrTyped.ifElse hbody hother).code ts
  | block hb =>
    rw [branch]
    exact (InstrTyped.ifElse hbody (codeTyped_stmts hC hb [])).code ts

/-- Statements leave the stack as it was. -/
theorem codeTyped_stmts {depth : Nat} {C : Context} (hC : Covers Γ U ret depth C)
    {ss : List Stmt} (h : StmtsTyped Γ U ret depth ss) (ts : List ValType) :
    CodeTyped C (stmts (.ofSymbols Γ) depth ss) ts ts := by
  cases h with
  | nil =>
    rw [stmts]
    exact .nil
  | cons h hs =>
    rw [stmts]
    exact (codeTyped_stmt hC h ts).append (codeTyped_stmts hC hs ts)

end

/-- Statements that end in a return can leave any stack. -/
theorem codeTyped_stmts_of_isReturn (hC : Covers Γ U ret depth C) {ss : List Stmt}
    (hlast : ss.getLast?.any Stmt.isReturn = true) (h : StmtsTyped Γ U ret depth ss)
    (ts us : List ValType) : CodeTyped C (stmts (.ofSymbols Γ) depth ss) ts us := by
  induction ss with
  | nil => cases hlast
  | cons s ss ih =>
    cases h with
    | cons h hs =>
      rw [stmts]
      cases ss with
      | nil =>
        rw [stmts, List.append_nil]
        exact codeTyped_return hC hlast h ts us
      | cons s' ss => exact (codeTyped_stmt hC h ts).append (ih hlast hs)

/-- **The body of a function ends with exactly its result.** -/
theorem codeTyped_body {f : Function} (hC : Covers Γ U f.ret 0 C)
    (h : StmtsTyped Γ U f.ret 0 f.body) :
    CodeTyped C (function (.ofSymbols Γ) f).body [] f.ret.result?.toList := by
  show CodeTyped C (stmts (.ofSymbols Γ) 0 f.body ++ ite _ _ _) [] _
  split
  · have hstop := (InstrTyped.unreachable (C := C) [] f.ret.result?.toList).code []
    rw [List.append_nil, List.append_nil] at hstop
    exact (codeTyped_stmts hC h []).append hstop
  · -- nothing follows the statements: there is no result, or a return comes last
    rename_i hno
    rw [List.append_nil]
    by_cases hret : f.ret = .void
    · have hresult : f.ret.result? = none := if_pos hret
      rw [hresult]
      exact codeTyped_stmts hC h []
    · have hlast : f.body.getLast?.any Stmt.isReturn = true := by
        by_contra hlast
        exact hno ⟨hret, by simpa using hlast⟩
      exact codeTyped_stmts_of_isReturn hC hlast h [] _

end Lower

/-! ## §3. Statements inside others -/

mutual

/-- The statements inside a statement, each with the number of loops around
it. -/
def Stmt.inner (depth : Nat) : Stmt → List (Nat × Stmt)
  | .branch _ body otherwise => Stmt.nested depth body ++ otherwise.inner depth
  | .loop _ body => Stmt.nested (depth + 1) body
  | _ => []

/-- The statements inside what is done if a condition fails. -/
def Else.inner (depth : Nat) : Else → List (Nat × Stmt)
  | .nothing => []
  | .branch _ body otherwise => Stmt.nested depth body ++ otherwise.inner depth
  | .block body => Stmt.nested depth body

/-- Statements and those inside them. -/
def Stmt.nested (depth : Nat) : List Stmt → List (Nat × Stmt)
  | [] => []
  | s :: ss => (depth, s) :: (s.inner depth ++ Stmt.nested depth ss)

end

section Nested

variable {Γ : Symbols} {U : VarId → Prop} {ret : Ty}

mutual

/-- Statements within a typed one are typed. -/
theorem StmtTyped.inner {depth : Nat} {s : Stmt} (h : StmtTyped Γ U ret depth s) :
    ∀ x ∈ s.inner depth, StmtTyped Γ U ret x.1 x.2 := by
  cases h with
  | branch hc hb ho =>
    rw [Stmt.inner, List.forall_mem_append]
    exact ⟨hb.nested, ho.inner⟩
  | loop hc hb =>
    rw [Stmt.inner]
    exact hb.nested
  | _ => exact nofun

/-- Statements within a typed other branch are typed. -/
theorem ElseTyped.inner {depth : Nat} {o : Else} (h : ElseTyped Γ U ret depth o) :
    ∀ x ∈ o.inner depth, StmtTyped Γ U ret x.1 x.2 := by
  cases h with
  | nothing => exact nofun
  | branch hc hb ho =>
    rw [Else.inner, List.forall_mem_append]
    exact ⟨hb.nested, ho.inner⟩
  | block hb =>
    rw [Else.inner]
    exact hb.nested

/-- Every statement inside well-typed statements is well typed. -/
theorem StmtsTyped.nested {depth : Nat} {ss : List Stmt} (h : StmtsTyped Γ U ret depth ss) :
    ∀ x ∈ Stmt.nested depth ss, StmtTyped Γ U ret x.1 x.2 := by
  cases h with
  | nil => exact nofun
  | cons h hs =>
    rw [Stmt.nested, List.forall_mem_cons, List.forall_mem_append]
    exact ⟨h, h.inner, hs.nested⟩

end

end Nested

namespace Lower

theorem codeReadsMemory_append (code code' : List Instr) :
    codeReadsMemory (code ++ code') = (codeReadsMemory code || codeReadsMemory code') := by
  induction code with
  | nil => rfl
  | cons i is ih => rw [List.cons_append, codeReadsMemory, codeReadsMemory, ih, Bool.or_assoc]

section Reads

variable {env : Env} {x : Nat × Stmt}

/-- A branch reads memory if its first body does. -/
theorem reads_branch (env : Env) (depth : Nat) {code : List Instr}
    (h : codeReadsMemory code = true) (o : Else) :
    codeReadsMemory (branch env depth code o) = true := by
  cases o with
  | nothing => simp [branch, codeReadsMemory, Instr.readsMemory, h]
  | branch cond other otherwise => simp [branch, codeReadsMemory, Instr.readsMemory, h]
  | block other => simp [branch, codeReadsMemory, Instr.readsMemory, h]

mutual

/-- A statement reads memory if one within it does. -/
theorem reads_of_inner (hx : codeReadsMemory (stmt env x.1 x.2) = true) (depth : Nat) (s : Stmt)
    (h : x ∈ s.inner depth) :
    codeReadsMemory (stmt env depth s) = true := by
  cases s with
  | branch cond body o =>
    rw [stmt, codeReadsMemory_append, Bool.or_eq_true]
    rw [Stmt.inner, List.mem_append] at h
    right
    rcases h with h | h
    · exact reads_branch env depth (reads_of_nested hx depth body h) o
    · exact reads_of_else hx depth o h _
  | loop cond body =>
    rw [Stmt.inner] at h
    simp [stmt, codeReadsMemory, Instr.readsMemory, codeReadsMemory_append,
      reads_of_nested hx (depth + 1) body h]
  | _ => cases h

/-- The other branch reads memory if a statement in it does. -/
theorem reads_of_else (hx : codeReadsMemory (stmt env x.1 x.2) = true) (depth : Nat) (o : Else)
    (h : x ∈ o.inner depth) (code : List Instr) :
    codeReadsMemory (branch env depth code o) = true := by
  cases o with
  | nothing => cases h
  | branch cond body o =>
    rw [Else.inner, List.mem_append] at h
    have hbranch : codeReadsMemory (branch env depth (stmts env depth body) o) = true := by
      rcases h with h | h
      · exact reads_branch env depth (reads_of_nested hx depth body h) o
      · exact reads_of_else hx depth o h _
    simp [branch, codeReadsMemory, Instr.readsMemory, codeReadsMemory_append, hbranch]
  | block body =>
    rw [Else.inner] at h
    simp [branch, codeReadsMemory, Instr.readsMemory, reads_of_nested hx depth body h]

/-- Code reads memory if that of a statement inside does. -/
theorem reads_of_nested (hx : codeReadsMemory (stmt env x.1 x.2) = true) (depth : Nat)
    (ss : List Stmt) (h : x ∈ Stmt.nested depth ss) :
    codeReadsMemory (stmts env depth ss) = true := by
  cases ss with
  | nil => cases h
  | cons s ss =>
    rw [stmts, codeReadsMemory_append, Bool.or_eq_true]
    rw [Stmt.nested, List.mem_cons, List.mem_append] at h
    rcases h with rfl | h | h
    · exact .inl hx
    · exact .inl (reads_of_inner hx depth s h)
    · exact .inr (reads_of_nested hx depth ss h)

end

end Reads

end Lower

end MiniC
