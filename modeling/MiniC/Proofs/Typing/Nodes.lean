/-
  MiniC.Proofs.Typing.Nodes

  **Checked programs are well typed, node by node.**

  `NodeTyped Γ e t` is the rule of one node: `t` is the type that it gives to
  the root of `e`, from the types that the parts of `e` carry.  Where a node
  stands is its `Role`.  A node carries the type of its rule; only where a
  value is passed on, to a parameter, a variable or the caller, may an array
  be carried as a pointer (`Role.Admits`).  A node without a value is a whole
  statement.

    • `Upright` is what holds of a node and of all nodes below it,
    • `StmtsTyped.upright`: it holds of the whole expressions of a body,
    • `items_folded`: the constant of a global is that of an expression of the
      variable's type,
    • `wellTyped_of_parse` says all of it of a program.
-/
import MiniC.Proofs.Checking.Steps
import MiniC.Proofs.Validation.Stmts

namespace MiniC

/-! ## §1. The rule of a node -/

section Rule

variable (Γ : Symbols)

/-- The rule of its root gives an expression this type. -/
inductive NodeTyped : Expr → Ty → Prop where
  /-- A constant has its own type. -/
  | literal {value : Literal} {ty : Ty} {line : Nat} : NodeTyped (.literal value ty line) value.ty
  /-- A variable has the type it is declared with. -/
  | var {v : VarId} {sym : VarSymbol} {ty : Ty} {line : Nat} (hv : Γ.var? v = some sym) :
      NodeTyped (.var v ty line) sym.ty
  /-- A call has one argument for each parameter, of exactly its type. -/
  | call {f : FuncId} {sym : FuncSymbol} {args : List Expr} {ty : Ty} {line : Nat}
      (hf : Γ.func? f = some sym) (hargs : args.map Expr.ty = sym.params) :
      NodeTyped (.call f args ty line) sym.ret
  | negate {e : Expr} {ty : Ty} {line : Nat} (h : e.ty = .int ∨ e.ty = .float) :
      NodeTyped (.unary .negate e ty line) e.ty
  | not {e : Expr} {ty : Ty} {line : Nat} (h : e.ty.isScalar = true) :
      NodeTyped (.unary .not e ty line) .int
  | deref {e : Expr} {base ty : Ty} {line : Nat} (h : e.ty.base? = some base)
      (hne : base ≠ .void) : NodeTyped (.unary .deref e ty line) base
  /-- The address of an array. -/
  | addressOfVar {v : VarId} {ty ty' : Ty} {line line' : Nat} (h : ty.isArray = true) :
      NodeTyped (.unary .addressOf (.var v ty line) ty' line') (.pointer ty)
  /-- The address of what is at an address. -/
  | addressOfDeref {e : Expr} {ty ty' : Ty} {line line' : Nat} :
      NodeTyped (.unary .addressOf (.unary .deref e ty line) ty' line') e.ty
  | cast {e : Expr} {ty : Ty} {line : Nat} (h : Typing.castable e.ty ty = true) :
      NodeTyped (.unary .cast e ty line) ty
  /-- A variable that is no array is assigned a value of exactly its type. -/
  | assign {v : VarId} {r : Expr} {ty ty' : Ty} {line line' : Nat} (ha : ty.isArray = false)
      (h : r.ty = ty) : NodeTyped (.binary .assign (.var v ty line) r ty' line') .void
  | arith {op : ArithOp} {l r : Expr} {t ty : Ty} {line : Nat}
      (h : ArithTyped op l.ty r.ty t) : NodeTyped (.binary (.arith op) l r ty line) t
  | compare {op : CompareOp} {l r : Expr} {ty : Ty} {line : Nat}
      (h : CompareTyped l.ty r.ty) : NodeTyped (.binary (.compare op) l r ty line) .int
  | bitwise {op : BitOp} {l r : Expr} {ty : Ty} {line : Nat} (hl : l.ty = .int)
      (hr : r.ty = .int) : NodeTyped (.binary (.bitwise op) l r ty line) .int
  | logical {op : LogicOp} {l r : Expr} {ty : Ty} {line : Nat} (hl : l.ty.isScalar = true)
      (hr : r.ty.isScalar = true) : NodeTyped (.binary (.logical op) l r ty line) .int

end Rule

/-- The rule of a variable. -/
theorem NodeTyped.of_var {Γ : Symbols} {v : VarId} {ty t : Ty} {line : Nat}
    (h : NodeTyped Γ (.var v ty line) t) : ∃ sym, Γ.var? v = some sym ∧ t = sym.ty := by
  cases h with
  | var hv => exact ⟨_, hv, rfl⟩

/-! ## §2. Where a node stands -/

/-- What an expression is to what it stands in. -/
inductive Role where
  /-- The whole of a statement. -/
  | statement
  /-- The condition of a test or loop. -/
  | condition
  /-- What a variable starts with. -/
  | initial (v : VarId)
  /-- The value of the function. -/
  | returned
  /-- An argument of a call. -/
  | argument
  /-- The variable that is assigned to. -/
  | target
  /-- The value that it is assigned. -/
  | assigned
  /-- An operand of any other operator. -/
  | operand
  deriving DecidableEq, Repr

/-- A value is passed on to where its type is declared. -/
def Role.passesOn : Role → Bool
  | .initial _ | .returned | .argument | .assigned => true
  | .statement | .condition | .target | .operand => false

/-- A node whose rule gives `t` may carry `ty`: the same type, or the pointer
that an array is passed on as. -/
def Role.Admits (role : Role) (t ty : Ty) : Prop :=
  t = ty ∨ role.passesOn = true ∧ ∃ base n, t = .array base n ∧ ty = .pointer base

/-- The parts of an expression. -/
def Expr.parts : Expr → List (Role × Expr)
  | .literal .. | .var .. => []
  | .call _ args _ _ => args.map (.argument, ·)
  | .unary _ e _ _ => [(.operand, e)]
  | .binary .assign l r _ _ => [(.target, l), (.assigned, r)]
  | .binary _ l r _ _ => [(.operand, l), (.operand, r)]

/-- A node is the root of an expression or below it. -/
inductive Expr.Within (node : Role × Expr) : Role × Expr → Prop where
  | root : Within node node
  | part {role : Role} {e : Expr} {p : Role × Expr} (hp : p ∈ e.parts) (h : Within node p) :
      Within node (role, e)

mutual

/-- The whole expressions of a statement, those inside it included. -/
def Stmt.roots : Stmt → List (Role × Expr)
  | .declare v init => init.toList.map (.initial v, ·)
  | .expr e => [(.statement, e)]
  | .ret value => value.toList.map (.returned, ·)
  | .branch cond body otherwise => (.condition, cond) :: (Stmt.rootsOf body ++ otherwise.roots)
  | .loop cond body => (.condition, cond) :: Stmt.rootsOf body
  | .leave | .again => []

/-- The whole expressions of what is done if a condition fails. -/
def Else.roots : Else → List (Role × Expr)
  | .nothing => []
  | .branch cond body otherwise => (.condition, cond) :: (Stmt.rootsOf body ++ otherwise.roots)
  | .block body => Stmt.rootsOf body

/-- The whole expressions of statements. -/
def Stmt.rootsOf : List Stmt → List (Role × Expr)
  | [] => []
  | s :: ss => s.roots ++ Stmt.rootsOf ss

end

/-- A node stands in the body of a function. -/
def Function.Holds (f : Function) (role : Role) (e : Expr) : Prop :=
  ∃ root ∈ Stmt.rootsOf f.body, Expr.Within (role, e) root

/-! ## §3. Nodes below a well-typed node -/

section Upright

variable {Γ : Symbols} {U : VarId → Prop}
variable {e : Expr} {t ty : Ty}

/-- A node is well typed for its role, and has a value unless it is a
statement. -/
structure Upright (Γ : Symbols) (U : VarId → Prop) (node : Role × Expr) : Prop where
  typed : ∃ t, HasTy Γ U node.2 t ∧ node.1.Admits t node.2.ty
  valued : node.2.ty = .void → node.1 = .statement

/-- Arguments carry the types of the parameters. -/
theorem HaveTys.map_ty {es : List Expr} {tys : List Ty} (h : HaveTys Γ U es tys) :
    es.map Expr.ty = tys := by
  induction es generalizing tys with
  | nil =>
    cases h
    rfl
  | cons e es ih =>
    cases h with
    | cons _ _ hty _ hes => rw [List.map_cons, hty, ih hes]

/-- The judgement contains the rule of the root. -/
theorem HasTy.nodeTyped (h : HasTy Γ U e t) : NodeTyped Γ e t := by
  cases h with
  | literal => exact .literal
  | var hv _ _ => exact .var hv
  | call hf hargs => exact .call hf hargs.map_ty
  | negate _ hn => exact .negate hn
  | not _ hs => exact .not hs
  | deref _ hb hne => exact .deref hb hne
  | addressOfVar _ ha => exact .addressOfVar ha
  | addressOfDeref _ => exact .addressOfDeref
  | cast _ hc => exact .cast hc
  | assign _ ha _ _ hty => exact .assign ha hty
  | arith _ _ h => exact .arith h
  | compare _ _ h => exact .compare h
  | bitwise _ _ h => exact .bitwise h.1 h.2
  | logical _ _ h => exact .logical h.1 h.2

theorem Ty.Decays.admits (h : t.Decays ty) {role : Role} (hrole : role.passesOn = true) :
    role.Admits t ty := by
  cases h with
  | refl => exact .inl rfl
  | array base n => exact .inr ⟨hrole, base, n, rfl, rfl⟩

/-- A node that carries the type of its rule, which is not void. -/
theorem HasTy.upright (h : HasTy Γ U e e.ty) (hne : e.ty ≠ .void) (role : Role) :
    Upright Γ U (role, e) :=
  ⟨⟨e.ty, h, .inl rfl⟩, fun hvoid => absurd hvoid hne⟩

/-- A value that is passed on. -/
theorem Passed.upright (h : Passed Γ U e ty) (hne : ty ≠ .void) {role : Role}
    (hrole : role.passesOn = true) : Upright Γ U (role, e) := by
  obtain ⟨rfl, t, ht, hd⟩ := h
  exact ⟨⟨t, ht, hd.admits hrole⟩, fun hvoid => absurd hvoid hne⟩

/-- Arguments are used as values. -/
theorem HaveTys.upright {es : List Expr} {tys : List Ty} (h : HaveTys Γ U es tys) :
    ∀ e ∈ es, Upright Γ U (.argument, e) := by
  induction es generalizing tys with
  | nil => exact List.forall_mem_nil _
  | cons e es ih =>
    cases h with
    | cons he hd hty hne hes =>
      have hpassed : Passed Γ U e e.ty := ⟨rfl, _, he, hty ▸ hd⟩
      exact List.forall_mem_cons.2 ⟨hpassed.upright (hty ▸ hne) rfl, ih hes⟩

/-- Two nodes next to each other. -/
theorem Upright.both {p q : Role × Expr} (hp : Upright Γ U p) (hq : Upright Γ U q) :
    ∀ n ∈ [p, q], Upright Γ U n :=
  List.forall_mem_cons.2 ⟨hp, List.forall_mem_singleton.2 hq⟩

/-- A variable has a value. -/
theorem HasTy.ne_void_of_var {v : VarId} {line : Nat} (h : HasTy Γ U (.var v ty line) t) :
    t ≠ .void := by
  cases h with
  | var _ _ hne => exact hne

/-- What is at an address has a value. -/
theorem HasTy.ne_void_of_deref {line : Nat} (h : HasTy Γ U (.unary .deref e ty line) t) :
    t ≠ .void := by
  cases h with
  | deref _ _ hne => exact hne

/-- **The parts of a well-typed expression are upright.** -/
theorem HasTy.upright_parts (h : HasTy Γ U e t) : ∀ p ∈ e.parts, Upright Γ U p := by
  -- in each rule the operands carry the types of their own rules, and the
  -- rule itself says that these are not void
  cases h with
  | literal => exact List.forall_mem_nil _
  | var _ _ _ => exact List.forall_mem_nil _
  | call _ hargs => exact List.forall_mem_map.2 hargs.upright
  | negate he hn =>
    refine List.forall_mem_singleton.2 (he.upright ?_ _)
    rcases hn with hn | hn <;> rw [hn] <;> decide
  | not he hs => exact List.forall_mem_singleton.2 (he.upright (Ty.ne_void_of_isScalar hs) _)
  | deref he hb _ => exact List.forall_mem_singleton.2 (he.upright (Ty.ne_void_of_base? hb) _)
  | addressOfVar hv _ => exact List.forall_mem_singleton.2 (hv.upright hv.ne_void_of_var _)
  | addressOfDeref he => exact List.forall_mem_singleton.2 (he.upright he.ne_void_of_deref _)
  | cast he hc =>
    exact List.forall_mem_singleton.2 (he.upright (Typing.ne_void_of_castable hc).1 _)
  | assign hv _ hr hd hty =>
    have hne := hv.ne_void_of_var
    have hpassed : Passed Γ U _ _ := ⟨hty, _, hr, hd⟩
    exact (hv.upright hne _).both (hpassed.upright hne rfl)
  | arith hl hr h =>
    exact (hl.upright h.ne_void.1 _).both (hr.upright h.ne_void.2.1 _)
  | compare hl hr h =>
    exact (hl.upright h.ne_void.1 _).both (hr.upright h.ne_void.2 _)
  | bitwise hl hr h =>
    refine (hl.upright ?_ _).both (hr.upright ?_ _)
    · rw [h.1]
      decide
    · rw [h.2]
      decide
  | logical hl hr h =>
    exact (hl.upright (Ty.ne_void_of_isScalar h.1) _).both
      (hr.upright (Ty.ne_void_of_isScalar h.2) _)

/-- Nodes below an upright node are upright. -/
theorem Upright.within {node root : Role × Expr} (h : Expr.Within node root)
    (hroot : Upright Γ U root) : Upright Γ U node := by
  induction h with
  | root => exact hroot
  | part hp _ ih =>
    obtain ⟨t, ht, _⟩ := hroot.typed
    exact ih (ht.upright_parts _ hp)

variable {ret : Ty}

mutual

/-- Expressions of a statement are used as they may be. -/
theorem StmtTyped.upright {depth : Nat} {s : Stmt} (h : StmtTyped Γ U ret depth s) :
    ∀ n ∈ s.roots, Upright Γ U n := by
  cases h with
  | declare _ _ _ hne hinit =>
    refine List.forall_mem_map.2 fun e he => ?_
    exact (hinit e (Option.mem_toList.1 he)).2.upright hne rfl
  | expr he => exact List.forall_mem_singleton.2 ⟨⟨_, he, .inl rfl⟩, fun _ => rfl⟩
  | ret _ => exact List.forall_mem_nil _
  | retValue hret he => exact List.forall_mem_singleton.2 (he.upright hret rfl)
  | branch hc hb ho =>
    refine List.forall_mem_cons.2 ⟨hc.1.upright hc.2 _, ?_⟩
    exact List.forall_mem_append.2 ⟨hb.upright, ho.upright⟩
  | loop hc hb => exact List.forall_mem_cons.2 ⟨hc.1.upright hc.2 _, hb.upright⟩
  | leave _ => exact List.forall_mem_nil _
  | again _ => exact List.forall_mem_nil _

/-- Expressions of the other branch are used as they may be. -/
theorem ElseTyped.upright {depth : Nat} {o : Else} (h : ElseTyped Γ U ret depth o) :
    ∀ n ∈ o.roots, Upright Γ U n := by
  cases h with
  | nothing => exact List.forall_mem_nil _
  | branch hc hb ho =>
    refine List.forall_mem_cons.2 ⟨hc.1.upright hc.2 _, ?_⟩
    exact List.forall_mem_append.2 ⟨hb.upright, ho.upright⟩
  | block hb => exact hb.upright

/-- **The whole expressions of a body are upright.** -/
theorem StmtsTyped.upright {depth : Nat} {ss : List Stmt} (h : StmtsTyped Γ U ret depth ss) :
    ∀ n ∈ Stmt.rootsOf ss, Upright Γ U n := by
  cases h with
  | nil => exact List.forall_mem_nil _
  | cons h hs => exact List.forall_mem_append.2 ⟨h.upright, hs.upright⟩

end

end Upright

/-! ## §4. The constants of globals -/

/-- A constant is that of an expression of exactly the variable's type, all
nodes of which are upright. -/
def Folded (Γ : Symbols) (v : VarId) (c : Literal) : Prop :=
  ∃ sym e, Γ.var? v = some sym ∧ e.ty = sym.ty ∧ e.constant? = some c ∧
    ∀ node, Expr.Within node (.initial v, e) → Upright Γ (fun _ => True) node

namespace Check

variable {c : Literal} {v : VarId} {Γ : Symbols}

/-- An initial constant is the value of its expression. -/
theorem constant?_of_constant {init : Option Expr} (h : constant init = .ok (some c)) :
    ∃ e, init = some e ∧ e.constant? = some c := by
  cases init with
  | none => cases h
  | some e =>
    rw [constant] at h
    split at h
    · rename_i c' hc
      cases h
      exact ⟨e, rfl, hc⟩
    · cases h

/-- The constant of a global that is declared. -/
theorem folded_of_declaration {env : Env} {d : Outline.Declaration} {init : Option Expr}
    {st : State} (hvalued : env.symbols.Valued)
    (hdecl : declaration { env with locals := [] } .globalVar d = .ok ((v, init), st))
    (hc : constant init = .ok (some c)) (hext : st.symbols.Extends Γ) : Folded Γ v c := by
  obtain ⟨ty, hne, hinit, hdeclare⟩ := declaration_eq_ok hdecl
  obtain ⟨e, rfl, hfold⟩ := constant?_of_constant hc
  obtain ⟨_, hsym, _⟩ := declare_eq_ok hdeclare
  -- the expression was checked before the variable was entered
  have hbefore : env.symbols.Extends Γ :=
    (hsym ▸ Symbols.extends_withVar _ _ : env.symbols.Extends st.symbols).trans hext
  have hpassed : Passed Γ (fun _ => True) e ty :=
    (initial_passed ⟨hbefore, hvalued, fun _ => trivial⟩ hinit e rfl).2
  refine ⟨_, e, hext.var (var?_of_declare hdeclare), hpassed.1, hfold, fun node hnode => ?_⟩
  exact Upright.within hnode (hpassed.upright hne rfl)

/-- A step adds only constants that are folded. -/
theorem ItemChecked.folded {found found' : Found} {i : Outline.Item} (hok : found.Ok)
    (h : ItemChecked found i found') (hext : found'.env.symbols.Extends Γ)
    (hv : .global v (some c) ∈ found'.items) : .global v (some c) ∈ found.items ∨ Folded Γ v c := by
  cases h with
  | imported _ _ => exact .inl hv
  | declared _ _ => exact .inl hv
  | defined _ _ _ =>
    rcases List.mem_append.1 hv with hv | hv
    · exact .inl hv
    · cases List.mem_singleton.1 hv
  | global hdecl hvalue =>
    rcases List.mem_append.1 hv with hv | hv
    · exact .inl hv
    · cases List.mem_singleton.1 hv
      exact .inr (folded_of_declaration hok.valued hdecl hvalue hext)

/-- **The constants of all globals are folded.** -/
theorem items_folded {is : List Outline.Item} {found found' : Found} (hok : found.Ok)
    (h : items found is = .ok found') (hext : found'.env.symbols.Extends Γ)
    (hv : .global v (some c) ∈ found'.items) : .global v (some c) ∈ found.items ∨ Folded Γ v c := by
  induction is generalizing found with
  | nil =>
    cases h
    exact .inl hv
  | cons i is ih =>
    obtain ⟨found₁, hi, h⟩ := bind_eq_ok.1 h
    have hstep := item_step hok hi
    rcases ih hstep.ok h with hv | hfolded
    · -- the global was there after the first item already
      have hext₁ := (items_step hstep.ok h).symbols.trans hext
      exact (itemChecked_of_item hi).folded hok hext₁ hv
    · exact .inr hfolded

end Check

/-- Every initial value of a global was folded. -/
theorem folded_of_parse {text : String} {p : Program} (h : parse text = .ok p) {v : VarId}
    {c : Literal} (hv : .global v (some c) ∈ p.items) : Folded p.symbols v c := by
  obtain ⟨found, hitems, h⟩ := bind_eq_ok.1 h
  obtain ⟨_, _, h⟩ := bind_eq_ok.1 h
  cases h
  exact (Check.items_folded Check.Found.ok_empty hitems (.refl _) hv).resolve_left nofun

/-! ## §5. Programs -/

/-- What typing means for a whole program. -/
structure Program.WellTyped (p : Program) : Prop where
  /-- Every node carries the type of its rule; an array that is passed on may
  be carried as a pointer. -/
  nodes : ∀ f ∈ p.functions, ∀ {role : Role} {e : Expr}, f.Holds role e →
    ∃ t, NodeTyped p.symbols e t ∧ role.Admits t e.ty
  /-- What has no value is a statement. -/
  valued : ∀ f ∈ p.functions, ∀ {role : Role} {e : Expr}, f.Holds role e → e.ty = .void →
    role = .statement
  /-- A variable starts with a value of exactly its type; an array starts with
  none. -/
  initials : ∀ f ∈ p.functions, ∀ {x : Nat × Stmt}, x ∈ Stmt.nested 0 f.body →
    ∀ {v : VarId} {init : Option Expr}, x.2 = .declare v init →
    ∃ sym, p.symbols.var? v = some sym ∧ sym.ty ≠ .void ∧
      ∀ e ∈ init, e.ty = sym.ty ∧ sym.ty.isArray = false
  /-- A function returns a value of exactly its type, or none if it has
  none. -/
  returns : ∀ f ∈ p.functions, ∀ {x : Nat × Stmt}, x ∈ Stmt.nested 0 f.body →
    ∀ {value : Option Expr}, x.2 = .ret value →
    (value = none ↔ f.ret = .void) ∧ ∀ e ∈ value, e.ty = f.ret
  /-- A global starts with the constant of an expression of exactly its
  type, the nodes of which obey the same rules. -/
  globals : ∀ {v : VarId} {c : Literal}, .global v (some c) ∈ p.items →
    ∃ sym e, p.symbols.var? v = some sym ∧ e.ty = sym.ty ∧ e.constant? = some c ∧
      ∀ {role : Role} {e' : Expr}, Expr.Within (role, e') (.initial v, e) →
        (∃ t, NodeTyped p.symbols e' t ∧ role.Admits t e'.ty) ∧ e'.ty ≠ .void

theorem Upright.nodeTyped {Γ : Symbols} {U : VarId → Prop} {role : Role} {e : Expr}
    (h : Upright Γ U (role, e)) : ∃ t, NodeTyped Γ e t ∧ role.Admits t e.ty := by
  obtain ⟨t, ht, hadmits⟩ := h.typed
  exact ⟨t, ht.nodeTyped, hadmits⟩

/-- No part of an expression is a statement. -/
theorem Expr.ne_statement_of_mem_parts {e : Expr} {p : Role × Expr} (h : p ∈ e.parts) :
    p.1 ≠ .statement := by
  rcases p with ⟨role, a⟩
  rintro rfl
  unfold Expr.parts at h
  split at h <;> simp at h

theorem Expr.Within.ne_statement {node root : Role × Expr} (h : Expr.Within node root)
    (hroot : root.1 ≠ .statement) : node.1 ≠ .statement := by
  induction h with
  | root => exact hroot
  | part hp _ ih => exact ih (Expr.ne_statement_of_mem_parts hp)

section Statements

variable {Γ : Symbols} {U : VarId → Prop} {ret : Ty} {depth : Nat}

/-- The rule for declarations. -/
theorem StmtTyped.initials {v : VarId} {init : Option Expr}
    (h : StmtTyped Γ U ret depth (.declare v init)) :
    ∃ sym, Γ.var? v = some sym ∧ sym.ty ≠ .void ∧
      ∀ e ∈ init, e.ty = sym.ty ∧ sym.ty.isArray = false := by
  cases h with
  | declare hv _ _ hne hinit =>
    exact ⟨_, hv, hne, fun e he => ⟨(hinit e he).2.1, (hinit e he).1⟩⟩

/-- The rule for returns. -/
theorem StmtTyped.returns {value : Option Expr} (h : StmtTyped Γ U ret depth (.ret value)) :
    (value = none ↔ ret = .void) ∧ ∀ e ∈ value, e.ty = ret := by
  cases h with
  | ret hret => exact ⟨iff_of_true rfl hret, nofun⟩
  | retValue hne he =>
    refine ⟨iff_of_false nofun hne, fun e' he' => ?_⟩
    cases he'
    exact he.1

end Statements

/-- **Only well-typed programs are returned.** -/
theorem wellTyped_of_parse {text : String} {p : Program} (h : parse text = .ok p) :
    p.WellTyped := by
  have hp := wellFormed_of_parse h
  have hupright : ∀ f ∈ p.functions, ∀ {role : Role} {e : Expr}, f.Holds role e →
      Upright p.symbols (fun v => v ∈ p.globals ∨ v ∈ f.locals) (role, e) := by
    rintro f hf role e ⟨root, hroot, hwithin⟩
    exact Upright.within hwithin ((hp.functions f hf).body.upright root hroot)
  have hstmt := fun f hf x hx => (hp.functions f hf).body.nested x hx
  exact {
    nodes := fun f hf role e he => (hupright f hf he).nodeTyped
    valued := fun f hf role e he hvoid => (hupright f hf he).valued hvoid
    initials := by
      intro f hf x hx v init heq
      have htyped := hstmt f hf x hx
      rw [heq] at htyped
      exact htyped.initials
    returns := by
      intro f hf x hx value heq
      have htyped := hstmt f hf x hx
      rw [heq] at htyped
      exact htyped.returns
    globals := by
      intro v c hv
      obtain ⟨sym, e, hsym, hty, hfold, hnodes⟩ := folded_of_parse h hv
      refine ⟨sym, e, hsym, hty, hfold, fun {role e'} hwithin => ?_⟩
      have hnode := hnodes _ hwithin
      -- an initial value is no statement, and neither is any node below it
      exact ⟨hnode.nodeTyped, fun hvoid => hwithin.ne_statement nofun (hnode.valued hvoid)⟩ }

/-- The array that the sample program passes to its own function is carried as
a pointer, and only there: the rule of the node gives the array. -/
theorem wellTyped_of_parse_argument :
    parse sampleText = .ok sampleProgram ∧
      sampleFunction.Holds .argument (.var ⟨0⟩ (.pointer .int) 1) ∧
      (∃ t, NodeTyped sampleProgram.symbols (.var ⟨0⟩ (.pointer .int) 1) t ∧
        Role.argument.Admits t (.pointer .int)) ∧
      ¬ NodeTyped sampleProgram.symbols (.var ⟨0⟩ (.pointer .int) 1) (.pointer .int) := by
  have hf : sampleFunction ∈ sampleProgram.functions := List.mem_singleton.2 rfl
  have hholds : sampleFunction.Holds .argument (.var ⟨0⟩ (.pointer .int) 1) := by
    refine ⟨(.statement, _), .tail _ (.head _), ?_⟩
    -- below the assignment, the sum and the call
    exact .part (.tail _ (.head _)) (.part (.tail _ (.head _)) (.part (.head _) .root))
  refine ⟨parse_sampleText, hholds, (wellTyped_of_parse parse_sampleText).nodes _ hf hholds, ?_⟩
  intro hnode
  obtain ⟨sym, hv, hty⟩ := hnode.of_var
  cases hv
  cases hty

end MiniC
