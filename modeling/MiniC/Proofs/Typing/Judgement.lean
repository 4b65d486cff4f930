/-
  MiniC.Proofs.Typing.Judgement

  Which trees are well typed.

  `HasTy Γ U e t` says that `t` is the type that the rules give to the root of
  `e`, where `Γ` is the table of symbols and `U` are the variables that may be
  named.  The type that a node carries is the one that its rule gives, with
  one exception: an argument, an assigned or returned value and what a
  variable starts with may be an array taken as a pointer (`Ty.Decays`).
  Expressions without a value are never operands.

    • `HasTy.of_sub`: every part of a well-typed expression is well typed,
    • `StmtTyped` and `Function.WellFormed` are the rules for statements and
      functions,
    • `Program.WellFormed` is what can be relied on in a checked program.
-/
import MiniC.Program
import MiniC.Typing

namespace MiniC

/-! ## §1. Operators -/

/-- A value of the first type may be passed on as one of the second: an array
stands for the address of its first element. -/
inductive Ty.Decays : Ty → Ty → Prop where
  | refl (t : Ty) : Decays t t
  | array (base : Ty) (n : Nat) : Decays (.array base n) (.pointer base)

theorem Ty.Decays.eq_float_iff {t u : Ty} (h : t.Decays u) : t = .float ↔ u = .float := by
  cases h with
  | refl => exact Iff.rfl
  | array base n => exact ⟨nofun, nofun⟩

/-- The types of arithmetic: of the operands, and of the result. -/
inductive ArithTyped : ArithOp → Ty → Ty → Ty → Prop where
  | int (op : ArithOp) : ArithTyped op .int .int .int
  | float (op : ArithOp) : ArithTyped op .float .float .float
  | pointerAdd {p : Ty} (hp : p.isPointerLike = true) : ArithTyped .add p .int p.decay
  | pointerSub {p : Ty} (hp : p.isPointerLike = true) : ArithTyped .sub p .int p.decay
  | addPointer {p : Ty} (hp : p.isPointerLike = true) : ArithTyped .add .int p p.decay
  | difference {p q : Ty} (hp : p.isPointerLike = true) (hq : q.isPointerLike = true)
      (h : p.decay = q.decay) : ArithTyped .sub p q .int

/-- The types of the operands of a comparison. -/
inductive CompareTyped : Ty → Ty → Prop where
  | int : CompareTyped .int .int
  | float : CompareTyped .float .float
  | pointer {p q : Ty} (hp : p.isPointerLike = true) (hq : q.isPointerLike = true)
      (h : p.decay = q.decay) : CompareTyped p q

section Operands

variable {op : ArithOp} {l r t : Ty}

/-- Next to a pointer, what is no pointer is an integer. -/
theorem ArithTyped.left_eq_int (h : ArithTyped op l r t) (hr : r.isPointerLike = true)
    (hl : l.isPointerLike = false) : l = .int := by
  cases h with
  | int => rfl
  | float => cases hr
  | pointerAdd hp => cases hr
  | pointerSub hp => cases hr
  | addPointer hp => rfl
  | difference hp hq =>
    rw [hp] at hl
    cases hl

/-- What moves a pointer is a number. -/
theorem ArithTyped.right_eq_int (h : ArithTyped op l r t) (hl : l.isPointerLike = true)
    (hr : r.isPointerLike = false) : r = .int := by
  cases h with
  | int => rfl
  | float => cases hl
  | pointerAdd hp => rfl
  | pointerSub hp => rfl
  | addPointer hp => cases hl
  | difference hp hq =>
    rw [hq] at hr
    cases hr

theorem Ty.ne_void_of_isPointerLike {p : Ty} (h : p.isPointerLike = true) : p ≠ .void := by
  rintro rfl
  cases h

theorem Ty.decay_ne_void {p : Ty} (h : p ≠ .void) : p.decay ≠ .void := by
  cases p with
  | array base n => exact nofun
  | _ => exact h

theorem Ty.ne_void_of_isScalar {ty : Ty} (h : ty.isScalar = true) : ty ≠ .void := by
  rintro rfl
  cases h

theorem Ty.ne_void_of_base? {ty base : Ty} (h : ty.base? = some base) : ty ≠ .void := by
  rintro rfl
  cases h

/-- A cast goes from value to value. -/
theorem Typing.ne_void_of_castable {s : Ty} (h : castable s t = true) : s ≠ .void ∧ t ≠ .void := by
  constructor
  · rintro rfl
    cases h
  · rintro rfl
    cases s <;> cases h

/-- Operands of arithmetic have values, and so has the result. -/
theorem ArithTyped.ne_void (h : ArithTyped op l r t) : l ≠ .void ∧ r ≠ .void ∧ t ≠ .void := by
  cases h with
  | int => exact ⟨nofun, nofun, nofun⟩
  | float => exact ⟨nofun, nofun, nofun⟩
  | pointerAdd hp =>
    have hne := Ty.ne_void_of_isPointerLike hp
    exact ⟨hne, nofun, Ty.decay_ne_void hne⟩
  | pointerSub hp =>
    have hne := Ty.ne_void_of_isPointerLike hp
    exact ⟨hne, nofun, Ty.decay_ne_void hne⟩
  | addPointer hp =>
    have hne := Ty.ne_void_of_isPointerLike hp
    exact ⟨nofun, hne, Ty.decay_ne_void hne⟩
  | difference hp hq hd =>
    exact ⟨Ty.ne_void_of_isPointerLike hp, Ty.ne_void_of_isPointerLike hq, nofun⟩

/-- Only values are compared. -/
theorem CompareTyped.ne_void (h : CompareTyped l r) : l ≠ .void ∧ r ≠ .void := by
  cases h with
  | int => exact ⟨nofun, nofun⟩
  | float => exact ⟨nofun, nofun⟩
  | pointer hp hq hd =>
    exact ⟨Ty.ne_void_of_isPointerLike hp, Ty.ne_void_of_isPointerLike hq⟩

end Operands

/-! ## §2. Expressions -/

section Rules

variable (Γ : Symbols) (U : VarId → Prop)

mutual

/-- The rules give the root of an expression this type. -/
inductive HasTy : Expr → Ty → Prop where
  | literal {value : Literal} {ty : Ty} {line : Nat} : HasTy (.literal value ty line) value.ty
  | var {v : VarId} {sym : VarSymbol} {ty : Ty} {line : Nat} (hv : Γ.var? v = some sym)
      (hu : U v) (hne : sym.ty ≠ .void) : HasTy (.var v ty line) sym.ty
  | call {f : FuncId} {sym : FuncSymbol} {args : List Expr} {ty : Ty} {line : Nat}
      (hf : Γ.func? f = some sym) (hargs : HaveTys args sym.params) :
      HasTy (.call f args ty line) sym.ret
  | negate {e : Expr} {ty : Ty} {line : Nat} (he : HasTy e e.ty)
      (hn : e.ty = .int ∨ e.ty = .float) : HasTy (.unary .negate e ty line) e.ty
  | not {e : Expr} {ty : Ty} {line : Nat} (he : HasTy e e.ty) (hs : e.ty.isScalar = true) :
      HasTy (.unary .not e ty line) .int
  | deref {e : Expr} {base ty : Ty} {line : Nat} (he : HasTy e e.ty)
      (hb : e.ty.base? = some base) (hne : base ≠ .void) : HasTy (.unary .deref e ty line) base
  | addressOfVar {v : VarId} {ty ty' : Ty} {line line' : Nat}
      (hv : HasTy (.var v ty line) ty) (ha : ty.isArray = true) :
      HasTy (.unary .addressOf (.var v ty line) ty' line') (.pointer ty)
  | addressOfDeref {e : Expr} {ty ty' : Ty} {line line' : Nat}
      (he : HasTy (.unary .deref e ty line) ty) :
      HasTy (.unary .addressOf (.unary .deref e ty line) ty' line') e.ty
  | cast {e : Expr} {ty : Ty} {line : Nat} (he : HasTy e e.ty)
      (hc : Typing.castable e.ty ty = true) : HasTy (.unary .cast e ty line) ty
  | assign {v : VarId} {r : Expr} {ty t ty' : Ty} {line line' : Nat}
      (hv : HasTy (.var v ty line) ty) (ha : ty.isArray = false) (hr : HasTy r t)
      (hd : t.Decays ty) (hty : r.ty = ty) :
      HasTy (.binary .assign (.var v ty line) r ty' line') .void
  | arith {op : ArithOp} {l r : Expr} {t ty : Ty} {line : Nat} (hl : HasTy l l.ty)
      (hr : HasTy r r.ty) (h : ArithTyped op l.ty r.ty t) :
      HasTy (.binary (.arith op) l r ty line) t
  | compare {op : CompareOp} {l r : Expr} {ty : Ty} {line : Nat} (hl : HasTy l l.ty)
      (hr : HasTy r r.ty) (h : CompareTyped l.ty r.ty) :
      HasTy (.binary (.compare op) l r ty line) .int
  | bitwise {op : BitOp} {l r : Expr} {ty : Ty} {line : Nat} (hl : HasTy l l.ty)
      (hr : HasTy r r.ty) (h : l.ty = .int ∧ r.ty = .int) :
      HasTy (.binary (.bitwise op) l r ty line) .int
  | logical {op : LogicOp} {l r : Expr} {ty : Ty} {line : Nat} (hl : HasTy l l.ty)
      (hr : HasTy r r.ty) (h : l.ty.isScalar = true ∧ r.ty.isScalar = true) :
      HasTy (.binary (.logical op) l r ty line) .int

/-- Arguments for parameters of these types. -/
inductive HaveTys : List Expr → List Ty → Prop where
  | nil : HaveTys [] []
  | cons {e : Expr} {es : List Expr} {t ty : Ty} {tys : List Ty} (he : HasTy e t)
      (hd : t.Decays ty) (hty : e.ty = ty) (hne : ty ≠ .void) (hes : HaveTys es tys) :
      HaveTys (e :: es) (ty :: tys)

end

/-- An expression passed on where a value of type `ty` is wanted. -/
def Passed (e : Expr) (ty : Ty) : Prop := e.ty = ty ∧ ∃ t, HasTy Γ U e t ∧ t.Decays ty

/-- A condition. -/
def Condition (e : Expr) : Prop := HasTy Γ U e e.ty ∧ e.ty ≠ .void

/-! ## §3. Statements -/

mutual

/-- A statement of a function that returns `ret`, with `depth` loops around
it. -/
inductive StmtTyped (ret : Ty) : Nat → Stmt → Prop where
  | declare {depth : Nat} {v : VarId} {sym : VarSymbol} {init : Option Expr}
      (hv : Γ.var? v = some sym) (hu : U v) (hs : sym.storage = .localVar)
      (hne : sym.ty ≠ .void)
      (hinit : ∀ e ∈ init, sym.ty.isArray = false ∧ Passed Γ U e sym.ty) :
      StmtTyped ret depth (.declare v init)
  | expr {depth : Nat} {e : Expr} (he : HasTy Γ U e e.ty) : StmtTyped ret depth (.expr e)
  | ret {depth : Nat} (h : ret = .void) : StmtTyped ret depth (.ret none)
  | retValue {depth : Nat} {e : Expr} (h : ret ≠ .void) (he : Passed Γ U e ret) :
      StmtTyped ret depth (.ret (some e))
  | branch {depth : Nat} {cond : Expr} {body : List Stmt} {otherwise : Else}
      (hc : Condition Γ U cond) (hb : StmtsTyped ret depth body)
      (ho : ElseTyped ret depth otherwise) : StmtTyped ret depth (.branch cond body otherwise)
  | loop {depth : Nat} {cond : Expr} {body : List Stmt} (hc : Condition Γ U cond)
      (hb : StmtsTyped ret (depth + 1) body) : StmtTyped ret depth (.loop cond body)
  | leave {depth : Nat} (h : 0 < depth) : StmtTyped ret depth .leave
  | again {depth : Nat} (h : 0 < depth) : StmtTyped ret depth .again

/-- What is done if a condition fails. -/
inductive ElseTyped (ret : Ty) : Nat → Else → Prop where
  | nothing {depth : Nat} : ElseTyped ret depth .nothing
  | branch {depth : Nat} {cond : Expr} {body : List Stmt} {otherwise : Else}
      (hc : Condition Γ U cond) (hb : StmtsTyped ret depth body)
      (ho : ElseTyped ret depth otherwise) : ElseTyped ret depth (.branch cond body otherwise)
  | block {depth : Nat} {body : List Stmt} (hb : StmtsTyped ret depth body) :
      ElseTyped ret depth (.block body)

/-- Statements one after the other. -/
inductive StmtsTyped (ret : Ty) : Nat → List Stmt → Prop where
  | nil {depth : Nat} : StmtsTyped ret depth []
  | cons {depth : Nat} {s : Stmt} {ss : List Stmt} (h : StmtTyped ret depth s)
      (hs : StmtsTyped ret depth ss) : StmtsTyped ret depth (s :: ss)

end

end Rules

/-! ## §4. Parts of a tree -/

/-- An expression is part of another. -/
inductive Expr.Sub (e : Expr) : Expr → Prop where
  | refl : Sub e e
  | arg {f : FuncId} {a : Expr} {args : List Expr} {ty : Ty} {line : Nat} (ha : a ∈ args)
      (h : Sub e a) : Sub e (.call f args ty line)
  | operand {op : UnaryOp} {a : Expr} {ty : Ty} {line : Nat} (h : Sub e a) :
      Sub e (.unary op a ty line)
  | left {op : BinaryOp} {l r : Expr} {ty : Ty} {line : Nat} (h : Sub e l) :
      Sub e (.binary op l r ty line)
  | right {op : BinaryOp} {l r : Expr} {ty : Ty} {line : Nat} (h : Sub e r) :
      Sub e (.binary op l r ty line)

mutual

/-- The whole expressions of a statement. -/
def Stmt.exprs : Stmt → List Expr
  | .declare _ init => init.toList
  | .expr e => [e]
  | .ret value => value.toList
  | .branch cond body otherwise => cond :: (Stmt.exprsOf body ++ otherwise.exprs)
  | .loop cond body => cond :: Stmt.exprsOf body
  | .leave | .again => []

/-- The whole expressions of what is done if a condition fails. -/
def Else.exprs : Else → List Expr
  | .nothing => []
  | .branch cond body otherwise => cond :: (Stmt.exprsOf body ++ otherwise.exprs)
  | .block body => Stmt.exprsOf body

/-- The whole expressions of statements. -/
def Stmt.exprsOf : List Stmt → List Expr
  | [] => []
  | s :: ss => s.exprs ++ Stmt.exprsOf ss

end

/-- An expression occurs in the body of a function. -/
def Function.Mentions (f : Function) (e : Expr) : Prop :=
  ∃ root ∈ Stmt.exprsOf f.body, e.Sub root

section Parts

variable {Γ : Symbols} {U : VarId → Prop}
variable {e : Expr}

/-- A whole expression is well typed, perhaps passed on as a pointer. -/
def WholeTyped (Γ : Symbols) (U : VarId → Prop) (e : Expr) : Prop :=
  ∃ t, HasTy Γ U e t ∧ t.Decays e.ty

/-- There are as many arguments as parameters. -/
theorem HaveTys.length_eq {es : List Expr} {tys : List Ty} (h : HaveTys Γ U es tys) :
    es.length = tys.length := by
  induction es generalizing tys with
  | nil =>
    cases h
    rfl
  | cons e es ih =>
    cases h with
    | cons _ _ _ _ hes => exact congrArg Nat.succ (ih hes)

/-- Each argument is typed throughout. -/
theorem HaveTys.of_mem {es : List Expr} {tys : List Ty} (h : HaveTys Γ U es tys) (he : e ∈ es) :
    WholeTyped Γ U e := by
  induction es generalizing tys with
  | nil => cases he
  | cons a as ih =>
    cases h with
    | cons ha hd hty _ has =>
      rcases List.mem_cons.1 he with rfl | he
      · exact ⟨_, ha, hty ▸ hd⟩
      · exact ih has he

/-- Every part of a well-typed expression is well typed. -/
theorem HasTy.of_sub {root : Expr} {t : Ty} (h : HasTy Γ U root t) (hd : t.Decays root.ty)
    (hs : e.Sub root) : WholeTyped Γ U e := by
  induction hs generalizing t with
  | refl => exact ⟨t, h, hd⟩
  | arg ha _ ih =>
    cases h with
    | call _ hargs =>
      obtain ⟨t', ha', hd'⟩ := hargs.of_mem ha
      exact ih ha' hd'
  | operand _ ih =>
    cases h with
    | negate he _ => exact ih he (.refl _)
    | not he _ => exact ih he (.refl _)
    | deref he _ _ => exact ih he (.refl _)
    | addressOfVar hv _ => exact ih hv (.refl _)
    | addressOfDeref he => exact ih he (.refl _)
    | cast he _ => exact ih he (.refl _)
  | left _ ih =>
    cases h with
    | assign hv _ _ _ _ => exact ih hv (.refl _)
    | arith hl _ _ => exact ih hl (.refl _)
    | compare hl _ _ => exact ih hl (.refl _)
    | bitwise hl _ _ => exact ih hl (.refl _)
    | logical hl _ _ => exact ih hl (.refl _)
  | right _ ih =>
    cases h with
    | assign _ _ hr hd' hty => exact ih hr (hty ▸ hd')
    | arith _ hr _ => exact ih hr (.refl _)
    | compare _ hr _ => exact ih hr (.refl _)
    | bitwise _ hr _ => exact ih hr (.refl _)
    | logical _ hr _ => exact ih hr (.refl _)

variable {ret : Ty}

theorem Passed.whole {ty : Ty} (h : Passed Γ U e ty) : WholeTyped Γ U e := by
  obtain ⟨rfl, h⟩ := h
  exact h

theorem Condition.whole (h : Condition Γ U e) : WholeTyped Γ U e :=
  ⟨e.ty, h.1, .refl _⟩

mutual

/-- The expressions of a typed statement are typed throughout. -/
theorem StmtTyped.exprs {depth : Nat} {s : Stmt} (h : StmtTyped Γ U ret depth s) :
    ∀ e ∈ s.exprs, WholeTyped Γ U e := by
  cases h with
  | declare _ _ _ _ hinit =>
    intro e he
    exact (hinit e (by simpa [Stmt.exprs] using he)).2.whole
  | expr he => simpa [Stmt.exprs] using ⟨_, he, .refl _⟩
  | ret _ => simp [Stmt.exprs]
  | retValue _ he => simpa [Stmt.exprs] using he.whole
  | branch hc hb ho =>
    simpa [Stmt.exprs, or_imp, forall_and] using ⟨hc.whole, hb.exprs, ho.exprs⟩
  | loop hc hb => simpa [Stmt.exprs] using ⟨hc.whole, hb.exprs⟩
  | leave _ => simp [Stmt.exprs]
  | again _ => simp [Stmt.exprs]

/-- The expressions of a typed other branch are typed throughout. -/
theorem ElseTyped.exprs {depth : Nat} {o : Else} (h : ElseTyped Γ U ret depth o) :
    ∀ e ∈ o.exprs, WholeTyped Γ U e := by
  cases h with
  | nothing => simp [Else.exprs]
  | branch hc hb ho =>
    simpa [Else.exprs, or_imp, forall_and] using ⟨hc.whole, hb.exprs, ho.exprs⟩
  | block hb => simpa [Else.exprs] using hb.exprs

/-- The expressions of typed statements are typed throughout. -/
theorem StmtsTyped.exprs {depth : Nat} {ss : List Stmt} (h : StmtsTyped Γ U ret depth ss) :
    ∀ e ∈ Stmt.exprsOf ss, WholeTyped Γ U e := by
  cases h with
  | nil => simp [Stmt.exprsOf]
  | cons h hs => simpa [Stmt.exprsOf, or_imp, forall_and] using ⟨h.exprs, hs.exprs⟩

end

end Parts

/-! ## §5. Programs -/

/-- The functions of a program with a body. -/
def Program.functions (p : Program) : List Function :=
  p.items.filterMap fun
    | .function f => some f
    | .global .. => none

/-- The global variables of a program. -/
def Program.globals (p : Program) : List VarId :=
  p.items.filterMap fun
    | .function _ => none
    | .global v _ => some v

/-- A function of a program with the table of symbols `Γ` and the global
variables `G`. -/
structure Function.WellFormed (Γ : Symbols) (G : List VarId) (f : Function) : Prop where
  /-- The table knows the function by its name and types. -/
  symbol : ∃ sym, Γ.func? f.id = some sym ∧ sym.name = f.name ∧ sym.ret = f.ret ∧
    f.params.map (fun v => (Γ.var? v).map (·.ty)) = sym.params.map some
  /-- The parameters are the first variables. -/
  params_prefix : f.params <+: f.locals
  locals_nodup : f.locals.Nodup
  locals_local : ∀ v ∈ f.locals, ∃ sym, Γ.var? v = some sym ∧ sym.storage = .localVar
  body : StmtsTyped Γ (fun v => v ∈ G ∨ v ∈ f.locals) f.ret 0 f.body

namespace Function.WellFormed

variable {Γ : Symbols} {G : List VarId} {f : Function}

/-- What the table says of a function. -/
theorem of_func? (hf : f.WellFormed Γ G) {sym : FuncSymbol} (h : Γ.func? f.id = some sym) :
    sym.name = f.name ∧ sym.ret = f.ret ∧
      f.params.map (fun v => (Γ.var? v).map (·.ty)) = sym.params.map some := by
  obtain ⟨sym', h', hsym⟩ := hf.symbol
  rw [h] at h'
  cases h'
  exact hsym

theorem length_params (hf : f.WellFormed Γ G) {sym : FuncSymbol} (h : Γ.func? f.id = some sym) :
    f.params.length = sym.params.length := by
  have hlen := congrArg List.length (hf.of_func? h).2.2
  rwa [List.length_map, List.length_map] at hlen

/-- Every expression in a function is well typed. -/
theorem wholeTyped (hf : f.WellFormed Γ G) {e : Expr} (he : f.Mentions e) :
    WholeTyped Γ (fun v => v ∈ G ∨ v ∈ f.locals) e := by
  obtain ⟨root, hroot, hsub⟩ := he
  obtain ⟨t, ht, hd⟩ := hf.body.exprs root hroot
  exact ht.of_sub hd hsub

end Function.WellFormed

/-- A global variable that starts with a constant. -/
structure GlobalWellFormed (Γ : Symbols) (v : VarId) (init : Option Literal) (sym : VarSymbol) :
    Prop where
  symbol : Γ.var? v = some sym
  storage : sym.storage = .globalVar
  ne_void : sym.ty ≠ .void
  /-- No array starts with a constant, and a float starts with a float. -/
  constant : ∀ c ∈ init, sym.ty.isArray = false ∧ (c.ty = .float ↔ sym.ty = .float)

/-- What can be relied on in a checked program. -/
structure Program.WellFormed (p : Program) : Prop where
  functions : ∀ f ∈ p.functions, f.WellFormed p.symbols p.globals
  globals : ∀ v init, .global v init ∈ p.items → ∃ sym, GlobalWellFormed p.symbols v init sym
  globals_nodup : p.globals.Nodup
  ids_nodup : (p.functions.map (·.id)).Nodup
  imports_nodup : p.imports.Nodup
  /-- No two functions share a name. -/
  names : ∀ {f g : FuncId} {sym sym' : FuncSymbol}, p.symbols.func? f = some sym →
    p.symbols.func? g = some sym' → sym.name = sym'.name → f = g
  imports_known : ∀ f ∈ p.imports, (p.symbols.func? f).isSome
  /-- A function has a body or is the host's. -/
  covered : ∀ {f : FuncId} {sym : FuncSymbol}, p.symbols.func? f = some sym →
    f ∈ p.imports ∨ f ∈ p.functions.map (·.id)
  /-- A function of the host has no body. -/
  apart : ∀ f ∈ p.imports, f ∉ p.functions.map (·.id)

end MiniC
