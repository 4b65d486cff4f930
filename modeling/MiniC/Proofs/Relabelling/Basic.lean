/-
  MiniC.Proofs.Relabelling.Basic

  **Other names, other lines, other places in the table.**

  A relabelling says how names, lines and the places of functions change.  It
  acts on everything that is made from a source text: on tokens and faults, on
  outlines, and on checked programs.  Variables keep their places.

  What a stage does with relabelled input is compared with what it did before
  (`Follows`): if it succeeded it succeeds again, with a related result, and
  if it failed it fails with the relabelled fault.  Where only success is to
  be kept, nothing is said of a failure.
-/
import Mathlib.Logic.Embedding.Basic
import MiniC.Check.Items

namespace MiniC

/-- How names, lines and the places of functions change.  No two names and no
two functions fall together. -/
structure Relabelling where
  name : String ↪ String
  line : Nat → Nat
  func : FuncId ↪ FuncId

namespace Relabelling

variable (φ : Relabelling)
variable {k : Kind}

/-- Names and functions stay, and lines are forgotten. -/
def lineless : Relabelling := ⟨.refl _, fun _ => 0, .refl _⟩

/-! ## §1. Tokens and faults -/

/-- Only names change. -/
def kind : Kind → Kind
  | .identifier x => .identifier (φ.name x)
  | k => k

def token (t : Token) : Token := ⟨φ.kind t.kind, φ.line t.line⟩

def cause : Cause → Cause
  | .expected wanted found => .expected wanted (φ.kind found)
  | .unexpected found => .unexpected (φ.kind found)
  | .redefined x => .redefined (φ.name x)
  | .unknown x => .unknown (φ.name x)
  | .notFunction x => .notFunction (φ.name x)
  | .notVariable x => .notVariable (φ.name x)
  | .neverDefined x => .neverDefined (φ.name x)
  | .voidVariable x => .voidVariable (φ.name x)
  | .conflicting x => .conflicting (φ.name x)
  | c => c

def fault (f : Fault) : Fault := ⟨φ.cause f.cause, φ.line f.line⟩

/-- A word that is no name is left as it is, and no other becomes it. -/
theorem kind_eq_iff {k' : Kind} (h : k'.name? = none) : φ.kind k = k' ↔ k = k' := by
  cases k with
  | identifier x =>
    constructor
    · rintro rfl
      cases h
    · rintro rfl
      cases h
  | _ => exact Iff.rfl

@[simp] theorem kind_eq_punct {p : Punct} : φ.kind k = .punct p ↔ k = .punct p :=
  φ.kind_eq_iff rfl

@[simp] theorem kind_eq_keyword {w : Keyword} : φ.kind k = .keyword w ↔ k = .keyword w :=
  φ.kind_eq_iff rfl

@[simp] theorem isType_kind (k : Kind) : (φ.kind k).isType = k.isType := by
  cases k <;> rfl

@[simp] theorem kind_token (t : Token) : (φ.token t).kind = φ.kind t.kind := rfl

@[simp] theorem line_token (t : Token) : (φ.token t).line = φ.line t.line := rfl

/-- The category of a fault stays. -/
@[simp] theorem category_cause (c : Cause) : (φ.cause c).category = c.category := by
  cases c <;> rfl

/-- Where names stay, so do kinds. -/
theorem kind_of_name {φ : Relabelling} (h : ∀ x, φ.name x = x) (k : Kind) : φ.kind k = k := by
  cases k with
  | identifier x => exact congrArg Kind.identifier (h x)
  | _ => rfl

theorem cause_of_name {φ : Relabelling} (h : ∀ x, φ.name x = x) (c : Cause) : φ.cause c = c := by
  cases c <;> first | rfl | exact congrArg _ (h _) | exact congrArg _ (kind_of_name h _)

theorem expected_token (wanted : Wanted) (t : Token) :
    Fault.expected wanted (φ.token t) = φ.fault (.expected wanted t) := by
  obtain ⟨k, line⟩ := t
  cases k <;> rfl

theorem unexpected_token (t : Token) : Fault.unexpected (φ.token t) = φ.fault (.unexpected t) := by
  obtain ⟨k, line⟩ := t
  cases k <;> rfl

theorem notDeclaration_token (t : Token) :
    Fault.notDeclaration (φ.token t) = φ.fault (.notDeclaration t) := by
  obtain ⟨k, line⟩ := t
  cases k <;> rfl

/-! ## §2. Outlines -/

mutual

def node : Outline.Node → Outline.Node
  | .int n line => .int n (φ.line line)
  | .float x line => .float x (φ.line line)
  | .name x line => .name (φ.name x) (φ.line line)
  | .call f line as => .call (φ.name f) (φ.line line) (args as)
  | .group inner => .group (run inner)
  | .unary op target line => .unary op target (φ.line line)
  | .binary op line => .binary op (φ.line line)
  | .broken f => .broken (φ.fault f)

def run : Outline.Run → Outline.Run
  | .last n => .last (node n)
  | .more n rest => .more (node n) (run rest)

def args : Outline.Args → Outline.Args
  | .none => .none
  | .arg e rest => .arg (run e) (args rest)

end

@[simp] theorem isOperand_node (n : Outline.Node) : (φ.node n).isOperand = n.isOperand := by
  cases n <;> rfl

def initial : Outline.Initial → Outline.Initial
  | .none => .none
  | .value e => .value (φ.run e)
  | .broken f => .broken (φ.fault f)

def declaration (d : Outline.Declaration) : Outline.Declaration :=
  ⟨d.base, φ.name d.name, φ.line d.line, d.lengths.map φ.run, φ.initial d.init⟩

mutual

def stmt : Outline.Stmt → Outline.Stmt
  | .declare d => .declare (φ.declaration d)
  | .expr e => .expr (φ.run e)
  | .ret line => .ret (φ.line line)
  | .retValue e => .retValue (φ.run e)
  | .branch cond body otherwise => .branch (φ.run cond) (stmts body) (orElse otherwise)
  | .loop cond body => .loop (φ.run cond) (stmts body)
  | .leave line fault => .leave (φ.line line) (fault.map φ.fault)
  | .again line fault => .again (φ.line line) (fault.map φ.fault)
  | .broken f => .broken (φ.fault f)

def orElse : Outline.Else → Outline.Else
  | .nothing => .nothing
  | .branch cond body otherwise => .branch (φ.run cond) (stmts body) (orElse otherwise)
  | .block body => .block (stmts body)

def stmts : List Outline.Stmt → List Outline.Stmt
  | [] => []
  | s :: ss => stmt s :: stmts ss

end

def param (p : Outline.Param) : Outline.Param := ⟨p.ty, φ.name p.name, φ.line p.line⟩

def signature (sig : Outline.Signature) : Outline.Signature :=
  ⟨sig.ret, φ.name sig.name, φ.line sig.line, sig.params.map φ.param, sig.fault.map φ.fault⟩

def body : Outline.Body → Outline.Body
  | .none => .none
  | .block ss => .block (φ.stmts ss)
  | .broken f => .broken (φ.fault f)

def item : Outline.Item → Outline.Item
  | .imported sig fault => .imported (φ.signature sig) (fault.map φ.fault)
  | .function sig ss => .function (φ.signature sig) (φ.body ss)
  | .global d => .global (φ.declaration d)
  | .broken f => .broken (φ.fault f)

/-! ## §3. Checked programs -/

mutual

def expr : Expr → Expr
  | .literal value ty line => .literal value ty (φ.line line)
  | .var v ty line => .var v ty (φ.line line)
  | .call f as ty line => .call (φ.func f) (exprs as) ty (φ.line line)
  | .unary op e ty line => .unary op (expr e) ty (φ.line line)
  | .binary op l r ty line => .binary op (expr l) (expr r) ty (φ.line line)

def exprs : List Expr → List Expr
  | [] => []
  | e :: es => expr e :: exprs es

end

@[simp] theorem ty_expr (e : Expr) : (φ.expr e).ty = e.ty := by
  cases e <;> rfl

@[simp] theorem line_expr (e : Expr) : (φ.expr e).line = φ.line e.line := by
  cases e <;> rfl

@[simp] theorem retype_expr (ty : Ty) (e : Expr) : (φ.expr e).retype ty = φ.expr (e.retype ty) := by
  cases e <;> rfl

mutual

def checkedStmt : Stmt → Stmt
  | .declare v init => .declare v (init.map φ.expr)
  | .expr e => .expr (φ.expr e)
  | .ret value => .ret (value.map φ.expr)
  | .branch cond body otherwise =>
    .branch (φ.expr cond) (checkedStmts body) (checkedElse otherwise)
  | .loop cond body => .loop (φ.expr cond) (checkedStmts body)
  | .leave => .leave
  | .again => .again

def checkedElse : Else → Else
  | .nothing => .nothing
  | .branch cond body otherwise =>
    .branch (φ.expr cond) (checkedStmts body) (checkedElse otherwise)
  | .block body => .block (checkedStmts body)

def checkedStmts : List Stmt → List Stmt
  | [] => []
  | s :: ss => checkedStmt s :: checkedStmts ss

end

def function (f : Function) : Function :=
  ⟨φ.func f.id, φ.name f.name, f.ret, f.params, f.locals, φ.checkedStmts f.body⟩

def checkedItem : Item → Item
  | .function f => .function (φ.function f)
  | .global v init => .global v init

def binding : Binding → Binding
  | .var v => .var v
  | .func f => .func (φ.func f)

def varSymbol (sym : VarSymbol) : VarSymbol :=
  ⟨φ.name sym.name, sym.ty, sym.storage, φ.line sym.line⟩

def funcSymbol (sym : FuncSymbol) : FuncSymbol :=
  ⟨φ.name sym.name, sym.ret, sym.params, sym.state, φ.line sym.line⟩

/-! ## §4. Following a computation -/

/-- The second computation succeeds where the first does, with a result that
`R` relates to the first's.  If `strict`, it also fails where the first does,
with the relabelled fault. -/
structure Follows (strict : Prop) {α β : Type} (R : α → β → Prop) (x : Except Fault α)
    (y : Except Fault β) : Prop where
  ok : ∀ {a}, x = .ok a → ∃ b, y = .ok b ∧ R a b
  error : ∀ {f}, x = .error f → strict → y = .error (φ.fault f)

end Relabelling

namespace Relabelling.Follows

variable {φ : Relabelling} {strict : Prop} {α β γ δ : Type} {R : α → β → Prop} {S : γ → δ → Prop}
  {x : Except Fault α} {y : Except Fault β}

/-- Both succeed. -/
theorem pure {a : α} {b : β} (h : R a b) : φ.Follows strict R (.ok a) (.ok b) := by
  refine ⟨?_, nofun⟩
  rintro _ ⟨⟩
  exact ⟨b, rfl, h⟩

/-- Both fail. -/
theorem fail {f : Fault} (h : strict → y = .error (φ.fault f)) :
    φ.Follows strict R (.error f) y := by
  refine ⟨nofun, ?_⟩
  rintro _ ⟨⟩ hstrict
  exact h hstrict

/-- Both fail alike. -/
theorem throw (f : Fault) : φ.Follows strict R (.error f) (.error (φ.fault f)) :=
  fail fun _ => rfl

/-- One computation after another, which knows what the first gave. -/
theorem bind_ok {k : α → Except Fault γ} {k' : β → Except Fault δ} (h : φ.Follows strict R x y)
    (hk : ∀ a b, x = .ok a → R a b → φ.Follows strict S (k a) (k' b)) :
    φ.Follows strict S (x >>= k) (y >>= k') := by
  cases x with
  | error f => exact fail fun hstrict => by rw [h.error rfl hstrict]; rfl
  | ok a =>
    obtain ⟨b, rfl, hab⟩ := h.ok rfl
    exact hk a b rfl hab

/-- One computation after another. -/
theorem bind {k : α → Except Fault γ} {k' : β → Except Fault δ} (h : φ.Follows strict R x y)
    (hk : ∀ a b, R a b → φ.Follows strict S (k a) (k' b)) :
    φ.Follows strict S (x >>= k) (y >>= k') :=
  h.bind_ok fun a b _ => hk a b

/-- Both take the same branch. -/
theorem ite {p q : Prop} [Decidable p] [Decidable q] {x₁ x₂ : Except Fault α}
    {y₁ y₂ : Except Fault β} (hpq : q ↔ p) (hpos : p → φ.Follows strict R x₁ y₁)
    (hneg : ¬ p → φ.Follows strict R x₂ y₂) :
    φ.Follows strict R (if p then x₁ else x₂) (if q then y₁ else y₂) := by
  by_cases hp : p
  · rw [if_pos hp, if_pos (hpq.2 hp)]
    exact hpos hp
  · rw [if_neg hp, if_neg (mt hpq.1 hp)]
    exact hneg hp

/-- A type error is reported on the relabelled line. -/
theorem typed {f : α → β} {z : Except TypeError α} (line : Nat) :
    φ.Follows strict (fun a b => b = f a) (MiniC.typed line z)
      (MiniC.typed (φ.line line) (z.map f)) := by
  cases z with
  | error e => exact throw _
  | ok a => exact pure rfl

end Relabelling.Follows

end MiniC
