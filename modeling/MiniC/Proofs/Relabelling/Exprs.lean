/-
  MiniC.Proofs.Relabelling.Exprs

  **Typing and collapsing a run look at no name and at no line.**

  A typing rule gives the relabelled expression for relabelled operands, or
  the same type error.  A run of relabelled parts collapses to the relabelled
  tree: a pass goes by the shape of the trees alone.  A fault is reported on
  the line of a tree that is no hole, and that line is relabelled.
-/
import MiniC.Proofs.Relabelling.Basic

namespace MiniC.Relabelling

variable (φ : Relabelling)

/-! ## §1. Typing -/

open Typing

/-- Conversions look at types only. -/
theorem coerce_expr (e : Expr) (ty : Ty) : coerce (φ.expr e) ty = (coerce e ty).map φ.expr := by
  unfold coerce
  rw [ty_expr]
  split
  · rfl
  · split
    · rw [implicitCast, line_expr]
      rfl
    · split
      · rw [retype_expr]
        rfl
      · rfl
    · rfl

/-- Operands are brought to one type as before. -/
theorem promote_expr (l r : Expr) :
    promote (φ.expr l) (φ.expr r) = (promote l r).map fun p => (φ.expr p.1, φ.expr p.2) := by
  unfold promote
  rw [ty_expr, ty_expr]
  split
  · rw [implicitCast, line_expr]
    rfl
  · rw [implicitCast, line_expr]
    rfl
  · split <;> rfl

theorem requireValues_expr (l r : Expr) :
    requireValues (φ.expr l) (φ.expr r) = requireValues l r := by
  unfold requireValues
  rw [ty_expr, ty_expr]

/-- Assignments are typed as before. -/
theorem assign_expr (l r : Expr) (line : Nat) :
    assign (φ.expr l) (φ.expr r) (φ.line line) = (assign l r line).map φ.expr := by
  cases l with
  | var v ty varLine =>
    unfold assign
    dsimp only [expr]
    rw [ty_expr]
    split
    · rfl
    · split
      · rfl
      · rw [coerce_expr]
        cases coerce r ty <;> rfl
  | _ => rfl

/-- Binary operators are typed as before, and refused on the new line. -/
theorem binary_expr (op : BinaryOp) (l r : Expr) (line : Nat) :
    binary op (φ.expr l) (φ.expr r) (φ.line line) = (binary op l r line).map φ.expr := by
  cases op with
  | assign => exact φ.assign_expr l r line
  | logical op =>
    unfold binary
    dsimp only
    rw [requireValues_expr, ty_expr, ty_expr]
    cases requireValues l r with
    | error e => rfl
    | ok _ =>
      dsimp only [bind, Except.bind]
      split <;> rfl
  | bitwise op =>
    unfold binary
    dsimp only
    rw [requireValues_expr, ty_expr, ty_expr]
    cases requireValues l r with
    | error e => rfl
    | ok _ =>
      dsimp only [bind, Except.bind]
      split <;> rfl
  | arith op =>
    unfold binary
    dsimp only
    rw [requireValues_expr, promote_expr, ty_expr, ty_expr]
    cases requireValues l r with
    | error e => rfl
    | ok _ =>
      dsimp only [bind, Except.bind]
      split
      · cases pointerArith op l.ty r.ty <;> rfl
      · cases promote l r with
        | error e => rfl
        | ok p =>
          dsimp only [Except.map]
          rw [ty_expr]
          rfl
  | compare op =>
    unfold binary
    dsimp only
    rw [requireValues_expr, promote_expr, ty_expr, ty_expr]
    cases requireValues l r with
    | error e => rfl
    | ok _ =>
      dsimp only [bind, Except.bind]
      split
      · cases pointerCompare l.ty r.ty <;> rfl
      · cases promote l r <;> rfl

/-- The type of a unary operator depends on no name and no line. -/
theorem unaryTy_expr (op : UnaryOp) (target : Option Ty) (e : Expr) :
    unaryTy op target (φ.expr e) = unaryTy op target e := by
  unfold unaryTy
  rw [ty_expr]
  cases op with
  | addressOf =>
    cases e with
    | unary op inner ty line =>
      cases op with
      | deref => exact congrArg Except.ok (φ.ty_expr inner)
      | _ => rfl
    | _ => rfl
  | _ => rfl

theorem unary_expr (op : UnaryOp) (target : Option Ty) (e : Expr) (line : Nat) :
    unary op target (φ.expr e) (φ.line line) = (unary op target e line).map φ.expr := by
  unfold unary
  rw [unaryTy_expr]
  cases unaryTy op target e <;> rfl

/-- The constants are the same. -/
theorem constant?_expr : ∀ e : Expr, (φ.expr e).constant? = e.constant?
  | .literal .. | .var .. | .call .. | .binary .. => rfl
  | .unary op e ty line => by
    have ih := constant?_expr e
    cases op with
    | negate => rw [expr, Expr.constant?, Expr.constant?, ih]
    | cast =>
      rw [expr, Expr.constant?.eq_def, Expr.constant?.eq_def (.unary .cast e ty line)]
      dsimp only
      rw [ih]
    | _ => rfl

/-! ## §2. Collapsing a run -/

def part : Part Expr → Part Expr
  | .operand e line => .operand (φ.expr e) (φ.line line)
  | .unary op target line => .unary op target (φ.line line)
  | .binary op line => .binary op (φ.line line)

def tree : Tree Expr → Tree Expr
  | .hole => .hole
  | .operand e line => .operand (φ.expr e) (φ.line line)
  | .unary op target line arg => .unary op target (φ.line line) (tree arg)
  | .binary op line left right => .binary op (φ.line line) (tree left) (tree right)

theorem toTree_part (p : Part Expr) : (φ.part p).toTree = φ.tree p.toTree := by
  cases p <;> rfl

@[simp] theorem isHole_tree (t : Tree Expr) : (φ.tree t).isHole = t.isHole := by
  cases t <;> rfl

@[simp] theorem isFinished_tree (t : Tree Expr) : (φ.tree t).isFinished = t.isFinished := by
  cases t <;> simp [tree, Tree.isFinished]

@[simp] theorem openLeft?_tree (t : Tree Expr) : (φ.tree t).openLeft? = t.openLeft? := by
  cases t with
  | binary op line left right => cases left <;> rfl
  | _ => rfl

@[simp] theorem openRight?_tree (t : Tree Expr) : (φ.tree t).openRight? = t.openRight? := by
  cases t with
  | binary op line left right => cases right <;> rfl
  | unary op target line arg => cases arg <;> rfl
  | _ => rfl

@[simp] theorem fillLeft_tree (t child : Tree Expr) :
    (φ.tree t).fillLeft (φ.tree child) = φ.tree (t.fillLeft child) := by
  cases t <;> rfl

@[simp] theorem fillRight_tree (t child : Tree Expr) :
    (φ.tree t).fillRight (φ.tree child) = φ.tree (t.fillRight child) := by
  cases t <;> rfl

/-- The line of a tree is relabelled; a hole has none. -/
theorem line_tree {t : Tree Expr} (h : t.isHole = false) : (φ.tree t).line = φ.line t.line := by
  cases t with
  | hole => cases h
  | _ => rfl

theorem isHole_fillLeft (t child : Tree Expr) : (t.fillLeft child).isHole = t.isHole := by
  cases t <;> rfl

theorem isHole_fillRight (t child : Tree Expr) : (t.fillRight child).isHole = t.isHole := by
  cases t <;> rfl

open Precedence

variable {φ} {strict : Prop}

/-- A run of trees that are no holes, relabelled. -/
structure RunTo (φ : Relabelling) (run run' : List (Tree Expr)) : Prop where
  eq : run' = run.map φ.tree
  isHole : ∀ t ∈ run, t.isHole = false
  ne_nil : run ≠ []

/-- What a pass leaves is in reverse order. -/
theorem RunTo.reverse {t : Tree Expr} {ts : List (Tree Expr)} (ht : t.isHole = false)
    (hts : ∀ t ∈ ts, t.isHole = false) :
    φ.RunTo (t :: ts).reverse (φ.tree t :: ts.map φ.tree).reverse := by
  refine ⟨by rw [List.map_reverse, List.map_cons], fun t' ht' => ?_, by simp⟩
  rcases List.mem_cons.1 (List.mem_reverse.1 ht') with rfl | ht'
  · exact ht
  · exact hts t' ht'

/-- One pass over trees is the pass over the relabelled ones. -/
theorem pass_follows {before : List (Tree Expr)} {here : Tree Expr} {after : List (Tree Expr)}
    (hbefore : ∀ t ∈ before, t.isHole = false) (hhere : here.isHole = false)
    (hafter : ∀ t ∈ after, t.isHole = false) :
    φ.Follows strict φ.RunTo (Precedence.pass before here after)
      (Precedence.pass (before.map φ.tree) (φ.tree here) (after.map φ.tree)) := by
  -- a move looks at no more than the powers and the holes, which both runs share
  induction after generalizing before here with
  | nil =>
    simp only [List.map_nil, Precedence.pass, isFinished_tree]
    split
    · cases before with
      | nil => exact .pure (.reverse hhere hbefore)
      | cons left before =>
        obtain ⟨hleft, hbefore⟩ := List.forall_mem_cons.1 hbefore
        rw [List.map_cons]
        dsimp only
        rw [openRight?_tree, fillRight_tree, line_tree φ hhere]
        split
        · exact .pure (.reverse (by rw [isHole_fillRight, hleft]) hbefore)
        · exact .throw _
    · exact .pure (.reverse hhere hbefore)
  | cons next after ih =>
    obtain ⟨hnext, hafter⟩ := List.forall_mem_cons.1 hafter
    have hfilled : (next.fillLeft here).isHole = false := by rw [isHole_fillLeft, hnext]
    simp only [List.map_cons, Precedence.pass, isFinished_tree]
    split
    · cases before with
      | nil =>
        rw [List.map_nil]
        dsimp only
        rw [openLeft?_tree, fillLeft_tree, line_tree φ hhere]
        split
        · exact ih hbefore hfilled hafter
        · exact .throw _
      | cons left before =>
        obtain ⟨hleft, hbefore'⟩ := List.forall_mem_cons.1 hbefore
        rw [List.map_cons]
        dsimp only
        rw [openRight?_tree, openLeft?_tree, fillRight_tree, fillLeft_tree, line_tree φ hhere]
        split
        · have hfilled' : (left.fillRight here).isHole = false := by
            rw [isHole_fillRight, hleft]
          exact ih (List.forall_mem_cons.2 ⟨hfilled', hbefore'⟩) hnext hafter
        · exact ih hbefore hfilled hafter
        · exact .throw _
    · exact ih (List.forall_mem_cons.2 ⟨hhere, hbefore⟩) hnext hafter

/-- A pass, and then the rest. -/
theorem collapse_eq_bind {α : Type} (first second : Tree α) (rest : List (Tree α)) :
    collapse (first :: second :: rest) = pass [] first (second :: rest) >>= fun run =>
      if run.length < (first :: second :: rest).length then collapse run
      else .error ⟨.badExpression, first.line⟩ := by
  rw [collapse]
  cases pass [] first (second :: rest) <;> rfl

/-- The tree that a run collapses to is no hole. -/
theorem collapse_follows {run : List (Tree Expr)} (hrun : ∀ t ∈ run, t.isHole = false)
    (hne : run ≠ []) :
    φ.Follows strict (fun t t' => t' = φ.tree t ∧ t.isHole = false) (collapse run)
      (collapse (run.map φ.tree)) := by
  -- a pass that hands something on leaves a shorter run
  induction hn : run.length using Nat.strongRecOn generalizing run with
  | ind n ih =>
    match run, hn with
    | [], _ => exact absurd rfl hne
    | [root], _ =>
      rw [collapse, List.map_singleton, collapse]
      exact .pure ⟨rfl, hrun root (List.mem_singleton_self root)⟩
    | first :: second :: rest, hn =>
      obtain ⟨hfirst, hrest⟩ := List.forall_mem_cons.1 hrun
      rw [List.map_cons, List.map_cons, collapse_eq_bind, collapse_eq_bind]
      refine (pass_follows (List.forall_mem_nil _) hfirst hrest).bind ?_
      rintro run _ ⟨rfl, hrun, hne⟩
      simp only [List.length_cons, List.length_map, line_tree φ hfirst]
      split
      · exact ih run.length (by simp only [← hn, List.length_cons]; assumption) hrun hne rfl
      · exact .throw _

/-- A finished tree is the relabelled expression, any other the same fault. -/
theorem finish_follows (line : Nat) (t : Tree Expr) :
    φ.Follows strict (fun e e' => e' = φ.expr e) (finish line t)
      (finish (φ.line line) (φ.tree t)) := by
  induction t generalizing line with
  | hole => exact .throw _
  | operand e _ => exact .pure rfl
  | unary op target opLine arg ih =>
    refine (ih opLine).bind ?_
    rintro e _ rfl
    rw [unary_expr]
    exact .typed opLine
  | binary op opLine left right ihl ihr =>
    refine (ihl opLine).bind ?_
    rintro l _ rfl
    refine (ihr opLine).bind ?_
    rintro r _ rfl
    rw [binary_expr]
    exact .typed opLine

/-- **A run of relabelled parts stands for the relabelled expression.** -/
theorem resolve_follows {ps : List (Part Expr)} (hne : ps ≠ []) :
    φ.Follows strict (fun e e' => e' = φ.expr e) (resolve ps) (resolve (ps.map φ.part)) := by
  have htrees : (ps.map φ.part).map Part.toTree = (ps.map Part.toTree).map φ.tree := by
    rw [List.map_map, List.map_map]
    exact List.map_congr_left fun p _ => φ.toTree_part p
  have hholes : ∀ t ∈ ps.map Part.toTree, t.isHole = false := by
    intro t ht
    obtain ⟨p, _, rfl⟩ := List.mem_map.1 ht
    cases p <;> rfl
  unfold resolve
  rw [htrees]
  refine (collapse_follows hholes (by simpa using hne)).bind ?_
  rintro root _ ⟨rfl, hroot⟩
  rw [line_tree φ hroot]
  exact finish_follows root.line root

end MiniC.Relabelling
