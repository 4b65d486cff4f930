/-
  MiniC.Proofs.Checking.Complaints

  **What checking can complain of.**

  A complaint of the checker is about a name, a type, the number of arguments
  or a jump outside of a loop (`Cause.ofChecking`), or it was there before:
  a fault that reading left in the outline, or an expression that is not of the
  shape `U* O (B U* O)*`.  An outline that is accepted has no such faults.

  Both are said of each checking function at once (`Judged`), relative to a
  set that holds the faults of the outline (`FaultsIn`).  Steps of a check are
  judged one after another, so the proofs follow the checking functions.
-/
import Mathlib.Data.Set.Basic
import MiniC.Compile
import MiniC.Proofs.Precedence.Collapsing

namespace MiniC

/-- The checker's own complaints. -/
def Cause.ofChecking : Cause → Bool
  | .outsideLoop word => word = .kwBreak || word = .kwContinue
  | .tooManyArguments | .notEnoughArguments => true
  | c => c.category = .naming || c.category = .typing

/-! ## §1. Shapes of runs -/

namespace Precedence

variable {α : Type}
variable {line : Nat} {ps : List (Part α)}

theorem not_wellFormed_nil : ¬ WellFormed ([] : List (Part α)) := by
  intro h
  obtain ⟨_, _, hnil, _⟩ := h.head
  cases hnil

theorem not_wellFormed_binary {op : BinaryOp} : ¬ WellFormed (.binary op line :: ps) := by
  intro h
  obtain ⟨_, _, heq, hp⟩ := h.head
  cases heq
  exact absurd hp Bool.false_ne_true

/-- What follows operators in front is a run of its own. -/
theorem WellFormed.of_unary {op : UnaryOp} {target : Option Ty}
    (h : WellFormed (.unary op target line :: ps)) : WellFormed ps := by
  generalize hqs : Part.unary op target line :: ps = qs at h
  induction h generalizing ps with
  | first h =>
    cases h with
    | operand => cases hqs
    | unary _ _ _ h =>
      cases hqs
      exact .first h
  | @more qs rs op' line' h h' ih =>
    cases qs with
    | nil => exact absurd h not_wellFormed_nil
    | cons q qs =>
      cases hqs
      exact .more op' line' (ih rfl) h'

/-- After an operand comes nothing, or an operator and a run. -/
theorem WellFormed.of_operand {a : α} (h : WellFormed (.operand a line :: ps)) :
    ps = [] ∨ ∃ op line' qs, ps = .binary op line' :: qs ∧ WellFormed qs := by
  generalize hqs : Part.operand a line :: ps = qs at h
  induction h generalizing ps with
  | first h =>
    cases h with
    | operand =>
      cases hqs
      exact .inl rfl
    | unary => cases hqs
  | @more qs rs op' line' h h' ih =>
    cases qs with
    | nil => exact absurd h not_wellFormed_nil
    | cons q qs =>
      cases hqs
      rcases ih rfl with rfl | ⟨op, line'', us, rfl, hus⟩
      · exact .inr ⟨op', line', rs, rfl, .first h'⟩
      · exact .inr ⟨op, line'', _, rfl, .more op' line' hus h'⟩

/-- The causes of faults in the shape of a run. -/
def shapeFaults : Set Fault := {f | f.cause = .badCombination ∨ f.cause = .badExpression}

/-- A pass complains of the shape of a run only. -/
theorem pass_error {before after : List (Tree α)} {here : Tree α} {f : Fault}
    (h : pass before here after = .error f) : f ∈ shapeFaults := by
  fun_induction pass before here after with
  | case1 => cases h
  | case2 => cases h
  | case3 => cases h; exact .inl rfl
  | case4 => cases h
  | case5 here next after done q asks ih => exact ih h
  | case6 => cases h; exact .inl rfl
  | case7 here next after done left before side ih => exact ih h
  | case8 here next after done left before side ih => exact ih h
  | case9 => cases h; exact .inl rfl
  | case10 before here next after undone ih => exact ih h

/-- Collapsing complains of the shape of a run only. -/
theorem collapse_error {run : List (Tree α)} {f : Fault} (h : collapse run = .error f) :
    f ∈ shapeFaults := by
  fun_induction collapse run with
  | case1 => cases h
  | case2 => cases h
  | case3 first second rest f' hpass =>
    cases h
    exact pass_error hpass
  | case4 first second rest run hpass hlt ih => exact ih h
  | case5 => cases h; exact .inr rfl

end Precedence

open Precedence (WellFormed shapeFaults)

/-! ## §2. Faults of an outline -/

namespace Outline

/-- The shape of an expression: `U* O (B U* O)*`. -/
inductive Run.Shaped : Run → Prop where
  /-- An operand. -/
  | last {n : Node} (hn : n.isOperand = true) : Shaped (.last n)
  /-- An operator in front. -/
  | unary {op : UnaryOp} {target : Option Ty} {line : Nat} {r : Run} (h : Shaped r) :
      Shaped (.more (.unary op target line) r)
  /-- An operand and an operator after it. -/
  | binary {n : Node} {op : BinaryOp} {line : Nat} {r : Run} (hn : n.isOperand = true)
      (h : Shaped r) : Shaped (.more n (.more (.binary op line) r))

/-- An expression that is out of shape has faults of shape in it. -/
def Run.ShapeIn (F : Set Fault) (r : Run) : Prop := r.Shaped ∨ shapeFaults ⊆ F

mutual

/-- The faults in an element are in `F`. -/
def Node.FaultsIn (F : Set Fault) : Node → Prop
  | .call _ _ args => args.FaultsIn F
  | .group inner => inner.NodesIn F ∧ inner.ShapeIn F
  | .broken f => f ∈ F
  | _ => True

/-- The faults in the elements of an expression are in `F`. -/
def Run.NodesIn (F : Set Fault) : Run → Prop
  | .last n => n.FaultsIn F
  | .more n rest => n.FaultsIn F ∧ rest.NodesIn F

/-- The faults in arguments are in `F`. -/
def Args.FaultsIn (F : Set Fault) : Args → Prop
  | .none => True
  | .arg e rest => e.NodesIn F ∧ e.ShapeIn F ∧ rest.FaultsIn F

end

/-- The faults in an expression are in `F`. -/
def Run.FaultsIn (F : Set Fault) (r : Run) : Prop := r.NodesIn F ∧ r.ShapeIn F

/-- The faults in a first value are in `F`. -/
def Initial.FaultsIn (F : Set Fault) : Initial → Prop
  | .none => True
  | .value e => e.FaultsIn F
  | .broken f => f ∈ F

/-- The faults in a declaration are in `F`. -/
def Declaration.FaultsIn (F : Set Fault) (d : Declaration) : Prop :=
  (∀ r ∈ d.lengths, r.FaultsIn F) ∧ d.init.FaultsIn F

/-- A fault, if there is one, is in `F`. -/
def faultIn (F : Set Fault) (fault : Option Fault) : Prop := ∀ f ∈ fault, f ∈ F

theorem faultIn_none (F : Set Fault) : faultIn F none := by
  intro f hf
  cases hf

mutual

/-- The faults in a statement are in `F`. -/
def Stmt.FaultsIn (F : Set Fault) : Stmt → Prop
  | .declare d => d.FaultsIn F
  | .expr e | .retValue e => e.FaultsIn F
  | .ret _ => True
  | .branch cond body otherwise =>
    cond.FaultsIn F ∧ Stmt.AllFaultsIn F body ∧ otherwise.FaultsIn F
  | .loop cond body => cond.FaultsIn F ∧ Stmt.AllFaultsIn F body
  | .leave _ fault | .again _ fault => faultIn F fault
  | .broken f => f ∈ F

/-- The faults in what follows the block of a test are in `F`. -/
def Else.FaultsIn (F : Set Fault) : Else → Prop
  | .nothing => True
  | .branch cond body otherwise =>
    cond.FaultsIn F ∧ Stmt.AllFaultsIn F body ∧ otherwise.FaultsIn F
  | .block body => Stmt.AllFaultsIn F body

/-- The faults in statements are in `F`. -/
def Stmt.AllFaultsIn (F : Set Fault) : List Stmt → Prop
  | [] => True
  | s :: ss => s.FaultsIn F ∧ Stmt.AllFaultsIn F ss

end

/-- The faults in a body are in `F`. -/
def Body.FaultsIn (F : Set Fault) : Body → Prop
  | .none => True
  | .block body => Stmt.AllFaultsIn F body
  | .broken f => f ∈ F

/-- The faults in an item are in `F`. -/
def Item.FaultsIn (F : Set Fault) : Item → Prop
  | .imported sig fault => faultIn F sig.fault ∧ faultIn F fault
  | .function sig body => faultIn F sig.fault ∧ body.FaultsIn F
  | .global d => d.FaultsIn F
  | .broken f => f ∈ F

end Outline

/-! ## §3. Judging a step -/

namespace Check

open Outline (Node Run Args)

variable {env : Env} {line : Nat} {sig : Outline.Signature}

/-- What a step of checking says of the faults in what it checks: if it passes
there are none, and if it fails, the fault is one of them or the step's own. -/
structure Judged {α : Type} (H : Set Fault → Prop) (x : Except Fault α) : Prop where
  passed : ∀ {a : α}, x = .ok a → H ∅
  failed : ∀ {f : Fault} {F : Set Fault}, x = .error f → H F → f ∈ F ∨ f.cause.ofChecking = true

/-- The step raises complaints of its own only. -/
def Own {α : Type} (x : Except Fault α) : Prop :=
  ∀ f, x = .error f → f.cause.ofChecking = true

section

variable {α β : Type} {H H' : Set Fault → Prop} {x : Except Fault α} {k : α → Except Fault β}

theorem bind_eq_error {f : Fault} : (x >>= k) = .error f ↔
    x = .error f ∨ ∃ a, x = .ok a ∧ k a = .error f := by
  cases x with
  | error e => simp [Bind.bind, Except.bind]
  | ok a => simp [Bind.bind, Except.bind]

theorem Own.ok (a : α) : Own (.ok a : Except Fault α) := by
  intro f h
  cases h

theorem Own.bind (hx : Own x) (hk : ∀ a, x = .ok a → Own (k a)) : Own (x >>= k) := by
  intro f h
  rcases bind_eq_error.1 h with h | ⟨a, ha, h⟩
  · exact hx f h
  · exact hk a ha f h

/-- A type error is a complaint of checking. -/
theorem own_typed {line : Nat} {r : Except TypeError α} : Own (typed line r) := by
  intro f h
  cases r with
  | ok a => cases h
  | error e =>
    cases h
    rfl

namespace Judged

/-- A step that checks nothing of the outline. -/
theorem own (hx : Own x) (hH : H ∅) : Judged H x :=
  ⟨fun _ => hH, fun h _ => .inr (hx _ h)⟩

theorem ok (a : α) (hH : H ∅) : Judged H (.ok a : Except Fault α) := own (.ok a) hH

/-- A fault of the checker. -/
theorem error {f : Fault} (hf : f.cause.ofChecking = true) :
    Judged H (.error f : Except Fault α) :=
  ⟨nofun, fun h _ => by cases h; exact .inr hf⟩

/-- A fault of the outline. -/
theorem broken (f : Fault) : Judged (f ∈ ·) (.error f : Except Fault α) :=
  ⟨nofun, fun h hF => by cases h; exact .inl hF⟩

/-- One step after another. -/
theorem bind (hx : Judged H x) (hk : ∀ a, x = .ok a → Judged H' (k a)) :
    Judged (fun F => H F ∧ H' F) (x >>= k) := by
  constructor
  · intro b h
    obtain ⟨a, ha, h⟩ := bind_eq_ok.1 h
    exact ⟨hx.passed ha, (hk a ha).passed h⟩
  · intro f F h hF
    rcases bind_eq_error.1 h with h | ⟨a, ha, h⟩
    · exact hx.failed h hF.1
    · exact (hk a ha).failed h hF.2

/-- A step after one that checks nothing of the outline. -/
theorem after (hx : Own x) (hk : ∀ a, x = .ok a → Judged H (k a)) : Judged H (x >>= k) := by
  have h : Judged (fun F => True ∧ H F) (x >>= k) := (own hx trivial).bind hk
  exact ⟨fun ha => (h.passed ha).2, fun hf hF => h.failed hf ⟨trivial, hF⟩⟩

/-- A step before one that checks nothing of the outline. -/
theorem before (hx : Judged H x) (hk : ∀ a, x = .ok a → Own (k a)) : Judged H (x >>= k) := by
  have h : Judged (fun F => H F ∧ True) (x >>= k) := hx.bind fun a ha => own (hk a ha) trivial
  exact ⟨fun ha => (h.passed ha).1, fun hf hF => h.failed hf ⟨hF, trivial⟩⟩

end Judged

end

/-! ## §4. Expressions -/

/-- A complaint about a variable is one of checking. -/
theorem own_var {x : String} : Own (env.var x line) := by
  intro f h
  unfold Env.var at h
  split at h
  · split at h
    · cases h
    · cases h; rfl
  · cases h; rfl
  · cases h; rfl

/-- A complaint about a function is one of checking. -/
theorem own_func {x : String} : Own (env.func x line) := by
  intro f h
  unfold Env.func at h
  split at h
  · split at h
    · cases h
    · cases h; rfl
  · cases h; rfl
  · cases h; rfl

/-- Typing a tree fails with complaints about types, or at a hole. -/
theorem finish_error {t : Tree Expr} {f : Fault} (h : Precedence.finish line t = .error f) :
    f.cause.ofChecking = true ∨ t.isFull = false ∧ f ∈ shapeFaults := by
  induction t generalizing line with
  | hole =>
    cases h
    exact .inr ⟨rfl, .inr rfl⟩
  | operand e line' => cases h
  | unary op target line' arg ih =>
    rcases bind_eq_error.1 h with h | ⟨a, _, h⟩
    · exact ih h
    · exact .inl (own_typed _ h)
  | binary op line' left right ihl ihr =>
    have hfull : (Tree.binary op line' left right).isFull = (left.isFull && right.isFull) := rfl
    rw [hfull, Bool.and_eq_false_iff]
    rcases bind_eq_error.1 h with h | ⟨a, _, h⟩
    · exact (ihl h).imp_right fun ⟨hl, hf⟩ => ⟨.inl hl, hf⟩
    · rcases bind_eq_error.1 h with h | ⟨b, _, h⟩
      · exact (ihr h).imp_right fun ⟨hr, hf⟩ => ⟨.inr hr, hf⟩
      · exact .inl (own_typed _ h)

/-- Resolving complains of types, or of a run that is not well formed. -/
theorem resolve_error {ps : List (Part Expr)} {f : Fault} (h : Precedence.resolve ps = .error f) :
    f.cause.ofChecking = true ∨ ¬ WellFormed ps ∧ f ∈ shapeFaults := by
  rcases bind_eq_error.1 h with h | ⟨t, hc, h⟩
  · -- a run of the grammar collapses, and what it collapses to has no hole
    refine .inr ⟨fun hps => ?_, Precedence.collapse_error h⟩
    obtain ⟨p, rest, rfl, _⟩ := hps.head
    obtain ⟨t, ht, _⟩ := Precedence.collapse_of_sound (List.cons_ne_nil _ _) hps.sound
    have h : Precedence.collapse ((p :: rest).map Part.toTree) = .error f := h
    rw [List.map_cons, ht] at h
    cases h
  · refine (finish_error h).imp_right fun ⟨hfull, hf⟩ => ⟨fun hps => ?_, hf⟩
    obtain ⟨p, rest, rfl, _⟩ := hps.head
    obtain ⟨t', ht, hsettled⟩ := Precedence.collapse_of_sound (List.cons_ne_nil _ _) hps.sound
    have hc : Precedence.collapse ((p :: rest).map Part.toTree) = .ok t := hc
    rw [List.map_cons, ht] at hc
    cases hc
    rw [hsettled.isFull] at hfull
    cases hfull

section

variable {env : Env}

/-- What an element is checked to has its place in the run. -/
theorem node_eq_ok {n : Node} {p : Part Expr} (h : node env n = .ok p) :
    (∃ e line, n.isOperand = true ∧ p = .operand e line) ∨
      (∃ op target line, n = .unary op target line ∧ p = .unary op target line) ∨
      ∃ op line, n = .binary op line ∧ p = .binary op line := by
  cases n with
  | int n line => cases h; exact .inl ⟨_, _, rfl, rfl⟩
  | float x line => cases h; exact .inl ⟨_, _, rfl, rfl⟩
  | name x line =>
    obtain ⟨a, _, h⟩ := bind_eq_ok.1 h
    cases h
    exact .inl ⟨_, _, rfl, rfl⟩
  | call f line args =>
    obtain ⟨a, _, h⟩ := bind_eq_ok.1 h
    obtain ⟨b, _, h⟩ := bind_eq_ok.1 h
    cases h
    exact .inl ⟨_, _, rfl, rfl⟩
  | group inner =>
    obtain ⟨a, _, h⟩ := bind_eq_ok.1 h
    obtain ⟨b, _, h⟩ := bind_eq_ok.1 h
    cases h
    exact .inl ⟨_, _, rfl, rfl⟩
  | unary op target line => cases h; exact .inr (.inl ⟨_, _, _, rfl, rfl⟩)
  | binary op line => cases h; exact .inr (.inr ⟨_, _, rfl, rfl⟩)
  | broken f => cases h

/-- A shaped expression is checked to a run of the grammar... -/
theorem wellFormed_of_shaped {r : Run} (hr : r.Shaped) {ps : List (Part Expr)}
    (h : parts env r = .ok ps) : WellFormed ps := by
  induction hr generalizing ps with
  | last hn =>
    obtain ⟨p, hp, h⟩ := bind_eq_ok.1 h
    cases h
    rcases node_eq_ok hp with ⟨e, line, _, rfl⟩ | ⟨_, _, _, rfl, _⟩ | ⟨_, _, rfl, _⟩
    · exact .first (.operand e line)
    · cases hn
    · cases hn
  | unary _ ih =>
    obtain ⟨p, hp, h⟩ := bind_eq_ok.1 h
    obtain ⟨qs, hqs, h⟩ := bind_eq_ok.1 h
    cases h
    cases hp
    exact (ih hqs).unary _ _ _
  | binary hn _ ih =>
    obtain ⟨p, hp, h⟩ := bind_eq_ok.1 h
    obtain ⟨qs, hqs, h⟩ := bind_eq_ok.1 h
    obtain ⟨b, hb, hqs⟩ := bind_eq_ok.1 hqs
    obtain ⟨rs, hrs, hqs⟩ := bind_eq_ok.1 hqs
    cases h
    cases hqs
    cases hb
    rcases node_eq_ok hp with ⟨e, line, _, rfl⟩ | ⟨_, _, _, rfl, _⟩ | ⟨_, _, rfl, _⟩
    · exact WellFormed.binary _ _ (.first (.operand e line)) (ih hrs)
    · cases hn
    · cases hn

/-- ... and only a shaped one is. -/
theorem shaped_of_wellFormed : (r : Run) → {ps : List (Part Expr)} → parts env r = .ok ps →
    WellFormed ps → r.Shaped
  | .last n, ps, h, hps => by
    obtain ⟨p, hp, h⟩ := bind_eq_ok.1 h
    cases h
    rcases node_eq_ok hp with ⟨e, line, hn, rfl⟩ | ⟨_, _, _, _, rfl⟩ | ⟨_, _, _, rfl⟩
    · exact .last hn
    · exact absurd hps.of_unary Precedence.not_wellFormed_nil
    · exact absurd hps Precedence.not_wellFormed_binary
  | .more n r, ps, h, hps => by
    obtain ⟨p, hp, h⟩ := bind_eq_ok.1 h
    obtain ⟨qs, hqs, h⟩ := bind_eq_ok.1 h
    cases h
    rcases node_eq_ok hp with ⟨e, line, hn, rfl⟩ | ⟨_, _, _, rfl, rfl⟩ | ⟨_, _, _, rfl⟩
    · -- the operator after an operand is the next element
      rcases hps.of_operand with rfl | ⟨op, line', rs, rfl, hrs⟩
      · -- a run has at least one element
        cases r with
        | last m =>
          obtain ⟨_, _, h⟩ := bind_eq_ok.1 hqs
          cases h
        | more m r =>
          obtain ⟨_, _, hqs⟩ := bind_eq_ok.1 hqs
          obtain ⟨_, _, h⟩ := bind_eq_ok.1 hqs
          cases h
      · match r, hqs with
        | .last m, hqs =>
          obtain ⟨q, _, hqs⟩ := bind_eq_ok.1 hqs
          cases hqs
          exact absurd hrs Precedence.not_wellFormed_nil
        | .more m r, hqs =>
          obtain ⟨q, hq, hqs⟩ := bind_eq_ok.1 hqs
          obtain ⟨rs', hrs', hqs⟩ := bind_eq_ok.1 hqs
          cases hqs
          rcases node_eq_ok hq with ⟨_, _, _, heq⟩ | ⟨_, _, _, _, heq⟩ | ⟨_, _, rfl, _⟩
          · cases heq
          · cases heq
          · exact .binary hn (shaped_of_wellFormed r hrs' hrs)
    · exact .unary (shaped_of_wellFormed r hqs hps.of_unary)
    · exact absurd hps Precedence.not_wellFormed_binary

/-- A complaint about the shape of a run is a fault of its outline. -/
theorem resolve_judged {r : Run} {ps : List (Part Expr)} (h : parts env r = .ok ps) :
    Judged (fun F => r.ShapeIn F) (Precedence.resolve ps) := by
  constructor
  · intro e he
    obtain ⟨t, _, _, hfull, rfl⟩ := Precedence.collapse_of_resolve he
    exact .inl (shaped_of_wellFormed r h (Precedence.wellFormed_reading hfull))
  · intro f F hf hF
    rcases resolve_error hf with hown | ⟨hps, hshape⟩
    · exact .inr hown
    · rcases hF with hr | hF
      · exact absurd (wellFormed_of_shaped hr h) hps
      · exact .inl (hF hshape)

mutual

/-- Complaints about an operand or operator are checking's, or its faults. -/
theorem node_judged : (n : Node) → Judged (fun F => n.FaultsIn F) (node env n)
  | .int .. | .float .. | .unary .. | .binary .. => .ok _ trivial
  | .name x line => .own (own_var.bind fun _ _ => .ok _) trivial
  | .call f line args => by
    refine .after own_func fun ⟨f', sym⟩ _ => ?_
    exact (arguments_judged args).before fun _ _ => .ok _
  | .group inner => by
    refine (parts_judged inner).bind fun ps hps => ?_
    exact (resolve_judged hps).before fun _ _ => .ok _
  | .broken f => .broken f

theorem parts_judged : (r : Run) → Judged (fun F => r.NodesIn F) (parts env r)
  | .last n => (node_judged n).before fun _ _ => .ok _
  | .more n rest =>
    (node_judged n).bind fun _ _ => (parts_judged rest).before fun _ _ => .ok _

/-- Complaints about arguments are checking's, or their faults. -/
theorem arguments_judged {line : Nat} : (args : Args) → {params : List Ty} →
    Judged (fun F => args.FaultsIn F) (arguments env line params args)
  | .none, [] => .ok _ trivial
  | .none, _ :: _ => .error rfl
  | .arg e rest, [] => .error rfl
  | .arg e rest, ty :: params => by
    -- checked from left to right; an argument too many is not looked at
    refine (parts_judged e).bind fun ps hps => ?_
    refine (resolve_judged hps).bind fun a _ => ?_
    refine .after own_typed fun a' _ => ?_
    exact (arguments_judged rest).before fun _ _ => .ok _

end

theorem run_judged (r : Run) : Judged (fun F => r.FaultsIn F) (run env r) :=
  (parts_judged r).bind fun _ hps => resolve_judged hps

/-- Complaints about a condition are checking's, or its faults. -/
theorem condition_judged (r : Run) : Judged (fun F => r.FaultsIn F) (condition env r) := by
  refine (run_judged r).before fun e _ f h => ?_
  dsimp only at h
  split at h
  · cases h
    rfl
  · cases h

/-! ## §5. Statements -/

/-- A length that is no number is a complaint of checking. -/
theorem own_lengthOf (e : Expr) : Own (lengthOf e) := by
  intro f h
  unfold lengthOf at h
  split at h
  · split at h
    · cases h
    · cases h
      rfl
  · cases h
    rfl

/-- Complaints about lengths are checking's, or their faults. -/
theorem lengths_judged : (rs : List Run) →
    Judged (fun F => ∀ r ∈ rs, r.FaultsIn F) (lengths env rs)
  | [] => .ok _ (List.forall_mem_nil _)
  | r :: rs => by
    simp only [List.forall_mem_cons]
    refine (run_judged r).bind fun e _ => ?_
    refine .after (own_lengthOf e) fun n _ => ?_
    exact (lengths_judged rs).before fun _ _ => .ok _

/-- Complaints about an initial value are checking's, or its faults. -/
theorem initial_judged {ty : Ty} {line : Nat} : (i : Outline.Initial) →
    Judged (fun F => i.FaultsIn F) (initial env ty line i)
  | .none => .ok _ trivial
  | .broken f => .broken f
  | .value r => by
    rw [initial]
    split
    · exact .error rfl -- an array has no initial value, whatever it is
    · refine Judged.before ?_ fun _ _ => .ok _
      exact (run_judged r).before fun _ _ => own_typed

end

/-- A name declared twice is a complaint of checking. -/
theorem own_declare {st : State} {sym : VarSymbol} : Own (st.declare sym) := by
  refine Own.bind (fun f h => ?_) fun _ _ => .ok _
  unfold State.bind at h
  split at h
  · cases h
  · cases h
    rfl

/-- Complaints about a declaration are checking's, or its faults. -/
theorem declaration_judged {st : State} {storage : Storage} (d : Outline.Declaration) :
    Judged (fun F => d.FaultsIn F) (declaration st storage d) := by
  unfold declaration
  split
  · exact .error rfl
  · refine (lengths_judged d.lengths).bind fun lens _ => ?_
    refine (initial_judged d.init).before fun init _ => ?_
    exact own_declare.bind fun _ _ => .ok _

theorem raise_judged (fault : Option Fault) :
    Judged (fun F => Outline.faultIn F fault) (raise fault) := by
  cases fault with
  | none => exact .ok _ (Outline.faultIn_none ∅)
  | some f => exact ⟨nofun, fun h hF => by cases h; exact .inl (hF f rfl)⟩

/-- Complaints about a jump are checking's, or its fault. -/
theorem jump_judged {word : Keyword} {depth : Nat} (fault : Option Fault)
    (hword : (Cause.outsideLoop word).ofChecking = true) :
    Judged (fun F => Outline.faultIn F fault) (jump word depth line fault) := by
  unfold jump
  split
  · exact .error hword -- comes before the fault of a missing semicolon
  · exact raise_judged fault

mutual

/-- Complaints about a statement are checking's, or its faults. -/
theorem stmt_judged {ret : Ty} : (s : Outline.Stmt) → {depth : Nat} → {st : State} →
    Judged (fun F => s.FaultsIn F) (stmt ret depth st s)
  | .declare d, depth, st => (declaration_judged d).before fun _ _ => .ok _
  | .expr r, depth, st => (run_judged r).before fun _ _ => .ok _
  | .ret line, depth, st => by
    unfold stmt
    split
    · exact .ok _ trivial
    · exact .error rfl
  | .retValue r, depth, st => by
    refine (run_judged r).before fun e _ => ?_
    dsimp only
    split
    · intro f h
      cases h
      rfl
    · exact own_typed.bind fun _ _ => .ok _
  | .branch cond body otherwise, depth, st => by
    refine (condition_judged cond).bind fun _ _ => ?_
    refine (stmts_judged body).bind fun ⟨_, st'⟩ _ => ?_
    exact (elseBranch_judged otherwise).before fun _ _ => .ok _
  | .loop cond body, depth, st => by
    refine (condition_judged cond).bind fun _ _ => ?_
    exact (stmts_judged body).before fun _ _ => .ok _
  | .leave line fault, depth, st => (jump_judged fault rfl).before fun _ _ => .ok _
  | .again line fault, depth, st => (jump_judged fault rfl).before fun _ _ => .ok _
  | .broken f, depth, st => .broken f

/-- Complaints about the other branch are checking's, or its faults. -/
theorem elseBranch_judged {ret : Ty} : (o : Outline.Else) → {depth : Nat} → {st : State} →
    Judged (fun F => o.FaultsIn F) (elseBranch ret depth st o)
  | .nothing, depth, st => .ok _ trivial
  | .branch cond body otherwise, depth, st => by
    refine (condition_judged cond).bind fun _ _ => ?_
    refine (stmts_judged body).bind fun ⟨_, st'⟩ _ => ?_
    exact (elseBranch_judged otherwise).before fun _ _ => .ok _
  | .block body, depth, st => (stmts_judged body).before fun _ _ => .ok _

/-- Complaints about statements are checking's, or their faults. -/
theorem stmts_judged {ret : Ty} : (ss : List Outline.Stmt) → {depth : Nat} → {st : State} →
    Judged (fun F => Outline.Stmt.AllFaultsIn F ss) (stmts ret depth st ss)
  | [], depth, st => .ok _ trivial
  | s :: ss, depth, st => by
    refine (stmt_judged s).bind fun ⟨_, st'⟩ _ => ?_
    exact (stmts_judged ss).before fun _ _ => .ok _

end

/-! ## §6. Items -/

/-- Parameters without a value are a complaint of checking. -/
theorem own_params : (ps : List Outline.Param) → Own (params ps)
  | [] => .ok _
  | p :: ps => by
    unfold params
    split
    · intro f h
      cases h
      rfl
    · exact (own_params ps).bind fun _ _ => .ok _

theorem signature_judged (sig : Outline.Signature) :
    Judged (fun F => Outline.faultIn F sig.fault) (signature sig) :=
  .after (own_params sig.params) fun _ _ => (raise_judged sig.fault).before fun _ _ => .ok _

/-- A function whose name is taken is a complaint of checking. -/
theorem own_newFunction {sym : FuncSymbol} : Own (newFunction env sym) := by
  intro f h
  unfold newFunction at h
  dsimp only at h
  split at h
  · cases h
  · cases h
    rfl

/-- A declaration at odds with an earlier one is one of checking. -/
theorem own_declareFunction {tys : List Ty} : Own (declareFunction env sig tys) := by
  intro f h
  unfold declareFunction at h
  split at h
  · exact own_newFunction f h
  · cases h
    rfl
  · split at h
    · cases h
      rfl
    · split at h
      · cases h
        rfl
      · split at h
        · cases h
        · cases h
          rfl

theorem own_declareParams : (ps : List Outline.Param) → {st : State} → Own (declareParams st ps)
  | [], st => .ok _
  | p :: ps, st => by
    refine own_declare.bind fun ⟨_, st'⟩ _ => ?_
    exact (own_declareParams ps).bind fun _ _ => .ok _

/-- A second definition is a complaint of checking. -/
theorem own_defineFunction {f : FuncId} : Own (defineFunction env f sig) := by
  intro fault h
  unfold defineFunction at h
  split at h
  · cases h
    rfl
  · cases h

theorem functionBody_judged {f : FuncId} (body : List Outline.Stmt) :
    Judged (fun F => Outline.Stmt.AllFaultsIn F body) (functionBody env f sig body) := by
  refine .after own_defineFunction fun env' _ => ?_
  refine .after (own_declareParams sig.params) fun ⟨_, st⟩ _ => ?_
  exact (stmts_judged body).before fun _ _ => .ok _

/-- An initial value that is no constant is a complaint of checking. -/
theorem own_constant (init : Option Expr) : Own (constant init) := by
  intro f h
  unfold constant at h
  split at h
  · cases h
  · split at h
    · cases h
    · cases h
      rfl

/-- **Complaints about an item are checking's, or faults of its outline.** -/
theorem item_judged {found : Found} (i : Outline.Item) :
    Judged (fun F => i.FaultsIn F) (item found i) := by
  cases i with
  | imported sig fault =>
    refine (signature_judged sig).bind fun _ _ => ?_
    refine (raise_judged fault).before fun _ _ => ?_
    exact own_newFunction.bind fun _ _ => .ok _
  | function sig body =>
    refine (signature_judged sig).bind fun _ _ => ?_
    refine .after own_declareFunction fun ⟨f, env⟩ _ => ?_
    cases body with
    | none => exact .ok _ trivial
    | broken f => exact .broken f
    | block ss => exact (functionBody_judged ss).before fun _ _ => .ok _
  | global d =>
    refine (declaration_judged d).before fun _ _ => ?_
    exact (own_constant _).bind fun _ _ => .ok _
  | broken f => exact .broken f

/-- Complaints about items are checking's, or faults of their outlines. -/
theorem items_judged : (is : List Outline.Item) → {found : Found} →
    Judged (fun F => ∀ i ∈ is, i.FaultsIn F) (items found is)
  | [], found => .ok _ (List.forall_mem_nil _)
  | i :: is, found => by
    simp only [List.forall_mem_cons]
    exact (item_judged i).bind fun _ _ => items_judged is

/-- A function without a body is a complaint of checking. -/
theorem own_allDefined (Γ : Symbols) : Own (allDefined Γ) := by
  intro f h
  unfold allDefined at h
  split at h
  · cases h
  · cases h
    rfl

theorem program_judged (is : List Outline.Item) :
    Judged (fun F => ∀ i ∈ is, i.FaultsIn F) (program is) :=
  (items_judged is).before fun _ _ => (own_allDefined _).bind fun _ _ => .ok _

end Check

/-- **Parsing passes without faults in the outline**, and fails with one of
them or with a complaint of the checker. -/
theorem parse_judged (text : String) :
    Check.Judged (fun F => ∀ i ∈ Outline.ofTokens (Scan.tokens text), i.FaultsIn F) (parse text) :=
  Check.program_judged _

end MiniC
