/-
  MiniC.Proofs.Relabelling.Stmts

  **Expressions and statements are checked alike in related environments.**

  Two environments are related by a relabelling if each name of the first
  stands, relabelled, for the relabelled thing in the second (`Envs`).  The
  second may know more: a hidden name is one that only the second may know at
  the top of the program, and a hidden row is a function in its table that the
  first does not have (`Hidden`).  A text that is accepted does not tell the
  two apart.  With nothing hidden neither does a text that is rejected.
-/
import Mathlib.Data.Set.Basic
import MiniC.Proofs.Relabelling.Exprs
import MiniC.Proofs.Typing.Tables

namespace MiniC.Relabelling

open Check

/-! ## §1. Related scopes -/

/-- What only the second of two related environments may know: names at the top
of the program, and rows in the table of functions. -/
structure Hidden where
  names : Set String
  rows : List (FuncId × FuncSymbol)

/-- Nothing is hidden. -/
instance : EmptyCollection Hidden := ⟨⟨∅, []⟩⟩

instance : Membership String Hidden := ⟨fun H x => x ∈ H.names⟩

theorem Hidden.notMem_empty (x : String) : x ∉ (∅ : Hidden) := Set.notMem_empty x

section

variable (φ : Relabelling)

def frame (fr : Frame) : Frame := fr.map fun e => (φ.name e.1, φ.binding e.2)

/-- Relabelled names are equal where the names are. -/
theorem lookup_cons_name (fr : Frame) (x y : String) (c : Binding) :
    List.lookup (φ.name y) ((φ.name x, c) :: fr) =
      match y == x with
      | true => some c
      | false => fr.lookup (φ.name y) := by
  have hbeq : (φ.name y == φ.name x) = (y == x) := by
    rw [Bool.eq_iff_iff, beq_iff_eq, beq_iff_eq, φ.name.injective.eq_iff]
  rw [List.lookup_cons, hbeq]
  cases y == x <;> rfl

/-- A frame binds the relabelled name as it bound the name. -/
theorem lookup_frame (fr : Frame) (x : String) :
    (φ.frame fr).lookup (φ.name x) = (fr.lookup x).map φ.binding := by
  induction fr with
  | nil => rfl
  | cons e fr ih =>
    show List.lookup (φ.name x) ((φ.name e.1, φ.binding e.2) :: φ.frame fr) = _
    rw [lookup_cons_name, List.lookup_cons, ih]
    cases x == e.1 <;> rfl

/-- What the open blocks say of a name. -/
theorem findSome?_frames (frs : List Frame) (x : String) :
    (frs.map φ.frame).findSome? (·.lookup (φ.name x)) =
      (frs.findSome? (·.lookup x)).map φ.binding := by
  induction frs with
  | nil => rfl
  | cons fr frs ih =>
    rw [List.map_cons, List.findSome?_cons, List.findSome?_cons, lookup_frame, ih]
    cases fr.lookup x <;> rfl

/-- The blocks of the second scope are those of the first, relabelled.  Its
global frame has all names of the first, and no others but hidden ones. -/
structure Scopes (H : Hidden) (s s' : Scope) : Prop where
  inner : s'.inner = s.inner.map φ.frame
  outer : ∀ {x b}, s.outer.lookup x = some b → s'.outer.lookup (φ.name x) = some (φ.binding b)
  fresh : ∀ {x}, x ∉ H → s.outer.lookup x = none → s'.outer.lookup (φ.name x) = none

end

variable {φ : Relabelling} {H : Hidden} {strict : Prop}

/-! What it means to add a name. -/

section

variable {s : Scope} {x : String} {b first : Binding} {fr outer : Frame} {frs : List Frame}

theorem add_bound (h : s.top.lookup x = some first) : s.add x b = .error ⟨first, b⟩ := by
  rw [Scope.add, h]

theorem add_global (h : outer.lookup x = none) :
    Scope.add ⟨[], outer⟩ x b = .ok ⟨[], (x, b) :: outer⟩ := by
  have htop : (Scope.top ⟨[], outer⟩).lookup x = none := h
  rw [Scope.add, htop]

theorem add_block (h : fr.lookup x = none) :
    Scope.add ⟨fr :: frs, outer⟩ x b = .ok ⟨((x, b) :: fr) :: frs, outer⟩ := by
  have htop : (Scope.top ⟨fr :: frs, outer⟩).lookup x = none := h
  rw [Scope.add, htop]

end

namespace Scopes

variable {s s' : Scope}
variable {x : String}

/-- A name that is found is found under its new label. -/
theorem get?_some (h : φ.Scopes H s s') {b : Binding} (hx : s.get? x = some b) :
    s'.get? (φ.name x) = some (φ.binding b) := by
  rw [Scope.get?, List.findSome?_append, Option.or_eq_some_iff] at hx
  rw [Scope.get?, h.inner, List.findSome?_append, findSome?_frames, Option.or_eq_some_iff]
  rcases hx with hx | ⟨hnone, hx⟩
  · rw [hx]
    exact .inl rfl
  · rw [hnone]
    refine .inr ⟨rfl, ?_⟩
    rw [List.findSome?_singleton] at hx ⊢
    exact h.outer hx

/-- A name that is not found, and not hidden, is not found. -/
theorem get?_none (h : φ.Scopes H s s') (hfresh : x ∉ H) (hx : s.get? x = none) :
    s'.get? (φ.name x) = none := by
  rw [Scope.get?, List.findSome?_append, Option.or_eq_none_iff] at hx
  rw [Scope.get?, h.inner, List.findSome?_append, findSome?_frames, Option.or_eq_none_iff, hx.1]
  refine ⟨rfl, ?_⟩
  have hx := hx.2
  rw [List.findSome?_singleton] at hx ⊢
  exact h.fresh hfresh hx

theorem push (h : φ.Scopes H s s') : φ.Scopes H s.push s'.push :=
  ⟨congrArg (List.cons []) h.inner, h.outer, h.fresh⟩

theorem pop (h : φ.Scopes H s s') : φ.Scopes H s.pop s'.pop := by
  refine ⟨?_, h.outer, h.fresh⟩
  show s'.inner.tail = s.inner.tail.map φ.frame
  rw [h.inner, List.map_tail]

/-- **A name is added in both scopes or in neither.**  A hidden name can only
be added in a block. -/
theorem add (h : φ.Scopes H s s') (hx : x ∉ H ∨ s.inner ≠ []) (b : Binding) :
    (∀ {t}, s.add x b = .ok t → ∃ t', s'.add (φ.name x) (φ.binding b) = .ok t' ∧
      φ.Scopes H t t' ∧ t.inner.length = s.inner.length) ∧
    ∀ {d}, s.add x b = .error d → ∃ d', s'.add (φ.name x) (φ.binding b) = .error d' := by
  obtain ⟨inner, outer⟩ := s
  obtain ⟨inner', outer'⟩ := s'
  obtain rfl : inner' = inner.map φ.frame := h.inner
  cases inner with
  | nil =>
    -- outside of blocks, what is not hidden is bound on both sides or on neither
    have hx : x ∉ H := hx.resolve_right fun hne => hne rfl
    cases hl : outer.lookup x with
    | some first =>
      rw [add_bound (s := ⟨[], outer⟩) hl, List.map_nil,
        add_bound (s := ⟨[], outer'⟩) (h.outer hl)]
      exact ⟨nofun, fun _ => ⟨_, rfl⟩⟩
    | none =>
      rw [add_global hl, List.map_nil, add_global (h.fresh hx hl)]
      refine ⟨?_, nofun⟩
      rintro _ ⟨⟩
      refine ⟨_, rfl, ⟨rfl, fun {y c} hy => ?_, fun {y} hyH hy => ?_⟩, rfl⟩
      · rw [lookup_cons_name]
        rw [List.lookup_cons] at hy
        split at hy <;> rename_i hyx <;> rw [hyx]
        · cases hy
          rfl
        · exact h.outer hy
      · rw [lookup_cons_name]
        rw [List.lookup_cons] at hy
        split at hy <;> rename_i hyx <;> rw [hyx]
        · cases hy
        · exact h.fresh hyH hy
  | cons fr frs =>
    -- in a block only its own names count, and nothing is hidden there
    have hlookup := φ.lookup_frame fr x
    cases hl : fr.lookup x with
    | some first =>
      rw [hl] at hlookup
      rw [add_bound (s := ⟨fr :: frs, outer⟩) hl, List.map_cons,
        add_bound (s := ⟨φ.frame fr :: frs.map φ.frame, outer'⟩) hlookup]
      exact ⟨nofun, fun _ => ⟨_, rfl⟩⟩
    | none =>
      rw [hl] at hlookup
      rw [add_block hl, List.map_cons, add_block hlookup]
      refine ⟨?_, nofun⟩
      rintro _ ⟨⟩
      exact ⟨_, rfl, ⟨rfl, h.outer, h.fresh⟩, rfl⟩

end Scopes

/-! ## §2. Related environments -/

/-- The second table of functions has room for the first and the hidden
rows. -/
structure Tables (φ : Relabelling) (H : Hidden) (Γ Γ' : Symbols) : Prop where
  size : Γ'.funcs.size = Γ.funcs.size + H.rows.length
  /-- A hidden row stands in the second table, and where no function of the
  first is. -/
  hidden : ∀ r ∈ H.rows, Γ'.func? r.1 = some r.2 ∧
    ∀ {f}, (Γ.func? f).isSome = true → φ.func f ≠ r.1
  /-- With nothing hidden, the places beyond the tables stay where they are. -/
  beyond : H = ∅ → ∀ {f}, Γ.func? f = none → φ.func f = f

/-- The second environment is the first, relabelled, and what is hidden. -/
structure Envs (φ : Relabelling) (H : Hidden) (env env' : Env) : Prop where
  scope : φ.Scopes H env.scope env'.scope
  vars : env'.symbols.vars.rows = env.symbols.vars.rows.map φ.varSymbol
  funcs : ∀ {f sym}, env.symbols.func? f = some sym →
    env'.symbols.func? (φ.func f) = some (φ.funcSymbol sym)
  table : φ.Tables H env.symbols env'.symbols

theorem var?_of_rows {Γ Γ' : Symbols} (h : Γ'.vars.rows = Γ.vars.rows.map φ.varSymbol)
    (v : VarId) : Γ'.var? v = (Γ.var? v).map φ.varSymbol := by
  show Γ'.vars.rows[v.index]? = (Γ.vars.rows[v.index]?).map φ.varSymbol
  rw [h, Array.getElem?_map]

namespace Envs

variable {env env' : Env}

/-- With nothing hidden the tables are of one length, and the places beyond
them stay where they are. -/
theorem beyond (h : φ.Envs H env env') (hH : H = ∅) :
    env'.symbols.funcs.size = env.symbols.funcs.size ∧
      ∀ {f}, env.symbols.func? f = none → φ.func f = f := by
  refine ⟨?_, h.table.beyond hH⟩
  have hsize := h.table.size
  rw [hH] at hsize
  exact hsize

/-- With nothing hidden, a function that is missing is missing in both. -/
theorem func?_none (h : φ.Envs H env env') (hH : H = ∅) {f : FuncId}
    (hf : env.symbols.func? f = none) : env'.symbols.func? (φ.func f) = none := by
  obtain ⟨hsize, hfix⟩ := h.beyond hH
  rw [hfix hf]
  have hlt : ¬ f.index < env.symbols.funcs.size := by
    rw [← Table.isSome_get?, ← Symbols.func?, hf]
    exact Bool.false_ne_true
  rw [← hsize, ← Table.isSome_get?, ← Symbols.func?] at hlt
  exact Option.not_isSome_iff_eq_none.1 hlt

section

variable (h : φ.Envs H env env') (hs : strict → H = ∅)
include h hs

/-- A variable is looked up on both sides. -/
theorem var_follows (x : String) (line : Nat) :
    φ.Follows strict (fun r r' => r' = (r.1, φ.varSymbol r.2)) (env.var x line)
      (env'.var (φ.name x) (φ.line line)) := by
  unfold Env.var
  cases hx : env.scope.get? x with
  | none =>
    refine .fail fun hstrict => ?_
    rw [h.scope.get?_none (by rw [hs hstrict]; exact Hidden.notMem_empty x) hx]
    rfl
  | some b =>
    rw [h.scope.get?_some hx]
    cases b with
    | func f => exact .throw _
    | var v =>
      dsimp only [binding]
      rw [var?_of_rows h.vars v]
      cases env.symbols.var? v with
      | none => exact .throw _
      | some sym => exact .pure rfl

/-- A function is looked up on both sides. -/
theorem func_follows (x : String) (line : Nat) :
    φ.Follows strict (fun r r' => r' = (φ.func r.1, φ.funcSymbol r.2)) (env.func x line)
      (env'.func (φ.name x) (φ.line line)) := by
  unfold Env.func
  cases hx : env.scope.get? x with
  | none =>
    refine .fail fun hstrict => ?_
    rw [h.scope.get?_none (by rw [hs hstrict]; exact Hidden.notMem_empty x) hx]
    rfl
  | some b =>
    rw [h.scope.get?_some hx]
    cases b with
    | var v => exact .throw _
    | func f =>
      dsimp only [binding]
      cases hf : env.symbols.func? f with
      | none =>
        refine .fail fun hstrict => ?_
        rw [h.func?_none (hs hstrict) hf]
        rfl
      | some sym =>
        rw [h.funcs hf]
        exact .pure rfl

end

/-! ## §3. Expressions -/

mutual

/-- An operand or operator is checked on both sides. -/
theorem node_follows (h : φ.Envs H env env') (hs : strict → H = ∅) : ∀ n : Outline.Node,
    φ.Follows strict (fun p p' => p' = φ.part p) (Check.node env n)
      (Check.node env' (φ.node n))
  | .int n line => .pure rfl
  | .float x line => .pure rfl
  | .unary op target line => .pure rfl
  | .binary op line => .pure rfl
  | .broken f => .throw f
  | .name x line => by
    refine (h.var_follows hs x line).bind ?_
    rintro ⟨v, sym⟩ _ rfl
    exact .pure rfl
  | .call f line as => by
    refine (h.func_follows hs f line).bind ?_
    rintro ⟨f, sym⟩ _ rfl
    refine (arguments_follows h hs line sym.params as).bind ?_
    rintro es _ rfl
    exact .pure rfl
  | .group inner => by
    refine (parts_follows h hs inner).bind ?_
    rintro ps _ ⟨rfl, hne⟩
    refine (resolve_follows hne).bind ?_
    rintro e _ rfl
    refine .pure ?_
    show Part.operand (φ.expr e) (φ.expr e).line = _
    rw [line_expr]
    rfl

/-- The parts of a run are checked on both sides. -/
theorem parts_follows (h : φ.Envs H env env') (hs : strict → H = ∅) : ∀ r : Outline.Run,
    φ.Follows strict (fun ps ps' => ps' = ps.map φ.part ∧ ps ≠ []) (Check.parts env r)
      (Check.parts env' (φ.run r))
  | .last n => by
    refine (node_follows h hs n).bind ?_
    rintro p _ rfl
    exact .pure ⟨rfl, List.cons_ne_nil _ _⟩
  | .more n rest => by
    refine (node_follows h hs n).bind ?_
    rintro p _ rfl
    refine (parts_follows h hs rest).bind ?_
    rintro ps _ ⟨rfl, _⟩
    exact .pure ⟨rfl, List.cons_ne_nil _ _⟩

/-- Arguments are checked on both sides. -/
theorem arguments_follows (h : φ.Envs H env env') (hs : strict → H = ∅) (line : Nat) :
    ∀ (params : List Ty) (as : Outline.Args),
    φ.Follows strict (fun es es' => es' = φ.exprs es) (arguments env line params as)
      (arguments env' (φ.line line) params (φ.args as))
  | [], .none => .pure rfl
  | _ :: _, .none => .throw _
  | [], .arg e rest => .throw _
  | ty :: params, .arg e rest => by
    refine (parts_follows h hs e).bind ?_
    rintro ps _ ⟨rfl, hne⟩
    refine (resolve_follows hne).bind ?_
    rintro e _ rfl
    rw [coerce_expr, line_expr]
    refine (Follows.typed e.line).bind ?_
    rintro e _ rfl
    refine (arguments_follows h hs line params rest).bind ?_
    rintro es _ rfl
    exact .pure rfl

end

section

variable (h : φ.Envs H env env') (hs : strict → H = ∅)
include h hs

theorem run_follows (r : Outline.Run) :
    φ.Follows strict (fun e e' => e' = φ.expr e) (Check.run env r) (Check.run env' (φ.run r)) := by
  refine (parts_follows h hs r).bind ?_
  rintro ps _ ⟨rfl, hne⟩
  exact resolve_follows hne

/-- A run of a given type is checked on both sides. -/
theorem runAs_follows (ty : Ty) (r : Outline.Run) :
    φ.Follows strict (fun e e' => e' = φ.expr e) (runAs env ty r) (runAs env' ty (φ.run r)) := by
  refine (run_follows h hs r).bind ?_
  rintro e _ rfl
  rw [coerce_expr, line_expr]
  exact .typed e.line

/-- A condition is checked on both sides. -/
theorem condition_follows (r : Outline.Run) :
    φ.Follows strict (fun e e' => e' = φ.expr e) (condition env r)
      (condition env' (φ.run r)) := by
  refine (run_follows h hs r).bind ?_
  rintro e _ rfl
  rw [ty_expr, line_expr]
  exact .ite Iff.rfl (fun _ => .throw _) fun _ => .pure rfl

omit h hs in
/-- The length of an array does not change. -/
theorem lengthOf_follows (e : Expr) :
    φ.Follows strict (fun n n' => n' = n) (lengthOf e) (lengthOf (φ.expr e)) := by
  cases e with
  | literal value ty line =>
    cases value with
    | int n => exact .ite Iff.rfl (fun _ => .pure rfl) fun _ => .throw _
    | float x => exact .throw _
  | _ => exact .throw _

/-- The lengths of nested arrays do not change. -/
theorem lengths_follows (rs : List Outline.Run) :
    φ.Follows strict (fun ns ns' => ns' = ns) (lengths env rs) (lengths env' (rs.map φ.run)) := by
  induction rs with
  | nil => exact .pure rfl
  | cons r rs ih =>
    refine (run_follows h hs r).bind ?_
    rintro e _ rfl
    refine (lengthOf_follows e).bind ?_
    rintro n _ rfl
    refine ih.bind ?_
    rintro ns _ rfl
    exact .pure rfl

/-- An initial value is checked on both sides. -/
theorem initial_follows (ty : Ty) (line : Nat) (i : Outline.Initial) :
    φ.Follows strict (fun e e' => e' = e.map φ.expr) (Check.initial env ty line i)
      (Check.initial env' ty (φ.line line) (φ.initial i)) := by
  cases i with
  | none => exact .pure rfl
  | broken f => exact .throw f
  | value r =>
    refine .ite Iff.rfl (fun _ => .throw _) fun _ => ?_
    refine (runAs_follows h hs ty r).bind ?_
    rintro e _ rfl
    exact .pure rfl

end

end Envs

/-! ## §4. Declarations -/

/-- Related states, with `n` blocks open. -/
structure States (φ : Relabelling) (H : Hidden) (n : Nat) (st st' : State) : Prop where
  env : φ.Envs H st.toEnv st'.toEnv
  locals : st'.locals = st.locals
  depth : st.scope.inner.length = n

namespace States

variable {st st' : State} {n : Nat}

theorem push (h : φ.States H n st st') : φ.States H (n + 1) st.push st'.push :=
  ⟨⟨h.env.scope.push, h.env.vars, h.env.funcs, h.env.table⟩, h.locals,
    congrArg Nat.succ h.depth⟩

theorem pop (h : φ.States H (n + 1) st st') : φ.States H n st.pop st'.pop := by
  refine ⟨⟨h.env.scope.pop, h.env.vars, h.env.funcs, h.env.table⟩, h.locals, ?_⟩
  show st.scope.inner.tail.length = n
  rw [List.length_tail, h.depth, Nat.add_sub_cancel]

/-- A variable gets the same place in both tables. -/
theorem enter (h : φ.States H n st st') (sym : VarSymbol) :
    (st'.enter (φ.varSymbol sym)).1 = (st.enter sym).1 ∧
      φ.States H n (st.enter sym).2 (st'.enter (φ.varSymbol sym)).2 := by
  have hsize : st'.symbols.vars.rows.size = st.symbols.vars.rows.size := by
    rw [h.env.vars, Array.size_map]
  have hkey : (st'.symbols.vars.insert (φ.varSymbol sym)).1 = (st.symbols.vars.insert sym).1 :=
    hsize
  have htable : φ.Tables H (st.enter sym).2.symbols (st'.enter (φ.varSymbol sym)).2.symbols :=
    ⟨h.env.table.size, h.env.table.hidden, h.env.table.beyond⟩
  refine ⟨congrArg VarId.mk hkey, ⟨⟨h.env.scope, ?_, h.env.funcs, htable⟩, ?_, h.depth⟩⟩
  · show (st'.symbols.vars.rows.push (φ.varSymbol sym)) =
      (st.symbols.vars.rows.push sym).map φ.varSymbol
    rw [h.env.vars, Array.map_push]
  · unfold State.enter
    dsimp only
    rw [h.locals, hkey]
    rfl

/-- A name is bound on both sides, or clashes on both. -/
theorem bind_follows (h : φ.States H n st st') {x : String} (hx : x ∉ H ∨ n ≠ 0) (b : Binding)
    (line : Nat) :
    φ.Follows strict (φ.States H n) (st.bind x b line)
      (st'.bind (φ.name x) (φ.binding b) (φ.line line)) := by
  have hx' : x ∉ H ∨ st.scope.inner ≠ [] := by
    refine hx.imp_right fun hn hnil => hn ?_
    rw [← h.depth, hnil, List.length_nil]
  obtain ⟨hok, herror⟩ := h.env.scope.add hx' b
  unfold State.bind
  cases hadd : st.scope.add x b with
  | error d =>
    obtain ⟨d', hadd'⟩ := herror hadd
    rw [hadd']
    exact .throw _
  | ok s =>
    obtain ⟨s', hadd', hscope, hdepth⟩ := hok hadd
    rw [hadd']
    exact .pure ⟨⟨hscope, h.env.vars, h.env.funcs, h.env.table⟩, h.locals,
      hdepth.trans h.depth⟩

/-- A variable is declared on both sides. -/
theorem declare_follows (h : φ.States H n st st') (sym : VarSymbol) (hx : sym.name ∉ H ∨ n ≠ 0) :
    φ.Follows strict (fun r r' => r'.1 = r.1 ∧ φ.States H n r.2 r'.2) (st.declare sym)
      (st'.declare (φ.varSymbol sym)) := by
  obtain ⟨hv, hst⟩ := h.enter sym
  unfold State.declare
  dsimp only
  rw [hv]
  exact (hst.bind_follows hx (.var _) sym.line).bind fun _ _ hst => .pure ⟨rfl, hst⟩

/-- A whole declaration is checked on both sides. -/
theorem declaration_follows (hs : strict → H = ∅) (h : φ.States H n st st') (storage : Storage)
    {d : Outline.Declaration} (hx : d.name ∉ H ∨ n ≠ 0) :
    φ.Follows strict (fun r r' => r'.1 = (r.1.1, r.1.2.map φ.expr) ∧ φ.States H n r.2 r'.2)
      (Check.declaration st storage d) (Check.declaration st' storage (φ.declaration d)) := by
  refine .ite Iff.rfl (fun _ => .throw _) fun _ => ?_
  refine (h.env.lengths_follows hs d.lengths).bind ?_
  rintro ns _ rfl
  refine (h.env.initial_follows hs _ d.line d.init).bind ?_
  rintro init _ rfl
  refine (h.declare_follows ⟨d.name, _, storage, d.line⟩ hx).bind ?_
  rintro ⟨v, st₁⟩ ⟨_, st₁'⟩ ⟨rfl, hst⟩
  exact .pure ⟨rfl, hst⟩

end States

/-! ## §5. Statements -/

theorem raise_follows (fault : Option Fault) :
    φ.Follows strict (fun _ _ => True) (raise fault) (raise (fault.map φ.fault)) := by
  cases fault with
  | none => exact .pure trivial
  | some f => exact .throw f

theorem jump_follows (word : Keyword) (depth line : Nat) (fault : Option Fault) :
    φ.Follows strict (fun _ _ => True) (jump word depth line fault)
      (jump word depth (φ.line line) (fault.map φ.fault)) :=
  .ite Iff.rfl (fun _ => .throw _) fun _ => raise_follows fault

/-- What is said of a checked statement and of the state after it. -/
def Checked (φ : Relabelling) (H : Hidden) (n : Nat) {α : Type} (f : α → α)
    (r r' : α × State) : Prop :=
  r'.1 = f r.1 ∧ φ.States H n r.2 r'.2

mutual

/-- **Statements are checked on both sides**, to related states. -/
theorem stmt_follows (hs : strict → H = ∅) {n : Nat} (hn : n ≠ 0) (ret : Ty) (depth : Nat)
    {st st' : State} (h : φ.States H n st st') : ∀ s : Outline.Stmt,
    φ.Follows strict (φ.Checked H n φ.checkedStmt) (Check.stmt ret depth st s)
      (Check.stmt ret depth st' (φ.stmt s))
  | .declare d => by
    refine (h.declaration_follows hs .localVar (.inr hn)).bind ?_
    rintro ⟨⟨v, init⟩, st₁⟩ ⟨_, st₁'⟩ ⟨rfl, hst⟩
    exact .pure ⟨rfl, hst⟩
  | .expr e => by
    refine (h.env.run_follows hs e).bind ?_
    rintro e _ rfl
    exact .pure ⟨rfl, h⟩
  | .ret line => .ite Iff.rfl (fun _ => .pure ⟨rfl, h⟩) fun _ => .throw _
  | .retValue e => by
    refine (h.env.run_follows hs e).bind ?_
    rintro e _ rfl
    rw [line_expr, coerce_expr]
    refine .ite Iff.rfl (fun _ => .throw _) fun _ => ?_
    refine (Follows.typed e.line).bind ?_
    rintro e _ rfl
    exact .pure ⟨rfl, h⟩
  | .branch cond body otherwise => by
    refine (h.env.condition_follows hs cond).bind ?_
    rintro cond _ rfl
    refine (stmts_follows hs (Nat.succ_ne_zero n) ret depth h.push body).bind ?_
    rintro ⟨ss, st₁⟩ ⟨_, st₁'⟩ ⟨rfl, hst⟩
    refine (elseBranch_follows hs hn ret depth hst.pop otherwise).bind ?_
    rintro ⟨o, st₂⟩ ⟨_, st₂'⟩ ⟨rfl, hst⟩
    exact .pure ⟨rfl, hst⟩
  | .loop cond body => by
    refine (h.env.condition_follows hs cond).bind ?_
    rintro cond _ rfl
    refine (stmts_follows hs (Nat.succ_ne_zero n) ret (depth + 1) h.push body).bind ?_
    rintro ⟨ss, st₁⟩ ⟨_, st₁'⟩ ⟨rfl, hst⟩
    exact .pure ⟨rfl, hst.pop⟩
  | .leave line fault =>
    (jump_follows .kwBreak depth line fault).bind fun _ _ _ => .pure ⟨rfl, h⟩
  | .again line fault =>
    (jump_follows .kwContinue depth line fault).bind fun _ _ _ => .pure ⟨rfl, h⟩
  | .broken f => .throw f

/-- The other branch is checked on both sides. -/
theorem elseBranch_follows (hs : strict → H = ∅) {n : Nat} (hn : n ≠ 0) (ret : Ty) (depth : Nat)
    {st st' : State} (h : φ.States H n st st') : ∀ e : Outline.Else,
    φ.Follows strict (φ.Checked H n φ.checkedElse) (Check.elseBranch ret depth st e)
      (Check.elseBranch ret depth st' (φ.orElse e))
  | .nothing => .pure ⟨rfl, h⟩
  | .branch cond body otherwise => by
    refine (h.env.condition_follows hs cond).bind ?_
    rintro cond _ rfl
    refine (stmts_follows hs (Nat.succ_ne_zero n) ret depth h.push body).bind ?_
    rintro ⟨ss, st₁⟩ ⟨_, st₁'⟩ ⟨rfl, hst⟩
    refine (elseBranch_follows hs hn ret depth hst.pop otherwise).bind ?_
    rintro ⟨o, st₂⟩ ⟨_, st₂'⟩ ⟨rfl, hst⟩
    exact .pure ⟨rfl, hst⟩
  | .block body => by
    refine (stmts_follows hs (Nat.succ_ne_zero n) ret depth h.push body).bind ?_
    rintro ⟨ss, st₁⟩ ⟨_, st₁'⟩ ⟨rfl, hst⟩
    exact .pure ⟨rfl, hst.pop⟩

/-- Statements in order are checked on both sides. -/
theorem stmts_follows (hs : strict → H = ∅) {n : Nat} (hn : n ≠ 0) (ret : Ty) (depth : Nat)
    {st st' : State} (h : φ.States H n st st') : ∀ ss : List Outline.Stmt,
    φ.Follows strict (φ.Checked H n φ.checkedStmts) (Check.stmts ret depth st ss)
      (Check.stmts ret depth st' (φ.stmts ss))
  | [] => .pure ⟨rfl, h⟩
  | s :: ss => by
    refine (stmt_follows hs hn ret depth h s).bind ?_
    rintro ⟨s₁, st₁⟩ ⟨_, st₁'⟩ ⟨rfl, hst⟩
    refine (stmts_follows hs hn ret depth hst ss).bind ?_
    rintro ⟨ss₁, st₂⟩ ⟨_, st₂'⟩ ⟨rfl, hst⟩
    exact .pure ⟨rfl, hst⟩

end

end MiniC.Relabelling
