/-
  MiniC.Proofs.Relabelling.Items

  **A relabelled program is checked as the program is.**

  Items lead from related findings to related ones, each by what it does with
  the tables: a head enters a function or finds it, a body is checked in the
  tables so far, a global enters a variable.  A new function needs the place
  that the relabelling has for it.  Without hidden names it gets that place,
  so a whole program follows from its items one by one.
-/
import Mathlib.Data.Fintype.EquivFin
import MiniC.Proofs.Relabelling.Stmts
import MiniC.Proofs.Typing.Items

namespace MiniC.Relabelling

open Check

variable {φ : Relabelling} {H : Hidden} {strict : Prop} {env env' : Env}
variable {sig : Outline.Signature} {f : FuncId}

/-! ## §1. Heads of functions -/

/-- Types of parameters do not change. -/
theorem params_follows (ps : List Outline.Param) :
    φ.Follows strict (fun tys tys' => tys' = tys) (params ps) (params (ps.map φ.param)) := by
  induction ps with
  | nil => exact .pure rfl
  | cons p ps ih =>
    refine .ite Iff.rfl (fun _ => .throw _) fun _ => ih.bind ?_
    rintro _ tys rfl
    exact .pure rfl

/-- Types in a head do not change. -/
theorem signature_follows (sig : Outline.Signature) :
    φ.Follows strict (fun tys tys' => tys' = tys) (Check.signature sig)
      (Check.signature (φ.signature sig)) := by
  refine (params_follows sig.params).bind ?_
  rintro _ tys rfl
  exact (raise_follows sig.fault).bind fun _ _ _ => .pure rfl

/-- The function at a place, and the environment it is known in. -/
def KnownTo (φ : Relabelling) (H : Hidden) (r r' : FuncId × Env) : Prop :=
  r'.1 = φ.func r.1 ∧ φ.Envs H r.2 r'.2 ∧ (r.2.symbols.func? r.1).isSome

/-- A new row for a function is the relabelled one. -/
theorem Envs.withFunc (h : φ.Envs H env env') {sym : FuncSymbol} {s s' : Scope}
    (hscope : φ.Scopes H s s') (hnext : φ.func env.symbols.nextFunc = env'.symbols.nextFunc) :
    φ.Envs H ⟨s, env.symbols.withFunc sym⟩ ⟨s', env'.symbols.withFunc (φ.funcSymbol sym)⟩ := by
  refine ⟨hscope, h.vars, fun {f sym'} hf => ?_, ?_, fun r hr => ⟨?_, fun {f} hf => ?_⟩,
    fun hH {f} hf => ?_⟩
  · rcases Symbols.func?_of_withFunc hf with hf | ⟨rfl, rfl⟩
    · exact Symbols.func?_withFunc (h.funcs hf)
    · rw [hnext]
      exact Symbols.func?_withFunc_nextFunc _ _
  · have hsize : env'.symbols.funcs.rows.size = env.symbols.funcs.rows.size + H.rows.length :=
      h.table.size
    show (env'.symbols.funcs.rows.push _).size = (env.symbols.funcs.rows.push _).size + _
    rw [Array.size_push, Array.size_push, hsize, Nat.add_right_comm]
  · exact Symbols.func?_withFunc (h.table.hidden r hr).1
  · obtain ⟨sym', hf⟩ := Option.isSome_iff_exists.1 hf
    rcases Symbols.func?_of_withFunc hf with hf | ⟨rfl, _⟩
    · exact (h.table.hidden r hr).2 (Option.isSome_iff_exists.2 ⟨sym', hf⟩)
    · -- the next place of the second table is free, and that of a hidden row is not
      intro heq
      have hrow := (h.table.hidden r hr).1
      rw [← heq, hnext, Symbols.func?_nextFunc] at hrow
      cases hrow
  · apply h.table.beyond hH
    cases hold : env.symbols.func? f with
    | none => rfl
    | some sym' =>
      rw [Symbols.func?_withFunc hold] at hf
      cases hf

/-- What it means to enter a function, in one equation. -/
theorem newFunction_eq (env : Env) (sym : FuncSymbol) :
    newFunction env sym =
      match env.scope.add sym.name (.func env.symbols.nextFunc) with
      | .ok s => .ok (env.symbols.nextFunc, Env.mk s (env.symbols.withFunc sym))
      | .error _ => .error ⟨.redefined sym.name, sym.line⟩ := rfl

/-- A new function is entered on both sides. -/
theorem newFunction_follows (h : φ.Envs H env env') (sym : FuncSymbol) (hx : sym.name ∉ H)
    (hnext : φ.func env.symbols.nextFunc = env'.symbols.nextFunc) :
    φ.Follows strict (φ.KnownTo H) (newFunction env sym)
      (newFunction env' (φ.funcSymbol sym)) := by
  obtain ⟨hok, herror⟩ := h.scope.add (.inl hx) (.func env.symbols.nextFunc)
  dsimp only [binding] at hok herror
  rw [hnext] at hok herror
  rw [newFunction_eq, newFunction_eq]
  dsimp only [funcSymbol]
  cases hadd : env.scope.add sym.name (.func env.symbols.nextFunc) with
  | error d =>
    obtain ⟨d', hadd'⟩ := herror hadd
    rw [hadd']
    exact .throw _
  | ok s =>
    obtain ⟨s', hadd', hscope, _⟩ := hok hadd
    rw [hadd']
    refine .pure ⟨hnext.symm, h.withFunc hscope hnext, ?_⟩
    exact Option.isSome_iff_exists.2 ⟨sym, Symbols.func?_withFunc_nextFunc _ _⟩

/-- Without hidden names, the next function gets the place it has. -/
theorem Envs.nextFunc (h : φ.Envs H env env') (hH : H = ∅) :
    φ.func env.symbols.nextFunc = env'.symbols.nextFunc := by
  obtain ⟨hsize, hfix⟩ := h.beyond hH
  rw [hfix (Symbols.func?_nextFunc _)]
  exact congrArg FuncId.mk hsize.symm

/-- A declaration finds its function again, or enters it, on both sides. -/
theorem declareFunction_follows (h : φ.Envs H env env') (hs : strict → H = ∅) (tys : List Ty)
    (hx : sig.name ∉ H)
    (hnext : env.scope.get? sig.name = none → φ.func env.symbols.nextFunc = env'.symbols.nextFunc) :
    φ.Follows strict (φ.KnownTo H) (declareFunction env sig tys)
      (declareFunction env' (φ.signature sig) tys) := by
  unfold declareFunction
  dsimp only [signature]
  cases hget : env.scope.get? sig.name with
  | none =>
    rw [h.scope.get?_none hx hget]
    exact newFunction_follows h ⟨sig.name, sig.ret, tys, .declared, sig.line⟩ hx (hnext hget)
  | some b =>
    rw [h.scope.get?_some hget]
    cases b with
    | var v => exact .throw _
    | func f =>
      dsimp only [binding]
      cases hf : env.symbols.func? f with
      | none =>
        refine .fail fun hstrict => ?_
        rw [h.func?_none (hs hstrict) hf]
        rfl
      | some sym =>
        rw [h.funcs hf]
        refine .ite Iff.rfl (fun _ => .throw _) fun _ => ?_
        refine .ite Iff.rfl (fun _ => .pure ⟨rfl, h, ?_⟩) fun _ => .throw _
        exact Option.isSome_iff_exists.2 ⟨sym, hf⟩

/-- A row marked as defined is so on both sides. -/
theorem Envs.define (h : φ.Envs H env env') {f : FuncId}
    (hf : (env.symbols.func? f).isSome = true) :
    φ.Envs H { env with symbols := env.symbols.define f }
      { env' with symbols := env'.symbols.define (φ.func f) } := by
  have hback : ∀ {g}, ((env.symbols.define f).func? g).isSome = true →
      (env.symbols.func? g).isSome = true := by
    intro g hg
    obtain ⟨sym, hg⟩ := Option.isSome_iff_exists.1 hg
    rcases Symbols.func?_of_define hg with ⟨_, hg⟩ | ⟨rfl, _⟩
    · exact Option.isSome_iff_exists.2 ⟨sym, hg⟩
    · exact hf
  refine ⟨h.scope, h.vars, fun {g sym} hg => ?_, ?_, fun r hr => ⟨?_, fun {g} hg => ?_⟩,
    fun hH {g} hg => ?_⟩
  · rcases Symbols.func?_of_define hg with ⟨hne, hg⟩ | ⟨rfl, sym', hf, rfl⟩
    · rw [Symbols.func?_define_of_ne fun heq => hne (φ.func.injective heq)]
      exact h.funcs hg
    · exact Symbols.func?_define_self (h.funcs hf)
  · show (env'.symbols.funcs.rows.modify _ _).size = (env.symbols.funcs.rows.modify _ _).size + _
    rw [Array.size_modify, Array.size_modify]
    exact h.table.size
  · obtain ⟨hrow, happart⟩ := h.table.hidden r hr
    rw [Symbols.func?_define_of_ne (happart hf).symm]
    exact hrow
  · exact (h.table.hidden r hr).2 (hback hg)
  · apply h.table.beyond hH
    cases hold : env.symbols.func? g with
    | none => rfl
    | some sym =>
      obtain ⟨sym', hg', _⟩ := (Symbols.extends_define env.symbols f).func hold
      rw [hg'] at hg
      cases hg

/-- A definition is accepted or refused on both sides. -/
theorem defineFunction_follows (h : φ.Envs H env env') (hf : (env.symbols.func? f).isSome)
    (sig : Outline.Signature) :
    φ.Follows strict (φ.Envs H) (defineFunction env f sig)
      (defineFunction env' (φ.func f) (φ.signature sig)) := by
  have hdefine := h.define hf
  obtain ⟨sym, hf⟩ := Option.isSome_iff_exists.1 hf
  unfold defineFunction
  rw [hf, h.funcs hf]
  exact .ite Iff.rfl (fun _ => .throw _) fun _ => .pure hdefine

/-! ## §2. Items -/

/-- Parameters are declared on both sides. -/
theorem declareParams_follows {n : Nat} (hn : n ≠ 0) (ps : List Outline.Param) {st st' : State}
    (h : φ.States H n st st') :
    φ.Follows strict (φ.Checked H n id) (declareParams st ps)
      (declareParams st' (ps.map φ.param)) := by
  induction ps generalizing st st' with
  | nil => exact .pure ⟨rfl, h⟩
  | cons p ps ih =>
    refine (h.declare_follows ⟨p.name, p.ty, .localVar, p.line⟩ (.inr hn)).bind ?_
    rintro ⟨v, st₁⟩ ⟨_, st₁'⟩ ⟨rfl, hst⟩
    refine (ih hst).bind ?_
    rintro ⟨vs, st₂⟩ ⟨_, st₂'⟩ ⟨rfl, hst⟩
    exact .pure ⟨rfl, hst⟩

/-- The body of a function is checked to the relabelled one. -/
theorem functionBody_follows (h : φ.Envs H env env') (hs : strict → H = ∅)
    (hf : (env.symbols.func? f).isSome) (sig : Outline.Signature) (ss : List Outline.Stmt) :
    φ.Follows strict (fun r r' => r'.1 = φ.function r.1 ∧ φ.Envs H r.2 r'.2)
      (functionBody env f sig ss)
      (functionBody env' (φ.func f) (φ.signature sig) (φ.stmts ss)) := by
  refine (defineFunction_follows h hf sig).bind fun env₁ env₁' h => ?_
  have hst : φ.States H _ { env₁ with locals := [] } { env₁' with locals := [] } := ⟨h, rfl, rfl⟩
  refine (declareParams_follows (Nat.succ_ne_zero _) sig.params hst.push).bind ?_
  rintro ⟨vs, st₁⟩ ⟨_, st₁'⟩ ⟨rfl, hst⟩
  refine (stmts_follows hs (Nat.succ_ne_zero _) sig.ret 0 hst ss).bind ?_
  rintro ⟨ss₁, st₂⟩ ⟨_, st₂'⟩ ⟨rfl, hst⟩
  refine .pure ⟨?_, hst.pop.env⟩
  show Function.mk _ _ _ _ st₂'.locals _ = _
  rw [hst.locals]
  rfl

/-- Initial values of globals do not change. -/
theorem constant_follows (init : Option Expr) :
    φ.Follows strict (fun value value' => value' = value) (constant init)
      (constant (init.map φ.expr)) := by
  cases init with
  | none => exact .pure rfl
  | some e =>
    unfold constant
    dsimp only [Option.map]
    rw [constant?_expr]
    cases e.constant? with
    | some value => exact .pure rfl
    | none =>
      dsimp only
      rw [line_expr]
      exact .throw _

/-- Related findings. -/
structure Founds (φ : Relabelling) (H : Hidden) (found found' : Found) : Prop where
  env : φ.Envs H found.env found'.env
  items : found'.items = found.items.map φ.checkedItem
  imports : found'.imports = found.imports.map φ.func

variable {found found' : Found}

/-- An import is found on both sides. -/
theorem importItem_follows (h : φ.Founds H found found') (fault : Option Fault)
    (hx : sig.name ∉ H) (hnext : φ.func found.env.symbols.nextFunc = found'.env.symbols.nextFunc) :
    φ.Follows strict (φ.Founds H) (importItem found sig fault)
      (importItem found' (φ.signature sig) (fault.map φ.fault)) := by
  refine (signature_follows sig).bind ?_
  rintro _ tys rfl
  refine (raise_follows fault).bind fun _ _ _ => ?_
  refine (newFunction_follows h.env ⟨sig.name, sig.ret, tys, .imported, sig.line⟩ hx hnext).bind ?_
  rintro ⟨f, env₁⟩ ⟨_, env₁'⟩ ⟨rfl, henv, _⟩
  refine .pure ⟨henv, h.items, ?_⟩
  show found'.imports ++ [φ.func f] = (found.imports ++ [f]).map φ.func
  rw [h.imports, List.map_append, List.map_singleton]

/-- A function whose head is known in related environments. -/
theorem functionItem_follows {H' : Hidden} (h : φ.Founds H found found') (hs : strict → H' = ∅)
    (body : Outline.Body)
    (hdecl : ∀ tys, Check.signature sig = .ok tys →
      φ.Follows strict (φ.KnownTo H') (declareFunction found.env sig tys)
        (declareFunction found'.env (φ.signature sig) tys)) :
    φ.Follows strict (φ.Founds H') (functionItem found sig body)
      (functionItem found' (φ.signature sig) (φ.body body)) := by
  refine (signature_follows sig).bind_ok ?_
  rintro _ tys hsig rfl
  refine (hdecl tys hsig).bind ?_
  rintro ⟨f, env₁⟩ ⟨_, env₁'⟩ ⟨rfl, henv, hf⟩
  cases body with
  | none => exact .pure ⟨henv, h.items, h.imports⟩
  | broken fault => exact .throw fault
  | block ss =>
    refine (functionBody_follows henv hs hf sig ss).bind ?_
    rintro ⟨g, env₂⟩ ⟨_, env₂'⟩ ⟨rfl, henv⟩
    refine .pure ⟨henv, ?_, h.imports⟩
    show found'.items ++ [Item.function (φ.function g)] =
      (found.items ++ [Item.function g]).map φ.checkedItem
    rw [h.items, List.map_append]
    rfl

/-- A global is found on both sides. -/
theorem globalItem_follows (h : φ.Founds H found found') (hs : strict → H = ∅)
    {d : Outline.Declaration} (hx : d.name ∉ H) :
    φ.Follows strict (φ.Founds H) (globalItem found d)
      (globalItem found' (φ.declaration d)) := by
  have hst : φ.States H _ { found.env with locals := [] } { found'.env with locals := [] } :=
    ⟨h.env, rfl, rfl⟩
  refine (hst.declaration_follows hs .globalVar (.inl hx)).bind ?_
  rintro ⟨⟨v, init⟩, st₁⟩ ⟨_, st₁'⟩ ⟨rfl, hst⟩
  refine (constant_follows init).bind ?_
  rintro _ value rfl
  refine .pure ⟨hst.env, ?_, h.imports⟩
  show found'.items ++ [Item.global v value] =
    (found.items ++ [Item.global v value]).map φ.checkedItem
  rw [h.items, List.map_append]
  rfl

/-- **Without hidden names, every item is checked alike.** -/
theorem item_follows (h : φ.Founds ∅ found found') (i : Outline.Item) :
    φ.Follows strict (φ.Founds ∅) (Check.item found i) (Check.item found' (φ.item i)) := by
  have hnext := h.env.nextFunc rfl
  cases i with
  | imported sig fault => exact importItem_follows h fault (Hidden.notMem_empty _) hnext
  | function sig body =>
    refine functionItem_follows h (fun _ => rfl) body fun tys _ => ?_
    exact declareFunction_follows h.env (fun _ => rfl) tys (Hidden.notMem_empty _) fun _ => hnext
  | global d => exact globalItem_follows h (fun _ => rfl) (Hidden.notMem_empty _)
  | broken f => exact .throw f

/-- **Items are found on both sides**, one after the other. -/
theorem items_follows (h : φ.Founds ∅ found found') (is : List Outline.Item) :
    φ.Follows strict (φ.Founds ∅) (Check.items found is)
      (Check.items found' (is.map φ.item)) := by
  induction is generalizing found found' with
  | nil => exact .pure h
  | cons i is ih => exact (item_follows h i).bind fun _ _ h => ih h

/-! ## §3. Programs -/

/-- Related programs. -/
structure Programs (φ : Relabelling) (p p' : Program) : Prop where
  items : p'.items = p.items.map φ.checkedItem
  imports : p'.imports = p.imports.map φ.func
  vars : p'.symbols.vars.rows = p.symbols.vars.rows.map φ.varSymbol
  funcs : ∀ {f sym}, p.symbols.func? f = some sym →
    p'.symbols.func? (φ.func f) = some (φ.funcSymbol sym)
  missing : ∀ {f}, p.symbols.func? f = none → p'.symbols.func? (φ.func f) = none

/-- Nothing has been found at the start. -/
theorem founds_empty (hrows : H.rows = []) (hid : H = ∅ → ∀ f, φ.func f = f) :
    φ.Founds H {} {} := by
  refine ⟨⟨⟨rfl, nofun, fun _ _ => rfl⟩, Array.map_empty.symm, nofun, ?_, ?_,
    fun hH _ _ => hid hH _⟩, rfl, rfl⟩
  · rw [hrows]
    rfl
  · rw [hrows]
    nofun

theorem index_lt_of_func? {Γ : Symbols} {sym : FuncSymbol} (h : Γ.func? f = some sym) :
    f.index < Γ.funcs.size :=
  Table.isSome_get?.1 (Option.isSome_iff_exists.2 ⟨sym, h⟩)

theorem exists_func? {Γ : Symbols} {n : Nat} (h : n < Γ.funcs.size) :
    ∃ sym, Γ.func? ⟨n⟩ = some sym :=
  Option.isSome_iff_exists.1 (Table.isSome_get?.2 h)

/-- **Every function of the second table is one of the first, relabelled.** -/
theorem Envs.exists_of_func? (h : φ.Envs ∅ env env') {f' : FuncId} {sym' : FuncSymbol}
    (hf' : env'.symbols.func? f' = some sym') :
    ∃ f sym, env.symbols.func? f = some sym ∧ φ.func f = f' ∧ sym' = φ.funcSymbol sym := by
  obtain ⟨hsize, _⟩ := h.beyond rfl
  -- both tables have the same length, and no two functions fall together
  have hlt : ∀ i : Fin env.symbols.funcs.size, (φ.func ⟨i⟩).index < env.symbols.funcs.size := by
    intro i
    obtain ⟨sym, hf⟩ := exists_func? i.2
    exact Nat.lt_of_lt_of_eq (index_lt_of_func? (h.funcs hf)) hsize
  let moved : Fin env.symbols.funcs.size → Fin env.symbols.funcs.size := fun i => ⟨_, hlt i⟩
  have hinj : Function.Injective moved := by
    intro i j hij
    have hindex : (φ.func ⟨i⟩).index = (φ.func ⟨j⟩).index := congrArg Fin.val hij
    have hfunc : φ.func ⟨i⟩ = φ.func ⟨j⟩ := congrArg FuncId.mk hindex
    exact Fin.ext (congrArg FuncId.index (φ.func.injective hfunc))
  have hf'lt : f'.index < env.symbols.funcs.size := hsize ▸ index_lt_of_func? hf'
  obtain ⟨i, hi⟩ := Finite.surjective_of_injective hinj ⟨f'.index, hf'lt⟩
  have hmoved : φ.func ⟨i⟩ = f' := congrArg FuncId.mk (congrArg Fin.val hi)
  obtain ⟨sym, hf⟩ := exists_func? i.2
  have hsym := h.funcs hf
  rw [hmoved, hf'] at hsym
  exact ⟨⟨i⟩, sym, hf, hmoved, Option.some.inj hsym⟩

/-- If no function moves, the table of functions is the relabelled one. -/
theorem Envs.rows (h : φ.Envs ∅ env env') (hid : ∀ f, φ.func f = f) :
    env'.symbols.funcs.rows = env.symbols.funcs.rows.map φ.funcSymbol := by
  obtain ⟨hsize, _⟩ := h.beyond rfl
  refine Array.ext_getElem? fun i => ?_
  rw [Array.getElem?_map]
  show env'.symbols.func? ⟨i⟩ = (env.symbols.func? ⟨i⟩).map φ.funcSymbol
  cases hf : env.symbols.func? ⟨i⟩ with
  | none => rw [← hid ⟨i⟩, h.func?_none rfl hf, Option.map_none]
  | some sym => rw [← hid ⟨i⟩, h.funcs hf, Option.map_some]

/-- A function without a body is missed on both sides. -/
theorem allDefined_follows (h : φ.Envs ∅ env env') (hid : strict → ∀ f, φ.func f = f) :
    φ.Follows strict (fun _ _ => True) (allDefined env.symbols) (allDefined env'.symbols) := by
  constructor
  · intro _ hok
    refine ⟨(), ?_, trivial⟩
    have hnone : env'.symbols.funcs.rows.toList.find? (·.state = .declared) = none := by
      rw [List.find?_eq_none]
      intro sym' hmem
      obtain ⟨i, hi⟩ := List.mem_iff_getElem?.1 hmem
      rw [Array.getElem?_toList] at hi
      have hi' : env'.symbols.func? ⟨i⟩ = some sym' := hi
      obtain ⟨f, sym, hf, _, rfl⟩ := h.exists_of_func? hi'
      have hne : sym.state ≠ .declared := ne_declared_of_allDefined hok hf
      exact fun hdeclared => hne (of_decide_eq_true hdeclared)
    rw [allDefined, hnone]
  · intro f herror hstrict
    unfold allDefined at herror ⊢
    have hfind : (env.symbols.funcs.rows.toList.map φ.funcSymbol).find? (·.state = .declared) =
        (env.symbols.funcs.rows.toList.find? (·.state = .declared)).map φ.funcSymbol :=
      List.find?_map ..
    rw [h.rows (hid hstrict), Array.toList_map, hfind]
    split at herror
    · cases herror
    · rename_i sym hsym
      cases herror
      rw [hsym]
      rfl

theorem Founds.programs (h : φ.Founds ∅ found found') :
    φ.Programs found.toProgram found'.toProgram :=
  ⟨h.items, h.imports, h.env.vars, h.env.funcs, h.env.func?_none rfl⟩

/-- **A relabelled program is checked as the program is**, if no function
moves. -/
theorem program_follows (hid : ∀ f, φ.func f = f) (is : List Outline.Item) :
    φ.Follows strict φ.Programs (Check.program is) (Check.program (is.map φ.item)) := by
  refine (items_follows (founds_empty rfl fun _ => hid) is).bind fun found found' h => ?_
  refine (allDefined_follows h.env fun _ => hid).bind fun _ _ _ => ?_
  exact .pure h.programs

end MiniC.Relabelling
