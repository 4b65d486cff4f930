/-
  MiniC.Proofs.Typing.Items

  **Checked programs are well formed.**

  What holds of the items found so far (`Found.Ok`): the global frame names
  the global variables and the functions, a function by one name
  (`Scope.Names`); a function is defined in the table exactly if an item
  defines it, and imported exactly if it is among the imports
  (`Symbols.Tracks`).  Each item keeps this, and adds functions that are well
  formed in the tables of the end (`Found.Step`).

  With every function defined in the end, nothing is missing, and the program
  is well formed (`wellFormed_of_parse`).
-/
import Mathlib
import MiniC.Compile
import MiniC.Proofs.Typing.Stmts

namespace MiniC

/-! ## §1. What items keep -/

theorem GlobalWellFormed.mono {Γ Γ' : Symbols} {v : VarId} {init : Option Literal}
    {sym : VarSymbol} (h : GlobalWellFormed Γ v init sym) (hext : Γ.Extends Γ') :
    GlobalWellFormed Γ' v init sym :=
  ⟨hext.var h.symbol, h.storage, h.ne_void, h.constant⟩

namespace Check

variable {found found' : Found} {Γ : Symbols} {tys : List Ty} {sig : Outline.Signature}
  {env' : Env} {sym : FuncSymbol} {f : FuncId}

/-- What has been found, as a program. -/
def Found.toProgram (found : Found) : Program :=
  ⟨found.items, found.imports, found.env.symbols⟩

/-- What holds of the items found so far. -/
structure Found.Ok (found : Found) : Prop where
  scope : found.env.scope.Names found.env.symbols found.toProgram.globals
  valued : found.env.symbols.Valued
  tracks : found.env.symbols.Tracks (found.toProgram.functions.map (·.id)) found.imports
  globals : ∀ {v : VarId} {init : Option Literal}, .global v init ∈ found.items →
    ∃ sym, GlobalWellFormed found.env.symbols v init sym
  globals_nodup : found.toProgram.globals.Nodup

/-- One item more, or several. -/
structure Found.Step (found found' : Found) : Prop where
  ok : found'.Ok
  symbols : found.env.symbols.Extends found'.env.symbols
  items : found.items <+: found'.items
  /-- A new function is well formed in the tables of the end. -/
  functions : ∀ {Γ : Symbols} {G : List VarId}, found'.env.symbols.Extends Γ →
    (∀ v ∈ found'.toProgram.globals, v ∈ G) →
    ∀ f ∈ found'.toProgram.functions, f ∈ found.toProgram.functions ∨ f.WellFormed Γ G

theorem Found.Ok.globals_mono (hok : found.Ok) (hext : found.env.symbols.Extends Γ) {v : VarId}
    {init : Option Literal} (hv : .global v init ∈ found.items) :
    ∃ sym, GlobalWellFormed Γ v init sym := by
  obtain ⟨sym, hg⟩ := hok.globals hv
  exact ⟨sym, hg.mono hext⟩

theorem Found.globals_subset (h : found.items <+: found'.items) :
    ∀ v ∈ found.toProgram.globals, v ∈ found'.toProgram.globals :=
  fun _ hv => (h.filterMap _).subset hv

theorem Found.Step.refl {found : Found} (hok : found.Ok) : found.Step found :=
  ⟨hok, .refl _, List.prefix_refl _, fun _ _ _ hf => .inl hf⟩

/-- Steps follow each other. -/
theorem Found.Step.trans {found found' found'' : Found} (h : found.Step found')
    (h' : found'.Step found'') : found.Step found'' := by
  refine ⟨h'.ok, h.symbols.trans h'.symbols, h.items.trans h'.items, ?_⟩
  intro Γ G hext hG f hf
  rcases h'.functions hext hG f hf with hf | hwf
  · exact h.functions (h'.symbols.trans hext)
      (fun v hv => hG v (Found.globals_subset h'.items v hv)) f hf
  · exact .inr hwf

/-! ## §2. Heads of functions -/

/-- Parameters that were accepted have values. -/
theorem params_eq_ok {ps : List Outline.Param} (h : params ps = .ok tys) :
    tys = ps.map (·.ty) ∧ ∀ ty ∈ tys, ty ≠ .void := by
  induction ps generalizing tys with
  | nil =>
    cases h
    exact ⟨rfl, List.forall_mem_nil _⟩
  | cons p ps ih =>
    unfold params at h
    split at h
    · cases h
    · rename_i hne
      obtain ⟨tys', hps, h⟩ := bind_eq_ok.1 h
      cases h
      obtain ⟨rfl, hnes⟩ := ih hps
      exact ⟨rfl, List.forall_mem_cons.2 ⟨hne, hnes⟩⟩

/-- Parameters of an accepted head have values. -/
theorem signature_eq_ok (h : signature sig = .ok tys) :
    tys = sig.params.map (·.ty) ∧ ∀ ty ∈ tys, ty ≠ .void := by
  obtain ⟨tys', hps, h⟩ := bind_eq_ok.1 h
  obtain ⟨_, _, h⟩ := bind_eq_ok.1 h
  cases h
  exact params_eq_ok hps

/-- **What it means to enter a function.** -/
theorem newFunction_eq_ok {env : Env} (h : newFunction env sym = .ok (f, env')) :
    f = env.symbols.nextFunc ∧ env'.symbols = env.symbols.withFunc sym ∧
      env.scope.add sym.name (.func f) = .ok env'.scope := by
  unfold newFunction at h
  dsimp only at h
  split at h
  · rename_i scope hadd
    cases h
    exact ⟨rfl, rfl, hadd⟩
  · cases h

/-- A new function, which is declared or the host's, keeps what holds. -/
theorem newFunction_step {imports' : List FuncId} (hok : found.Ok)
    (hne : ∀ ty ∈ sym.params, ty ≠ .void)
    (htracks : (found.env.symbols.withFunc sym).Tracks
      (found.toProgram.functions.map (·.id)) imports')
    (h : newFunction found.env sym = .ok (f, env')) :
    found.Step { found with env := env', imports := imports' } ∧
      env'.symbols.func? f = some sym := by
  obtain ⟨scope', Γ'⟩ := env'
  obtain ⟨rfl, rfl, hadd⟩ := newFunction_eq_ok h
  have hext := Symbols.extends_withFunc found.env.symbols sym
  refine ⟨⟨?_, hext, List.prefix_refl _, fun _ _ _ hg => .inl hg⟩,
    Symbols.func?_withFunc_nextFunc _ _⟩
  exact ⟨hok.scope.withFunc hadd, hok.valued.withFunc hne, htracks, hok.globals_mono hext,
    hok.globals_nodup⟩

/-- **What it means to declare a function**: it is entered, or was declared
before with the same types. -/
theorem declareFunction_eq_ok {env : Env} (h : declareFunction env sig tys = .ok (f, env')) :
    newFunction env ⟨sig.name, sig.ret, tys, .declared, sig.line⟩ = .ok (f, env') ∨
      env' = env ∧ env.scope.get? sig.name = some (.func f) ∧
        ∃ sym, env.symbols.func? f = some sym ∧ sym.state ≠ .imported ∧ sym.ret = sig.ret ∧
          sym.params = tys := by
  unfold declareFunction at h
  split at h
  · exact .inl h
  · cases h
  · rename_i g hget
    split at h
    · cases h
    · rename_i sym hsym
      split at h
      · cases h
      · rename_i hstate
        split at h
        · rename_i hty
          cases h
          exact .inr ⟨rfl, hget, sym, hsym, hstate, hty⟩
        · cases h

/-- The head of a function, new or known, keeps what holds. -/
theorem declareFunction_step (hok : found.Ok) (hne : ∀ ty ∈ tys, ty ≠ .void)
    (h : declareFunction found.env sig tys = .ok (f, env')) :
    found.Step { found with env := env' } ∧
      ∃ sym, env'.symbols.func? f = some sym ∧ sym.name = sig.name ∧ sym.ret = sig.ret ∧
        sym.params = tys ∧ sym.state ≠ .imported := by
  obtain hnew | ⟨rfl, hget, sym, hsym, hstate, hret, hparams⟩ := declareFunction_eq_ok h
  · obtain ⟨hstep, hnew⟩ := newFunction_step hok hne (hok.tracks.declare rfl) hnew
    exact ⟨hstep, _, hnew, rfl, rfl, rfl, nofun⟩
  · rw [Scope.get?_of_inner hok.scope.inner] at hget
    obtain ⟨sym', hsym', hname⟩ := hok.scope.funcs (mem_of_lookup hget)
    cases hsym.symm.trans hsym'
    exact ⟨.refl hok, sym, hsym, hname, hret, hparams, hstate⟩

/-- A definition is the first one, and marks its row. -/
theorem defineFunction_eq_ok {env : Env} (hf : env.symbols.func? f = some sym)
    (h : defineFunction env f sig = .ok env') :
    sym.state ≠ .defined ∧ env' = { env with symbols := env.symbols.define f } := by
  unfold defineFunction at h
  split at h
  · cases h
  · rename_i hd
    cases h
    rw [hf] at hd
    exact ⟨by simpa using hd, rfl⟩

/-! ## §3. Bodies of functions -/

/-- The parameters are the first variables of a function. -/
theorem declareParams_step : (ps : List Outline.Param) → {st st' : State} → {vs : List VarId} →
    st.Ok → (∀ p ∈ ps, p.ty ≠ .void) → declareParams st ps = .ok (vs, st') →
    Step st st' (fun Γ _ => vs.map (fun v => (Γ.var? v).map (·.ty)) =
      (ps.map (·.ty)).map some) ∧ st'.locals = st.locals ++ vs
  | [], st, st', vs, hok, _, h => by
    cases h
    exact ⟨hok.stay fun _ => rfl, (List.append_nil _).symm⟩
  | p :: ps, st, st', vs, hok, hne, h => by
    obtain ⟨⟨v, st₁⟩, hv, h⟩ := bind_eq_ok.1 h
    obtain ⟨⟨vs, st₂⟩, hvs, h⟩ := bind_eq_ok.1 h
    cases h
    obtain ⟨hne, hnes⟩ := List.forall_mem_cons.1 hne
    obtain ⟨hfirst, hloc⟩ := declare_step hok rfl hne hv
    obtain ⟨hrest, hlocs⟩ := declareParams_step ps hfirst.ok hnes hvs
    refine ⟨(hfirst.trans hrest).mono fun {Γ U} h => ?_, ?_⟩
    · rw [List.map_cons, h.1.1, h.2]
      rfl
    · rw [hlocs, hloc, List.append_assoc]
      rfl

/-- Checking the body of a function starts with no variables. -/
theorem Found.Ok.start (hok : found.Ok) (hv : Γ.Valued) :
    State.Ok (State.push { found.env with symbols := Γ, locals := [] }) := by
  refine ⟨List.cons_ne_nil _ _, ?_, List.nodup_nil, List.forall_mem_nil _, hv⟩
  intro frame hframe name v hmem
  have hframe : frame ∈ [] :: found.env.scope.inner := hframe
  rw [hok.scope.inner, List.mem_singleton] at hframe
  rw [hframe] at hmem
  cases hmem

/-- **The body of a function is well formed.** -/
theorem functionBody_wellFormed {body : List Outline.Stmt} {g : Function} (hok : found.Ok)
    (hf : found.env.symbols.func? f = some sym) (hname : sym.name = sig.name)
    (hret : sym.ret = sig.ret) (hparams : sym.params = sig.params.map (·.ty))
    (hne : ∀ ty ∈ sym.params, ty ≠ .void) (h : functionBody found.env f sig body = .ok (g, env')) :
    (g.id = f ∧ sym.state ≠ .defined) ∧
      (env'.scope = found.env.scope ∧ env'.symbols.Valued ∧
        (found.env.symbols.define f).Extends env'.symbols ∧
        env'.symbols.funcs = (found.env.symbols.define f).funcs) ∧
      ∀ {Γ : Symbols} {G : List VarId}, env'.symbols.Extends Γ →
        (∀ v ∈ found.toProgram.globals, v ∈ G) → g.WellFormed Γ G := by
  obtain ⟨env₁, hdef, h⟩ := bind_eq_ok.1 h
  obtain ⟨⟨vs, st₁⟩, hps, h⟩ := bind_eq_ok.1 h
  obtain ⟨⟨body', st₂⟩, hbody, h⟩ := bind_eq_ok.1 h
  cases h
  obtain ⟨hstate, rfl⟩ := defineFunction_eq_ok hf hdef
  rw [hparams, List.forall_mem_map] at hne
  obtain ⟨hvs, hlocals⟩ :=
    declareParams_step sig.params (hok.start (hok.valued.define f)) hne hps
  have hstmts := (stmtsChecked_of_stmts body hbody).step hvs.ok
  have hgrows := hvs.grows.trans hstmts.grows
  have hlocals : st₁.locals = vs := hlocals
  -- closing the frame of the body gives back the scope from before the function
  have hscope : st₂.pop.scope = found.env.scope := by
    have hinner : st₂.scope.inner.tail = found.env.scope.inner := hgrows.enclosing
    have houter : st₂.scope.outer = found.env.scope.outer := hgrows.outer
    show Scope.mk st₂.scope.inner.tail st₂.scope.outer = found.env.scope
    rw [hinner, houter]
  refine ⟨⟨rfl, hstate⟩, ⟨hscope, hstmts.ok.valued, hgrows.symbols, hgrows.funcs⟩, ?_⟩
  intro Γ G hext hG
  -- a name in the body is one of a local, or one of the global frame
  have hwithin : st₂.Within Γ (fun v => v ∈ G ∨ v ∈ st₂.locals) := by
    refine ⟨hext, fun v hv => .inr hv, fun name v hv => .inl (hG v ?_)⟩
    have hv : (name, Binding.var v) ∈ found.env.scope.outer := hgrows.outer ▸ hv
    exact hok.scope.vars hv
  obtain ⟨sym', hsym', hname', hparams', hret'⟩ :=
    (hgrows.symbols.trans hext).func (Symbols.func?_define_self hf)
  exact {
    symbol := by
      refine ⟨sym', hsym', hname'.trans hname, hret'.trans hret, ?_⟩
      rw [hparams']
      show _ = sym.params.map some
      rw [hparams]
      exact hvs.holds (hstmts.grows.within hwithin)
    params_prefix := hlocals ▸ hstmts.grows.locals
    locals_nodup := hstmts.ok.nodup
    locals_local := by
      intro v hv
      obtain ⟨symv, hsymv, hs⟩ := hstmts.ok.isLocal v hv
      exact ⟨symv, hext.var hsymv, hs⟩
    body := hstmts.holds hwithin }

theorem functions_append_function (found : Found) (env : Env) (g : Function) :
    ({ found with env := env, items := found.items ++ [.function g] } : Found).toProgram.functions =
      found.toProgram.functions ++ [g] := by
  simp [Found.toProgram, Program.functions]

theorem globals_append_function (found : Found) (env : Env) (g : Function) :
    ({ found with env := env, items := found.items ++ [.function g] } : Found).toProgram.globals =
      found.toProgram.globals := by
  simp [Found.toProgram, Program.globals]

/-- A function with a body keeps what holds. -/
theorem functionBody_step {body : List Outline.Stmt} {g : Function} (hok : found.Ok)
    (hf : found.env.symbols.func? f = some sym) (hname : sym.name = sig.name)
    (hret : sym.ret = sig.ret) (hparams : sym.params = sig.params.map (·.ty))
    (himp : sym.state ≠ .imported) (hne : ∀ ty ∈ sym.params, ty ≠ .void)
    (h : functionBody found.env f sig body = .ok (g, env')) :
    found.Step { found with env := env', items := found.items ++ [.function g] } := by
  obtain ⟨⟨hid, hstate⟩, ⟨hscope, hvalued, hext, hfuncs⟩, hwf⟩ :=
    functionBody_wellFormed hok hf hname hret hparams hne h
  have hext' : found.env.symbols.Extends env'.symbols :=
    (Symbols.extends_define _ f).trans hext
  have hfunc : ∀ g, env'.symbols.func? g = (found.env.symbols.define f).func? g := by
    intro g
    rw [Symbols.func?, hfuncs]
    rfl
  -- only the state of one function changed, and no name did
  have hback : ∀ {g : FuncId} {sym' : FuncSymbol}, env'.symbols.func? g = some sym' →
      ∃ sym, found.env.symbols.func? g = some sym ∧ sym.name = sym'.name := by
    intro g sym' hg
    rw [hfunc] at hg
    rcases Symbols.func?_of_define hg with ⟨_, hold⟩ | ⟨rfl, sym'', hold, rfl⟩
    · exact ⟨sym', hold, rfl⟩
    · exact ⟨sym'', hold, rfl⟩
  have hglobals := globals_append_function found env' g
  have hfunctions := functions_append_function found env' g
  refine ⟨⟨?_, hvalued, ?_, ?_, hglobals ▸ hok.globals_nodup⟩, hext', List.prefix_append _ _, ?_⟩
  · rw [hglobals]
    show env'.scope.Names _ _
    rw [hscope]
    exact hok.scope.mono hext' hback
  · rw [hfunctions, List.map_append, List.map_singleton, hid]
    exact (hok.tracks.define hf hstate himp).congr hfunc
  · intro v init hv
    exact hok.globals_mono hext' (by simpa using hv)
  · intro Γ G hΓ hG k hk
    rw [hfunctions] at hk
    rw [hglobals] at hG
    rcases List.mem_append.1 hk with hk | hk
    · exact .inl hk
    · rw [List.mem_singleton.1 hk]
      exact .inr (hwf hΓ hG)

/-- A function is a step. -/
theorem functionItem_step {body : Outline.Body} (hok : found.Ok)
    (h : functionItem found sig body = .ok found') : found.Step found' := by
  obtain ⟨tys, hsig, h⟩ := bind_eq_ok.1 h
  obtain ⟨⟨f, env⟩, hdecl, h⟩ := bind_eq_ok.1 h
  obtain ⟨htys, hne⟩ := signature_eq_ok hsig
  obtain ⟨hstep, sym, hf, hname, hret, hparams, himp⟩ := declareFunction_step hok hne hdecl
  cases body with
  | none =>
    cases h
    exact hstep
  | broken fault => cases h
  | block ss =>
    obtain ⟨⟨g, env'⟩, hbody, h⟩ := bind_eq_ok.1 h
    cases h
    have hparams' := hparams.trans htys
    exact hstep.trans
      (functionBody_step hstep.ok hf hname hret hparams' himp (hparams ▸ hne) hbody)

/-! ## §4. Items -/

/-- An import is a step. -/
theorem importItem_step {fault : Option Fault} (hok : found.Ok)
    (h : importItem found sig fault = .ok found') : found.Step found' := by
  obtain ⟨tys, hsig, h⟩ := bind_eq_ok.1 h
  obtain ⟨_, _, h⟩ := bind_eq_ok.1 h
  obtain ⟨⟨f, env⟩, hnew, h⟩ := bind_eq_ok.1 h
  cases h
  obtain ⟨rfl, _⟩ := newFunction_eq_ok hnew
  exact (newFunction_step hok (signature_eq_ok hsig).2 (hok.tracks.importFunc rfl) hnew).1

/-- The constant of a global is of the variable's kind. -/
theorem constant_eq_ok {env : Env} {ty : Ty} {line : Nat} {i : Outline.Initial}
    {init : Option Expr} {value : Option Literal} (hin : env.Fits env.symbols (fun _ => True))
    (hi : initial env ty line i = .ok init) (h : constant init = .ok value) :
    ∀ c ∈ value, ty.isArray = false ∧ (c.ty = .float ↔ ty = .float) := by
  intro c hc
  cases init with
  | none =>
    cases h
    cases hc
  | some e =>
    obtain ⟨harray, rfl, t, he, hd⟩ := initial_passed hin hi e rfl
    rw [constant] at h
    split at h
    · rename_i c' hc'
      cases h
      cases hc
      exact ⟨harray, (ty_eq_float_of_constant? e he hc').trans hd.eq_float_iff⟩
    · cases h

theorem globals_append_global (found : Found) (env : Env) (v : VarId) (init : Option Literal) :
    ({ found with env := env, items := found.items ++ [.global v init] } :
      Found).toProgram.globals = found.toProgram.globals ++ [v] := by
  simp [Found.toProgram, Program.globals]

theorem functions_append_global (found : Found) (env : Env) (v : VarId) (init : Option Literal) :
    ({ found with env := env, items := found.items ++ [.global v init] } :
      Found).toProgram.functions = found.toProgram.functions := by
  simp [Found.toProgram, Program.functions]

/-- The next variable is no global so far. -/
theorem Found.Ok.nextVar_notMem (hok : found.Ok) :
    found.env.symbols.nextVar ∉ found.toProgram.globals := by
  intro hmem
  obtain ⟨i, hi, heq⟩ := List.mem_filterMap.1 hmem
  cases i with
  | function f => cases heq
  | global v init =>
    cases heq
    obtain ⟨sym, hg⟩ := hok.globals hi
    have hvar := hg.symbol
    rw [Symbols.var?_nextVar] at hvar
    cases hvar

/-- A global is a step. -/
theorem globalItem_step {d : Outline.Declaration} (hok : found.Ok)
    (h : globalItem found d = .ok found') : found.Step found' := by
  obtain ⟨⟨⟨v, init⟩, st⟩, hd, h⟩ := bind_eq_ok.1 h
  obtain ⟨value, hvalue, h⟩ := bind_eq_ok.1 h
  cases h
  obtain ⟨ty, hne, hinit, hdecl⟩ := declaration_eq_ok hd
  obtain ⟨hv, hsym, hadd, _⟩ := declare_eq_ok hdecl
  have hsym : st.symbols = found.env.symbols.withVar ⟨d.name, ty, .globalVar, d.line⟩ := hsym
  have hv : v = found.env.symbols.nextVar := hv
  have hext : found.env.symbols.Extends st.symbols := hsym ▸ Symbols.extends_withVar _ _
  have hfunc : ∀ g, st.symbols.func? g = found.env.symbols.func? g := by
    intro g
    rw [hsym]
    rfl
  have hnew : GlobalWellFormed st.symbols v value ⟨d.name, ty, .globalVar, d.line⟩ := by
    refine ⟨?_, rfl, hne, constant_eq_ok ⟨.refl _, hok.valued, fun _ => trivial⟩ hinit hvalue⟩
    rw [hsym, hv]
    exact Symbols.var?_withVar_nextVar _ _
  have hglobals := globals_append_global found st.toEnv v value
  have hfunctions := functions_append_global found st.toEnv v value
  refine ⟨⟨?_, hsym ▸ hok.valued.withVar hne, ?_, ?_, ?_⟩, hext, List.prefix_append _ _,
    fun _ _ k hk => .inl (hfunctions ▸ hk)⟩
  · rw [hglobals]
    exact hok.scope.withVar hfunc hadd
  · rw [hfunctions]
    exact hok.tracks.congr hfunc
  · intro v' init' hv'
    rcases List.mem_append.1 hv' with hv' | hv'
    · exact hok.globals_mono hext hv'
    · cases List.mem_singleton.1 hv'
      exact ⟨_, hnew⟩
  · rw [hglobals]
    refine nodup_append_singleton hok.globals_nodup ?_
    rw [hv]
    exact hok.nextVar_notMem

/-- An item is a step. -/
theorem item_step {i : Outline.Item} (hok : found.Ok) (h : item found i = .ok found') :
    found.Step found' := by
  cases i with
  | imported sig fault => exact importItem_step hok h
  | function sig body => exact functionItem_step hok h
  | global d => exact globalItem_step hok h
  | broken f => cases h

/-- Items in order are a step. -/
theorem items_step {is : List Outline.Item} (hok : found.Ok) (h : items found is = .ok found') :
    found.Step found' := by
  induction is generalizing found with
  | nil =>
    cases h
    exact .refl hok
  | cons i is ih =>
    obtain ⟨found₁, hi, h⟩ := bind_eq_ok.1 h
    have hstep := item_step hok hi
    exact hstep.trans (ih hstep.ok h)

/-! ## §5. Programs -/

/-- Nothing has been found at the start. -/
theorem Found.ok_empty : Found.Ok {} := by
  have hfunc : ∀ {f sym}, ({} : Symbols).func? f ≠ some sym := nofun
  have hvar : ∀ {v sym}, ({} : Symbols).var? v ≠ some sym := nofun
  exact {
    scope := ⟨rfl, nofun, nofun, fun h => absurd h hfunc⟩
    valued := ⟨fun h => absurd h hvar, fun h => absurd h hfunc⟩
    tracks := ⟨List.nodup_nil, List.nodup_nil, nofun, nofun, fun h => absurd h hfunc,
      fun h => absurd h hfunc⟩
    globals := nofun
    globals_nodup := List.nodup_nil }

/-- At the end no function is only declared. -/
theorem ne_declared_of_allDefined {u : Unit} (h : allDefined Γ = .ok u)
    (hf : Γ.func? f = some sym) : sym.state ≠ .declared := by
  unfold allDefined at h
  split at h
  · rename_i hnone
    have hf : Γ.funcs.rows[f.index]? = some sym := hf
    have hmem : sym ∈ Γ.funcs.rows.toList := by
      obtain ⟨hlt, rfl⟩ := Array.getElem?_eq_some_iff.1 hf
      exact Array.getElem_mem_toList hlt
    simpa using List.find?_eq_none.1 hnone sym hmem
  · cases h

/-- **A checked program is well formed.** -/
theorem program_wellFormed {outline : List Outline.Item} {p : Program}
    (h : program outline = .ok p) : p.WellFormed := by
  obtain ⟨found, hitems, h⟩ := bind_eq_ok.1 h
  obtain ⟨_, hdef, h⟩ := bind_eq_ok.1 h
  cases h
  have hstep := items_step Found.ok_empty hitems
  have hok := hstep.ok
  exact {
    functions := by
      intro f hf
      exact (hstep.functions (.refl _) (fun _ hv => hv) f hf).resolve_left nofun
    globals := fun v init hv => hok.globals hv
    globals_nodup := hok.globals_nodup
    ids_nodup := hok.tracks.ids_nodup
    imports_nodup := hok.tracks.imports_nodup
    names := hok.scope.unique
    imports_known := hok.tracks.imports_known
    covered := by
      intro f sym hf
      cases hs : sym.state with
      | imported => exact .inl ((hok.tracks.imported hf).1 hs)
      | declared => exact absurd hs (ne_declared_of_allDefined hdef hf)
      | defined => exact .inr ((hok.tracks.defined hf).1 hs)
    apart := fun _ himp => hok.tracks.apart himp }

end Check

/-- **What a source text is parsed to is well formed.** -/
theorem wellFormed_of_parse {text : String} {p : Program} (h : parse text = .ok p) :
    p.WellFormed :=
  Check.program_wellFormed h

/-! ## §6. A program -/

/-- A program with an array, a loop, a call in the middle of arithmetic on a
pointer, and a division. -/
def sampleText : String :=
  "int a[2]; int f(int *p) { while (*p) { p = p + f(a); } return 1 / *p; }"

/-- The quotient in the program. -/
def sampleQuotient : Expr :=
  .binary (.arith .div) (.literal (.int 1) .int 1)
    (.unary .deref (.var ⟨1⟩ (.pointer .int) 1) .int 1) .int 1

/-- The assignment in its loop. -/
def sampleAssignment : Stmt :=
  .expr (.binary .assign (.var ⟨1⟩ (.pointer .int) 1)
    (.binary (.arith .add) (.var ⟨1⟩ (.pointer .int) 1)
      (.call ⟨0⟩ [.var ⟨0⟩ (.pointer .int) 1] .int 1) (.pointer .int) 1) .void 1)

/-- The function of the program. -/
def sampleFunction : Function where
  id := ⟨0⟩
  name := "f"
  ret := .int
  params := [⟨1⟩]
  locals := [⟨1⟩]
  body :=
    [.loop (.unary .deref (.var ⟨1⟩ (.pointer .int) 1) .int 1) [sampleAssignment],
      .ret (some sampleQuotient)]

/-- The program itself. -/
def sampleProgram : Program where
  items := [.global ⟨0⟩ none, .function sampleFunction]
  imports := []
  symbols :=
    { vars := ⟨#[⟨"a", .array .int 2, .globalVar, 1⟩, ⟨"p", .pointer .int, .localVar, 1⟩]⟩
      funcs := ⟨#[⟨"f", .int, [.pointer .int], .defined, 1⟩]⟩ }

set_option maxRecDepth 10000 in
theorem parse_sampleText : parse sampleText = .ok sampleProgram := by
  cbv

end MiniC
