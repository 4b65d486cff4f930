/-
  MiniC.Proofs.Naming.Blocks

  **A variable is named only after its declaration, and only in its block.**

  In the tree of a checked function this can be read off without the text:
  going through the statements of a block, what may be named grows by each
  declaration, and at the end of the block it is what it was before
  (`Stmt.AllScoped`).  At the start of a function these are its parameters and
  the globals, and no parameter is an array (`Function.Scoped`).

  While a block is checked, the names in scope are those of variables that may
  be named (`StmtsChecked.scoped`).
-/
import MiniC.Proofs.Checking.Steps
import MiniC.Proofs.Naming.Coherence
import MiniC.Proofs.Reparsing.Words

namespace MiniC

/-! ## §1. Trees -/

/-- What may be named after a statement. -/
def Stmt.extend (V : VarId → Prop) : Stmt → VarId → Prop
  | .declare v _, v' => V v' ∨ v' = v
  | _, v' => V v'

mutual

/-- A statement names only variables of `V`, and what it has declared by
then. -/
def Stmt.Scoped (Γ : Symbols) : (VarId → Prop) → Stmt → Prop
  | V, .declare _ init => ∀ e ∈ init, WholeTyped Γ V e
  | V, .expr e => WholeTyped Γ V e
  | V, .ret value => ∀ e ∈ value, WholeTyped Γ V e
  | V, .branch cond body otherwise =>
    WholeTyped Γ V cond ∧ Stmt.AllScoped Γ V body ∧ otherwise.Scoped Γ V
  | V, .loop cond body => WholeTyped Γ V cond ∧ Stmt.AllScoped Γ V body
  | _, .leave | _, .again => True

/-- What is done if a condition fails names only variables of `V`. -/
def Else.Scoped (Γ : Symbols) : (VarId → Prop) → Else → Prop
  | _, .nothing => True
  | V, .branch cond body otherwise =>
    WholeTyped Γ V cond ∧ Stmt.AllScoped Γ V body ∧ otherwise.Scoped Γ V
  | V, .block body => Stmt.AllScoped Γ V body

/-- Statements of a block name only variables of `V`, and those declared in
the block before. -/
def Stmt.AllScoped (Γ : Symbols) : (VarId → Prop) → List Stmt → Prop
  | _, [] => True
  | V, s :: ss => s.Scoped Γ V ∧ Stmt.AllScoped Γ (s.extend V) ss

end

/-- A function starts with its parameters, none of which is an array, and the
globals `G`. -/
structure Function.Scoped (Γ : Symbols) (G : List VarId) (f : Function) : Prop where
  params : ∀ v ∈ f.params, ∀ {sym : VarSymbol}, Γ.var? v = some sym → sym.ty.isArray = false
  body : Stmt.AllScoped Γ (fun v => v ∈ G ∨ v ∈ f.params) f.body

/-! ## §2. Statements -/

namespace Check

/-- The names in scope are those of variables in `V`. -/
def Env.Sees (env : Env) (V : VarId → Prop) : Prop :=
  ∀ (name : String) (v : VarId), env.scope.Binds name (.var v) → V v

section Sees

variable {st st' : State} {V : VarId → Prop} {Γ : Symbols}

theorem Env.Sees.fits {env : Env} (h : env.Sees V) (hv : env.symbols.Valued)
    (hext : env.symbols.Extends Γ) : env.Fits Γ V :=
  ⟨hext, hv, fun hget => h _ _ (Scope.mem_of_get? hget)⟩

theorem State.Ok.fits_of_sees (hok : st.Ok) (h : st.toEnv.Sees V) (hext : st.symbols.Extends Γ) :
    st.toEnv.Fits Γ V :=
  h.fits hok.valued hext

theorem Env.Sees.push (h : st.toEnv.Sees V) : st.push.toEnv.Sees V :=
  fun name v hbinds => h name v (Scope.Binds.of_push hbinds)

/-- After a block, the scope is the one before it. -/
theorem scope_of_block (h : st.push.Grows st') : st'.pop.scope = st.scope := by
  have hinner : st'.scope.inner.tail = st.scope.inner := h.enclosing
  have houter : st'.scope.outer = st.scope.outer := h.outer
  show Scope.mk st'.scope.inner.tail st'.scope.outer = st.scope
  rw [hinner, houter]

theorem Env.Sees.block (h : st.toEnv.Sees V) (hgrows : st.push.Grows st') :
    st'.pop.toEnv.Sees V := by
  intro name v hbinds
  rw [scope_of_block hgrows] at hbinds
  exact h name v hbinds

/-- A variable that is declared may be named from then on. -/
theorem Env.Sees.declare {sym : VarSymbol} {v : VarId} (h : st.toEnv.Sees V)
    (hdecl : st.declare sym = .ok (v, st')) : st'.toEnv.Sees fun v' => V v' ∨ v' = v := by
  obtain ⟨_, _, hadd, _⟩ := declare_eq_ok hdecl
  intro name v' hbinds
  rcases Scope.Binds.of_add hadd hbinds with ⟨_, heq⟩ | hbinds
  · cases heq
    exact .inr rfl
  · exact .inl (h name v' hbinds)

end Sees

mutual

/-- A checked statement uses what is in sight, and adds what it declares. -/
theorem StmtChecked.scoped {ret : Ty} {Γ : Symbols} {depth : Nat} {st st' : State}
    {s : Outline.Stmt} {s' : Stmt} {V : VarId → Prop} (h : StmtChecked ret depth st s s' st')
    (hok : st.Ok) (hsees : st.toEnv.Sees V) (hext : st'.symbols.Extends Γ) :
    s'.Scoped Γ V ∧ st'.toEnv.Sees (s'.extend V) := by
  cases h with
  | declare h =>
    obtain ⟨ty, hne, hinit, hdecl⟩ := declaration_eq_ok h
    have hbelow := (grows_of_declare hok rfl hdecl).symbols.trans hext
    refine ⟨fun e he => ?_, hsees.declare hdecl⟩
    exact (initial_passed (hok.fits_of_sees hsees hbelow) hinit e he).2.whole
  | expr he => exact ⟨⟨_, hasTy_of_run (hok.fits_of_sees hsees hext) he, .refl _⟩, hsees⟩
  | ret => exact ⟨fun e he => absurd he (Option.not_mem_none e), hsees⟩
  | retValue _ he he' =>
    have hpassed := (hasTy_of_run (hok.fits_of_sees hsees hext) he).coerce he'
    refine ⟨fun e'' he'' => ?_, hsees⟩
    cases he''
    exact hpassed.whole
  | branch hc hb ho =>
    have hbody := hb.step hok.push
    have hext₁ := (ho.step (hbody.block hok).ok).grows.symbols.trans hext
    have hfits := hok.fits_of_sees hsees (hbody.grows.symbols.trans hext₁)
    have hscoped := ho.scoped (hbody.block hok).ok (hsees.block hbody.grows) hext
    exact ⟨⟨(condition_of_condition hfits hc).whole,
      hb.scoped hok.push hsees.push hext₁, hscoped.1⟩, hscoped.2⟩
  | loop hc hb =>
    have hbody := hb.step hok.push
    have hfits := hok.fits_of_sees hsees (hbody.grows.symbols.trans hext)
    exact ⟨⟨(condition_of_condition hfits hc).whole, hb.scoped hok.push hsees.push hext⟩,
      hsees.block hbody.grows⟩
  | leave | again => exact ⟨trivial, hsees⟩

/-- A checked other branch uses what is in sight, and adds nothing. -/
theorem ElseChecked.scoped {ret : Ty} {Γ : Symbols} {depth : Nat} {st st' : State}
    {o : Outline.Else} {o' : Else} {V : VarId → Prop} (h : ElseChecked ret depth st o o' st')
    (hok : st.Ok) (hsees : st.toEnv.Sees V) (hext : st'.symbols.Extends Γ) :
    o'.Scoped Γ V ∧ st'.toEnv.Sees V := by
  cases h with
  | nothing => exact ⟨trivial, hsees⟩
  | branch hc hb ho =>
    have hbody := hb.step hok.push
    have hext₁ := (ho.step (hbody.block hok).ok).grows.symbols.trans hext
    have hfits := hok.fits_of_sees hsees (hbody.grows.symbols.trans hext₁)
    have hscoped := ho.scoped (hbody.block hok).ok (hsees.block hbody.grows) hext
    exact ⟨⟨(condition_of_condition hfits hc).whole,
      hb.scoped hok.push hsees.push hext₁, hscoped.1⟩, hscoped.2⟩
  | block hb =>
    exact ⟨hb.scoped hok.push hsees.push hext, hsees.block (hb.step hok.push).grows⟩

/-- **Checked statements name only what is declared before.** -/
theorem StmtsChecked.scoped {ret : Ty} {Γ : Symbols} {depth : Nat} {st st' : State}
    {ss : List Outline.Stmt} {ss' : List Stmt} {V : VarId → Prop}
    (h : StmtsChecked ret depth st ss ss' st') (hok : st.Ok) (hsees : st.toEnv.Sees V)
    (hext : st'.symbols.Extends Γ) : Stmt.AllScoped Γ V ss' := by
  cases h with
  | nil => trivial
  | cons h hs =>
    have hfirst := h.step hok
    have hscoped := h.scoped hok hsees ((hs.step hfirst.ok).grows.symbols.trans hext)
    exact ⟨hscoped.1, hs.scoped hfirst.ok hscoped.2 hext⟩

end

/-! ## §3. Functions -/

/-- The parameters may be named in the body. -/
theorem declareParams_sees : (ps : List Outline.Param) → {st st' : State} → {vs : List VarId} →
    {V : VarId → Prop} → st.toEnv.Sees V → declareParams st ps = .ok (vs, st') →
    st'.toEnv.Sees fun v => V v ∨ v ∈ vs
  | [], st, st', vs, V, hsees, h => by
    cases h
    exact fun name v hbinds => .inl (hsees name v hbinds)
  | p :: ps, st, st', vs, V, hsees, h => by
    obtain ⟨⟨v, st₁⟩, hv, h⟩ := bind_eq_ok.1 h
    obtain ⟨⟨vs, st₂⟩, hvs, h⟩ := bind_eq_ok.1 h
    cases h
    intro name v' hbinds
    rw [List.mem_cons, ← or_assoc]
    exact declareParams_sees ps (hsees.declare hv) hvs name v' hbinds

/-- **A checked function names only what is declared before.** -/
theorem functionBody_scoped {found : Found} {env' : Env} {f : FuncId} {sig : Outline.Signature}
    {sym : FuncSymbol} {body : List Outline.Stmt} {g : Function} (hok : found.Ok)
    (hf : found.env.symbols.func? f = some sym) (hne : ∀ q ∈ sig.params, q.ty ≠ .void)
    (hplain : ∀ q ∈ sig.params, q.ty.isArray = false)
    (h : functionBody found.env f sig body = .ok (g, env')) {Γ : Symbols} {G : List VarId}
    (hext : env'.symbols.Extends Γ) (hG : ∀ v ∈ found.toProgram.globals, v ∈ G) :
    g.Scoped Γ G := by
  obtain ⟨env₁, hdef, h⟩ := bind_eq_ok.1 h
  obtain ⟨⟨vs, st₁⟩, hps, h⟩ := bind_eq_ok.1 h
  obtain ⟨⟨body', st₂⟩, hbody, h⟩ := bind_eq_ok.1 h
  cases h
  obtain ⟨_, rfl⟩ := defineFunction_eq_ok hf hdef
  have hstart := hok.start (hok.valued.define f)
  obtain ⟨hvs, _⟩ := declareParams_step sig.params hstart hne hps
  have hchecked := stmtsChecked_of_stmts body hbody
  have hstmts := hchecked.step hvs.ok
  have hsees : (State.push { found.env with
      symbols := found.env.symbols.define f, locals := [] }).toEnv.Sees (· ∈ G) := by
    refine Env.Sees.push fun name v hbinds => hG v ?_
    rcases hbinds with ⟨frame, hframe, _⟩ | hmem
    · have hframe : frame ∈ found.env.scope.inner := hframe
      rw [hok.scope.inner] at hframe
      cases hframe
    · exact hok.scope.vars hmem
  refine ⟨fun v hv {symv} hsymv => ?_,
    hchecked.scoped hvs.ok (declareParams_sees sig.params hsees hps) hext⟩
  -- the table gives a parameter the type that the head of the function gives it
  have htys : vs.map (fun v => (Γ.var? v).map (·.ty)) = (sig.params.map (·.ty)).map some :=
    hvs.holds (U := fun _ => True) ⟨hstmts.grows.symbols.trans hext, fun _ _ => trivial,
      fun _ _ _ => trivial⟩
  have hmem : some symv.ty ∈ (sig.params.map (·.ty)).map some := by
    rw [← htys]
    exact List.mem_map.2 ⟨v, hv, by rw [hsymv]; rfl⟩
  obtain ⟨ty, hty, heq⟩ := List.mem_map.1 hmem
  obtain ⟨q, hq, rfl⟩ := List.mem_map.1 hty
  exact Option.some.inj heq ▸ hplain q hq

end Check

/-! ## §4. Heads of functions -/

namespace Outline

/-- No parameter is an array. -/
def Item.Plain : Item → Prop
  | .imported sig _ | .function sig _ => ∀ q ∈ sig.params, q.ty.isArray = false
  | .global _ | .broken _ => True

/-- No parameter is read as an array. -/
theorem readParams_plain (last : Nat) (ts : List Token) :
    ∀ q ∈ (readParams last ts).1, q.ty.isArray = false := by
  induction ts using readParams.induct last with
  | case1 ts f hty =>
    rw [readParams_badTy hty]
    exact List.forall_mem_nil _
  | case2 ts ty afterTy hty f hname =>
    rw [readParams_badName hty hname]
    exact List.forall_mem_nil _
  | case3 ts ty afterTy hty x line afterName hname f hend =>
    rw [readParams_badEnd hty hname hend]
    exact List.forall_mem_singleton.2 (Ty.isArray_of_isNamed (isNamed_of_readTy hty))
  | case4 ts ty afterTy hty x line afterName hname rest hend ps result hmore ih =>
    rw [readParams_comma hty hname hend hmore]
    rw [hmore] at ih
    exact List.forall_mem_cons.2 ⟨Ty.isArray_of_isNamed (isNamed_of_readTy hty), ih⟩
  | case5 ts ty afterTy hty x line afterName hname rest hend =>
    rw [readParams_paren hty hname hend]
    exact List.forall_mem_singleton.2 (Ty.isArray_of_isNamed (isNamed_of_readTy hty))

/-- No parameter in a list is read as an array. -/
theorem readParamList_plain (last : Nat) (ts : List Token) :
    ∀ q ∈ (readParamList last ts).1, q.ty.isArray = false := by
  unfold readParamList
  split
  · exact List.forall_mem_nil _
  · exact readParams_plain last _

/-- No parameter in a head is read as an array. -/
theorem readSignature_plain {last : Nat} {ts : List Token} {sig : Signature}
    {rest : Option (Left ts.length)} (h : readSignature last ts = .ok (sig, rest)) :
    ∀ q ∈ sig.params, q.ty.isArray = false := by
  obtain ⟨⟨ret, afterTy⟩, _, h⟩ := bind_eq_ok.1 h
  obtain ⟨⟨⟨x, line⟩, afterName⟩, _, h⟩ := bind_eq_ok.1 h
  obtain ⟨afterParen, _, h⟩ := bind_eq_ok.1 h
  have hparams := readParamList_plain last afterParen.1
  split at h <;> rename_i hlist <;> rw [hlist] at hparams <;> cases h <;> exact hparams

/-- No parameter in an item is read as an array. -/
theorem ItemRead.plain {last : Nat} {t : Token} {ts : List Token} {i : Item}
    {rest : Option (List Token)} (h : ItemRead last t ts i rest) : i.Plain := by
  cases h with
  | badImport | badFunction | badGlobal | global | other => trivial
  | importHead _ hsig | imported _ hsig | functionHead _ _ hsig | function _ _ hsig =>
    exact readSignature_plain hsig

/-- **No parameter that is read is an array.** -/
theorem readItems_plain (last : Nat) (ts : List Token) : ∀ i ∈ readItems last ts, i.Plain := by
  have his := readItems_read last ts
  generalize readItems last ts = is at his ⊢
  induction his with
  | nil => exact List.forall_mem_nil _
  | broken hitem => exact List.forall_mem_singleton.2 hitem.plain
  | more hitem _ ih => exact List.forall_mem_cons.2 ⟨hitem.plain, ih⟩

end Outline

/-! ## §5. Programs -/

namespace Check

/-- A function found in an item is scoped. -/
theorem ItemChecked.scoped {found found' : Found} {i : Outline.Item}
    (h : ItemChecked found i found') (hok : found.Ok) (hplain : i.Plain) {Γ : Symbols}
    {G : List VarId} (hext : found'.env.symbols.Extends Γ)
    (hG : ∀ v ∈ found'.toProgram.globals, v ∈ G) :
    ∀ f ∈ found'.toProgram.functions, f ∈ found.toProgram.functions ∨ f.Scoped Γ G := by
  cases h with
  | imported _ _ => exact fun f hf => .inl hf
  | declared _ _ => exact fun f hf => .inl hf
  | @defined sig tys id env env' body g hsig hdecl hbody =>
    intro f hf
    rw [functions_append_function] at hf
    rw [globals_append_function] at hG
    rcases List.mem_append.1 hf with hf | hf
    · exact .inl hf
    · obtain ⟨rfl, hne⟩ := signature_eq_ok hsig
      obtain ⟨hstep, sym, hsym, _⟩ := declareFunction_step hok hne hdecl
      rw [List.forall_mem_map] at hne
      rw [List.mem_singleton.1 hf]
      exact .inr (functionBody_scoped hstep.ok hsym hne hplain hbody hext hG)
  | @global d v init st value _ _ =>
    intro f hf
    rw [functions_append_global] at hf
    exact .inl hf

/-- All functions found are scoped. -/
theorem items_scoped {is : List Outline.Item} {found found' : Found} (hok : found.Ok)
    (hplain : ∀ i ∈ is, i.Plain) (h : items found is = .ok found') {Γ : Symbols} {G : List VarId}
    (hext : found'.env.symbols.Extends Γ) (hG : ∀ v ∈ found'.toProgram.globals, v ∈ G) :
    ∀ f ∈ found'.toProgram.functions, f ∈ found.toProgram.functions ∨ f.Scoped Γ G := by
  induction is generalizing found with
  | nil =>
    cases h
    exact fun f hf => .inl hf
  | cons i is ih =>
    obtain ⟨found₁, hi, h⟩ := bind_eq_ok.1 h
    obtain ⟨hplaini, hplain⟩ := List.forall_mem_cons.1 hplain
    have hstep := item_step hok hi
    have hrest := items_step hstep.ok h
    intro f hf
    rcases ih hstep.ok hplain h f hf with hf | hscoped
    · exact (itemChecked_of_item hi).scoped hok hplaini (hrest.symbols.trans hext)
        (fun v hv => hG v (Found.globals_subset hrest.items v hv)) f hf
    · exact .inr hscoped

end Check

/-- **The functions of a program name only what is declared before.** -/
theorem scoped_of_parse {text : String} {p : Program} (h : parse text = .ok p) :
    ∀ f ∈ p.functions, f.Scoped p.symbols p.globals := by
  obtain ⟨found, hitems, h⟩ := bind_eq_ok.1 h
  obtain ⟨_, _, h⟩ := bind_eq_ok.1 h
  cases h
  intro f hf
  refine (Check.items_scoped Check.Found.ok_empty (Outline.readItems_plain _ _) hitems (.refl _)
    (fun _ hv => hv) f hf).resolve_left ?_
  exact List.not_mem_nil

end MiniC
