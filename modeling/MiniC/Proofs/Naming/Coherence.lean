/-
  MiniC.Proofs.Naming.Coherence

  **What a name in scope stands for is called by that name.**

  Checking a program goes from state to state: from item to item, into the
  body of a function, from statement to statement, and in and out of blocks
  (`Reached`).  Wherever it stands, each entry of an open frame leads to a row
  of the table that has the same name, and no variable or parameter lacks a
  value (`Env.Coherent`).  Both can only be lost where something is declared,
  and there the row that is entered has the name that is bound.
-/
import MiniC.Proofs.Checking.Steps

namespace MiniC

/-! ## §1. Entries of open frames -/

/-- An open frame gives the name this meaning; one further in may hide it. -/
def Scope.Binds (s : Scope) (name : String) (b : Binding) : Prop :=
  (∃ frame ∈ s.inner, (name, b) ∈ frame) ∨ (name, b) ∈ s.outer

namespace Scope.Binds

variable {s s' : Scope} {name : String} {b : Binding}

/-- A new block hides nothing. -/
theorem of_push (h : s.push.Binds name b) : s.Binds name b := by
  rcases h with ⟨frame, hframe, hmem⟩ | hmem
  · rcases List.mem_cons.1 hframe with rfl | hframe
    · cases hmem
    · exact .inl ⟨frame, hframe, hmem⟩
  · exact .inr hmem

theorem of_pop (h : s.pop.Binds name b) : s.Binds name b := by
  rcases h with ⟨frame, hframe, hmem⟩ | hmem
  · exact .inl ⟨frame, List.mem_of_mem_tail hframe, hmem⟩
  · exact .inr hmem

/-- An entry was there before, or is the one just added. -/
theorem of_add {x : String} {c : Binding} (hadd : s.add x c = .ok s') (h : s'.Binds name b) :
    name = x ∧ b = c ∨ s.Binds name b := by
  cases hi : s.inner with
  | nil =>
    obtain ⟨hinner, houter, _⟩ := Scope.add_outer hi hadd
    rcases h with ⟨frame, hframe, _⟩ | hmem
    · rw [hinner] at hframe
      cases hframe
    · rw [houter] at hmem
      rcases List.mem_cons.1 hmem with heq | hmem
      · exact .inl (Prod.mk.inj heq)
      · exact .inr (.inr hmem)
  | cons top frames =>
    obtain ⟨hinner, houter⟩ := Scope.add_inner hi hadd
    rcases h with ⟨frame, hframe, hmem⟩ | hmem
    · rw [hinner] at hframe
      rcases List.mem_cons.1 hframe with rfl | hframe
      · rcases List.mem_cons.1 hmem with heq | hmem
        · exact .inl (Prod.mk.inj heq)
        · exact .inr (.inl ⟨top, hi ▸ List.mem_cons_self, hmem⟩)
      · exact .inr (.inl ⟨frame, hi ▸ List.mem_cons_of_mem _ hframe, hmem⟩)
    · rw [houter] at hmem
      exact .inr (.inr hmem)

end Scope.Binds

/-! ## §2. Names and rows -/

/-- The variable or function is in the table, and called by that name. -/
def Symbols.Calls (Γ : Symbols) (name : String) : Binding → Prop
  | .var v => ∃ sym, Γ.var? v = some sym ∧ sym.name = name
  | .func f => ∃ sym, Γ.func? f = some sym ∧ sym.name = name

/-- What is callable stays so in a longer table. -/
theorem Symbols.Calls.mono {Γ Γ' : Symbols} {name : String} {b : Binding} (h : Γ.Calls name b)
    (hext : Γ.Extends Γ') : Γ'.Calls name b := by
  cases b with
  | var v =>
    obtain ⟨sym, hv, hname⟩ := h
    exact ⟨sym, hext.var hv, hname⟩
  | func f =>
    obtain ⟨sym, hf, hname⟩ := h
    obtain ⟨sym', hf', hname', _⟩ := hext.func hf
    exact ⟨sym', hf', hname'.trans hname⟩

namespace Check

variable {st : State}

/-- Names in scope are those of what they stand for, and everything that can
be named has a value. -/
structure Env.Coherent (env : Env) : Prop where
  named : ∀ {name : String} {b : Binding}, env.scope.Binds name b → env.symbols.Calls name b
  valued : env.symbols.Valued

namespace Env.Coherent

variable {env : Env}

/-- The table learns more, and the scope stays. -/
theorem mono (h : env.Coherent) {Γ : Symbols} (hext : env.symbols.Extends Γ) (hv : Γ.Valued) :
    Env.Coherent ⟨env.scope, Γ⟩ :=
  ⟨fun hb => (h.named hb).mono hext, hv⟩

/-- A name is added for a row that has it. -/
theorem add (h : env.Coherent) {x : String} {b : Binding} {scope : Scope}
    (hadd : env.scope.add x b = .ok scope) (hb : env.symbols.Calls x b) :
    Env.Coherent ⟨scope, env.symbols⟩ := by
  refine ⟨fun {name b'} hbinds => ?_, h.valued⟩
  rcases Scope.Binds.of_add hadd hbinds with ⟨rfl, rfl⟩ | hbinds
  · exact hb
  · exact h.named hbinds

/-- A new function keeps names and rows together. -/
theorem newFunction (h : env.Coherent) {env' : Env} {sym : FuncSymbol} {f : FuncId}
    (hne : ∀ ty ∈ sym.params, ty ≠ .void) (hnew : Check.newFunction env sym = .ok (f, env')) :
    env'.Coherent := by
  obtain ⟨scope, Γ⟩ := env'
  obtain ⟨rfl, rfl, hadd⟩ := newFunction_eq_ok hnew
  have hwider := h.mono (Symbols.extends_withFunc env.symbols sym) (h.valued.withFunc hne)
  exact hwider.add hadd ⟨sym, Symbols.func?_withFunc_nextFunc _ _, rfl⟩

/-- A declaration keeps names and rows together. -/
theorem declareFunction (h : env.Coherent) {env' : Env} {sig : Outline.Signature} {tys : List Ty}
    {f : FuncId} (hne : ∀ ty ∈ tys, ty ≠ .void)
    (hdecl : Check.declareFunction env sig tys = .ok (f, env')) : env'.Coherent := by
  obtain hnew | ⟨rfl, _⟩ := declareFunction_eq_ok hdecl
  · exact h.newFunction hne hnew
  · exact h

/-- A definition keeps names and rows together. -/
theorem defineFunction (h : env.Coherent) {env' : Env} {f : FuncId} {sig : Outline.Signature}
    (hdef : Check.defineFunction env f sig = .ok env') : env'.Coherent := by
  unfold Check.defineFunction at hdef
  split at hdef
  · cases hdef
  · cases hdef
    exact h.mono (Symbols.extends_define env.symbols f) (h.valued.define f)

end Env.Coherent

/-! ## §3. Statements keep it -/

namespace State

variable {st st' : State}

/-- A state is coherent if what expressions may refer to is. -/
def Coherent (st : State) : Prop := st.toEnv.Coherent

theorem Coherent.push (h : st.Coherent) : st.push.Coherent :=
  ⟨fun hb => h.named hb.of_push, h.valued⟩

theorem Coherent.pop (h : st.Coherent) : st.pop.Coherent :=
  ⟨fun hb => h.named hb.of_pop, h.valued⟩

/-- A variable keeps names and rows together. -/
theorem Coherent.declare (h : st.Coherent) {sym : VarSymbol} {v : VarId} (hne : sym.ty ≠ .void)
    (hdecl : st.declare sym = .ok (v, st')) : st'.Coherent := by
  obtain ⟨⟨scope, Γ⟩, locals⟩ := st'
  obtain ⟨rfl, rfl, hadd, _⟩ := declare_eq_ok hdecl
  have hwider := h.mono (Symbols.extends_withVar st.symbols sym) (h.valued.withVar hne)
  exact hwider.add hadd ⟨sym, Symbols.var?_withVar_nextVar _ _, rfl⟩

theorem Coherent.declaration (h : st.Coherent) {storage : Storage} {d : Outline.Declaration}
    {v : VarId} {init : Option Expr}
    (hdecl : Check.declaration st storage d = .ok ((v, init), st')) : st'.Coherent := by
  obtain ⟨ty, hne, _, hd⟩ := declaration_eq_ok hdecl
  exact h.declare hne hd

end State

mutual

/-- A statement keeps names and rows together. -/
theorem StmtChecked.coherent {ret : Ty} {depth : Nat} {st st' : State} {s : Outline.Stmt}
    {s' : Stmt} (h : StmtChecked ret depth st s s' st') (hst : st.Coherent) : st'.Coherent := by
  cases h with
  | declare h => exact hst.declaration h
  | branch _ hb ho => exact ho.coherent (hb.coherent hst.push).pop
  | loop _ hb => exact (hb.coherent hst.push).pop
  | expr | ret | retValue | leave | again => exact hst

/-- The other branch keeps names and rows together. -/
theorem ElseChecked.coherent {ret : Ty} {depth : Nat} {st st' : State} {o : Outline.Else}
    {o' : Else} (h : ElseChecked ret depth st o o' st') (hst : st.Coherent) : st'.Coherent := by
  cases h with
  | nothing => exact hst
  | branch _ hb ho => exact ho.coherent (hb.coherent hst.push).pop
  | block hb => exact (hb.coherent hst.push).pop

/-- Statements keep names and rows together. -/
theorem StmtsChecked.coherent {ret : Ty} {depth : Nat} {st st' : State} {ss : List Outline.Stmt}
    {ss' : List Stmt} (h : StmtsChecked ret depth st ss ss' st') (hst : st.Coherent) :
    st'.Coherent := by
  cases h with
  | nil => exact hst
  | cons h hs => exact hs.coherent (h.coherent hst)

end

/-! ## §4. Items keep it -/

/-- Parameters keep names and rows together. -/
theorem declareParams_coherent {st' : State} {ps : List Outline.Param} {vs : List VarId}
    (hst : st.Coherent) (hne : ∀ p ∈ ps, p.ty ≠ .void) (h : declareParams st ps = .ok (vs, st')) :
    st'.Coherent := by
  induction ps generalizing st vs with
  | nil =>
    cases h
    exact hst
  | cons p ps ih =>
    obtain ⟨⟨v, st₁⟩, hv, h⟩ := bind_eq_ok.1 h
    obtain ⟨⟨vs, st₂⟩, hvs, h⟩ := bind_eq_ok.1 h
    cases h
    obtain ⟨hp, hps⟩ := List.forall_mem_cons.1 hne
    exact ih (hst.declare hp hv) hps hvs

/-- At the start of the body of a function its parameters are declared. -/
theorem body_coherent {env env' env'' : Env} {sig : Outline.Signature} {tys : List Ty}
    {f : FuncId} {vs : List VarId} (henv : env.Coherent) (hsig : signature sig = .ok tys)
    (hdecl : declareFunction env sig tys = .ok (f, env'))
    (hdef : defineFunction env' f sig = .ok env'')
    (hparams : declareParams (State.push { env'' with locals := [] }) sig.params = .ok (vs, st)) :
    st.Coherent := by
  obtain ⟨rfl, hne⟩ := signature_eq_ok hsig
  have hdefined : State.Coherent { env'' with locals := [] } :=
    (henv.declareFunction hne hdecl).defineFunction hdef
  refine declareParams_coherent hdefined.push (fun p hp => ?_) hparams
  exact hne p.ty (List.mem_map_of_mem hp)

/-- **Every item keeps names and rows together.** -/
theorem item_coherent {found found' : Found} {i : Outline.Item} (henv : found.env.Coherent)
    (h : item found i = .ok found') : found'.env.Coherent := by
  cases itemChecked_of_item h with
  | imported hsig hnew => exact henv.newFunction (signature_eq_ok hsig).2 hnew
  | declared hsig hdecl => exact henv.declareFunction (signature_eq_ok hsig).2 hdecl
  | defined hsig hdecl hbody =>
    obtain ⟨env₁, hdef, hbody⟩ := bind_eq_ok.1 hbody
    obtain ⟨⟨vs, st₁⟩, hparams, hbody⟩ := bind_eq_ok.1 hbody
    obtain ⟨⟨body, st₂⟩, hstmts, hbody⟩ := bind_eq_ok.1 hbody
    cases hbody
    have hstart := body_coherent henv hsig hdecl hdef hparams
    have hend := (stmtsChecked_of_stmts _ hstmts).coherent hstart
    exact hend.pop
  | global hdecl _ =>
    have hst : State.Coherent { found.env with locals := [] } := henv
    exact hst.declaration hdecl

/-! ## §5. The states of a parse -/

/-- Checking a program can come through the state. -/
inductive Reached : State → Prop where
  /-- Nothing is declared. -/
  | start : Reached {}
  /-- After an item. -/
  | item {found found' : Found} {i : Outline.Item} (h : Reached { found.env with locals := [] })
      (hitem : item found i = .ok found') : Reached { found'.env with locals := [] }
  /-- At the start of the body of a function. -/
  | body {env env' env'' : Env} {sig : Outline.Signature} {tys : List Ty} {f : FuncId}
      {vs : List VarId} {st : State} (h : Reached { env with locals := [] })
      (hsig : signature sig = .ok tys) (hdecl : declareFunction env sig tys = .ok (f, env'))
      (hdef : defineFunction env' f sig = .ok env'')
      (hparams : declareParams (State.push { env'' with locals := [] }) sig.params = .ok (vs, st)) :
      Reached st
  /-- After a statement. -/
  | stmt {ret : Ty} {depth : Nat} {st st' : State} {s : Outline.Stmt} {s' : Stmt} (h : Reached st)
      (hstmt : stmt ret depth st s = .ok (s', st')) : Reached st'
  /-- At the start of a block. -/
  | opened {st : State} (h : Reached st) : Reached st.push
  /-- After a block. -/
  | closed {st : State} (h : Reached st) : Reached st.pop

/-- **Wherever a parse stands, names in scope are those of what they stand
for.** -/
theorem coherent_of_reached (h : Reached st) : st.Coherent := by
  induction h with
  | start =>
    refine ⟨fun {name b} hb => ?_, ⟨fun hv => ?_, fun hf => ?_⟩⟩
    · rcases hb with ⟨frame, hframe, _⟩ | hmem
      · cases hframe
      · cases hmem
    · simp [Symbols.var?, Table.get?] at hv
    · simp [Symbols.func?, Table.get?] at hf
  | item _ hitem ih => exact item_coherent ih hitem
  | body _ hsig hdecl hdef hparams ih => exact body_coherent ih hsig hdecl hdef hparams
  | stmt _ hstmt ih => exact (stmtChecked_of_stmt _ hstmt).coherent ih
  | opened _ ih => exact ih.push
  | closed _ ih => exact ih.pop

end Check

end MiniC
