/-
  MiniC.Proofs.Typing.Stmts

  Checked statements are well typed.

  While the body of a function is checked, tables and lists only grow, the
  global frame stays as it is, and a block leaves the scope as it found it
  (`State.Grows`).  So what has been found at one point is still there in the
  end, and each statement is well typed in the tables of the end.

  One lemma says what it means to declare a variable (`declare_eq_ok`), and one
  relation what checking a statement can do (`StmtChecked`); all that is kept
  along the way follows from them.
-/
import MiniC.Check.Stmts
import MiniC.Proofs.Typing.Tables

namespace MiniC

/-! ## §1. What checking keeps -/

theorem Ty.arrayOf_ne_void {base : Ty} (h : base ≠ .void) (lengths : List Nat) :
    Ty.arrayOf base lengths ≠ .void := by
  cases lengths with
  | nil => exact h
  | cons n ns => exact nofun

namespace Check

variable {Γ : Symbols}

/-- What holds of the variables found so far, inside a function. -/
structure State.Ok (st : State) : Prop where
  inBlock : st.scope.inner ≠ []
  /-- A block names variables of the function. -/
  frames : ∀ frame ∈ st.scope.inner, ∀ name v, (name, Binding.var v) ∈ frame → v ∈ st.locals
  nodup : st.locals.Nodup
  isLocal : ∀ v ∈ st.locals, ∃ sym, st.symbols.var? v = some sym ∧ sym.storage = .localVar
  valued : st.symbols.Valued

/-- The second state is found from the first by going on in the same block. -/
structure State.Grows (st st' : State) : Prop where
  symbols : st.symbols.Extends st'.symbols
  funcs : st'.symbols.funcs = st.symbols.funcs
  locals : st.locals <+: st'.locals
  outer : st'.scope.outer = st.scope.outer
  enclosing : st'.scope.inner.tail = st.scope.inner.tail

/-- All that has been found is in the table and among the variables given. -/
structure State.Within (st : State) (Γ : Symbols) (U : VarId → Prop) : Prop where
  below : st.symbols.Extends Γ
  locals : ∀ v ∈ st.locals, U v
  outer : ∀ name v, (name, Binding.var v) ∈ st.scope.outer → U v

theorem State.Grows.refl (st : State) : st.Grows st :=
  ⟨.refl _, rfl, List.prefix_refl _, rfl, rfl⟩

theorem State.Grows.trans {st st' st'' : State} (h : st.Grows st') (h' : st'.Grows st'') :
    st.Grows st'' :=
  ⟨h.symbols.trans h'.symbols, h'.funcs.trans h.funcs, h.locals.trans h'.locals,
    h'.outer.trans h.outer, h'.enclosing.trans h.enclosing⟩

theorem State.Grows.within {st st' : State} {U : VarId → Prop} (h : st.Grows st')
    (hw : st'.Within Γ U) : st.Within Γ U :=
  ⟨h.symbols.trans hw.below, fun v hv => hw.locals v (h.locals.subset hv),
    fun name v hv => hw.outer name v (h.outer ▸ hv)⟩

/-- A good state fits a table that holds it. -/
theorem State.Ok.fits {st : State} {U : VarId → Prop} (hok : st.Ok) (hw : st.Within Γ U) :
    st.toEnv.Fits Γ U := by
  refine ⟨hw.below, hok.valued, fun {name v} h => ?_⟩
  rcases Scope.mem_of_get? h with ⟨frame, hframe, hmem⟩ | hmem
  · exact hw.locals v (hok.frames frame hframe name v hmem)
  · exact hw.outer name v hmem

/-- Checking leads from one state to another and gives something of which `P`
holds in the end. -/
structure Step (st st' : State) (P : Symbols → (VarId → Prop) → Prop) : Prop where
  ok : st'.Ok
  grows : st.Grows st'
  holds : ∀ {Γ : Symbols} {U : VarId → Prop}, st'.Within Γ U → P Γ U

/-- What leaves the state alone. -/
theorem State.Ok.stay {st : State} {P : Symbols → (VarId → Prop) → Prop} (hok : st.Ok)
    (h : ∀ {Γ : Symbols} {U : VarId → Prop}, st.toEnv.Fits Γ U → P Γ U) : Step st st P :=
  ⟨hok, .refl st, fun hw => h (hok.fits hw)⟩

theorem Step.mono {st st' : State} {P Q : Symbols → (VarId → Prop) → Prop} (h : Step st st' P)
    (hPQ : ∀ {Γ : Symbols} {U : VarId → Prop}, P Γ U → Q Γ U) : Step st st' Q :=
  ⟨h.ok, h.grows, fun hw => hPQ (h.holds hw)⟩

theorem Step.trans {st st' st'' : State} {P Q : Symbols → (VarId → Prop) → Prop}
    (h : Step st st' P) (h' : Step st' st'' Q) :
    Step st st'' (fun Γ U => P Γ U ∧ Q Γ U) :=
  ⟨h'.ok, h.grows.trans h'.grows, fun hw => ⟨h.holds (h'.grows.within hw), h'.holds hw⟩⟩

/-- A new block keeps it good. -/
theorem State.Ok.push {st : State} (hok : st.Ok) : st.push.Ok := by
  refine ⟨List.cons_ne_nil _ _, ?_, hok.nodup, hok.isLocal, hok.valued⟩
  intro frame hframe name v hmem
  rcases List.mem_cons.1 hframe with rfl | hframe
  · cases hmem
  · exact hok.frames frame hframe name v hmem

/-- A block leaves the scope as it found it. -/
theorem Step.block {st st' : State} {P : Symbols → (VarId → Prop) → Prop} (hok : st.Ok)
    (h : Step st.push st' P) : Step st st'.pop P := by
  -- the frame that was opened is closed again, those around it are untouched
  have hinner : st'.pop.scope.inner = st.scope.inner := h.grows.enclosing
  refine ⟨⟨?_, ?_, h.ok.nodup, h.ok.isLocal, h.ok.valued⟩, ?_, ?_⟩
  · rw [hinner]
    exact hok.inBlock
  · intro frame hframe name v hmem
    rw [hinner] at hframe
    exact h.grows.locals.subset (hok.frames frame hframe name v hmem)
  · exact ⟨h.grows.symbols, h.grows.funcs, h.grows.locals, h.grows.outer,
      congrArg List.tail hinner⟩
  · intro Γ U hw
    exact h.holds ⟨hw.below, hw.locals, hw.outer⟩

/-! ## §2. Declarations -/

/-- **What it means to declare a variable.** -/
theorem declare_eq_ok {st st' : State} {sym : VarSymbol} {v : VarId}
    (h : st.declare sym = .ok (v, st')) :
    v = st.symbols.nextVar ∧ st'.symbols = st.symbols.withVar sym ∧
      st.scope.add sym.name (.var v) = .ok st'.scope ∧
      st'.locals = match sym.storage with
        | .localVar => st.locals ++ [v]
        | .globalVar => st.locals := by
  obtain ⟨st'', hb, h⟩ := bind_eq_ok.1 h
  cases h
  unfold State.bind at hb
  split at hb
  · rename_i scope hadd
    cases hb
    exact ⟨rfl, rfl, hadd, rfl⟩
  · cases hb

/-- The next variable is not among those found so far. -/
theorem State.Ok.nextVar_notMem {st : State} (hok : st.Ok) : st.symbols.nextVar ∉ st.locals := by
  intro hmem
  obtain ⟨sym, hv, _⟩ := hok.isLocal _ hmem
  rw [Symbols.var?_nextVar] at hv
  cases hv

section Declare

variable {st st' : State} {sym : VarSymbol} {v : VarId}

theorem var?_of_declare (h : st.declare sym = .ok (v, st')) : st'.symbols.var? v = some sym := by
  obtain ⟨hv, hsym, _⟩ := declare_eq_ok h
  rw [hsym, hv]
  exact Symbols.var?_withVar_nextVar _ _

theorem locals_of_declare (hs : sym.storage = .localVar) (h : st.declare sym = .ok (v, st')) :
    st'.locals = st.locals ++ [v] := by
  obtain ⟨_, _, _, hloc⟩ := declare_eq_ok h
  rwa [hs] at hloc

/-- A new local variable goes to the innermost block only... -/
theorem grows_of_declare (hok : st.Ok) (hs : sym.storage = .localVar)
    (h : st.declare sym = .ok (v, st')) : st.Grows st' := by
  have hloc := locals_of_declare hs h
  obtain ⟨_, hsym, hadd, _⟩ := declare_eq_ok h
  obtain ⟨frame, frames, hi⟩ := List.exists_cons_of_ne_nil hok.inBlock
  obtain ⟨hinner, houter⟩ := Scope.add_inner hi hadd
  refine ⟨hsym ▸ Symbols.extends_withVar _ _, ?_, hloc ▸ List.prefix_append _ _, houter, ?_⟩
  · rw [hsym]
    rfl
  · rw [hinner, hi]
    rfl

/-- ... and keeps what holds. -/
theorem State.Ok.declare (hok : st.Ok) (hs : sym.storage = .localVar) (hne : sym.ty ≠ .void)
    (h : st.declare sym = .ok (v, st')) : st'.Ok := by
  have hloc := locals_of_declare hs h
  obtain ⟨hv, hsym, hadd, _⟩ := declare_eq_ok h
  obtain ⟨frame, frames, hi⟩ := List.exists_cons_of_ne_nil hok.inBlock
  obtain ⟨hinner, _⟩ := Scope.add_inner hi hadd
  refine ⟨?_, ?_, ?_, ?_, hsym ▸ hok.valued.withVar hne⟩
  · rw [hinner]
    exact List.cons_ne_nil _ _
  · intro frame' hframe name v' hv'
    rw [hloc, List.mem_append, List.mem_singleton]
    rw [hinner] at hframe
    rcases List.mem_cons.1 hframe with rfl | hframe
    · -- the innermost frame has the new name, and those that it had
      rcases List.mem_cons.1 hv' with heq | hv'
      · cases heq
        exact .inr rfl
      · exact .inl (hok.frames frame (hi ▸ List.mem_cons_self) name v' hv')
    · exact .inl (hok.frames frame' (hi ▸ List.mem_cons_of_mem _ hframe) name v' hv')
  · rw [hloc, hv]
    exact nodup_append_singleton hok.nodup hok.nextVar_notMem
  · intro v' hv'
    rw [hloc] at hv'
    rcases List.mem_append.1 hv' with hv' | hv'
    · obtain ⟨sym', hsym', hs'⟩ := hok.isLocal v' hv'
      exact ⟨sym', hsym ▸ Symbols.var?_withVar hsym', hs'⟩
    · rw [List.mem_singleton.1 hv']
      exact ⟨sym, var?_of_declare h, hs⟩

/-- Declaring a local variable. -/
theorem declare_step (hok : st.Ok) (hs : sym.storage = .localVar) (hne : sym.ty ≠ .void)
    (h : st.declare sym = .ok (v, st')) :
    Step st st' (fun Γ U => Γ.var? v = some sym ∧ U v) ∧ st'.locals = st.locals ++ [v] := by
  have hloc := locals_of_declare hs h
  refine ⟨⟨hok.declare hs hne h, grows_of_declare hok hs h, fun hw => ?_⟩, hloc⟩
  have hmem : v ∈ st'.locals := by
    rw [hloc]
    exact List.mem_append_right _ (List.mem_singleton_self v)
  exact ⟨hw.below.var (var?_of_declare h), hw.locals v hmem⟩

end Declare

/-- What it means to check a declaration. -/
theorem declaration_eq_ok {st st' : State} {storage : Storage} {d : Outline.Declaration}
    {v : VarId} {init : Option Expr} (h : declaration st storage d = .ok ((v, init), st')) :
    ∃ ty, ty ≠ .void ∧ initial st.toEnv ty d.line d.init = .ok init ∧
      st.declare ⟨d.name, ty, storage, d.line⟩ = .ok (v, st') := by
  unfold declaration at h
  split at h
  · cases h
  · rename_i hne
    obtain ⟨lens, _, h⟩ := bind_eq_ok.1 h
    obtain ⟨init', hinit, h⟩ := bind_eq_ok.1 h
    obtain ⟨⟨v', st''⟩, hd, h⟩ := bind_eq_ok.1 h
    cases h
    exact ⟨_, Ty.arrayOf_ne_void hne lens, hinit, hd⟩

/-- What a variable starts with may be passed on to it. -/
theorem initial_passed {env : Env} {ty : Ty} {line : Nat} {i : Outline.Initial}
    {init : Option Expr} {U : VarId → Prop} (hin : env.Fits Γ U)
    (h : initial env ty line i = .ok init) : ∀ e ∈ init, ty.isArray = false ∧ Passed Γ U e ty := by
  intro e he
  cases i with
  | none =>
    cases h
    cases he
  | broken f => cases h
  | value r =>
    rw [initial] at h
    split at h
    · cases h
    · rename_i ha
      obtain ⟨e', hr, h⟩ := bind_eq_ok.1 h
      cases h
      cases he
      exact ⟨Bool.not_eq_true _ ▸ ha, passed_of_runAs hin hr⟩

/-- A declaration is a typed step. -/
theorem declaration_step {ret : Ty} {depth : Nat} {st st' : State} {d : Outline.Declaration}
    {v : VarId} {init : Option Expr} (hok : st.Ok)
    (h : declaration st .localVar d = .ok ((v, init), st')) :
    Step st st' (fun Γ U => StmtTyped Γ U ret depth (.declare v init)) := by
  obtain ⟨ty, hne, hinit, hd⟩ := declaration_eq_ok h
  obtain ⟨hstep, _⟩ := declare_step hok rfl hne hd
  refine ⟨hstep.ok, hstep.grows, fun hw => ?_⟩
  obtain ⟨hv, hu⟩ := hstep.holds hw
  exact .declare hv hu rfl hne (initial_passed (hok.fits (hstep.grows.within hw)) hinit)

/-! ## §3. Statements -/

/-- A jump stands in a loop. -/
theorem pos_of_jump {word : Keyword} {depth line : Nat} {fault : Option Fault} {u : Unit}
    (h : jump word depth line fault = .ok u) : 0 < depth := by
  unfold jump at h
  split at h
  · cases h
  · omega

mutual

/-- A statement that is checked with `depth` loops around it, what it becomes,
and what has been found before and after it. -/
inductive StmtChecked (ret : Ty) : Nat → State → Outline.Stmt → Stmt → State → Prop where
  | declare {depth : Nat} {st st' : State} {d : Outline.Declaration} {v : VarId}
      {init : Option Expr} (h : declaration st .localVar d = .ok ((v, init), st')) :
      StmtChecked ret depth st (.declare d) (.declare v init) st'
  | expr {depth : Nat} {st : State} {r : Outline.Run} {e : Expr} (h : run st.toEnv r = .ok e) :
      StmtChecked ret depth st (.expr r) (.expr e) st
  | ret {depth line : Nat} {st : State} (h : ret = .void) :
      StmtChecked ret depth st (.ret line) (.ret none) st
  | retValue {depth : Nat} {st : State} {r : Outline.Run} {e e' : Expr} (hret : ret ≠ .void)
      (he : run st.toEnv r = .ok e) (he' : Typing.coerce e ret = .ok e') :
      StmtChecked ret depth st (.retValue r) (.ret (some e')) st
  | branch {depth : Nat} {st st₁ st' : State} {cond : Outline.Run} {c : Expr}
      {body : List Outline.Stmt} {b : List Stmt} {otherwise : Outline.Else} {o : Else}
      (hc : condition st.toEnv cond = .ok c) (hb : StmtsChecked ret depth st.push body b st₁)
      (ho : ElseChecked ret depth st₁.pop otherwise o st') :
      StmtChecked ret depth st (.branch cond body otherwise) (.branch c b o) st'
  | loop {depth : Nat} {st st₁ : State} {cond : Outline.Run} {c : Expr}
      {body : List Outline.Stmt} {b : List Stmt} (hc : condition st.toEnv cond = .ok c)
      (hb : StmtsChecked ret (depth + 1) st.push body b st₁) :
      StmtChecked ret depth st (.loop cond body) (.loop c b) st₁.pop
  | leave {depth line : Nat} {st : State} {fault : Option Fault} (h : 0 < depth) :
      StmtChecked ret depth st (.leave line fault) .leave st
  | again {depth line : Nat} {st : State} {fault : Option Fault} (h : 0 < depth) :
      StmtChecked ret depth st (.again line fault) .again st

/-- What is done if a condition fails. -/
inductive ElseChecked (ret : Ty) : Nat → State → Outline.Else → Else → State → Prop where
  | nothing {depth : Nat} {st : State} : ElseChecked ret depth st .nothing .nothing st
  | branch {depth : Nat} {st st₁ st' : State} {cond : Outline.Run} {c : Expr}
      {body : List Outline.Stmt} {b : List Stmt} {otherwise : Outline.Else} {o : Else}
      (hc : condition st.toEnv cond = .ok c) (hb : StmtsChecked ret depth st.push body b st₁)
      (ho : ElseChecked ret depth st₁.pop otherwise o st') :
      ElseChecked ret depth st (.branch cond body otherwise) (.branch c b o) st'
  | block {depth : Nat} {st st₁ : State} {body : List Outline.Stmt} {b : List Stmt}
      (hb : StmtsChecked ret depth st.push body b st₁) :
      ElseChecked ret depth st (.block body) (.block b) st₁.pop

/-- Statements one after the other. -/
inductive StmtsChecked (ret : Ty) :
    Nat → State → List Outline.Stmt → List Stmt → State → Prop where
  | nil {depth : Nat} {st : State} : StmtsChecked ret depth st [] [] st
  | cons {depth : Nat} {st st₁ st' : State} {s : Outline.Stmt} {s' : Stmt}
      {ss : List Outline.Stmt} {ss' : List Stmt} (h : StmtChecked ret depth st s s' st₁)
      (hs : StmtsChecked ret depth st₁ ss ss' st') :
      StmtsChecked ret depth st (s :: ss) (s' :: ss') st'

end

mutual

/-- What the checker does is what the relation says. -/
theorem stmtChecked_of_stmt {ret : Ty} : (s : Outline.Stmt) → {depth : Nat} → {st st' : State} →
    {s' : Stmt} → stmt ret depth st s = .ok (s', st') → StmtChecked ret depth st s s' st'
  | .declare d, depth, st, st', s', h => by
    obtain ⟨⟨⟨v, init⟩, st''⟩, hd, h⟩ := bind_eq_ok.1 h
    cases h
    exact .declare hd
  | .expr r, depth, st, st', s', h => by
    obtain ⟨e, he, h⟩ := bind_eq_ok.1 h
    cases h
    exact .expr he
  | .ret line, depth, st, st', s', h => by
    unfold stmt at h
    split at h
    · rename_i hret
      cases h
      exact .ret hret
    · cases h
  | .retValue r, depth, st, st', s', h => by
    obtain ⟨e, he, h⟩ := bind_eq_ok.1 h
    dsimp only at h
    split at h
    · cases h
    · rename_i hret
      obtain ⟨e', he', h⟩ := bind_eq_ok.1 h
      cases h
      exact .retValue hret he (typed_eq_ok he')
  | .branch cond body otherwise, depth, st, st', s', h => by
    obtain ⟨c, hc, h⟩ := bind_eq_ok.1 h
    obtain ⟨⟨b, st₁⟩, hb, h⟩ := bind_eq_ok.1 h
    obtain ⟨⟨o, st₂⟩, ho, h⟩ := bind_eq_ok.1 h
    cases h
    exact .branch hc (stmtsChecked_of_stmts body hb) (elseChecked_of_elseBranch otherwise ho)
  | .loop cond body, depth, st, st', s', h => by
    obtain ⟨c, hc, h⟩ := bind_eq_ok.1 h
    obtain ⟨⟨b, st₁⟩, hb, h⟩ := bind_eq_ok.1 h
    cases h
    exact .loop hc (stmtsChecked_of_stmts body hb)
  | .leave line fault, depth, st, st', s', h => by
    obtain ⟨_, hj, h⟩ := bind_eq_ok.1 h
    cases h
    exact .leave (pos_of_jump hj)
  | .again line fault, depth, st, st', s', h => by
    obtain ⟨_, hj, h⟩ := bind_eq_ok.1 h
    cases h
    exact .again (pos_of_jump hj)
  | .broken f, depth, st, st', s', h => by cases h

/-- For the other branch, the checker does what the relation says. -/
theorem elseChecked_of_elseBranch {ret : Ty} : (o : Outline.Else) → {depth : Nat} →
    {st st' : State} → {o' : Else} → elseBranch ret depth st o = .ok (o', st') →
    ElseChecked ret depth st o o' st'
  | .nothing, depth, st, st', o', h => by
    cases h
    exact .nothing
  | .branch cond body otherwise, depth, st, st', o', h => by
    obtain ⟨c, hc, h⟩ := bind_eq_ok.1 h
    obtain ⟨⟨b, st₁⟩, hb, h⟩ := bind_eq_ok.1 h
    obtain ⟨⟨o, st₂⟩, ho, h⟩ := bind_eq_ok.1 h
    cases h
    exact .branch hc (stmtsChecked_of_stmts body hb) (elseChecked_of_elseBranch otherwise ho)
  | .block body, depth, st, st', o', h => by
    obtain ⟨⟨b, st₁⟩, hb, h⟩ := bind_eq_ok.1 h
    cases h
    exact .block (stmtsChecked_of_stmts body hb)

/-- **What checking statements can do**, all of it but the faults. -/
theorem stmtsChecked_of_stmts {ret : Ty} : (ss : List Outline.Stmt) → {depth : Nat} →
    {st st' : State} → {ss' : List Stmt} → stmts ret depth st ss = .ok (ss', st') →
    StmtsChecked ret depth st ss ss' st'
  | [], depth, st, st', ss', h => by
    cases h
    exact .nil
  | s :: ss, depth, st, st', ss', h => by
    obtain ⟨⟨s', st₁⟩, hs, h⟩ := bind_eq_ok.1 h
    obtain ⟨⟨ss', st₂⟩, hss, h⟩ := bind_eq_ok.1 h
    cases h
    exact .cons (stmtChecked_of_stmt s hs) (stmtsChecked_of_stmts ss hss)

end

mutual

/-- **A checked statement is a typed step.** -/
theorem StmtChecked.step {ret : Ty} {depth : Nat} {st st' : State} {s : Outline.Stmt} {s' : Stmt}
    (h : StmtChecked ret depth st s s' st') (hok : st.Ok) :
    Step st st' (fun Γ U => StmtTyped Γ U ret depth s') := by
  cases h with
  | declare h => exact declaration_step hok h
  | expr h => exact hok.stay fun hin => .expr (hasTy_of_run hin h)
  | ret h => exact hok.stay fun _ => .ret h
  | retValue hret he he' =>
    exact hok.stay fun hin => .retValue hret ((hasTy_of_run hin he).coerce he')
  | branch hc hb ho =>
    have hcond := hok.stay fun hin => condition_of_condition hin hc
    have hbody := (hb.step hok.push).block hok
    have hother := ho.step hbody.ok
    exact (hcond.trans (hbody.trans hother)).mono fun h => .branch h.1 h.2.1 h.2.2
  | loop hc hb =>
    have hcond := hok.stay fun hin => condition_of_condition hin hc
    exact (hcond.trans ((hb.step hok.push).block hok)).mono fun h => .loop h.1 h.2
  | leave h => exact hok.stay fun _ => .leave h
  | again h => exact hok.stay fun _ => .again h

/-- A checked other branch is a typed step. -/
theorem ElseChecked.step {ret : Ty} {depth : Nat} {st st' : State} {o : Outline.Else} {o' : Else}
    (h : ElseChecked ret depth st o o' st') (hok : st.Ok) :
    Step st st' (fun Γ U => ElseTyped Γ U ret depth o') := by
  cases h with
  | nothing => exact hok.stay fun _ => .nothing
  | branch hc hb ho =>
    have hcond := hok.stay fun hin => condition_of_condition hin hc
    have hbody := (hb.step hok.push).block hok
    have hother := ho.step hbody.ok
    exact (hcond.trans (hbody.trans hother)).mono fun h => .branch h.1 h.2.1 h.2.2
  | block hb => exact ((hb.step hok.push).block hok).mono .block

/-- **Checked statements are well typed**, and checking them keeps what holds
of the variables. -/
theorem StmtsChecked.step {ret : Ty} {depth : Nat} {st st' : State} {ss : List Outline.Stmt}
    {ss' : List Stmt} (h : StmtsChecked ret depth st ss ss' st') (hok : st.Ok) :
    Step st st' (fun Γ U => StmtsTyped Γ U ret depth ss') := by
  cases h with
  | nil => exact hok.stay fun _ => .nil
  | cons h hs =>
    have hfirst := h.step hok
    exact (hfirst.trans (hs.step hfirst.ok)).mono fun h => .cons h.1 h.2

end

end Check

end MiniC
