/-
  MiniC.Proofs.Checking.Owners

  **Every variable has one owner.**

  A variable gets the next place in the table where it is declared, and the
  function being checked notes it at the same time.  So checking statements
  adds the same variables to the table and to the function, in the order of
  the declarations (`State.Adds`), and checking an item adds the variables of
  that item to the table (`items_owned`).

  In the end the variables of the items, read off in order, are those of the
  table (`Program.Partitioned`).
-/
import MiniC.Proofs.Checking.Steps

namespace MiniC

variable {Γ : Symbols}

/-! ## §1. Variables of a tree -/

mutual

/-- The variables that a statement declares, in source order. -/
def Stmt.declared : Stmt → List VarId
  | .declare v _ => [v]
  | .branch _ body otherwise => Stmt.declaredIn body ++ otherwise.declared
  | .loop _ body => Stmt.declaredIn body
  | .expr _ | .ret _ | .leave | .again => []

/-- The variables declared in what is done if a condition fails. -/
def Else.declared : Else → List VarId
  | .nothing => []
  | .branch _ body otherwise => Stmt.declaredIn body ++ otherwise.declared
  | .block body => Stmt.declaredIn body

/-- The variables that statements declare, in source order. -/
def Stmt.declaredIn : List Stmt → List VarId
  | [] => []
  | s :: ss => s.declared ++ Stmt.declaredIn ss

end

/-- The variables that belong to an item. -/
def Item.owned : Item → List VarId
  | .function f => f.locals
  | .global v _ => [v]

/-- All places in the table of variables, in order. -/
def Symbols.varIds (Γ : Symbols) : List VarId := (List.range Γ.vars.size).map VarId.mk

/-- The variables are those with a row. -/
theorem Symbols.mem_varIds {v : VarId} : v ∈ Γ.varIds ↔ (Γ.var? v).isSome := by
  rw [Symbols.var?, Table.isSome_get?]
  constructor
  · intro hv
    obtain ⟨i, hi, rfl⟩ := List.mem_map.1 hv
    exact List.mem_range.1 hi
  · intro hv
    exact List.mem_map.2 ⟨v.index, List.mem_range.2 hv, rfl⟩

theorem Symbols.nodup_varIds (Γ : Symbols) : Γ.varIds.Nodup :=
  List.nodup_range.map fun _ _ h => congrArg VarId.index h

/-- A variable that is entered takes the next place. -/
theorem Symbols.varIds_withVar (Γ : Symbols) (sym : VarSymbol) :
    (Γ.withVar sym).varIds = Γ.varIds ++ [Γ.nextVar] := by
  have hsize : (Γ.withVar sym).vars.size = Γ.vars.size + 1 := by
    simp [Symbols.withVar, Table.insert, Table.size]
  rw [Symbols.varIds, hsize, List.range_succ, List.map_append]
  rfl

/-- What is noted of functions makes no difference to variables. -/
theorem Symbols.varIds_congr {Γ' : Symbols} (h : Γ'.vars = Γ.vars) : Γ'.varIds = Γ.varIds := by
  rw [Symbols.varIds, h]
  rfl

/-! ## §2. Statements -/

namespace Check

variable {env env' : Env} {f : FuncId} {sig : Outline.Signature}

/-- Going from one state to the other adds variables to the function and to
the table. -/
structure State.Adds (st st' : State) (vs : List VarId) : Prop where
  locals : st'.locals = st.locals ++ vs
  table : st'.symbols.varIds = st.symbols.varIds ++ vs

theorem State.Adds.none (st : State) : st.Adds st [] :=
  ⟨(List.append_nil _).symm, (List.append_nil _).symm⟩

theorem State.Adds.trans {st st' st'' : State} {vs ws : List VarId} (h : st.Adds st' vs)
    (h' : st'.Adds st'' ws) : st.Adds st'' (vs ++ ws) := by
  constructor
  · rw [h'.locals, h.locals, List.append_assoc]
  · rw [h'.table, h.table, List.append_assoc]

/-- A block adds what its statements add. -/
theorem State.Adds.block {st st' : State} {vs : List VarId} (h : st.push.Adds st' vs) :
    st.Adds st'.pop vs :=
  ⟨h.locals, h.table⟩

/-- A declaration adds its variable. -/
theorem declare_adds {st st' : State} {sym : VarSymbol} {v : VarId}
    (hs : sym.storage = .localVar) (h : st.declare sym = .ok (v, st')) : st.Adds st' [v] := by
  obtain ⟨hv, hsym, _⟩ := declare_eq_ok h
  refine ⟨locals_of_declare hs h, ?_⟩
  rw [hsym, hv]
  exact Symbols.varIds_withVar _ _

mutual

/-- A statement adds the variables it declares. -/
theorem StmtChecked.adds {ret : Ty} {depth : Nat} {st st' : State} {s : Outline.Stmt} {s' : Stmt}
    (h : StmtChecked ret depth st s s' st') : st.Adds st' s'.declared := by
  cases h with
  | declare h =>
    obtain ⟨ty, _, _, hdeclare⟩ := declaration_eq_ok h
    exact declare_adds rfl hdeclare
  | branch _ hb ho => exact hb.adds.block.trans ho.adds
  | loop _ hb => exact hb.adds.block
  | expr | ret | retValue | leave | again => exact .none st

/-- The other branch adds the variables it declares. -/
theorem ElseChecked.adds {ret : Ty} {depth : Nat} {st st' : State} {o : Outline.Else} {o' : Else}
    (h : ElseChecked ret depth st o o' st') : st.Adds st' o'.declared := by
  cases h with
  | nothing => exact .none st
  | branch _ hb ho => exact hb.adds.block.trans ho.adds
  | block hb => exact hb.adds.block

/-- **Statements add the variables they declare, in source order.** -/
theorem StmtsChecked.adds {ret : Ty} {depth : Nat} {st st' : State} {ss : List Outline.Stmt}
    {ss' : List Stmt} (h : StmtsChecked ret depth st ss ss' st') :
    st.Adds st' (Stmt.declaredIn ss') := by
  cases h with
  | nil => exact .none st
  | cons h hs => exact h.adds.trans hs.adds

end

/-- Parameters add theirs. -/
theorem declareParams_adds : (ps : List Outline.Param) → {st st' : State} → {vs : List VarId} →
    declareParams st ps = .ok (vs, st') → st.Adds st' vs
  | [], st, st', vs, h => by
    cases h
    exact .none st
  | p :: ps, st, st', vs, h => by
    obtain ⟨⟨v, st₁⟩, hv, h⟩ := bind_eq_ok.1 h
    obtain ⟨⟨vs, st₂⟩, hvs, h⟩ := bind_eq_ok.1 h
    cases h
    exact (declare_adds rfl hv).trans (declareParams_adds ps hvs)

/-! ## §3. Items -/

theorem vars_of_newFunction {sym : FuncSymbol} (h : newFunction env sym = .ok (f, env')) :
    env'.symbols.vars = env.symbols.vars := by
  obtain ⟨_, hsym, _⟩ := newFunction_eq_ok h
  rw [hsym]
  rfl

/-- The head of a function declares no variable. -/
theorem vars_of_declareFunction {tys : List Ty} (h : declareFunction env sig tys = .ok (f, env')) :
    env'.symbols.vars = env.symbols.vars := by
  obtain hnew | ⟨rfl, _⟩ := declareFunction_eq_ok h
  · exact vars_of_newFunction hnew
  · rfl

/-- A definition adds no variable. -/
theorem vars_of_defineFunction (h : defineFunction env f sig = .ok env') :
    env'.symbols.vars = env.symbols.vars := by
  unfold defineFunction at h
  split at h
  · cases h
  · cases h
    rfl

/-- **A function owns its parameters and what its body declares**, and that is
what the table gets. -/
theorem functionBody_owned {body : List Outline.Stmt} {g : Function}
    (h : functionBody env f sig body = .ok (g, env')) :
    g.locals = g.params ++ Stmt.declaredIn g.body ∧
      env'.symbols.varIds = env.symbols.varIds ++ g.locals := by
  obtain ⟨env₁, hdef, h⟩ := bind_eq_ok.1 h
  obtain ⟨⟨vs, st₁⟩, hps, h⟩ := bind_eq_ok.1 h
  obtain ⟨⟨body', st₂⟩, hbody, h⟩ := bind_eq_ok.1 h
  cases h
  have hadds := (declareParams_adds _ hps).trans (stmtsChecked_of_stmts _ hbody).adds
  -- the function starts with no variables of its own
  have hlocals : st₂.locals = vs ++ Stmt.declaredIn body' := hadds.locals
  have htable : st₂.symbols.varIds = env₁.symbols.varIds ++ (vs ++ Stmt.declaredIn body') :=
    hadds.table
  refine ⟨hlocals, ?_⟩
  show st₂.symbols.varIds = env.symbols.varIds ++ st₂.locals
  rw [htable, hlocals, Symbols.varIds_congr (vars_of_defineFunction hdef)]

/-- The items found so far own all variables of the table. -/
def Found.Owned (found : Found) : Prop :=
  found.items.flatMap Item.owned = found.env.symbols.varIds ∧
    ∀ f, .function f ∈ found.items → f.locals = f.params ++ Stmt.declaredIn f.body

/-- Every item keeps the count of who owns what. -/
theorem ItemChecked.owned {found found' : Found} {i : Outline.Item}
    (h : ItemChecked found i found') (howned : found.Owned) : found'.Owned := by
  obtain ⟨htable, hlocals⟩ := howned
  cases h with
  | imported _ hnew =>
    refine ⟨?_, hlocals⟩
    rw [Symbols.varIds_congr (vars_of_newFunction hnew)]
    exact htable
  | declared _ hdecl =>
    refine ⟨?_, hlocals⟩
    rw [Symbols.varIds_congr (vars_of_declareFunction hdecl)]
    exact htable
  | @defined _ _ _ env env' body g _ hdecl hbody =>
    obtain ⟨hg, hvars⟩ := functionBody_owned hbody
    constructor
    · show (found.items ++ [Item.function g]).flatMap Item.owned = env'.symbols.varIds
      rw [hvars, Symbols.varIds_congr (vars_of_declareFunction hdecl), ← htable]
      simp [Item.owned]
    · intro f hf
      rcases List.mem_append.1 hf with hf | hf
      · exact hlocals f hf
      · cases List.mem_singleton.1 hf
        exact hg
  | @global d v init st value hdecl _ =>
    obtain ⟨ty, _, _, hdeclare⟩ := declaration_eq_ok hdecl
    obtain ⟨hv, hsym, _⟩ := declare_eq_ok hdeclare
    constructor
    · show (found.items ++ [Item.global v value]).flatMap Item.owned = st.symbols.varIds
      rw [hsym, Symbols.varIds_withVar, hv]
      have htable : found.items.flatMap Item.owned = found.env.symbols.varIds := htable
      simp [Item.owned, htable]
    · intro f hf
      exact hlocals f (by simpa using hf)

/-- **A run over items keeps the owners.** -/
theorem items_owned {is : List Outline.Item} {found found' : Found} (howned : found.Owned)
    (h : items found is = .ok found') : found'.Owned := by
  induction is generalizing found with
  | nil =>
    cases h
    exact howned
  | cons i is ih =>
    obtain ⟨found₁, hi, h⟩ := bind_eq_ok.1 h
    exact ih ((itemChecked_of_item hi).owned howned) h

end Check

/-! ## §4. Programs -/

/-- The functions are those among the items. -/
theorem Program.mem_functions {p : Program} {f : Function} :
    f ∈ p.functions ↔ .function f ∈ p.items := by
  constructor
  · intro hf
    obtain ⟨i, hi, heq⟩ := List.mem_filterMap.1 hf
    cases i with
    | function g =>
      cases heq
      exact hi
    | global v init => cases heq
  · intro hf
    exact List.mem_filterMap.2 ⟨_, hf, rfl⟩

/-- Every variable has one owner. -/
structure Program.Partitioned (p : Program) : Prop where
  /-- The variables of the items, in order, are the places of the table. -/
  owners : p.items.flatMap Item.owned = p.symbols.varIds
  /-- A variable of the table is owned once. -/
  once : ∀ v, (p.symbols.var? v).isSome → (p.items.flatMap Item.owned).count v = 1
  /-- What an item for a variable owns is global, what a function owns is
  local. -/
  globals : ∀ {v : VarId} {init : Option Literal}, .global v init ∈ p.items →
    ∃ sym, p.symbols.var? v = some sym ∧ sym.storage = .globalVar
  locals : ∀ f ∈ p.functions, ∀ v ∈ f.locals,
    ∃ sym, p.symbols.var? v = some sym ∧ sym.storage = .localVar
  /-- A function owns its parameters, and then what its body declares, in
  source order. -/
  declared : ∀ f ∈ p.functions, f.locals = f.params ++ Stmt.declaredIn f.body
  /-- Each is a parameter once, or is declared once. -/
  declared_once : ∀ f ∈ p.functions, ∀ v ∈ f.locals,
    f.params.count v + (Stmt.declaredIn f.body).count v = 1
  /-- The parameters have the types that the table gives for them. -/
  params : ∀ f ∈ p.functions, ∃ sym, p.symbols.func? f.id = some sym ∧
    f.params.map (fun v => (p.symbols.var? v).map (·.ty)) = sym.params.map some
  /-- A variable in the body, read or assigned, is a global or the
  function's. -/
  used : ∀ f ∈ p.functions, ∀ {v : VarId} {ty : Ty} {line : Nat},
    f.Mentions (.var v ty line) → v ∈ p.globals ∨ v ∈ f.locals

/-- Each variable has one owner, in the order of the table. -/
theorem owned_of_parse {text : String} {p : Program} (h : parse text = .ok p) :
    p.items.flatMap Item.owned = p.symbols.varIds ∧
      ∀ f ∈ p.functions, f.locals = f.params ++ Stmt.declaredIn f.body := by
  obtain ⟨found, hitems, h⟩ := bind_eq_ok.1 h
  obtain ⟨_, _, h⟩ := bind_eq_ok.1 h
  cases h
  obtain ⟨htable, hlocals⟩ := Check.items_owned (⟨rfl, nofun⟩ : Check.Found.Owned {}) hitems
  exact ⟨htable, fun f hf => hlocals f (Program.mem_functions.1 hf)⟩

/-- A variable that is named may be named. -/
theorem HasTy.usable {U : VarId → Prop} {v : VarId} {ty t : Ty} {line : Nat}
    (h : HasTy Γ U (.var v ty line) t) : U v := by
  cases h with
  | var _ hu _ => exact hu

/-- **The variables of a program are partitioned among their owners.** -/
theorem partitioned_of_parse {text : String} {p : Program} (h : parse text = .ok p) :
    p.Partitioned := by
  have hp := wellFormed_of_parse h
  obtain ⟨howners, hdeclared⟩ := owned_of_parse h
  exact {
    owners := howners
    once := by
      intro v hv
      rw [howners]
      exact List.count_eq_one_of_mem p.symbols.nodup_varIds (Symbols.mem_varIds.2 hv)
    globals := by
      intro v init hv
      obtain ⟨sym, hg⟩ := hp.globals v init hv
      exact ⟨sym, hg.symbol, hg.storage⟩
    locals := fun f hf => (hp.functions f hf).locals_local
    declared := hdeclared
    declared_once := by
      intro f hf v hv
      rw [← List.count_append, ← hdeclared f hf]
      exact List.count_eq_one_of_mem (hp.functions f hf).locals_nodup hv
    params := by
      intro f hf
      obtain ⟨sym, hsym, _, _, hparams⟩ := (hp.functions f hf).symbol
      exact ⟨sym, hsym, hparams⟩
    used := by
      intro f hf v ty line hmention
      obtain ⟨t, ht, _⟩ := (hp.functions f hf).wholeTyped hmention
      exact ht.usable }

/-! ## §5. A program -/

/-- A program that declares its function twice, and a variable in a loop that
hides a global. -/
def hidingText : String :=
  "int x; int f(int a); int f(int a) { while (a) { int x = a; a = x; } return x; }"

/-- The function of the program. -/
def hidingFunction : Function where
  id := ⟨0⟩
  name := "f"
  ret := .int
  params := [⟨1⟩]
  locals := [⟨1⟩, ⟨2⟩]
  body :=
    [.loop (.var ⟨1⟩ .int 1)
      [.declare ⟨2⟩ (some (.var ⟨1⟩ .int 1)),
        .expr (.binary .assign (.var ⟨1⟩ .int 1) (.var ⟨2⟩ .int 1) .void 1)],
      .ret (some (.var ⟨0⟩ .int 1))]

/-- The program itself. -/
def hidingProgram : Program where
  items := [.global ⟨0⟩ none, .function hidingFunction]
  imports := []
  symbols :=
    { vars := ⟨#[⟨"x", .int, .globalVar, 1⟩, ⟨"a", .int, .localVar, 1⟩, ⟨"x", .int, .localVar, 1⟩]⟩
      funcs := ⟨#[⟨"f", .int, [.int], .defined, 1⟩]⟩ }

/-- The tokens of the text, all of them on one line. -/
def hidingTokens : Scan.Tokens where
  list :=
    [.keyword .kwInt, .identifier "x", .punct .semicolon,
      .keyword .kwInt, .identifier "f", .punct .lparen, .keyword .kwInt, .identifier "a",
      .punct .rparen, .punct .semicolon,
      .keyword .kwInt, .identifier "f", .punct .lparen, .keyword .kwInt, .identifier "a",
      .punct .rparen, .punct .lbrace,
      .keyword .kwWhile, .punct .lparen, .identifier "a", .punct .rparen, .punct .lbrace,
      .keyword .kwInt, .identifier "x", .punct .eq, .identifier "a", .punct .semicolon,
      .identifier "a", .punct .eq, .identifier "x", .punct .semicolon, .punct .rbrace,
      .keyword .kwReturn, .identifier "x", .punct .semicolon, .punct .rbrace].map (⟨·, 1⟩)
  endLine := 1

set_option maxRecDepth 10000 in
theorem tokens_hidingText : Scan.tokens hidingText = hidingTokens := by
  cbv

set_option maxRecDepth 10000 in
theorem parse_hidingText : parse hidingText = .ok hidingProgram := by
  show Check.program (Outline.ofTokens (Scan.tokens hidingText)) = _
  rw [tokens_hidingText]
  cbv

/-- The global comes first, then the parameter, then the variable of the loop;
the function returns the global. -/
theorem partitioned_of_parse_hiding :
    parse hidingText = .ok hidingProgram ∧
      [⟨0⟩, ⟨1⟩, ⟨2⟩] = hidingProgram.symbols.varIds ∧
      hidingFunction.locals = hidingFunction.params ++ Stmt.declaredIn hidingFunction.body ∧
      hidingFunction.Mentions (.var ⟨0⟩ .int 1) ∧
      (⟨0⟩ ∈ hidingProgram.globals ∨ ⟨0⟩ ∈ hidingFunction.locals) := by
  have hpart := partitioned_of_parse parse_hidingText
  have hf : hidingFunction ∈ hidingProgram.functions := List.mem_singleton.2 rfl
  have hmention : hidingFunction.Mentions (.var ⟨0⟩ .int 1) :=
    ⟨_, .tail _ (.tail _ (.tail _ (.head _))), .refl⟩
  exact ⟨parse_hidingText, hpart.owners, hpart.declared _ hf, hmention, hpart.used _ hf hmention⟩

end MiniC
