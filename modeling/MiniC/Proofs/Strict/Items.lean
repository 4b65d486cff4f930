/-
  MiniC.Proofs.Strict.Items

  Checking whole programs with operations that can break off.

  The number of loops goes from one function to the next, as the tables and the
  names that were read do.  It is zero whenever a function begins, because each
  function leaves it as it was.  A fault ends everything, so what it leaves open
  does not matter.

  Items keep the tables closed.  So checking a program gives what it gives
  without operations that break off (`program_yields`).
-/
import MiniC.Check.Items
import MiniC.Proofs.Checking.Steps
import MiniC.Proofs.Strict.Stmts

namespace MiniC.Strict

open Check (Env State Found)
open Outline (Param Signature Declaration)

variable {sig : Signature} {found : Found}

/-! ## §1. Checking items -/

/-- The name with its text from the table. -/
def spelledName (x : String) : Reading String :=
  reading fun names => do return (.ok (← spell names x), names)

/-- Reads the parameters.  None of them lacks a value. -/
def params : List Param → Reading (List Ty)
  | [] => return []
  | p :: ps => do
    read p.name
    if p.ty = .void then complain .voidVariable p.name p.line
    return p.ty :: (← params ps)

/-- Checks the head of a function after its name, and gives the parameters'
types. -/
def signature (sig : Signature) : Reading (List Ty) := do
  let tys ← params sig.params
  still (sure (Check.raise sig.fault))
  return tys

/-- Enters a new function in the table of symbols and binds its name. -/
def newFunction (env : Env) (sym : FuncSymbol) : Reading (FuncId × Env) :=
  let (key, funcs) := env.symbols.funcs.insert sym
  match env.scope.add sym.name (.func ⟨key⟩) with
  | .ok scope => return (⟨key⟩, ⟨scope, { env.symbols with funcs := funcs }⟩)
  | .error _ => complain .redefined sym.name sym.line

/-- The function that a head declares: a new one, or one declared before with
the same types. -/
def declareFunction (env : Env) (sig : Signature) (tys : List Ty) : Reading (FuncId × Env) :=
  match env.scope.get? sig.name with
  | none => newFunction env ⟨sig.name, sig.ret, tys, .declared, sig.line⟩
  | some (.var _) => complain .redefined sig.name sig.line
  | some (.func f) => do
    let sym ← still (funcRow env.symbols f)
    if sym.state = .imported then complain .redefined sig.name sig.line
    else if sym.ret = sig.ret ∧ sym.params = tys then return (f, env)
    else complain .conflicting sig.name sig.line

/-- Notes that a function has a body, unless it has one already. -/
def defineFunction (env : Env) (f : FuncId) (sig : Signature) : Reading Env := do
  let sym ← still (funcRow env.symbols f)
  if sym.state = .defined then complain .redefined sig.name sig.line
  else return { env with symbols := env.symbols.define f }

/-- Declares the parameters of a function in the frame of its body. -/
def declareParams : List Param → Steps (List VarId)
  | [] => return []
  | p :: ps => do
    let v ← declare ⟨p.name, p.ty, .localVar, p.line⟩
    return v :: (← declareParams ps)

/-- Steps from a state.  A fault ends everything, so what it leaves is
dropped. -/
def runOn {α : Type} (st : State) (loops : Nat) (x : Steps α) : Reading (α × Machine) :=
  reading fun names => do
    let (r, m) ← x.exec ⟨st, loops, names⟩
    return (r.map (·, m), m.names)

/-- Checks the body of a function, with `loops` loops around it, and gives the
number of loops afterwards. -/
def functionBody (env : Env) (loops : Nat) (f : FuncId) (sig : Signature)
    (body : List Outline.Stmt) : Reading ((Function × Env) × Nat) := do
  let env ← defineFunction env f sig
  let name ← spelledName sig.name
  let st : State := { env with locals := [] }
  let (vs, m) ← runOn st.push loops (declareParams sig.params)
  let (body, m) ← runOn m.state m.loops (stmts sig.ret body)
  let after ← still m.pop
  return ((⟨f, name, sig.ret, vs, m.state.locals, body⟩, after.state.toEnv), after.loops)

/-- Checks a function of the host. -/
def importItem (found : Found) (sig : Signature) (fault : Option Fault) : Reading Found := do
  read sig.name
  let tys ← signature sig
  still (sure (Check.raise fault))
  let (f, env) ← newFunction found.env ⟨sig.name, sig.ret, tys, .imported, sig.line⟩
  return { found with env := env, imports := found.imports ++ [f] }

/-- Checks a function. -/
def functionItem (found : Found) (loops : Nat) (sig : Signature) (body : Outline.Body) :
    Reading (Found × Nat) := do
  read sig.name
  let tys ← signature sig
  let (f, env) ← declareFunction found.env sig tys
  match body with
  | .none => return ({ found with env := env }, loops)
  | .broken fault => throw fault
  | .block body =>
    let ((function, env), loops) ← functionBody env loops f sig body
    return ({ found with env := env, items := found.items ++ [.function function] }, loops)

/-- Checks a global variable. -/
def globalItem (found : Found) (loops : Nat) (d : Declaration) : Reading (Found × Nat) := do
  let ((v, init), m) ←
    runOn { found.env with locals := [] } loops (declaration .globalVar d)
  let value ← still (sure (Check.constant init))
  return ({ found with env := m.state.toEnv, items := found.items ++ [.global v value] }, m.loops)

/-- Checks one item. -/
def item (found : Found) (loops : Nat) : Outline.Item → Reading (Found × Nat)
  | .imported sig fault => do return (← importItem found sig fault, loops)
  | .function sig body => functionItem found loops sig body
  | .global d => globalItem found loops d
  | .broken f => throw f

/-- Checks items in order. -/
def items (found : Found) (loops : Nat) : List Outline.Item → Reading Found
  | [] => return found
  | i :: is => do
    let (found, loops) ← item found loops i
    items found loops is

/-- Every function that was declared has a body. -/
def allDefined (symbols : Symbols) : Reading Unit :=
  match symbols.funcs.rows.toList.find? (·.state = .declared) with
  | none => return ()
  | some sym => complain .neverDefined sym.name sym.line

/-- Checks a whole program. -/
def program (outline : List Outline.Item) : Reading Program := do
  let found ← items {} 0 outline
  allDefined found.env.symbols
  return ⟨found.items, found.imports, found.env.symbols⟩

/-! ## §2. Heads of functions -/

variable {all known : List String}

/-- The names of parameters. -/
theorem spelled_params {p : Param} {ps : List Param}
    (h : Spelled all (words (Outline.paramMarks (p :: ps)))) :
    p.name ∈ all ∧ Spelled all (words (Outline.paramMarks ps)) := by
  cases ps with
  | nil =>
    simp [Outline.paramMarks, Param.marks] at h ⊢
    exact h.2
  | cons p' ps =>
    simp [Outline.paramMarks, Param.marks] at h
    exact h.2

/-- The names in the head of a function. -/
theorem spelled_signature (h : Spelled all (words sig.marks)) :
    sig.name ∈ all ∧ Spelled all (words (Outline.paramMarks sig.params)) := by
  simp [Signature.marks] at h
  exact h.2

section Heads

variable {env : Env}
variable {sig : Signature}

/-- The names of the parameters are known after the head was read. -/
theorem params_yields {known : List String} : ∀ ps : List Param,
    Spelled all (words (Outline.paramMarks ps)) →
      Yields all known env (ps.map (·.name) ++ known) (fun _ => env) (· = ·) (params ps)
        (Check.params ps)
  | [], _ => .same _
  | p :: ps, h => by
    have hparts := spelled_params h
    have hrest : Yields all (p.name :: known) env (p.name :: ps.map (·.name) ++ known)
        (fun _ => env) (· = ·) (do return p.ty :: (← params ps))
        (do return p.ty :: (← Check.params ps)) := by
      refine (params_yields ps hparts.2).bind fun _ _ heq => ?_
      exact .weaken (.pure (congrArg _ heq) rfl) (by simp)
    rw [params, Check.params]
    refine .read_bind hparts.1 ?_
    split
    · exact .gives_bind (.complain List.mem_cons_self) fun _ => hrest
    · exact hrest

/-- A head is checked without a breach, its names known after it. -/
theorem signature_yields (h : Spelled all (words sig.marks)) :
    Yields all known env (sig.params.map (·.name) ++ known) (fun _ => env) (· = ·) (signature sig)
      (Check.signature sig) := by
  rw [signature, Check.signature]
  refine (params_yields _ (spelled_signature h).2).bind fun tys _ heq => ?_
  subst heq
  exact .gives_bind (still_gives rfl) fun _ => .same _

/-- The row of a function that is in the tables, and what comes after it. -/
theorem funcRow_bind {β γ : Type} {known' : List String} {after : γ → Env} {R : β → γ → Prop}
    {f : FuncId} {sym : FuncSymbol} (hsym : env.symbols.func? f = some sym)
    {k : FuncSymbol → Reading β} {r : Except Fault γ}
    (hk : Yields all known env known' after R (k sym) r) :
    Yields all known env known' after R (still (funcRow env.symbols f) >>= k) r := by
  have hrow : (liftM (funcRow env.symbols f) : Checked FuncSymbol) = sure (.ok sym) := by
    rw [funcRow_eq hsym, liftM_ok]
  intro names
  rw [Reading.exec_bind_ok (exec_still hrow names)]
  exact hk names

/-- The same function on both sides, and in the tables. -/
def SameFunction (x y : FuncId × Env) : Prop := x = y ∧ Knows y.2.symbols (.func y.1)

/-- A new function is entered without a breach. -/
theorem newFunction_yields {sym : FuncSymbol} (hname : sym.name ∈ known) :
    Yields all known env known (·.2) SameFunction (newFunction env sym)
      (Check.newFunction env sym) := by
  unfold newFunction Check.newFunction
  dsimp only
  cases hadd : env.scope.add sym.name (.func ⟨(env.symbols.funcs.insert sym).1⟩) with
  | error d => exact .complain hname
  | ok scope =>
    intro names hready hknown hclosed
    have hnew : Knows (env.symbols.withFunc sym) (.func env.symbols.nextFunc) :=
      Option.isSome_iff_exists.2 ⟨sym, Symbols.func?_withFunc_nextFunc _ _⟩
    have hspelled : NamesEntered names (env.symbols.withFunc sym) := by
      intro g sym' hg
      rcases Symbols.func?_of_withFunc hg with hg | ⟨_, rfl⟩
      · exact hclosed.spelled hg
      · exact hknown hname
    have hentered := hclosed.extends (Symbols.extends_withFunc env.symbols sym) hspelled
    exact ⟨_, names, rfl, hready, hknown, hentered.add hadd hnew, rfl, hnew⟩

/-- A declaration is checked without a breach. -/
theorem declareFunction_yields {tys : List Ty} (hname : sig.name ∈ known) :
    Yields all known env known (·.2) SameFunction (declareFunction env sig tys)
      (Check.declareFunction env sig tys) := by
  unfold declareFunction Check.declareFunction
  cases hget : env.scope.get? sig.name with
  | none => exact newFunction_yields hname
  | some b =>
    cases b with
    | var v => exact .complain hname
    | func f =>
      intro names hready hknown hclosed
      have hfunc := hclosed.get? hget
      obtain ⟨sym, hsym⟩ := Option.isSome_iff_exists.1 hfunc
      refine funcRow_bind hsym ?_ names hready hknown hclosed
      dsimp only
      rw [hsym]
      dsimp only
      split
      · exact .complain hname
      · split
        · exact .pure ⟨rfl, hfunc⟩ rfl
        · exact .complain hname

/-- A definition is checked without a breach. -/
theorem defineFunction_yields {f : FuncId} (hf : Knows env.symbols (.func f))
    (hname : sig.name ∈ known) :
    Yields all known env known id (· = ·) (defineFunction env f sig)
      (Check.defineFunction env f sig) := by
  obtain ⟨sym, hsym⟩ := Option.isSome_iff_exists.1 hf
  unfold defineFunction Check.defineFunction
  refine funcRow_bind hsym ?_
  rw [hsym, Option.any_some]
  by_cases hdefined : sym.state = .defined
  · rw [if_pos hdefined, if_pos (by simpa using hdefined)]
    exact .complain hname
  · rw [if_neg hdefined, if_neg (by simpa using hdefined)]
    intro names hready hknown hclosed
    have hspelled : NamesEntered names (env.symbols.define f) := by
      intro g sym' hg
      -- the function keeps its name when it gets a body
      rcases Symbols.func?_of_define hg with ⟨_, hg⟩ | ⟨_, sym'', hf', rfl⟩
      · exact hclosed.spelled hg
      · exact (hclosed.spelled hf' : sym''.name ∈ names.texts)
    exact ⟨_, names, rfl, hready, hknown,
      hclosed.extends (Symbols.extends_define env.symbols f) hspelled, rfl⟩

/-- A name that was read is spelled as it is, and what comes after it. -/
theorem spelledName_bind {β γ : Type} {known' : List String} {after : γ → Env} {R : β → γ → Prop}
    {x : String} (hx : x ∈ known) {k : String → Reading β} {r : Except Fault γ}
    (hk : Yields all known env known' after R (k x) r) :
    Yields all known env known' after R (spelledName x >>= k) r := by
  intro names hready hknown
  have hexec : (spelledName x).exec names = .ok (.ok x, names) := by
    simp only [spelledName, reading, Reading.exec, spell_eq (hknown hx)]
    rfl
  rw [Reading.exec_bind_ok hexec]
  exact hk names hready hknown

end Heads

/-! ## §3. Items -/

/-- Steps that follow something, started on a machine. -/
theorem runOn_yields {α : Type} {x : Steps α} {st : State} {loops : Nat}
    {r : Except Fault (α × State)} (h : Follows all known x st loops r) :
    Yields all known st.toEnv known (·.2.toEnv)
      (fun p q => ∃ names, p = (q.1, ⟨q.2, loops, names⟩) ∧ Level st q.2)
      (runOn st loops x) r := by
  intro names hready hknown hclosed
  have h := h names hready hknown hclosed
  cases r with
  | error f =>
    obtain ⟨st', names', hexec, _⟩ := h
    exact ⟨names', by simp only [runOn, reading, Reading.exec, hexec]; rfl⟩
  | ok q =>
    obtain ⟨names', hexec, hready, hknown, hclosed, hlevel⟩ := h
    refine ⟨(q.1, ⟨q.2, loops, names'⟩), names', ?_, hready, hknown, hclosed, names', rfl, hlevel⟩
    simp only [runOn, reading, Reading.exec, hexec]
    rfl

/-- Parameters are declared without a breach. -/
theorem declareParams_follows : ∀ (ps : List Param) (loops : Nat) (st : State),
    ps.map (·.name) ⊆ known →
      Follows all known (declareParams ps) st loops (Check.declareParams st ps)
  | [], loops, st, h => .pure
  | p :: ps, loops, st, h => by
    rw [List.map_cons, List.cons_subset] at h
    rw [declareParams, Check.declareParams]
    refine .bind (declare_follows h.1) fun v st' => ?_
    exact (declareParams_follows ps loops st' h.2).bind fun _ _ => .pure

/-- **A function leaves no loop behind, and closes its own block only.** -/
theorem functionBody_yields {env : Env} {f : FuncId} {body : List Outline.Stmt}
    (hf : Knows env.symbols (.func f)) (hname : sig.name ∈ known)
    (hparams : sig.params.map (·.name) ⊆ known)
    (hbody : Spelled all (words (Outline.Stmt.marksOf body))) :
    Yields all known env known (·.2) (fun x y => x = (y, 0)) (functionBody env 0 f sig body)
      (Check.functionBody env f sig body) := by
  unfold functionBody Check.functionBody
  refine (defineFunction_yields hf hname).bind ?_
  rintro env _ rfl
  have hpush {names : Names} (h : Closed names env) :
      Closed names (State.push { env with locals := [] }).toEnv := Closed.push h
  refine spelledName_bind hname ?_
  refine .retable (.bind (runOn_yields (declareParams_follows _ 0 _ hparams)) ?_) hpush
  rintro _ ⟨vs, st⟩ ⟨_, rfl, hlevel⟩
  refine .bind (runOn_yields (stmts_follows sig.ret body 0 st hbody)) ?_
  rintro _ ⟨body, st'⟩ ⟨names', rfl, hlevel'⟩
  -- parameters and body share a block, and neither has closed it
  have hpop : (liftM (Machine.pop ⟨st', 0, names'⟩) : Checked Machine) =
      sure (.ok ⟨st'.pop, 0, names'⟩) := by
    rw [pop_eq (hlevel'.trans hlevel), liftM_ok]
  intro names hready hknown hclosed
  dsimp only
  rw [Reading.exec_bind_ok (exec_still hpop names)]
  exact ⟨_, names, rfl, hready, hknown, hclosed.pop, rfl⟩

/-- An import is checked without a breach. -/
theorem importItem_yields {fault : Option Fault} (hsig : Spelled all (words sig.marks)) :
    Yields all known found.env known (·.env) (· = ·) (importItem found sig fault)
      (Check.importItem found sig fault) := by
  unfold importItem Check.importItem
  refine .read_bind (spelled_signature hsig).1 ?_
  refine (signature_yields hsig).bind fun tys _ heq => ?_
  subst heq
  refine .gives_bind (still_gives rfl) fun _ => ?_
  refine (newFunction_yields ?_).bind ?_
  · exact List.mem_append_right _ List.mem_cons_self
  · rintro ⟨f, env⟩ _ ⟨rfl, _⟩
    exact .weaken (.pure rfl rfl) (by simp)

/-- The same on both sides, and with no loop around. -/
def SameFound (x : Found × Nat) (y : Found) : Prop := x = (y, 0)

/-- A function is checked without a breach. -/
theorem functionItem_yields {body : Outline.Body} (hsig : Spelled all (words sig.marks))
    (hbody : Spelled all (words (body.marks sig.params))) :
    Yields all known found.env known (·.env) SameFound (functionItem found 0 sig body)
      (Check.functionItem found sig body) := by
  have hknown : known ⊆ sig.params.map (·.name) ++ sig.name :: known := by simp
  have hname : sig.name ∈ sig.params.map (·.name) ++ sig.name :: known := by simp
  unfold functionItem Check.functionItem
  refine .read_bind (spelled_signature hsig).1 ?_
  refine (signature_yields hsig).bind fun tys _ heq => ?_
  subst heq
  refine (declareFunction_yields hname).bind ?_
  rintro ⟨f, env⟩ _ ⟨rfl, hf⟩
  cases body with
  | none => exact .weaken (.pure rfl rfl) hknown
  | broken fault => exact .throw
  | block body =>
    have hbody : Spelled all (words (Outline.Stmt.marksOf body)) := by
      simpa [Outline.Body.marks, Outline.block] using hbody
    refine (functionBody_yields hf hname (List.subset_append_left _ _) hbody).bind ?_
    rintro _ ⟨function, env⟩ rfl
    exact .weaken (.pure rfl rfl) hknown

/-- A global is checked without a breach. -/
theorem globalItem_yields {d : Declaration} (h : Spelled all (words d.marks)) :
    Yields all known found.env known (·.env) SameFound (globalItem found 0 d)
      (Check.globalItem found d) := by
  unfold globalItem Check.globalItem
  have hdeclares : Follows all known (declaration .globalVar d)
      ({ found.env with locals := [] } : State) 0 _ := declaration_follows h
  refine (runOn_yields hdeclares).bind ?_
  rintro _ ⟨⟨v, init⟩, st⟩ ⟨_, rfl, _⟩
  refine .gives_bind (still_gives rfl) fun value => ?_
  exact .pure rfl rfl

/-- An item is checked without a breach. -/
theorem item_yields {i : Outline.Item} (h : Spelled all (words i.marks)) :
    Yields all known found.env known (·.env) SameFound (item found 0 i) (Check.item found i) := by
  cases i with
  | imported sig fault =>
    have hsig : Spelled all (words sig.marks) := by simpa [Outline.Item.marks] using h
    refine (importItem_yields hsig).map ?_
    rintro found _ rfl
    rfl
  | function sig body =>
    have hparts : Spelled all (words sig.marks) ∧
        Spelled all (words (body.marks sig.params)) := by
      simpa [Outline.Item.marks] using h
    exact functionItem_yields hparts.1 hparts.2
  | global d => exact globalItem_yields h
  | broken f => exact .throw

/-! ## §4. Programs -/

/-- **Items are checked without a breach**, names entered as they come. -/
theorem items_yields {is : List Outline.Item} (h : Spelled all (words (Outline.marksOf is))) :
    Yields all known found.env known (·.env) (· = ·) (items found 0 is) (Check.items found is) := by
  induction is generalizing found with
  | nil => exact .pure rfl rfl
  | cons i is ih =>
    have hparts : Spelled all (words i.marks) ∧ Spelled all (words (Outline.marksOf is)) := by
      simpa [Outline.marksOf] using h
    rw [items, Check.items]
    refine (item_yields hparts.1).bind ?_
    rintro _ found rfl
    exact ih hparts.2

/-- The search for functions without a body has no breach. -/
theorem allDefined_gives {env : Env} :
    Gives all known env (allDefined env.symbols) (Check.allDefined env.symbols) := by
  unfold allDefined Check.allDefined
  cases hfind : env.symbols.funcs.rows.toList.find? (·.state = .declared) with
  | none => exact .same _
  | some sym =>
    intro names hready hknown hclosed
    obtain ⟨i, hi⟩ := List.mem_iff_getElem?.1 (List.mem_of_find?_eq_some hfind)
    have hrow : env.symbols.func? ⟨i⟩ = some sym := by
      rw [← hi]
      exact Array.getElem?_toList.symm
    exact ⟨names, exec_complain (hclosed.spelled hrow)⟩

/-- **Checking a program does not break off**, whether the program is accepted
or not, if there is room for all names.  Then the names of its functions have
been read. -/
theorem program_yields {outline : List Outline.Item}
    (h : Spelled all (words (Outline.marksOf outline))) (hroom : all.dedup.length < capacity) :
    match Check.program outline with
    | .error f => (program outline).whole = sure (.error f)
    | .ok p => ∃ names, (program outline).whole = sure (.ok (p, names)) ∧
        NamesEntered names p.symbols := by
  have hstart : Closed {} ({} : Found).env :=
    NamesEntered.closed fun hf => absurd hf (by simp [Symbols.func?, Table.get?])
  have hyields : Yields all [] ({} : Found).env [] (fun p : Program => { symbols := p.symbols })
      (· = ·) (program outline) (Check.program outline) := by
    unfold program Check.program
    refine (items_yields h).bind ?_
    rintro found _ rfl
    refine .gives_bind allDefined_gives fun _ => ?_
    exact .retable (.pure rfl rfl) fun hclosed => NamesEntered.closed hclosed.spelled
  have hwhole := hyields {} ⟨List.nodup_nil, List.nil_subset _, hroom⟩ (List.nil_subset _) hstart
  unfold Reading.whole
  cases hp : Check.program outline with
  | error f =>
    rw [hp] at hwhole
    obtain ⟨names, hexec⟩ := hwhole
    dsimp only
    rw [hexec]
    rfl
  | ok p =>
    rw [hp] at hwhole
    obtain ⟨_, names, hexec, _, _, hclosed, rfl⟩ := hwhole
    refine ⟨names, ?_, hclosed.spelled⟩
    rw [hexec]
    rfl

end MiniC.Strict
