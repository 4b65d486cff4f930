/-
  MiniC.Proofs.Strict.Exprs

  Checking expressions with look-ups that can break off.

  A name in scope stands for a row of the tables, and a complaint spells the
  name that it is about.  Two things make every look-up succeed:

    • the tables are closed: whatever some frame binds is in them, and the name
      of each function has been read (`Closed`),
    • a name is read before anything is said of it (`Yields.read_bind`).

  Under these, checking gives what it gives without look-ups that break off
  (`node_gives`, `parts_gives`, `arguments_gives`), whatever names the table
  held before.
-/
import MiniC.Check.Runs
import MiniC.Proofs.Reading.Words
import MiniC.Proofs.Strict.Runs
import MiniC.Proofs.Typing.Tables

namespace MiniC.Strict

open Check (Env)
open Outline (Node Run Args)

variable {α β γ δ : Type} {names : Names}

/-! ## §1. Checking expressions -/

/-- The variable that a name stands for. -/
def var (env : Env) (x : String) (line : Nat) : Reading (VarId × VarSymbol) :=
  match env.scope.get? x with
  | some (.var v) => still do return (v, ← varRow env.symbols v)
  | some (.func _) => complain .notVariable x line
  | none => complain .unknown x line

/-- The function that a name stands for. -/
def func (env : Env) (x : String) (line : Nat) : Reading (FuncId × FuncSymbol) :=
  match env.scope.get? x with
  | some (.func f) => still do return (f, ← funcRow env.symbols f)
  | some (.var _) => complain .notFunction x line
  | none => complain .unknown x line

mutual

/-- Checks one element of a run. -/
def node (env : Env) : Node → Reading (Part Expr)
  | .int n line => return Check.operand (.literal (.int n) .int line)
  | .float x line => return Check.operand (.literal (.float x) .float line)
  | .name x line => do
    read x
    let (v, sym) ← var env x line
    return Check.operand (.var v sym.ty line)
  | .call f line args => do
    read f
    let (f, sym) ← func env f line
    let args ← arguments env line sym.params args
    return Check.operand (.call f args sym.ret line)
  | .group inner => do
    let e ← still (resolve (← parts env inner))
    return Check.operand e
  | .unary op target line => return .unary op target line
  | .binary op line => return .binary op line
  | .broken f => throw f

/-- Checks the elements of a run from left to right. -/
def parts (env : Env) : Run → Reading (List (Part Expr))
  | .last n => do
    return [← node env n]
  | .more n rest => do
    let p ← node env n
    return p :: (← parts env rest)

/-- Checks the arguments of a call on `line` against the parameters' types. -/
def arguments (env : Env) (line : Nat) (params : List Ty) : Args → Reading (List Expr)
  | .none =>
    match params with
    | [] => return []
    | _ :: _ => throw ⟨.notEnoughArguments, line⟩
  | .arg e rest =>
    match params with
    | [] => throw ⟨.tooManyArguments, line⟩
    | ty :: params => do
      let e ← still (resolve (← parts env e))
      let e ← still (sure (typed e.line (Typing.coerce e ty)))
      return e :: (← arguments env line params rest)

end

/-- Checks an expression. -/
def run (env : Env) (r : Run) : Reading Expr := do
  still (resolve (← parts env r))

/-- Checks an expression where a value of type `ty` is wanted. -/
def runAs (env : Env) (ty : Ty) (r : Run) : Reading Expr := do
  let e ← run env r
  still (sure (typed e.line (Typing.coerce e ty)))

/-- Checks the condition of a test or loop. -/
def condition (env : Env) (r : Run) : Reading Expr := do
  let e ← run env r
  if e.ty = .void then throw ⟨.voidCondition, e.line⟩
  return e

/-! ## §2. What makes look-ups succeed -/

/-- The tables have what a name stands for. -/
def Knows (Γ : Symbols) : Binding → Prop
  | .var v => (Γ.var? v).isSome
  | .func f => (Γ.func? f).isSome

/-- The tables have whatever some open frame binds, and the names of functions
have been read. -/
structure Closed (names : Names) (env : Env) : Prop where
  inner : ∀ frame ∈ env.scope.inner, ∀ entry ∈ frame, Knows env.symbols entry.2
  outer : ∀ entry ∈ env.scope.outer, Knows env.symbols entry.2
  spelled : NamesEntered names env.symbols

/-- Where nothing is bound, only the names of functions matter. -/
theorem NamesEntered.closed {Γ : Symbols} (h : NamesEntered names Γ) :
    Closed names { symbols := Γ } :=
  ⟨List.forall_mem_nil _, List.forall_mem_nil _, h⟩

/-- What a name is bound to has its row. -/
theorem Closed.get? {env : Env} {x : String} {b : Binding} (h : Closed names env)
    (hb : env.scope.get? x = some b) : Knows env.symbols b := by
  rcases Scope.mem_of_get? hb with ⟨frame, hframe, hmem⟩ | hmem
  · exact h.inner frame hframe _ hmem
  · exact h.outer _ hmem

/-- Further names do no harm. -/
theorem Closed.grow {env : Env} {names' : Names} (h : Closed names env)
    (hgrow : names.texts ⊆ names'.texts) : Closed names' env :=
  ⟨h.inner, h.outer, fun hf => hgrow (h.spelled hf)⟩

/-- Larger tables know what smaller ones do. -/
theorem Knows.extends {Γ Γ' : Symbols} {b : Binding} (h : Knows Γ b) (hext : Γ.Extends Γ') :
    Knows Γ' b := by
  cases b with
  | var v =>
    obtain ⟨sym, hv⟩ := Option.isSome_iff_exists.1 h
    exact Option.isSome_iff_exists.2 ⟨sym, hext.var hv⟩
  | func f => exact hext.isSome_func? h

/-- Closed tables may grow by names that are known. -/
theorem Closed.extends {env : Env} {Γ : Symbols} (h : Closed names env)
    (hext : env.symbols.Extends Γ) (hspelled : NamesEntered names Γ) :
    Closed names { env with symbols := Γ } where
  inner frame hframe entry hentry := (h.inner frame hframe entry hentry).extends hext
  outer entry hentry := (h.outer entry hentry).extends hext
  spelled := hspelled

/-- The names among words are some of `all`. -/
def Spelled (all : List String) (ks : List Kind) : Prop :=
  ∀ x, Kind.identifier x ∈ ks → x ∈ all

section Spelled

variable {all : List String} {ks ks' : List Kind}

@[simp]
theorem spelled_nil : Spelled all [] := nofun

@[simp]
theorem spelled_append : Spelled all (ks ++ ks') ↔ Spelled all ks ∧ Spelled all ks' := by
  simp only [Spelled, List.mem_append]
  exact ⟨fun h => ⟨fun x hx => h x (.inl hx), fun x hx => h x (.inr hx)⟩,
    fun h x hx => hx.elim (h.1 x) (h.2 x)⟩

@[simp]
theorem spelled_identifier {x : String} :
    Spelled all (.identifier x :: ks) ↔ x ∈ all ∧ Spelled all ks := by
  simp only [Spelled, List.mem_cons, Kind.identifier.injEq]
  exact ⟨fun h => ⟨h x (.inl rfl), fun y hy => h y (.inr hy)⟩,
    fun h y hy => hy.elim (fun hy => hy ▸ h.1) (h.2 y)⟩

@[simp]
theorem spelled_punct {p : Punct} : Spelled all (.punct p :: ks) ↔ Spelled all ks := by
  simp [Spelled]

@[simp]
theorem spelled_keyword {k : Keyword} : Spelled all (.keyword k :: ks) ↔ Spelled all ks := by
  simp [Spelled]

end Spelled

/-! ## §3. What reading yields -/

/-- With the names `known` read and the tables closed, reading does not break
off.  Its result is related to that of `r`; then the names `known'` are read
and the tables `after` are closed. -/
def Yields (all known : List String) (env : Env) (known' : List String) (after : γ → Env)
    (R : β → γ → Prop) (x : Reading β) (r : Except Fault γ) : Prop :=
  ∀ names, Ready all names → known ⊆ names.texts → Closed names env →
    match r with
    | .error f => ∃ names', x.exec names = .ok (.error f, names')
    | .ok c => ∃ b names', x.exec names = .ok (.ok b, names') ∧ Ready all names' ∧
        known' ⊆ names'.texts ∧ Closed names' (after c) ∧ R b c

/-- Reading that changes no tables gives what `r` says. -/
abbrev Gives (all known : List String) (env : Env) (x : Reading α) (r : Except Fault α) : Prop :=
  Yields all known env known (fun _ => env) (· = ·) x r

namespace Yields

variable {all known known' known'' : List String} {env : Env} {after : γ → Env} {after' : δ → Env}
  {R : β → γ → Prop}
variable {x : Reading β} {r : Except Fault γ}

theorem pure {b : β} {c : γ} (h : R b c) (hafter : env = after c) :
    Yields all known env known after R (Pure.pure b) (.ok c) :=
  fun names hready hknown hclosed => ⟨b, names, rfl, hready, hknown, hafter ▸ hclosed, h⟩

theorem same (a : α) : Gives all known env (Pure.pure a) (.ok a) :=
  pure rfl rfl

theorem throw {f : Fault} :
    Yields all known env known' after R (MonadExcept.throw f) (.error f) :=
  fun names _ _ _ => ⟨names, rfl⟩

/-- One computation after another. -/
theorem bind {S : α → δ → Prop} {f : β → Reading α} {g : γ → Except Fault δ}
    (hx : Yields all known env known' after R x r)
    (hf : ∀ b c, R b c → Yields all known' (after c) known'' after' S (f b) (g c)) :
    Yields all known env known'' after' S (x >>= f) (r >>= g) := by
  intro names hready hknown hclosed
  have hx := hx names hready hknown hclosed
  cases r with
  | error fault =>
    obtain ⟨names', hexec⟩ := hx
    exact ⟨names', Reading.exec_bind_error hexec⟩
  | ok c =>
    obtain ⟨b, names', hexec, hready, hknown, hclosed, hbc⟩ := hx
    rw [Reading.exec_bind_ok hexec]
    exact hf b c hbc names' hready hknown hclosed

/-- Names may be forgotten. -/
theorem weaken (h : Yields all known env known' after R x r) (hsub : known'' ⊆ known') :
    Yields all known env known'' after R x r := by
  intro names hready hknown hclosed
  have h := h names hready hknown hclosed
  cases r with
  | error f => exact h
  | ok c =>
    obtain ⟨b, names', hexec, hready, hknown, hrest⟩ := h
    exact ⟨b, names', hexec, hready, fun x hx => hknown (hsub hx), hrest⟩

/-- Other tables that are closed too. -/
theorem retable {env' : Env} (h : Yields all known env' known' after R x r)
    (hclosed : ∀ {names}, Closed names env → Closed names env') :
    Yields all known env known' after R x r :=
  fun names hready hknown henv => h names hready hknown (hclosed henv)

/-- What gives the same on both sides comes first. -/
theorem gives_bind {S : α → δ → Prop} {r : Except Fault β} {f : β → Reading α}
    {g : β → Except Fault δ} (hx : Gives all known env x r)
    (hf : ∀ b, Yields all known env known' after' S (f b) (g b)) :
    Yields all known env known' after' S (x >>= f) (r >>= g) :=
  hx.bind fun b _ hbc => hbc ▸ hf b

/-- A computation of which only the result changes. -/
theorem map {S : α → γ → Prop} {f : β → α} (hx : Yields all known env known' after R x r)
    (hf : ∀ b c, R b c → S (f b) c) :
    Yields all known env known' after S (do return f (← x)) r := by
  have hbind : Yields all known env known' after S (do return f (← x)) (r >>= .ok) :=
    hx.bind fun b c hbc => pure (hf b c hbc) rfl
  cases r <;> exact hbind

/-- **A name is read**, and known from then on. -/
theorem read {x : String} (hx : x ∈ all) :
    Yields all known env (x :: known) (fun _ => env) (· = ·) (read x) (.ok ()) := by
  intro names hready hknown hclosed
  obtain ⟨henter, hready'⟩ := hready.enter hx
  have hexec : (Strict.read x).exec names = .ok (.ok (), (names.intern x).2) := by
    simp only [Strict.read, reading, Reading.exec, henter]
    rfl
  have hgrow : names.texts ⊆ (names.intern x).2.texts := fun y hy => Names.mem_intern.2 (.inl hy)
  refine ⟨(), _, hexec, hready', ?_, hclosed.grow hgrow, rfl⟩
  exact List.cons_subset.2 ⟨Names.mem_intern.2 (.inr rfl), fun y hy => hgrow (hknown hy)⟩

/-- What is read, and what comes after it. -/
theorem read_bind {x : String} {f : Unit → Reading β} (hx : x ∈ all)
    (hf : Yields all (x :: known) env known' after R (f ()) r) :
    Yields all known env known' after R (Strict.read x >>= f) r :=
  (read hx).bind fun _ _ _ => hf

/-- A name that is read for an expression. -/
theorem read_gives {x : String} {f : Unit → Reading α} {r : Except Fault α} (hx : x ∈ all)
    (hf : Gives all (x :: known) env (f ()) r) : Gives all known env (Strict.read x >>= f) r :=
  read_bind hx (hf.weaken (List.subset_cons_self _ _))

/-- What is complained about has been read. -/
theorem complain {cause : String → Cause} {x : String} {line : Nat} (hx : x ∈ known) :
    Yields all known env known' after R (complain cause x line) (.error ⟨cause x, line⟩) :=
  fun names _ hknown _ => ⟨names, exec_complain (hknown hx)⟩

end Yields

/-! ## §4. Checking does not break off -/

section Exprs

variable {all known : List String} {env : Env}

/-- What reads no names gives its result. -/
theorem still_gives {x : Checked α} {r : Except Fault α} (h : x = sure r) :
    Gives all known env (still x) r := by
  intro names hready hknown hclosed
  have hexec := exec_still h names
  cases r with
  | error f => exact ⟨names, hexec⟩
  | ok a => exact ⟨a, names, hexec, hready, hknown, hclosed, rfl⟩

/-- What looks up the row of a name in scope gives its result. -/
theorem row_gives {x : String} {b : Binding} {y : Checked α} {r : Except Fault α}
    (hb : env.scope.get? x = some b) (h : Knows env.symbols b → y = sure r) :
    Gives all known env (still y) r :=
  fun names hready hknown hclosed =>
    still_gives (h (hclosed.get? hb)) names hready hknown hclosed

/-- A variable in scope is in the tables. -/
theorem var_gives {x : String} {line : Nat} (hx : x ∈ known) :
    Gives all known env (var env x line) (env.var x line) := by
  unfold var Env.var
  cases hb : env.scope.get? x with
  | none => exact .complain hx
  | some b =>
    cases b with
    | func f => exact .complain hx
    | var v =>
      refine row_gives hb fun hrow => ?_
      obtain ⟨sym, hsym⟩ := Option.isSome_iff_exists.1 hrow
      dsimp only
      rw [varRow_eq hsym, hsym]
      rfl

/-- A function in scope is in the tables. -/
theorem func_gives {x : String} {line : Nat} (hx : x ∈ known) :
    Gives all known env (func env x line) (env.func x line) := by
  unfold func Env.func
  cases hb : env.scope.get? x with
  | none => exact .complain hx
  | some b =>
    cases b with
    | var v => exact .complain hx
    | func f =>
      refine row_gives hb fun hrow => ?_
      obtain ⟨sym, hsym⟩ := Option.isSome_iff_exists.1 hrow
      dsimp only
      rw [funcRow_eq hsym, hsym]
      rfl

mutual

/-- **Checking an element of a run does not break off.** -/
theorem node_gives {known : List String} : ∀ n : Node, Spelled all (words n.marks) →
    Gives all known env (node env n) (Check.node env n)
  | .int _ _, _ | .float _ _, _ | .unary _ _ _, _ | .binary _ _, _ => by
    simp only [node, Check.node]
    exact .same _
  | .broken _, _ => by
    simp only [node, Check.node]
    exact .throw
  | .name x line, h => by
    have hx : x ∈ all := by simpa [Node.marks] using h
    rw [node, Check.node]
    refine .read_gives hx ?_
    exact .gives_bind (var_gives List.mem_cons_self) fun _ => .same _
  | .call f line args, h => by
    have hparts : f ∈ all ∧ Spelled all (words args.marks) := by
      simpa [Node.marks] using h
    rw [node, Check.node]
    refine .read_gives hparts.1 ?_
    refine .gives_bind (func_gives List.mem_cons_self) fun ⟨g, sym⟩ => ?_
    exact .gives_bind (arguments_gives line sym.params args hparts.2) fun _ => .same _
  | .group inner, h => by
    have hinner : Spelled all (words inner.marks) := by simpa [Node.marks] using h
    rw [node, Check.node]
    refine .gives_bind (parts_gives inner hinner) fun ps => ?_
    exact .gives_bind (still_gives (resolve_eq ps)) fun _ => .same _

/-- The elements of a run, one after the other. -/
theorem parts_gives {known : List String} : ∀ r : Run, Spelled all (words r.marks) →
    Gives all known env (parts env r) (Check.parts env r)
  | .last n, h => by
    rw [parts, Check.parts]
    exact .gives_bind (node_gives n h) fun _ => .same _
  | .more n rest, h => by
    rw [Run.marks, words_append, spelled_append] at h
    rw [parts, Check.parts]
    refine .gives_bind (node_gives n h.1) fun p => ?_
    exact .gives_bind (parts_gives rest h.2) fun _ => .same _

/-- The arguments of a call, one after the other. -/
theorem arguments_gives {known : List String} (line : Nat) : ∀ (params : List Ty) (args : Args),
    Spelled all (words args.marks) →
      Gives all known env (arguments env line params args) (Check.arguments env line params args)
  | [], .none, _ => by
    simp only [arguments, Check.arguments]
    exact .same _
  | _ :: _, .none, _ | [], .arg _ _, _ => by
    simp only [arguments, Check.arguments]
    exact .throw
  | ty :: params, .arg e rest, h => by
    have hparts : Spelled all (words e.marks) ∧ Spelled all (words rest.marks) := by
      cases rest with
      | none => exact ⟨h, spelled_nil⟩
      | arg e' rest => simpa [Args.marks] using h
    rw [arguments, Check.arguments]
    refine .gives_bind (parts_gives e hparts.1) fun ps => ?_
    refine .gives_bind (still_gives (resolve_eq ps)) fun e => ?_
    refine .gives_bind (still_gives rfl) fun e => ?_
    exact .gives_bind (arguments_gives line params rest hparts.2) fun _ => .same _

end

section Runs

variable {r : Run} (h : Spelled all (words r.marks))
include h

theorem run_gives : Gives all known env (run env r) (Check.run env r) := by
  rw [run, Check.run]
  exact .gives_bind (parts_gives r h) fun ps => still_gives (resolve_eq ps)

theorem runAs_gives {ty : Ty} : Gives all known env (runAs env ty r) (Check.runAs env ty r) := by
  rw [runAs, Check.runAs]
  exact .gives_bind (run_gives h) fun _ => still_gives rfl

/-- A condition is checked without a breach. -/
theorem condition_gives : Gives all known env (condition env r) (Check.condition env r) := by
  rw [condition, Check.condition]
  refine .gives_bind (run_gives h) fun e => ?_
  split
  · exact .throw
  · exact .same _

end Runs

end Exprs

end MiniC.Strict
