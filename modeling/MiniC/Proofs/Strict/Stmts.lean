/-
  MiniC.Proofs.Strict.Stmts

  Checking statements with blocks that must be open to be closed.

  A machine keeps what checking has found and the names read so far, and counts
  the loops around the place it is at.  It keeps all three when a fault is met,
  so the block and the loop around the fault are still closed on the way out.  Closing the global
  frame, or a loop where there is none, breaks off.

  Whether it ends well or in a fault, a phrase leaves as many blocks open as
  it finds, and as many loops around it (`Follows`).  So every block and loop
  that is closed is open (`stmts_follows`).
-/
import MiniC.Check.Stmts
import MiniC.Proofs.Strict.Exprs
import MiniC.Proofs.Typing.Stmts

namespace MiniC.Strict

open Check (Env State)
open Outline (Declaration Initial Run)

/-! ## §1. The machine -/

/-- What checking has found so far, the number of loops around it, and the names
that were read. -/
structure Machine where
  state : State
  loops : Nat
  names : Names
  deriving DecidableEq, Repr

/-- Steps of the machine: they may end in a fault of the source, which keeps
what was found, and may break off. -/
abbrev Steps := ExceptT Fault (StateT Machine (Except Breach))

variable {α β : Type} {all known : List String}

/-- Steps as what they do to a machine. -/
def steps (f : Machine → Except Breach (Except Fault α × Machine)) : Steps α := f

/-- What steps do to a machine. -/
def Steps.exec (x : Steps α) (m : Machine) : Except Breach (Except Fault α × Machine) := x m

/-- Reads something without changing the tables. -/
def ask (f : Env → Reading α) : Steps α :=
  steps fun m => do
    let (r, names) ← (f m.state.toEnv).exec m.names
    return (r, { m with names := names })

/-- Closes the innermost block, which must not be the global one. -/
def Machine.pop (m : Machine) : Except Breach Machine :=
  match m.state.scope.inner with
  | [] => .error .globalClosed
  | _ :: _ => .ok { m with state := m.state.pop }

/-- Leaves the innermost loop, which must be there. -/
def Machine.leaveLoop (m : Machine) : Except Breach Machine :=
  match m.loops with
  | 0 => .error .loopsBelowZero
  | n + 1 => .ok { m with loops := n }

/-- Goes through a block of its own, which is closed also after a fault. -/
def block (body : Steps α) : Steps α :=
  steps fun m => do
    let (r, m) ← body.exec { m with state := m.state.push }
    return (r, ← m.pop)

/-- Goes through the body of a loop, which is left also after a fault. -/
def inLoop (body : Steps α) : Steps α :=
  steps fun m => do
    let (r, m) ← body.exec { m with loops := m.loops + 1 }
    return (r, ← m.leaveLoop)

/-- The number of loops around. -/
def loopsAround : Steps Nat := steps fun m => .ok (.ok m.loops, m)

/-! ## §2. Checking statements -/

/-- Enters a variable in the table of symbols and binds its name. -/
def declare (sym : VarSymbol) : Steps VarId :=
  steps fun m =>
    let (v, st) := m.state.enter sym
    match st.scope.add sym.name (.var v) with
    | .ok scope => .ok (.ok v, { m with state := { st with scope := scope } })
    | .error _ => do
      let (r, names) ← (complain .redefined sym.name sym.line).exec m.names
      return (r, ⟨st, m.loops, names⟩)

/-- Checks the lengths of an array. -/
def lengths (env : Env) : List Run → Reading (List Nat)
  | [] => return []
  | r :: rs => do
    let n ← still (sure (Check.lengthOf (← run env r)))
    return n :: (← lengths env rs)

/-- Checks what a variable of type `ty`, named on `line`, starts with. -/
def initial (env : Env) (ty : Ty) (line : Nat) : Initial → Reading (Option Expr)
  | .none => return none
  | .broken f => throw f
  | .value r =>
    if ty.isArray then throw ⟨.arrayInitializer, line⟩
    else do
      return some (← runAs env ty r)

/-- Checks the declaration of a variable. -/
def declaration (storage : Storage) (d : Declaration) : Steps (VarId × Option Expr) := do
  ask fun _ => read d.name
  if d.base = .void then ask fun _ => complain .voidVariable d.name d.line
  let ty := Ty.arrayOf d.base (← ask fun env => lengths env d.lengths)
  let init ← ask fun env => initial env ty d.line d.init
  let v ← declare ⟨d.name, ty, storage, d.line⟩
  return (v, init)

/-- Checks a jump on `line`, and the semicolon after it. -/
def jump (word : Keyword) (line : Nat) (fault : Option Fault) : Steps Unit := do
  let depth ← loopsAround
  ask fun _ => still (sure (Check.jump word depth line fault))

mutual

/-- Checks a statement of a function that returns `ret`. -/
def stmt (ret : Ty) : Outline.Stmt → Steps Stmt
  | .declare d => do
    let (v, init) ← declaration .localVar d
    return .declare v init
  | .expr e => do
    return .expr (← ask fun env => run env e)
  | .ret line => do
    if ret = .void then return .ret none else throw ⟨.missingValue ret, line⟩
  | .retValue e => do
    let e ← ask fun env => run env e
    if ret = .void then throw ⟨.unwantedValue, e.line⟩
    let e ← ask fun _ => still (sure (typed e.line (Typing.coerce e ret)))
    return .ret (some e)
  | .branch cond body otherwise => do
    let cond ← ask fun env => condition env cond
    let body ← block (stmts ret body)
    let otherwise ← elseBranch ret otherwise
    return .branch cond body otherwise
  | .loop cond body => do
    let cond ← ask fun env => condition env cond
    let body ← inLoop (block (stmts ret body))
    return .loop cond body
  | .leave line fault => do
    jump .kwBreak line fault
    return .leave
  | .again line fault => do
    jump .kwContinue line fault
    return .again
  | .broken f => throw f

/-- Checks what is done if a condition fails. -/
def elseBranch (ret : Ty) : Outline.Else → Steps Else
  | .nothing => return .nothing
  | .branch cond body otherwise => do
    let cond ← ask fun env => condition env cond
    let body ← block (stmts ret body)
    let otherwise ← elseBranch ret otherwise
    return .branch cond body otherwise
  | .block body => do
    return .block (← block (stmts ret body))

/-- Checks statements in order. -/
def stmts (ret : Ty) : List Outline.Stmt → Steps (List Stmt)
  | [] => return []
  | s :: ss => do
    let s ← stmt ret s
    return s :: (← stmts ret ss)

end

/-! ## §3. Following -/

/-- As many blocks are open. -/
def Level (st st' : State) : Prop := st'.scope.inner.length = st.scope.inner.length

/-- Steps from a state end as `r` says.  Fault or not, they leave as many
blocks open as they found, and `loops` loops around. -/
def EndsIn (all known : List String) (st : State) (loops : Nat)
    (out : Except Breach (Except Fault α × Machine)) : Except Fault (α × State) → Prop
  | .ok (a, st') => ∃ names, out = .ok (.ok a, ⟨st', loops, names⟩) ∧ Ready all names ∧
      known ⊆ names.texts ∧ Closed names st'.toEnv ∧ Level st st'
  | .error f => ∃ st' names, out = .ok (.error f, ⟨st', loops, names⟩) ∧ Level st st'

/-- With `loops` loops around, the names `known` read and the tables closed,
steps from a state end as `r` says. -/
def Follows (all known : List String) (x : Steps α) (st : State) (loops : Nat)
    (r : Except Fault (α × State)) : Prop :=
  ∀ names, Ready all names → known ⊆ names.texts → Closed names st.toEnv →
    EndsIn all known st loops (x.exec ⟨st, loops, names⟩) r

/-- The same at another state of this depth. -/
theorem EndsIn.level {st st' : State} {loops : Nat}
    {out : Except Breach (Except Fault α × Machine)} {r : Except Fault (α × State)}
    (hlevel : Level st st') (h : EndsIn all known st' loops out r) :
    EndsIn all known st loops out r := by
  cases r with
  | error f =>
    obtain ⟨st'', names, hout, hlevel'⟩ := h
    exact ⟨st'', names, hout, hlevel'.trans hlevel⟩
  | ok r =>
    obtain ⟨names, hout, hready, hknown, hclosed, hlevel'⟩ := h
    exact ⟨names, hout, hready, hknown, hclosed, hlevel'.trans hlevel⟩

/-- The same with fewer names known. -/
theorem EndsIn.weaken {known' : List String} {st : State} {loops : Nat}
    {out : Except Breach (Except Fault α × Machine)} {r : Except Fault (α × State)}
    (h : EndsIn all known' st loops out r) (hsub : known ⊆ known') :
    EndsIn all known st loops out r := by
  cases r with
  | error f => exact h
  | ok r =>
    obtain ⟨names, hout, hready, hknown, hrest⟩ := h
    exact ⟨names, hout, hready, fun x hx => hknown (hsub hx), hrest⟩

theorem exec_bind_ok {x : Steps α} {f : α → Steps β} {m m' : Machine} {a : α}
    (h : x.exec m = .ok (.ok a, m')) : (x >>= f).exec m = (f a).exec m' := by
  show (x.exec m >>= fun p => ExceptT.bindCont f p.1 p.2) = _
  rw [h]
  rfl

theorem exec_bind_error {x : Steps α} {f : α → Steps β} {m m' : Machine} {fault : Fault}
    (h : x.exec m = .ok (.error fault, m')) : (x >>= f).exec m = .ok (.error fault, m') := by
  show (x.exec m >>= fun p => ExceptT.bindCont f p.1 p.2) = _
  rw [h]
  rfl

section Blocks

variable {st st' : State} {loops : Nat} {names names' : Names}

theorem Level.pop (h : Level st.push st') : Level st st'.pop := by
  unfold Level State.push Scope.push at h
  unfold Level State.pop Scope.pop
  simp at h ⊢
  omega

/-- A block that is open can be closed. -/
theorem pop_eq (h : Level st.push st') :
    Machine.pop ⟨st', loops, names⟩ = .ok ⟨st'.pop, loops, names⟩ := by
  unfold Machine.pop
  split
  next hinner =>
    have hinner : st'.scope.inner = [] := hinner
    rw [Level, hinner] at h
    exact absurd h.symm (Nat.succ_ne_zero _)
  next => rfl

theorem Closed.push (h : Closed names st.toEnv) : Closed names st.push.toEnv := by
  refine ⟨fun frame hframe => ?_, h.outer, h.spelled⟩
  rcases List.mem_cons.1 hframe with rfl | hframe
  · exact fun entry hentry => absurd hentry List.not_mem_nil
  · exact h.inner frame hframe

theorem Closed.pop (h : Closed names st.toEnv) : Closed names st.pop.toEnv :=
  ⟨fun frame hframe => h.inner frame (List.mem_of_mem_tail hframe), h.outer, h.spelled⟩

/-- **A block is closed, whatever happens in it.** -/
theorem exec_block {x : Steps α} {r : Except Fault α} (h : Level st.push st')
    (hx : x.exec ⟨st.push, loops, names⟩ = .ok (r, ⟨st', loops, names'⟩)) :
    (block x).exec ⟨st, loops, names⟩ = .ok (r, ⟨st'.pop, loops, names'⟩) := by
  show (x.exec ⟨st.push, loops, names⟩ >>= fun p => p.2.pop >>= fun m => .ok (p.1, m)) = _
  rw [hx]
  show (Machine.pop ⟨st', loops, names'⟩ >>= fun m => .ok (r, m)) = _
  rw [pop_eq h]
  rfl

/-- **A loop is left, whatever happens in it.** -/
theorem exec_inLoop {x : Steps α} {r : Except Fault α}
    (hx : x.exec ⟨st, loops + 1, names⟩ = .ok (r, ⟨st', loops + 1, names'⟩)) :
    (inLoop x).exec ⟨st, loops, names⟩ = .ok (r, ⟨st', loops, names'⟩) := by
  show (x.exec ⟨st, loops + 1, names⟩ >>= fun p => p.2.leaveLoop >>= fun m => .ok (p.1, m)) = _
  rw [hx]
  rfl

end Blocks

namespace Follows

variable {st : State} {loops : Nat}
variable {x : Steps α} {f : α → Steps β} {r : Except Fault α} {g : α → Except Fault (β × State)}

theorem pure {a : α} : Follows all known (Pure.pure a) st loops (.ok (a, st)) :=
  fun names hready hknown hclosed => ⟨names, rfl, hready, hknown, hclosed, rfl⟩

theorem throw {f : Fault} :
    Follows all known (MonadExcept.throw f : Steps α) st loops (.error f) :=
  fun names _ _ _ => ⟨st, names, rfl, rfl⟩

/-- Steps one after the other. -/
theorem bind {r : Except Fault (α × State)} {g : α × State → Except Fault (β × State)}
    (hx : Follows all known x st loops r)
    (hf : ∀ a st', Follows all known (f a) st' loops (g (a, st'))) :
    Follows all known (x >>= f) st loops (r >>= g) := by
  intro names hready hknown hclosed
  have hx := hx names hready hknown hclosed
  cases r with
  | error fault =>
    obtain ⟨st', names', hexec, hlevel⟩ := hx
    exact ⟨st', names', exec_bind_error hexec, hlevel⟩
  | ok p =>
    obtain ⟨names', hexec, hready, hknown, hclosed, hlevel⟩ := hx
    show EndsIn _ _ _ _ _ (g p)
    rw [exec_bind_ok hexec]
    exact (hf p.1 p.2 names' hready hknown hclosed).level hlevel

/-- Steps that change nothing, and what comes after them. -/
theorem stay_bind (hx : ∀ names, x.exec ⟨st, loops, names⟩ = .ok (r, ⟨st, loops, names⟩))
    (hf : ∀ a, Follows all known (f a) st loops (g a)) :
    Follows all known (x >>= f) st loops (r >>= g) := by
  intro names hready hknown hclosed
  cases r with
  | error fault => exact ⟨st, names, exec_bind_error (hx names), rfl⟩
  | ok a =>
    show EndsIn _ _ _ _ _ (g a)
    rw [exec_bind_ok (hx names)]
    exact hf a names hready hknown hclosed

/-- What is read without changing the tables, and what comes after it. -/
theorem ask_yields_bind {known' : List String} {q : Env → Reading α}
    (hq : Yields all known st.toEnv known' (fun _ => st.toEnv) (· = ·) (q st.toEnv) r)
    (hsub : known ⊆ known') (hf : ∀ a, Follows all known' (f a) st loops (g a)) :
    Follows all known (ask q >>= f) st loops (r >>= g) := by
  intro names hready hknown hclosed
  have hq := hq names hready hknown hclosed
  have hask {r : Except Fault α} {names' : Names} (h : (q st.toEnv).exec names = .ok (r, names')) :
      (ask q).exec ⟨st, loops, names⟩ = .ok (r, ⟨st, loops, names'⟩) := by
    simp only [ask, steps, Steps.exec, h]
    rfl
  cases r with
  | error fault =>
    obtain ⟨names', hexec⟩ := hq
    exact ⟨st, names', exec_bind_error (hask hexec), rfl⟩
  | ok a =>
    obtain ⟨_, names', hexec, hready, hknown, hclosed, rfl⟩ := hq
    show EndsIn _ _ _ _ _ (g _)
    rw [exec_bind_ok (hask hexec)]
    exact (hf _ names' hready hknown hclosed).weaken hsub

/-- An expression, and what comes after it. -/
theorem ask_bind {q : Env → Reading α} (hq : Gives all known st.toEnv (q st.toEnv) r)
    (hf : ∀ a, Follows all known (f a) st loops (g a)) :
    Follows all known (ask q >>= f) st loops (r >>= g) :=
  ask_yields_bind hq (List.Subset.refl _) hf

/-- A name, and what comes after it. -/
theorem read_bind {x : String} {f : Unit → Steps β} {r : Except Fault (β × State)} (hx : x ∈ all)
    (hf : Follows all (x :: known) (f ()) st loops r) :
    Follows all known (ask (fun _ => read x) >>= f) st loops r := by
  show Follows all known _ st loops (Except.ok () >>= fun _ => r)
  exact ask_yields_bind (.read hx) (List.subset_cons_self _ _) fun () => hf

/-- What goes through a block of its own, and what comes after it. -/
theorem inner_bind {y : Steps α} {r : Except Fault (α × State)}
    {g : α × State → Except Fault (β × State)} {inside : Nat}
    (hx : Follows all known x st.push inside r)
    (hy : ∀ {r : Except Fault α} {st' names names'}, Level st.push st' →
      x.exec ⟨st.push, inside, names⟩ = .ok (r, ⟨st', inside, names'⟩) →
      y.exec ⟨st, loops, names⟩ = .ok (r, ⟨st'.pop, loops, names'⟩))
    (hf : ∀ a st', Follows all known (f a) st'.pop loops (g (a, st'))) :
    Follows all known (y >>= f) st loops (r >>= g) := by
  intro names hready hknown hclosed
  have hx := hx names hready hknown hclosed.push
  cases r with
  | error fault =>
    obtain ⟨st', names', hexec, hlevel⟩ := hx
    exact ⟨st'.pop, names', exec_bind_error (hy hlevel hexec), hlevel.pop⟩
  | ok p =>
    obtain ⟨names', hexec, hready, hknown, hclosed, hlevel⟩ := hx
    show EndsIn _ _ _ _ _ (g p)
    rw [exec_bind_ok (hy hlevel hexec)]
    exact (hf p.1 p.2 names' hready hknown hclosed.pop).level hlevel.pop

end Follows

/-! ## §4. Declarations -/

section Declarations

variable {st : State} {loops : Nat} {names : Names}

/-- A frame after a name was given a meaning: what it binds is new or was
bound before. -/
theorem mem_add {s s' : Scope} {x : String} {b : Binding} (h : s.add x b = .ok s')
    {frame : Frame} (hframe : frame ∈ s'.outer :: s'.inner) {entry : String × Binding}
    (hentry : entry ∈ frame) : entry = (x, b) ∨ ∃ frame ∈ s.outer :: s.inner, entry ∈ frame := by
  unfold Scope.add at h
  split at h
  · cases h
  · split at h <;> cases h <;> grind

/-- The tables stay closed when a name is given a meaning that they have. -/
theorem Closed.add {env : Env} {scope : Scope} {x : String} {b : Binding} (h : Closed names env)
    (hadd : env.scope.add x b = .ok scope) (hb : Knows env.symbols b) :
    Closed names { env with scope := scope } := by
  have hall : ∀ frame ∈ scope.outer :: scope.inner, ∀ entry ∈ frame,
      Knows env.symbols entry.2 := by
    intro frame hframe entry hentry
    rcases mem_add hadd hframe hentry with rfl | ⟨frame, hframe, hentry⟩
    · exact hb
    · rcases List.mem_cons.1 hframe with rfl | hframe
      · exact h.outer entry hentry
      · exact h.inner frame hframe entry hentry
  exact ⟨fun frame hframe => hall frame (List.mem_cons_of_mem _ hframe),
    hall scope.outer List.mem_cons_self, h.spelled⟩

/-- A variable is bound, or its name, which was read, is complained about. -/
theorem declare_follows {sym : VarSymbol} (hname : sym.name ∈ known) :
    Follows all known (declare sym) st loops (st.declare sym) := by
  intro names hready hknown hclosed
  have hexec : (declare sym).exec ⟨st, loops, names⟩ =
      match st.scope.add sym.name (.var st.symbols.nextVar) with
      | .ok scope =>
        .ok (.ok st.symbols.nextVar, ⟨{ (st.enter sym).2 with scope := scope }, loops, names⟩)
      | .error _ => do
        let (r, names) ← (complain .redefined sym.name sym.line).exec names
        return (r, ⟨(st.enter sym).2, loops, names⟩) :=
    rfl
  have hmodel : st.declare sym = (do
      return (st.symbols.nextVar, ← (st.enter sym).2.bind sym.name (.var st.symbols.nextVar)
        sym.line)) := rfl
  have hbind : (st.enter sym).2.bind sym.name (.var st.symbols.nextVar) sym.line =
      match st.scope.add sym.name (.var st.symbols.nextVar) with
      | .ok scope => .ok { (st.enter sym).2 with scope := scope }
      | .error _ => .error ⟨.redefined sym.name, sym.line⟩ := rfl
  rw [hexec, hmodel, hbind]
  cases hadd : st.scope.add sym.name (.var st.symbols.nextVar) with
  | error d =>
    refine ⟨(st.enter sym).2, names, ?_, rfl⟩
    dsimp only
    rw [exec_complain (hknown hname)]
    rfl
  | ok scope =>
    have hnew : Knows (st.symbols.withVar sym) (.var st.symbols.nextVar) :=
      Option.isSome_iff_exists.2 ⟨sym, Symbols.var?_withVar_nextVar _ _⟩
    have hentered := hclosed.extends (st.symbols.extends_withVar sym) hclosed.spelled
    exact ⟨names, rfl, hready, hknown, hentered.add hadd hnew, Scope.length_of_add hadd⟩

/-- Lengths are checked without a breach. -/
theorem lengths_gives {env : Env} : ∀ rs : List Run,
    Spelled all (words (Outline.lengthMarks rs)) →
      Gives all known env (lengths env rs) (Check.lengths env rs)
  | [], _ => .same _
  | r :: rs, h => by
    have hparts : Spelled all (words r.marks) ∧ Spelled all (words (Outline.lengthMarks rs)) := by
      simpa [Outline.lengthMarks] using h
    rw [lengths, Check.lengths]
    refine .gives_bind (run_gives hparts.1) fun e => ?_
    refine .gives_bind (still_gives rfl) fun n => ?_
    exact .gives_bind (lengths_gives rs hparts.2) fun _ => .same _

/-- An initial value is checked without a breach. -/
theorem initial_gives {env : Env} {ty : Ty} {line : Nat} {init : Initial}
    (h : Spelled all (words init.marks)) :
    Gives all known env (initial env ty line init) (Check.initial env ty line init) := by
  cases init with
  | none => exact .same _
  | broken f => exact .throw
  | value r =>
    have hr : Spelled all (words r.marks) := by simpa [Initial.marks] using h
    rw [initial, Check.initial]
    split
    · exact .throw
    · exact .gives_bind (runAs_gives hr) fun _ => .same _

/-- **A declaration says nothing of a name that was not read.** -/
theorem declaration_follows {storage : Storage} {d : Declaration}
    (h : Spelled all (words d.marks)) :
    Follows all known (declaration storage d) st loops (Check.declaration st storage d) := by
  have hparts : Spelled all d.base.words ∧ d.name ∈ all ∧
      Spelled all (words (Outline.lengthMarks d.lengths)) ∧ Spelled all (words d.init.marks) := by
    simpa [Declaration.marks] using h
  obtain ⟨_, hname, hlengths, hinit⟩ := hparts
  -- what both do once the variable is known to have a value
  have hrest : Follows all (d.name :: known) (do
      let ns ← ask fun env => lengths env d.lengths
      let init ← ask fun env => initial env (Ty.arrayOf d.base ns) d.line d.init
      let v ← declare ⟨d.name, Ty.arrayOf d.base ns, storage, d.line⟩
      return (v, init)) st loops (do
      let ns ← Check.lengths st.toEnv d.lengths
      let init ← Check.initial st.toEnv (Ty.arrayOf d.base ns) d.line d.init
      let (v, st) ← st.declare ⟨d.name, Ty.arrayOf d.base ns, storage, d.line⟩
      return ((v, init), st)) := by
    refine .ask_bind (lengths_gives _ hlengths) fun ns => ?_
    refine .ask_bind (initial_gives hinit) fun init => ?_
    exact .bind (declare_follows List.mem_cons_self) fun v st' => .pure
  unfold declaration Check.declaration
  refine .read_bind hname ?_
  by_cases hvoid : d.base = .void
  · rw [if_pos hvoid, if_pos hvoid]
    exact .ask_bind (.complain List.mem_cons_self) fun _ => hrest
  · rw [if_neg hvoid, if_neg hvoid]
    exact hrest

end Declarations

/-! ## §5. Statements -/

mutual

/-- **A statement never closes a block or a loop that is not open.** -/
theorem stmt_follows (ret : Ty) : ∀ (s : Outline.Stmt) (depth : Nat) (st : State),
    Spelled all (words s.marks) →
      Follows all known (stmt ret s) st depth (Check.stmt ret depth st s)
  | .declare d, depth, st, h => by
    rw [stmt, Check.stmt]
    exact (declaration_follows h).bind fun _ _ => .pure
  | .expr e, depth, st, h => by
    have he : Spelled all (words e.marks) := by simpa [Outline.Stmt.marks] using h
    rw [stmt, Check.stmt]
    exact .ask_bind (run_gives he) fun _ => .pure
  | .ret line, depth, st, h => by
    rw [stmt, Check.stmt]
    split
    · exact .pure
    · exact .throw
  | .retValue e, depth, st, h => by
    have he : Spelled all (words e.marks) := by simpa [Outline.Stmt.marks] using h
    rw [stmt, Check.stmt]
    refine .ask_bind (run_gives he) fun e => ?_
    dsimp only
    split
    · exact .stay_bind (fun _ => rfl) fun _ => .ask_bind (still_gives rfl) fun _ => .pure
    · exact .ask_bind (still_gives rfl) fun _ => .pure
  | .branch cond body otherwise, depth, st, h => by
    have hparts : Spelled all (words cond.marks) ∧
        Spelled all (words (Outline.Stmt.marksOf body)) ∧
          Spelled all (words otherwise.marks) := by
      simpa [Outline.Stmt.marks, Outline.block] using h
    rw [stmt, Check.stmt]
    refine .ask_bind (condition_gives hparts.1) fun cond => ?_
    refine .inner_bind (stmts_follows ret body depth st.push hparts.2.1) exec_block
      fun body st' => ?_
    exact (elseBranch_follows ret otherwise depth st'.pop hparts.2.2).bind
      fun _ _ => .pure
  | .loop cond body, depth, st, h => by
    have hparts : Spelled all (words cond.marks) ∧
        Spelled all (words (Outline.Stmt.marksOf body)) := by
      simpa [Outline.Stmt.marks, Outline.block] using h
    rw [stmt, Check.stmt]
    refine .ask_bind (condition_gives hparts.1) fun cond => ?_
    -- the body is a block within one loop more, and both are gone after it
    exact .inner_bind (stmts_follows ret body (depth + 1) st.push hparts.2)
      (fun hlevel hexec => exec_inLoop (exec_block hlevel hexec)) fun _ _ => .pure
  | .leave line fault, depth, st, h => by
    rw [stmt, Check.stmt]
    exact .stay_bind (fun _ => rfl) fun _ => .pure
  | .again line fault, depth, st, h => by
    rw [stmt, Check.stmt]
    exact .stay_bind (fun _ => rfl) fun _ => .pure
  | .broken f, depth, st, h => by
    rw [stmt, Check.stmt]
    exact .throw

/-- The other branch is checked without a breach. -/
theorem elseBranch_follows (ret : Ty) : ∀ (s : Outline.Else) (depth : Nat) (st : State),
    Spelled all (words s.marks) →
      Follows all known (elseBranch ret s) st depth (Check.elseBranch ret depth st s)
  | .nothing, depth, st, h => by
    rw [elseBranch, Check.elseBranch]
    exact .pure
  | .branch cond body otherwise, depth, st, h => by
    have hparts : Spelled all (words cond.marks) ∧
        Spelled all (words (Outline.Stmt.marksOf body)) ∧
          Spelled all (words otherwise.marks) := by
      simpa [Outline.Else.marks, Outline.block] using h
    rw [elseBranch, Check.elseBranch]
    refine .ask_bind (condition_gives hparts.1) fun cond => ?_
    refine .inner_bind (stmts_follows ret body depth st.push hparts.2.1) exec_block
      fun body st' => ?_
    exact (elseBranch_follows ret otherwise depth st'.pop hparts.2.2).bind
      fun _ _ => .pure
  | .block body, depth, st, h => by
    have hbody : Spelled all (words (Outline.Stmt.marksOf body)) := by
      simpa [Outline.Else.marks, Outline.block] using h
    rw [elseBranch, Check.elseBranch]
    exact .inner_bind (stmts_follows ret body depth st.push hbody) exec_block
      fun _ _ => .pure

/-- Statements in order are checked without a breach. -/
theorem stmts_follows (ret : Ty) : ∀ (ss : List Outline.Stmt) (depth : Nat) (st : State),
    Spelled all (words (Outline.Stmt.marksOf ss)) →
      Follows all known (stmts ret ss) st depth (Check.stmts ret depth st ss)
  | [], depth, st, h => by
    rw [stmts, Check.stmts]
    exact .pure
  | s :: ss, depth, st, h => by
    have hparts : Spelled all (words s.marks) ∧
        Spelled all (words (Outline.Stmt.marksOf ss)) := by
      simpa [Outline.Stmt.marksOf] using h
    rw [stmts, Check.stmts]
    refine (stmt_follows ret s depth st hparts.1).bind fun s st' => ?_
    exact (stmts_follows ret ss depth st' hparts.2).bind
      fun _ _ => .pure

end

end MiniC.Strict
