/-
  MiniC.Proofs.Lowering.Calls

  **A function does the same on the machine as in the tree.**

  A body can only end in the ways that its rules allow: outside of all loops it
  is not left, and it returns a value exactly if the function has one (`Fits`).
  A body whose last statement is a return does not reach its end at all, so
  there is nothing to do there; every other body of a function with a result
  ends in an instruction that traps (`reply_function`).

  A body runs with fewer ticks than its call had, so calls agree by induction
  on the ticks (`callsAgree`): the same result, the same globals and memory,
  the same calls in the same order, the same traps, and the ticks are used up
  on one side exactly if they are on the other.
-/
import MiniC.Proofs.Lowering.Stmts
import MiniC.Proofs.Typing.Items

namespace MiniC

open Exec Wasm

/-! ## §1. How statements can end -/

namespace Eval

/-- The completions of a statement with `depth` loops around it, in a function
that returns `ret`. -/
def Completion.Fits (ret : Ty) (depth : Nat) : Completion → Prop
  | .normal => True
  | .leave | .again => 0 < depth
  | .ret w => w = none ↔ ret = .void

/-- The completion, if there is one, is as `P` says. -/
def Result.Ends (P : Completion → Prop) : Result Completion → Prop
  | .value c _ => P c
  | .trap _ | .exhausted _ => True

/-- What the last step ends in. -/
theorem Result.ends_andThen {α : Type} {P : Completion → Prop} {r : Result α}
    {k : α → State → Result Completion} (h : ∀ a st, (k a st).Ends P) : (r.andThen k).Ends P := by
  cases r with
  | value a st => exact h a st
  | trap s => trivial
  | exhausted s => trivial

/-- A completion decides how to go on. -/
theorem Result.Ends.andThen {P Q : Completion → Prop} {r : Result Completion}
    {k : Completion → State → Result Completion} (hr : r.Ends P)
    (h : ∀ c st, P c → (k c st).Ends Q) : (r.andThen k).Ends Q := by
  cases r with
  | value c st => exact h c st hr
  | trap s => trivial
  | exhausted s => trivial

variable {ret : Ty} {depth : Nat}

/-- One turn ends as the body does, or leaves. -/
theorem ends_turn {cond : State → Result Bool} {body : State → Result Completion}
    (hb : ∀ st, (body st).Ends (Completion.Fits ret (depth + 1))) (st : State) :
    (turn cond body st).Ends (Completion.Fits ret (depth + 1)) := by
  refine Result.ends_andThen fun b st => ?_
  cases b with
  | true => exact hb st
  | false => exact Nat.succ_pos depth

/-- A loop is not left any further, whatever its turns do. -/
theorem ends_whileLoop {cond : State → Result Bool} {body : State → Result Completion}
    (hb : ∀ st, (body st).Ends (Completion.Fits ret (depth + 1))) (st : State) :
    (whileLoop cond body st).Ends (Completion.Fits ret depth) := by
  -- as for the machine's loop, the induction is on the ticks
  induction hn : st.store.ticks using Nat.strong_induction_on generalizing st with
  | _ n ih =>
    cases n with
    | zero =>
      rw [whileLoop_of_zero hn]
      trivial
    | succ n =>
      rw [whileLoop_of_succ hn]
      have hagain : ∀ st' : State,
          (whileLoop cond body { st' with store := st'.store.atMost n }).Ends
            (Completion.Fits ret depth) := by
        intro st'
        have hlt : min st'.store.ticks n < n + 1 := by omega
        exact ih _ hlt _ rfl
      refine (ends_turn hb _).andThen fun c st' hc => ?_
      cases c with
      | normal => exact hagain st'
      | again => exact hagain st'
      | leave => trivial
      | ret w => exact hc

section Stmts

variable {Γ : Symbols} {U : VarId → Prop} {F : FloatUnit}
  {callE : FuncId → List Word → Store → Reply}

mutual

/-- **A statement ends as its rules allow.** -/
theorem ends_stmt {depth : Nat} {s : Stmt} (h : StmtTyped Γ U ret depth s) (st : State) :
    (stmt Γ F callE s st).Ends (Completion.Fits ret depth) := by
  cases h with
  | declare hv hu hs hne hinit =>
    unfold stmt
    split
    · trivial
    · exact Result.ends_andThen fun _ _ => trivial
    · trivial
  | expr he =>
    rw [stmt]
    exact Result.ends_andThen fun _ _ => trivial
  | ret hr =>
    rw [stmt]
    exact iff_of_true rfl hr
  | retValue hne he =>
    rw [stmt]
    exact Result.ends_andThen fun _ _ => iff_of_false nofun hne
  | branch hc hb ho =>
    rw [stmt]
    refine Result.ends_andThen fun b st => ?_
    cases b with
    | true => exact ends_stmts hb st
    | false => exact ends_elseBranch ho st
  | loop hc hb =>
    rw [stmt]
    exact ends_whileLoop (ends_stmts hb) st
  | leave hpos =>
    rw [stmt]
    exact hpos
  | again hpos =>
    rw [stmt]
    exact hpos

/-- The other branch ends as its statement may. -/
theorem ends_elseBranch {depth : Nat} {o : Else} (h : ElseTyped Γ U ret depth o) (st : State) :
    (elseBranch Γ F callE o st).Ends (Completion.Fits ret depth) := by
  cases h with
  | nothing =>
    rw [elseBranch]
    trivial
  | branch hc hb ho =>
    rw [elseBranch]
    refine Result.ends_andThen fun b st => ?_
    cases b with
    | true => exact ends_stmts hb st
    | false => exact ends_elseBranch ho st
  | block hb =>
    rw [elseBranch]
    exact ends_stmts hb st

/-- Statements in order end as the last one may. -/
theorem ends_stmts {depth : Nat} {ss : List Stmt} (h : StmtsTyped Γ U ret depth ss) (st : State) :
    (stmts Γ F callE ss st).Ends (Completion.Fits ret depth) := by
  cases h with
  | nil =>
    rw [stmts]
    trivial
  | cons h hs =>
    rw [stmts]
    refine (ends_stmt h st).andThen fun c st' hc => ?_
    cases c with
    | normal => exact ends_stmts hs st'
    | leave => exact hc
    | again => exact hc
    | ret w => exact hc

end

/-- Statements that end in a return do not reach their end. -/
theorem stmts_ne_normal {ss : List Stmt} (h : ss.getLast?.any Stmt.isReturn = true) (st : State) :
    (stmts Γ F callE ss st).Ends (· ≠ .normal) := by
  induction ss generalizing st with
  | nil => cases h
  | cons s ss ih =>
    rw [stmts]
    cases ss with
    | nil =>
      cases s with
      | ret e =>
        cases e with
        | none =>
          rw [stmt]
          exact nofun
        | some e =>
          rw [stmt, Result.andThen_andThen]
          exact Result.ends_andThen fun _ _ => nofun
      | _ => cases h
    | cons s' ss =>
      refine Result.ends_andThen fun c st' => ?_
      cases c with
      | normal => exact ih h st'
      | leave => exact nofun
      | again => exact nofun
      | ret w => exact nofun

end Stmts

/-- The body of a function is found by the function's place. -/
theorem function?_eq_find? (p : Program) (f : FuncId) :
    function? p f = p.functions.find? (·.id = f) := by
  unfold function? Program.functions
  induction p.items with
  | nil => rfl
  | cons i is ih =>
    cases i with
    | global v init =>
      rw [List.findSome?_cons_of_isNone rfl, ih]
      rfl
    | function g =>
      by_cases hg : g.id = f
      · simp [hg]
      · simpa [hg] using ih

/-- A function is found by its number. -/
theorem function?_of_mem {p : Program} (hp : p.WellFormed) {g : Function} (hg : g ∈ p.functions) :
    function? p g.id = some g := by
  rw [function?_eq_find?]
  obtain ⟨h, hh, rfl⟩ : ∃ h, p.functions.find? (·.id = g.id) = some h ∧ h = g := by
    refine Lower.find?_eq_some_of ⟨g, hg, by simp⟩ fun h hh hid => ?_
    exact List.inj_on_of_nodup_map hp.ids_nodup hh hg (of_decide_eq_true hid)
  exact hh

/-- A function of the host has no body. -/
theorem function?_eq_none {p : Program} (hp : p.WellFormed) {f : FuncId} (hf : f ∈ p.imports) :
    function? p f = none := by
  rw [function?_eq_find?, List.find?_eq_none]
  intro g hg hid
  exact hp.apart f hf (of_decide_eq_true hid ▸ List.mem_map_of_mem hg)

end Eval

namespace Lower

/-! ## §2. Functions -/

section Functions

variable {Γ : Symbols} {G : List VarId} {C : Context} {F : FloatUnit}
  {callM : String → List Word → Store → Option Reply}
  {callE : FuncId → List Word → Store → Reply} {f : Function}

/-- Reaching the end of the statements of a function. -/
theorem reply_end (st : State)
    (hend : f.body.getLast?.any Stmt.isReturn = false) (env : Env) :
    (function env f).reply (execAll C F callM
      (if f.ret ≠ .void ∧ !(f.body.getLast?.any Stmt.isReturn) then [.unreachable] else [])
        [] st) = some (Eval.reply f.ret (.value .normal st)) := by
  by_cases hret : f.ret = .void
  · have hresult : (function env f).result = none := if_pos hret
    have hreply : Eval.reply f.ret (.value .normal st) = .value 0 st.store := if_pos hret
    rw [if_neg (fun h => h.1 hret), execAll_nil, hreply]
    simp only [Func.reply, hresult]
  · have hreply : Eval.reply f.ret (.value .normal st) = .trap st.store := if_neg hret
    rw [if_pos ⟨hret, by rw [hend]; rfl⟩, execAll_singleton, exec, hreply]
    rfl

/-- A return ends the call with its value. -/
theorem reply_returned {w : Option Word} (hw : w = none ↔ f.ret = .void) (st : State)
    (env : Env) :
    (function env f).reply (completion f.ret 0 (.ret w) st) =
      some (Eval.reply f.ret (.value (.ret w) st)) := by
  cases w with
  | none =>
    have hresult : (function env f).result = none := if_pos (hw.1 rfl)
    simp only [completion, Func.reply, hresult]
    rfl
  | some w =>
    have hne : f.ret ≠ .void := fun hret => Option.some_ne_none w (hw.2 hret)
    have hresult : (function env f).result = some f.ret.valType := if_neg hne
    simp only [completion, Func.reply, hresult]
    exact if_pos rfl

/-- **The body of a function ends a call as its statements do.** -/
theorem reply_function (hf : f.WellFormed Γ G)
    (hC : Agrees Γ (fun v => v ∈ G ∨ v ∈ f.locals) C) (hcall : CallsAgree Γ callM callE)
    (st : State) :
    (function (.ofSymbols Γ) f).reply
        (execAll C F callM (function (.ofSymbols Γ) f).body [] st) =
      some (Eval.reply f.ret (Eval.stmts Γ F callE f.body st)) := by
  have hfits : (Eval.stmts Γ F callE f.body st).Ends (Eval.Completion.Fits f.ret 0) :=
    Eval.ends_stmts hf.body st
  have hlast : f.body.getLast?.any Stmt.isReturn = true →
      (Eval.stmts Γ F callE f.body st).Ends (· ≠ .normal) := fun h => Eval.stmts_ne_normal h st
  have hbody : execAll C F callM (stmts (.ofSymbols Γ) 0 f.body) [] st = _ :=
    exec_stmts hC hcall hf.body st
  show Func.reply _ (execAll C F callM (stmts (.ofSymbols Γ) 0 f.body ++ _) [] st) = _
  rw [execAll_append, hbody]
  cases hr : Eval.stmts Γ F callE f.body st with
  | trap s => rfl
  | exhausted s => rfl
  | value c st' =>
    rw [hr] at hfits hlast
    cases c with
    | normal =>
      -- the end was reached, so the last statement is no return
      refine reply_end st' ?_ _
      rw [← Bool.not_eq_true]
      exact fun h => hlast h rfl
    | leave => exact absurd hfits (Nat.lt_irrefl 0)
    | again => exact absurd hfits (Nat.lt_irrefl 0)
    | ret w => exact reply_returned hfits st' _

end Functions

end Lower

/-! ## §3. Calls -/

section Unfolding

variable {F : FloatUnit} {host : Host} {args : List Word} {s : Store}

/-- A call of a function of a module runs its body with a tick less. -/
theorem Wasm.Module.call_of_find? {m : Module} {name : String} {f : Func}
    (himp : m.imports.find? (·.name = name) = none)
    (hf : m.funcs.find? (·.name = name) = some f) (hargs : args.length = f.params.length) :
    m.call F host name args s = match s.ticks with
      | 0 => some (.exhausted s)
      | n + 1 => f.reply (execAll (m.context f) F
          (fun name args s' => m.call F host name args (s'.atMost n)) f.body []
          ⟨startLocals (f.params.map (·.var)) args, s.noteCall name args n⟩) := by
  rw [Module.call, himp, hf]
  dsimp only
  rw [if_pos hargs]
  split <;> rename_i hn <;> rw [hn]

/-- A call of a function of a program runs its statements with a tick less. -/
theorem Eval.call_of_function? {p : Program} {f : FuncId} {g : Function}
    (hg : function? p f = some g) :
    call p F host f args s = match s.ticks with
      | 0 => .exhausted s
      | n + 1 => reply g.ret (stmts p.symbols F
          (fun f args s' => call p F host f args (s'.atMost n)) g.body
          ⟨startLocals g.params args, s.noteCall (nameOf p.symbols f) args n⟩) := by
  rw [call, hg]
  dsimp only
  split <;> rename_i hn <;> rw [hn]

end Unfolding

namespace Lower

variable {p : Program}

/-- **Calls agree**: a function called by its name on the machine ends as the
function called by its place in the tree. -/
theorem callsAgree (hp : p.WellFormed) (F : FloatUnit) (host : Host) :
    CallsAgree p.symbols ((program p).call F host) (Eval.call p F host) := by
  intro f sym hf args s hargs
  -- any function may be called inside, so all of them are generalized over
  induction hn : s.ticks using Nat.strong_induction_on generalizing f sym args s with
  | _ n ih =>
    rcases hp.covered hf with himp | hid
    · rw [Module.call, find?_import hp hf himp, Eval.call, Eval.function?_eq_none hp himp,
        Eval.nameOf_eq hf]
    · obtain ⟨g, hg, rfl⟩ := List.mem_map.1 hid
      have hname := ((hp.functions g hg).of_func? hf).1
      have hlength : args.length = (g.params.map (slot (.ofSymbols p.symbols))).length := by
        rw [hargs, List.length_map, (hp.functions g hg).length_params hf]
      rw [hname, Module.call_of_find? (find?_import_eq_none hp hg) (find?_func hp hg) hlength,
        Eval.call_of_function? (Eval.function?_of_mem hp hg), Eval.nameOf_eq hf, hname, hn]
      cases n with
      | zero => rfl
      | succ n =>
        -- calls inside the body have at most `n` ticks
        have hinner : CallsAgree p.symbols
            (fun name args s' => (program p).call F host name args (s'.atMost n))
            (fun f args s' => Eval.call p F host f args (s'.atMost n)) := by
          intro f' sym' hf' args' s' hargs'
          have hlt : min s'.ticks n < n + 1 := by omega
          exact ih _ hlt hf' _ _ hargs' rfl
        have hvars : (function (.ofSymbols p.symbols) g).params.map (·.var) = g.params := by
          show (g.params.map (slot _)).map (·.var) = g.params
          rw [List.map_map]
          exact List.map_id g.params
        rw [hvars]
        exact reply_function (hp.functions g hg) (agrees hp hg) hinner _

/-- **Functions do the same on the machine and in the tree**: whatever the
arguments, the store, the floats, the host and the ticks to go are, a call of a
function of the module ends as the call of the function itself does. -/
theorem program_call_eq_eval {text : String} (h : parse text = .ok p) {f : Function}
    (hf : f ∈ p.functions) (F : FloatUnit) (host : Host) {args : List Word}
    (hargs : args.length = f.params.length) (s : Store) :
    (program p).call F host f.name args s = some (Eval.call p F host f.id args s) := by
  have hp := wellFormed_of_parse h
  obtain ⟨sym, hsym, hname, _⟩ := (hp.functions f hf).symbol
  rw [← hname]
  exact callsAgree hp F host hsym args s (hargs.trans ((hp.functions f hf).length_params hsym))

/-- The condition holds once, and the call inside the loop reads outside of
memory. -/
theorem program_call_eq_eval_trap :
    sampleFunction ∈ sampleProgram.functions ∧
      (program sampleProgram).call sampleFloats (fun _ _ _ _ => none) "f" [0] sampleState.store =
        some (.trap { sampleState.store with
          calls := [⟨"f", [0]⟩, ⟨"f", [16]⟩]
          ticks := 4 }) := by
  have hf : sampleFunction ∈ sampleProgram.functions := List.mem_singleton.2 rfl
  refine ⟨hf, (program_call_eq_eval parse_sampleText hf sampleFloats _ rfl _).trans ?_⟩
  cbv

end Lower

end MiniC
