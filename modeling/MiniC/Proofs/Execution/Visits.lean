/-
  MiniC.Proofs.Execution.Visits

  What happens during a run, instruction by instruction.

  The machine says how code ends; here is what it goes through on the way.
  Each instruction that is run, in blocks and in functions that are called as
  well, is a visit: the instruction, and the stack and state that it finds
  (`along`, `Module.visits`).  Visits are in the order of the run.

    • `along_append`: code after code adds its visits, if it is reached,
    • `loads_above`: what lies deeper on the stack makes no difference to what
      is loaded from memory.
-/
import MiniC.Proofs.Lowering.Operators

namespace MiniC.Wasm

open Exec

/-! ## §1. Visits of code -/

/-- A moment of a run, just before an instruction. -/
structure Visit where
  /-- The function whose code is run. -/
  func : Func
  /-- How many ticks are left to a call from there. -/
  limit : Nat
  /-- The next instruction. -/
  instr : Instr
  stack : List Value
  state : State

/-- Looks at the operand of a test. -/
def tested (vs : List Value) (k : Word → List Visit) : List Visit :=
  match vs with
  | [] => []
  | v :: _ => if v.ty = .i32 then k v.bits else []

/-- The visits in the turns of a loop, with those of one turn given. -/
def turnVisits (l : Label) (body : State → Flow) (once : State → List Visit) (st : State) :
    List Visit :=
  match _h : st.store.ticks with
  | 0 => []
  | n + 1 =>
    once (st.withTicks n) ++
      match body (st.withTicks n) with
      | .branch l' st' =>
        if l' = l then turnVisits l body once { st' with store := st'.store.atMost n } else []
      | _ => []
termination_by st.store.ticks
decreasing_by
  show min st'.store.ticks n < st.store.ticks
  omega

/-- Without ticks, a loop makes no turn. -/
theorem turnVisits_of_zero {l : Label} {body : State → Flow} {once : State → List Visit}
    {st : State} (h : st.store.ticks = 0) : turnVisits l body once st = [] := by
  rw [turnVisits]
  split
  · rfl
  · rename_i h'
    rw [h] at h'
    cases h'

/-- One turn, and the others if it branches back. -/
theorem turnVisits_of_succ {l : Label} {body : State → Flow} {once : State → List Visit}
    {st : State} {n : Nat} (h : st.store.ticks = n + 1) :
    turnVisits l body once st = once (st.withTicks n) ++
      match body (st.withTicks n) with
      | .branch l' st' =>
        if l' = l then turnVisits l body once { st' with store := st'.store.atMost n } else []
      | _ => [] := by
  rw [turnVisits]
  split
  · rename_i h'
    rw [h] at h'
    cases h'
  · rename_i m h'
    rw [h] at h'
    cases h'
    rfl

/-- The visits of further code, if the end was reached. -/
def Flow.further (flow : Flow) (k : List Value → State → List Visit) : List Visit :=
  match flow with
  | .next vs st => k vs st
  | _ => []

section

variable (C : Context) (F : FloatUnit) (call : String → List Word → Store → Option Reply)
  (here : Instr → List Value → State → Visit) (inner : String → List Word → Store → List Visit)

mutual

/-- The visits inside an instruction: in its blocks, or in the function that it
calls. -/
def inside : Instr → List Value → State → List Visit
  | .call f, vs, st =>
    match C.funcTy f with
    | none => []
    | some ty =>
      match popArgs ty.params vs with
      | none => []
      | some (args, _) => inner f args st.store
  | .block _ body, _, st => along body [] st
  | .loop l body, _, st =>
    turnVisits l (fun st => execAll C F call body [] st) (fun st => along body [] st) st
  | .ifThen body, vs, st => tested vs fun w => if w = 0 then [] else along body [] st
  | .ifElse body other, vs, st =>
    tested vs fun w => if w = 0 then along other [] st else along body [] st
  | .ifValue body other, vs, st =>
    tested vs fun w => if w = 0 then along other [] st else along body [] st
  | _, _, _ => []

/-- The visits of instructions that are run one after the other. -/
def along : List Instr → List Value → State → List Visit
  | [], _, _ => []
  | i :: is, vs, st =>
    here i vs st :: (inside i vs st ++
      (exec C F call i vs st).further fun vs st => along is vs st)

end

end

/-! ## §2. Visits of functions -/

/-- The visits of a call of a function of a module. -/
def Module.visits (m : Module) (F : FloatUnit) (host : Host) (name : String) (args : List Word)
    (s : Store) : List Visit :=
  match m.imports.find? (·.name = name) with
  | some _ => []
  | none =>
    match m.funcs.find? (·.name = name) with
    | none => []
    | some f =>
      if args.length = f.params.length then
        match _h : s.ticks with
        | 0 => []
        | n + 1 =>
          along (m.context f) F (fun name args s' => m.call F host name args (s'.atMost n))
            (Visit.mk f n) (fun name args s' => m.visits F host name args (s'.atMost n)) f.body []
            ⟨startLocals (f.params.map (·.var)) args, s.noteCall name args n⟩
      else []
termination_by s.ticks
decreasing_by
  show min s'.ticks n < s.ticks
  omega

/-- Where code is run: in a function of a module, with what its calls do. -/
structure Site where
  module : Module
  floats : FloatUnit
  func : Func
  limit : Nat
  call : String → List Word → Store → Option Reply
  inner : String → List Word → Store → List Visit

namespace Site

/-- What the names in the code stand for. -/
def context (S : Site) : Context := S.module.context S.func

/-- Notes a visit. -/
def here (S : Site) : Instr → List Value → State → Visit := Visit.mk S.func S.limit

/-- Runs code. -/
def run (S : Site) : List Instr → List Value → State → Flow := execAll S.context S.floats S.call

/-- The visits of code that is run. -/
def visits (S : Site) : List Instr → List Value → State → List Visit :=
  along S.context S.floats S.call S.here S.inner

end Site

/-- In a function of a module, with `n` ticks left to a call. -/
def Module.site (m : Module) (F : FloatUnit) (host : Host) (f : Func) (n : Nat) : Site :=
  ⟨m, F, f, n, fun name args s => m.call F host name args (s.atMost n),
    fun name args s => m.visits F host name args (s.atMost n)⟩

/-- **What a call can do**: it asks the host; or it ends at once, without a
result; or it runs the body of a function of the module, with a tick less. -/
theorem Module.call_cases (m : Module) (F : FloatUnit) (host : Host) (name : String)
    (args : List Word) (s : Store) :
    (m.call F host name args s = some (s.askHost host name args) ∧
      m.visits F host name args s = []) ∨
    ((∀ w s', m.call F host name args s ≠ some (.value w s')) ∧
      m.visits F host name args s = []) ∨
    ∃ f n, m.funcs.find? (·.name = name) = some f ∧ s.ticks = n + 1 ∧
      m.call F host name args s = f.reply ((m.site F host f n).run f.body []
        ⟨startLocals (f.params.map (·.var)) args, s.noteCall name args n⟩) ∧
      m.visits F host name args s = (m.site F host f n).visits f.body []
        ⟨startLocals (f.params.map (·.var)) args, s.noteCall name args n⟩ := by
  rw [Module.call, Module.visits]
  cases himp : m.imports.find? (·.name = name) with
  | some i => exact .inl ⟨rfl, rfl⟩
  | none =>
    refine .inr ?_
    cases hf : m.funcs.find? (·.name = name) with
    | none => exact .inl ⟨fun w s' => (Option.some_ne_none _).symm, rfl⟩
    | some f =>
      dsimp only
      by_cases hargs : args.length = f.params.length
      · rw [if_pos hargs, if_pos hargs]
        obtain ⟨world, calls, ticks⟩ := s
        cases ticks with
        | zero => exact .inl ⟨fun w s' h => Reply.noConfusion (Option.some.inj h), rfl⟩
        | succ n => exact .inr ⟨f, n, rfl, rfl, rfl, rfl⟩
      · rw [if_neg hargs, if_neg hargs]
        exact .inl ⟨fun w s' => (Option.some_ne_none _).symm, rfl⟩

/-! ## §3. Code after code -/

section Append

variable {C : Context} {F : FloatUnit} {call : String → List Word → Store → Option Reply}
  {here : Instr → List Value → State → Visit} {inner : String → List Word → Store → List Visit}
variable {vs vs' : List Value} {st' st : State}

theorem Flow.further_append (flow : Flow) (k k' : List Value → State → List Visit)
    (next : List Value → State → Flow) :
    (flow.further fun vs st => k vs st ++ (next vs st).further k') =
      flow.further k ++ (flow.andThen next).further k' := by
  cases flow <;> rfl

@[simp]
theorem along_nil (vs : List Value) (st : State) : along C F call here inner [] vs st = [] := by
  rw [along]

/-- Visits along the first instruction, inside of it, and further on. -/
theorem along_cons (i : Instr) (is : List Instr) (vs : List Value) (st : State) :
    along C F call here inner (i :: is) vs st =
      here i vs st :: (inside C F call here inner i vs st ++
        (exec C F call i vs st).further (along C F call here inner is)) := by
  rw [along]

/-- Visits along one instruction. -/
@[simp]
theorem along_singleton (i : Instr) (vs : List Value) (st : State) :
    along C F call here inner [i] vs st =
      here i vs st :: inside C F call here inner i vs st := by
  rw [along_cons]
  cases exec C F call i vs st with
  | next vs st => exact congrArg (_ :: ·) (by rw [Flow.further, along_nil, List.append_nil])
  | _ => exact congrArg (_ :: ·) (List.append_nil _)

/-- **Code after code adds its visits**, if it is reached. -/
theorem along_append (is js : List Instr) (vs : List Value) (st : State) :
    along C F call here inner (is ++ js) vs st = along C F call here inner is vs st ++
      (execAll C F call is vs st).further (along C F call here inner js) := by
  induction is generalizing vs st with
  | nil =>
    rw [List.nil_append, along_nil, execAll_nil]
    rfl
  | cons i is ih =>
    rw [List.cons_append, along_cons, along_cons, execAll_cons, List.cons_append,
      List.append_assoc, ← Flow.further_append]
    simp only [← ih]

/-- The visits inside an instruction at a site. -/
def Site.inside (S : Site) : Instr → List Value → State → List Visit :=
  Wasm.inside S.context S.floats S.call S.here S.inner

theorem Site.run_append (S : Site) (is js : List Instr) (vs : List Value) (st : State) :
    S.run (is ++ js) vs st = (S.run is vs st).andThen (S.run js) :=
  execAll_append is js vs st

theorem Site.run_singleton (S : Site) (i : Instr) (vs : List Value) (st : State) :
    S.run [i] vs st = exec S.context S.floats S.call i vs st :=
  execAll_singleton i vs st

theorem Site.visits_append (S : Site) (is js : List Instr) (vs : List Value) (st : State) :
    S.visits (is ++ js) vs st = S.visits is vs st ++ (S.run is vs st).further (S.visits js) :=
  along_append is js vs st

theorem Site.visits_singleton (S : Site) (i : Instr) (vs : List Value) (st : State) :
    S.visits [i] vs st = S.here i vs st :: S.inside i vs st :=
  along_singleton i vs st

/-! ## §4. The stack below -/

/-- The type and the address of a load. -/
def Visit.load? (x : Visit) : Option (ValType × Word) :=
  match x.instr, x.stack with
  | .load t, v :: _ => some (t, v.bits)
  | _, _ => none

/-- A pop that goes on took a value of its type. -/
theorem pop_eq_next {t : ValType} {k : Word → List Value → Flow} (h : pop t vs k = .next vs' st') :
    ∃ w ws, vs = ⟨t, w⟩ :: ws ∧ k w ws = .next vs' st' := by
  cases vs with
  | nil => cases h
  | cons v ws =>
    obtain ⟨t', w⟩ := v
    by_cases ht : t' = t
    · subst ht
      rw [pop_cons] at h
      exact ⟨w, ws, rfl, h⟩
    · rw [pop, if_neg ht] at h
      cases h

/-- Arguments are popped whatever lies below them. -/
theorem popArgs_above {params : List ValType} {args : List Word}
    (h : popArgs params vs = some (args, vs')) (below : List Value) :
    popArgs params (vs ++ below) = some (args, vs' ++ below) := by
  unfold popArgs at h
  dsimp only at h
  split at h
  · rename_i htys
    cases h
    -- there were enough operands without those below
    have hlen : params.length ≤ vs.length := by
      have := congrArg List.length htys
      rw [List.length_map, List.length_reverse, List.length_take] at this
      omega
    unfold popArgs
    rw [List.take_append_of_le_length hlen, List.drop_append_of_le_length hlen, if_pos htys]
  · cases h

/-- A block is left whatever lies below. -/
theorem Flow.leave_eq_next {results : List ValType} {flow : Flow}
    (h : flow.leave results vs = .next vs' st') (below : List Value) :
    flow.leave results (vs ++ below) = .next (vs' ++ below) st' := by
  cases flow with
  | next ws st =>
    rw [Flow.leave] at h ⊢
    split at h
    · rename_i htys
      cases h
      rw [if_pos htys, List.append_assoc]
    · cases h
  | _ => cases h

/-- A value is popped whatever lies below it. -/
theorem pop_above {t : ValType} {below : List Value} {k : Word → List Value → Flow}
    (h : pop t vs k = .next vs' st')
    (hk : ∀ w ws, k w ws = .next vs' st' → k w (ws ++ below) = .next (vs' ++ below) st') :
    pop t (vs ++ below) k = .next (vs' ++ below) st' := by
  obtain ⟨w, ws, rfl, hnext⟩ := pop_eq_next h
  rw [List.cons_append, pop_cons]
  exact hk w ws hnext

/-- An instruction that goes on does so with more below on the stack. -/
theorem exec_above {i : Instr} (h : exec C F call i vs st = .next vs' st') (below : List Value) :
    exec C F call i (vs ++ below) st = .next (vs' ++ below) st' := by
  cases i with
  | const c =>
    rw [exec] at h ⊢
    cases h
    rfl
  | localGet v | globalGet v =>
    rw [exec] at h ⊢
    split at h
    · cases h
      rfl
    · cases h
  | localSet v | globalSet v =>
    rw [exec] at h ⊢
    split at h
    · refine pop_above h fun w ws h => ?_
      cases h
      rfl
    · cases h
  | call f =>
    rw [exec] at h ⊢
    split at h
    · cases h
    · rename_i ty _
      split at h
      · cases h
      · rename_i args ws hargs
        rw [popArgs_above hargs below]
        dsimp only
        split at h
        · cases h
          cases ty.result <;> rfl
        all_goals cases h
  | load t | truncate =>
    rw [exec] at h ⊢
    refine pop_above h fun w ws h => ?_
    split at h
    · cases h
      rfl
    · cases h
  | int op =>
    rw [exec] at h ⊢
    refine pop_above h fun b ws h => pop_above h fun a ws h => ?_
    split at h
    · cases h
      rfl
    · cases h
  | float op =>
    rw [exec] at h ⊢
    refine pop_above h fun b ws h => pop_above h fun a ws h => ?_
    cases h
    rfl
  | eqz | floatNeg | convert =>
    rw [exec] at h ⊢
    refine pop_above h fun w ws h => ?_
    cases h
    rfl
  | drop =>
    cases vs with
    | nil =>
      rw [exec] at h
      cases h
    | cons v vs =>
      rw [exec] at h
      cases h
      rw [List.cons_append, exec]
  | ret | unreachable | br l =>
    -- none of these goes on
    rw [exec] at h
    cases h
  | brIf l =>
    rw [exec] at h ⊢
    refine pop_above h fun w ws h => ?_
    by_cases hw : w = 0
    · rw [if_pos hw] at h ⊢
      cases h
      rfl
    · rw [if_neg hw] at h
      cases h
  | block l body | loop l body =>
    -- the body starts with a stack of its own, so only what is put back grows
    rw [exec] at h ⊢
    exact Flow.leave_eq_next h below
  | ifThen body =>
    rw [exec] at h ⊢
    refine pop_above h fun w ws h => ?_
    by_cases hw : w = 0
    · rw [if_pos hw] at h ⊢
      cases h
      rfl
    · rw [if_neg hw] at h ⊢
      exact Flow.leave_eq_next h below
  | ifElse body other | ifValue body other =>
    rw [exec] at h ⊢
    refine pop_above h fun w ws h => ?_
    by_cases hw : w = 0
    · rw [if_pos hw] at h ⊢
      exact Flow.leave_eq_next h below
    · rw [if_neg hw] at h ⊢
      exact Flow.leave_eq_next h below

/-- ... and through the same visits inside it. -/
theorem inside_above {i : Instr} (h : exec C F call i vs st = .next vs' st') (below : List Value) :
    inside C F call here inner i (vs ++ below) st = inside C F call here inner i vs st := by
  cases i with
  | call f =>
    rw [exec] at h
    rw [inside, inside]
    cases hty : C.funcTy f with
    | none => rfl
    | some ty =>
      rw [hty] at h
      dsimp only at h ⊢
      cases hargs : popArgs ty.params vs with
      | none =>
        rw [hargs] at h
        cases h
      | some taken => rw [popArgs_above hargs below]
  | ifThen body | ifElse body other | ifValue body other =>
    rw [exec] at h
    obtain ⟨w, ws, rfl, _⟩ := pop_eq_next h
    rw [inside, inside]
    rfl
  | _ => rfl

/-- Both steps went on. -/
theorem Flow.andThen_eq_next {flow : Flow} {k : List Value → State → Flow}
    (h : flow.andThen k = .next vs st) :
    ∃ vs' st', flow = .next vs' st' ∧ k vs' st' = .next vs st := by
  cases flow with
  | next vs' st' => exact ⟨vs', st', rfl, h⟩
  | _ => cases h

/-- Code that reaches its end does so with more below on the stack. -/
theorem execAll_above {is : List Instr} (h : execAll C F call is vs st = .next vs' st')
    (below : List Value) : execAll C F call is (vs ++ below) st = .next (vs' ++ below) st' := by
  induction is generalizing vs st with
  | nil =>
    rw [execAll_nil] at h ⊢
    cases h
    rfl
  | cons i is ih =>
    rw [execAll_cons] at h ⊢
    obtain ⟨ws, st₁, hi, his⟩ := Flow.andThen_eq_next h
    rw [exec_above hi below]
    exact ih his

/-- **The stack below makes no difference to what is loaded.** -/
theorem loads_above {is : List Instr}
    (hhere : ∀ i vs st, (here i vs st).instr = i ∧ (here i vs st).stack = vs)
    (h : execAll C F call is vs st = .next vs' st') (below : List Value) :
    (along C F call here inner is (vs ++ below) st).filterMap Visit.load? =
      (along C F call here inner is vs st).filterMap Visit.load? := by
  induction is generalizing vs st with
  | nil => rw [along_nil, along_nil]
  | cons i is ih =>
    rw [execAll_cons] at h
    obtain ⟨ws, st₁, hi, his⟩ := Flow.andThen_eq_next h
    have hload : (here i (vs ++ below) st).load? = (here i vs st).load? := by
      unfold Visit.load?
      rw [(hhere i vs st).1, (hhere i vs st).2, (hhere i _ st).1, (hhere i _ st).2]
      cases i with
      | load t =>
        rw [exec] at hi
        obtain ⟨w, ws', rfl, _⟩ := pop_eq_next hi
        rfl
      | _ => rfl
    rw [along_cons, along_cons, exec_above hi below, hi, inside_above hi below]
    simp only [Flow.further, List.filterMap_cons, List.filterMap_append, hload, ih his]

end Append

/-! ## §5. Loads at a site -/

namespace Site

variable (S : Site)

/-- What is loaded from memory while code is run. -/
def loads (code : List Instr) (vs : List Value) (st : State) : List (ValType × Word) :=
  (S.visits code vs st).filterMap Visit.load?

variable {S} {code : List Instr} {vs vs' : List Value} {st st' : State}

/-- Loads of code in order. -/
theorem loads_append (h : S.run code vs st = .next vs' st') (code' : List Instr) :
    S.loads (code ++ code') vs st = S.loads code vs st ++ S.loads code' vs' st' := by
  unfold loads
  rw [visits_append, h, List.filterMap_append]
  rfl

theorem run_above (h : S.run code vs st = .next vs' st') (below : List Value) :
    S.run code (vs ++ below) st = .next (vs' ++ below) st' :=
  execAll_above h below

theorem loads_eq_above (h : S.run code vs st = .next vs' st') (below : List Value) :
    S.loads code (vs ++ below) st = S.loads code vs st :=
  loads_above (fun _ _ _ => ⟨rfl, rfl⟩) h below

end Site

end MiniC.Wasm
