/-
  MiniC.Proofs.Storage.Arrays

  **An array variable always holds its place.**

  The variable of an array is an ordinary one.  A global array starts with its
  address and cannot be assigned to; a local one starts with zero, like all
  locals, and is given its address where it is declared.  Still no read of it
  comes too early: code may name a local array only where it has been declared
  before in the same block or in one around it, and control never enters a
  block but at its start.

  What holds on the way is `Placed V`: the arrays among the variables `V` that
  may be named hold their addresses.  Code that is run from there keeps it, and
  every read on the way yields an address (`Keeps`); there is one rule for each
  way to put code together, and then one lemma each for expressions, statements
  and calls.
-/
import MiniC.Proofs.Checking.Owners
import MiniC.Proofs.Execution.Visits
import MiniC.Proofs.Lowering.Calls
import MiniC.Proofs.Naming.Blocks

namespace MiniC

open Exec Wasm

/-! ## §1. Places that are held -/

section Places

variable (Γ : Symbols)

/-- Global arrays hold their places. -/
def Fixed (w : World) : Prop :=
  ∀ v a, Eval.place? Γ v = some a → Eval.isGlobal Γ v = true → w.globals v = a

/-- Global arrays hold their places, and so do the local ones among `V`. -/
structure Placed (V : VarId → Prop) (st : State) : Prop where
  globals : Fixed Γ st.store.toWorld
  locals : ∀ v a, Eval.place? Γ v = some a → Eval.isGlobal Γ v = false → V v → st.locals v = a

/-- If an array is about to be read, its place is what the machine pushes. -/
def Yields (m : Module) (F : FloatUnit) (x : Visit) : Prop :=
  ∀ v a, Eval.place? Γ v = some a → x.instr = .localGet v ∨ x.instr = .globalGet v →
    ∀ call, exec (m.context x.func) F call x.instr x.stack x.state =
      .next (⟨.i32, a⟩ :: x.stack) x.state

/-- The state at the end of code: with the arrays of `W` at its end, and with
those of `V` at a jump out of it. -/
def Wasm.Flow.Keeps (V W : VarId → Prop) : Flow → Prop
  | .next _ st => Placed Γ W st
  | .branch _ st => Placed Γ V st
  | .returned _ st => Fixed Γ st.store.toWorld
  | .trap _ | .exhausted _ | .stuck => True

end Places

section Basic

variable {Γ : Symbols} {V W : VarId → Prop} {st : State}
variable {v : VarId}

theorem Placed.mono (h : Placed Γ W st) (hVW : ∀ v, V v → W v) : Placed Γ V st :=
  ⟨h.globals, fun v a ha hg hv => h.locals v a ha hg (hVW v hv)⟩

/-- What is read of an array that may be named. -/
theorem Placed.read_eq (h : Placed Γ V st) {a : Word} (ha : Eval.place? Γ v = some a) (hv : V v) :
    Eval.read Γ v st = a := by
  unfold Eval.read
  split
  · rename_i hg
    exact h.globals v a ha hg
  · rename_i hg
    exact h.locals v a ha (Bool.not_eq_true _ ▸ hg) hv

/-- Ticks and notes of calls do not matter. -/
theorem Placed.congr (h : Placed Γ V st) {st' : State} (hl : st'.locals = st.locals)
    (hg : st'.store.globals = st.store.globals) : Placed Γ V st' := by
  constructor
  · intro v a ha hv
    rw [hg]
    exact h.globals v a ha hv
  · rw [hl]
    exact h.locals

/-- A variable that is no array may be assigned to. -/
theorem Placed.write (h : Placed Γ V st) {v : VarId} (hv : Eval.place? Γ v = none) (w : Word) :
    Placed Γ V (Eval.write Γ v w st) := by
  have hne : ∀ v' a, Eval.place? Γ v' = some a → v' ≠ v := by
    rintro v' a ha rfl
    rw [hv] at ha
    cases ha
  unfold Eval.write
  split
  · refine ⟨fun v' a ha hg => ?_, h.locals⟩
    exact (if_neg (hne v' a ha)).trans (h.globals v' a ha hg)
  · refine ⟨h.globals, fun v' a ha hg hV => ?_⟩
    exact (if_neg (hne v' a ha)).trans (h.locals v' a ha hg hV)

/-- A declaration gives an array its place. -/
theorem Placed.declare (h : Placed Γ V st) {a : Word} (ha : Eval.place? Γ v = some a) :
    Placed Γ (fun v' => V v' ∨ v' = v) (st.setLocal v a) := by
  refine ⟨h.globals, fun v' a' ha' hg hV => ?_⟩
  show (if v' = v then a else st.locals v') = a'
  by_cases heq : v' = v
  · rw [if_pos heq]
    rw [heq, ha] at ha'
    exact Option.some.inj ha'
  · rw [if_neg heq]
    exact h.locals v' a' ha' hg (hV.resolve_right heq)

/-- What is no array needs no place. -/
theorem Placed.extend (h : Placed Γ V st) (hv : Eval.place? Γ v = none) :
    Placed Γ (fun v' => V v' ∨ v' = v) st := by
  refine ⟨h.globals, fun v' a ha hg hV => h.locals v' a ha hg (hV.resolve_right ?_)⟩
  rintro rfl
  rw [hv] at ha
  cases ha

namespace Wasm.Flow.Keeps

variable {flow : Flow}

theorem weaken (h : flow.Keeps Γ V W) (hVW : ∀ v, V v → W v) : flow.Keeps Γ V V := by
  cases flow with
  | next vs st => exact Placed.mono h hVW
  | _ => exact h

/-- The end of a block. -/
theorem leave (h : flow.Keeps Γ V W) (results : List ValType) (vs : List Value) :
    (flow.leave results vs).Keeps Γ V W := by
  cases flow with
  | next ws st =>
    rw [Flow.leave]
    split
    · exact h
    · trivial
  | _ => exact h

/-- A jump to the end of a block. -/
theorem catchAt (h : flow.Keeps Γ V V) (l : Label) : (flow.catchAt l).Keeps Γ V V := by
  cases flow with
  | branch l' st =>
    rw [Flow.catchAt]
    split
    · exact h
    · exact h
  | _ => exact h

end Wasm.Flow.Keeps

/-- A pop keeps what goes on after it. -/
theorem Wasm.keeps_pop {t : ValType} {vs : List Value} {k : Word → List Value → Flow}
    (hk : ∀ w ws, (k w ws).Keeps Γ V W) : (pop t vs k).Keeps Γ V W := by
  cases vs with
  | nil => trivial
  | cons v vs =>
    rw [pop]
    split
    · exact hk _ _
    · trivial

end Basic

/-! ## §2. Rules for code -/

/-- Run where the arrays among `V` hold their places, the code leaves those
among `W` with theirs, and every read of an array on the way yields its
place. -/
structure Keeps (Γ : Symbols) (S : Site) (V : VarId → Prop) (code : List Instr)
    (W : VarId → Prop) : Prop where
  grows : ∀ v, V v → W v
  flow : ∀ vs st, Placed Γ V st → (S.run code vs st).Keeps Γ V W
  visits : ∀ vs st, Placed Γ V st → ∀ x ∈ S.visits code vs st, Yields Γ S.module S.floats x

/-- The instruction reads a variable. -/
def Wasm.Instr.isGet : Instr → Bool
  | .localGet _ | .globalGet _ => true
  | _ => false

/-- The instruction works on the stack alone. -/
def Wasm.Instr.isQuiet : Instr → Bool
  | .drop | .ret | .unreachable | .br _ | .brIf _ => true
  | i => i.isOperator

theorem Wasm.Instr.isQuiet_of_isOperator {i : Instr} (h : i.isOperator = true) :
    i.isQuiet = true := by
  unfold isQuiet
  split <;> first | rfl | exact h

namespace Keeps

variable {Γ : Symbols} {S : Site} {V W X : VarId → Prop}
variable {i : Instr} {body : List Instr}

/-- Only reading a variable yields its address. -/
theorem yields_of_not_isGet {x : Visit} (h : x.instr.isGet = false) (m : Module) (F : FloatUnit) :
    Yields Γ m F x := by
  rintro v a _ (hget | hget)
  · rw [hget] at h
    cases h
  · rw [hget] at h
    cases h

/-- No code keeps all. -/
theorem nil (V : VarId → Prop) : Keeps Γ S V [] V := by
  refine ⟨fun _ h => h, fun vs st h => ?_, fun vs st _ x hx => ?_⟩
  · rw [Site.run, execAll_nil]
    exact h
  · rw [Site.visits, along_nil] at hx
    cases hx

/-- Code after code. -/
theorem append {code code' : List Instr} (h : Keeps Γ S V code W) (h' : Keeps Γ S W code' X) :
    Keeps Γ S V (code ++ code') X := by
  refine ⟨fun v hv => h'.grows v (h.grows v hv), fun vs st hst => ?_, fun vs st hst x hx => ?_⟩
  · have hflow := h.flow vs st hst
    rw [Site.run_append]
    cases hrun : S.run code vs st with
    | next ws st' =>
      rw [hrun] at hflow
      have hflow' := h'.flow ws st' hflow
      show (S.run code' ws st').Keeps Γ V X
      cases hrun' : S.run code' ws st' with
      | branch l st'' =>
        rw [hrun'] at hflow'
        exact Placed.mono hflow' h.grows
      | _ =>
        rw [hrun'] at hflow'
        exact hflow'
    | _ =>
      rw [hrun] at hflow
      exact hflow
  · rw [Site.visits_append, List.mem_append] at hx
    rcases hx with hx | hx
    · exact h.visits vs st hst x hx
    · have hflow := h.flow vs st hst
      cases hrun : S.run code vs st with
      | next ws st' =>
        rw [hrun] at hflow hx
        exact h'.visits ws st' hflow x hx
      | _ =>
        rw [hrun] at hx
        cases hx

/-- A single instruction. -/
theorem single (hgrows : ∀ v, V v → W v)
    (hflow : ∀ vs st, Placed Γ V st → (exec S.context S.floats S.call i vs st).Keeps Γ V W)
    (hhere : ∀ vs st, Placed Γ V st → Yields Γ S.module S.floats (S.here i vs st))
    (hinside : ∀ vs st, Placed Γ V st → ∀ x ∈ S.inside i vs st, Yields Γ S.module S.floats x) :
    Keeps Γ S V [i] W := by
  refine ⟨hgrows, fun vs st hst => ?_, fun vs st hst x hx => ?_⟩
  · rw [Site.run_singleton]
    exact hflow vs st hst
  · rw [Site.visits_singleton] at hx
    rcases List.mem_cons.1 hx with rfl | hx
    · exact hhere vs st hst
    · exact hinside vs st hst x hx

/-- An instruction that works on the stack alone. -/
theorem quiet (hi : i.isQuiet = true) : Keeps Γ S V [i] V := by
  refine single (fun _ h => h) (fun vs st hst => ?_) (fun vs st _ => ?_) (fun vs st _ x hx => ?_)
  · cases i with
    | const c =>
      rw [exec]
      exact hst
    | load t | truncate =>
      rw [exec]
      refine keeps_pop fun w ws => ?_
      split
      · exact hst
      · trivial
    | int op =>
      rw [exec]
      refine keeps_pop fun b ws => keeps_pop fun a ws => ?_
      split
      · exact hst
      · trivial
    | float op =>
      rw [exec]
      exact keeps_pop fun b ws => keeps_pop fun a ws => hst
    | eqz | floatNeg | convert =>
      rw [exec]
      exact keeps_pop fun w ws => hst
    | drop =>
      cases vs with
      | nil =>
        rw [exec]
        trivial
      | cons v vs =>
        rw [exec]
        exact hst
    | ret =>
      rw [exec]
      exact hst.globals
    | unreachable =>
      rw [exec]
      trivial
    | br l =>
      rw [exec]
      exact hst
    | brIf l =>
      rw [exec]
      refine keeps_pop fun w ws => ?_
      split
      · exact hst
      · exact hst
    | _ => cases hi
  · refine yields_of_not_isGet ?_ _ _
    cases i <;> first | rfl | cases hi
  · -- nothing is run inside it
    cases i <;> first | cases hx | cases hi

/-- Operators keep all. -/
theorem operators {code : List Instr} (h : ∀ i ∈ code, i.isOperator = true) :
    Keeps Γ S V code V := by
  induction code with
  | nil => exact nil V
  | cons i is ih =>
    obtain ⟨hi, his⟩ := List.forall_mem_cons.1 h
    exact (quiet (Instr.isQuiet_of_isOperator hi)).append (ih his)

/-! ## §3. Rules for control -/

/-- A test that runs one piece of code or another. -/
theorem tested {vs : List Value} {k : Word → List Visit}
    (hk : ∀ w, ∀ x ∈ k w, Yields Γ S.module S.floats x) :
    ∀ x ∈ Wasm.tested vs k, Yields Γ S.module S.floats x := by
  intro x hx
  cases vs with
  | nil => cases hx
  | cons v vs =>
    rw [Wasm.tested] at hx
    split at hx
    · exact hk _ x hx
    · cases hx

theorem block (h : Keeps Γ S V body W) (l : Label) : Keeps Γ S V [.block l body] V := by
  refine single (fun _ h => h) (fun vs st hst => ?_) (fun vs st _ => yields_of_not_isGet rfl _ _)
    (fun vs st hst x hx => h.visits [] st hst x hx)
  rw [exec]
  exact (((h.flow [] st hst).weaken h.grows).catchAt l).leave _ _

/-- A condition keeps what its code does. -/
theorem ifThen (h : Keeps Γ S V body W) : Keeps Γ S V [.ifThen body] V := by
  refine single (fun _ h => h) (fun vs st hst => ?_) (fun vs st _ => yields_of_not_isGet rfl _ _)
    (fun vs st hst => ?_)
  · rw [exec]
    refine keeps_pop fun w ws => ?_
    split
    · exact hst
    · exact ((h.flow [] st hst).weaken h.grows).leave _ _
  · rw [Site.inside, inside]
    refine tested fun w x hx => ?_
    split at hx
    · cases hx
    · exact h.visits [] st hst x hx

/-- A choice keeps what both sides do. -/
theorem choice {other : List Instr} (h : Keeps Γ S V body W) (h' : Keeps Γ S V other X)
    (hi : i = .ifElse body other ∨ i = .ifValue body other) : Keeps Γ S V [i] V := by
  have hflow (st : State) (hst : Placed Γ V st) (w : Word) (results : List ValType)
      (ws : List Value) : (if w = 0 then (S.run other [] st).leave results ws
        else (S.run body [] st).leave results ws).Keeps Γ V V := by
    split
    · exact ((h'.flow [] st hst).weaken h'.grows).leave _ _
    · exact ((h.flow [] st hst).weaken h.grows).leave _ _
  have hvisits (st : State) (hst : Placed Γ V st) (w : Word) : ∀ x ∈
      (if w = 0 then S.visits other [] st else S.visits body [] st),
        Yields Γ S.module S.floats x := by
    split
    · exact h'.visits [] st hst
    · exact h.visits [] st hst
  rcases hi with rfl | rfl
  all_goals
    refine single (fun _ h => h) (fun vs st hst => ?_) (fun vs st _ => yields_of_not_isGet rfl _ _)
      (fun vs st hst => ?_)
    · rw [exec]
      exact keeps_pop fun w ws => hflow st hst w _ ws
    · rw [Site.inside, inside]
      exact tested (hvisits st hst)

/-- **Turns of a loop**: each starts where the one before has jumped back, with
the places that the loop itself started with. -/
theorem turns (h : Keeps Γ S V body W) (l : Label) (st : State) (hst : Placed Γ V st) :
    (Wasm.turns l (S.run body []) st).Keeps Γ V V ∧
      ∀ x ∈ turnVisits l (S.run body []) (S.visits body []) st, Yields Γ S.module S.floats x := by
  induction hn : st.store.ticks using Nat.strong_induction_on generalizing st with
  | _ n ih =>
    cases n with
    | zero =>
      rw [turns_of_zero hn, turnVisits_of_zero hn]
      exact ⟨trivial, List.forall_mem_nil _⟩
    | succ n =>
      have hstart : Placed Γ V (st.withTicks n) := hst.congr rfl rfl
      have hflow := (h.flow [] _ hstart).weaken h.grows
      have hvisits := h.visits [] _ hstart
      rw [turns_of_succ hn, turnVisits_of_succ hn]
      cases hrun : S.run body [] (st.withTicks n) with
      | branch l' st' =>
        rw [hrun] at hflow
        have hagain : Placed Γ V { st' with store := st'.store.atMost n } :=
          Placed.congr hflow rfl rfl
        have hlt : min st'.store.ticks n < n + 1 := by omega
        have hrest := ih _ hlt _ hagain rfl
        dsimp only
        by_cases hl : l' = l
        · rw [if_pos hl, if_pos hl]
          exact ⟨hrest.1, fun x hx => (List.mem_append.1 hx).elim (hvisits x) (hrest.2 x)⟩
        · rw [if_neg hl, if_neg hl, List.append_nil]
          exact ⟨hflow, hvisits⟩
      | _ =>
        rw [hrun] at hflow
        dsimp only
        rw [List.append_nil]
        exact ⟨hflow, hvisits⟩

theorem loop (h : Keeps Γ S V body W) (l : Label) : Keeps Γ S V [.loop l body] V := by
  refine single (fun _ h => h) (fun vs st hst => ?_) (fun vs st _ => yields_of_not_isGet rfl _ _)
    (fun vs st hst => (h.turns l st hst).2)
  rw [exec]
  exact (h.turns l st hst).1.leave _ _

end Keeps

/-! ## §4. Expressions -/

namespace Lower

variable {Γ : Symbols} {v : VarId}

/-- Calls leave global arrays with their places, and so do the functions that
are run in them. -/
structure CallsKeep (Γ : Symbols) (S : Site) : Prop where
  call : ∀ name args s w s', Fixed Γ s.toWorld → S.call name args s = some (.value w s') →
    Fixed Γ s'.toWorld
  inner : ∀ name args s, Fixed Γ s.toWorld → ∀ x ∈ S.inner name args s,
    Yields Γ S.module S.floats x

/-- A variable with a place is an array. -/
theorem isArray_of_place? {a : Word} {sym : VarSymbol} (hv : Γ.var? v = some sym)
    (ha : Eval.place? Γ v = some a) : sym.ty.isArray = true := by
  unfold Eval.place? at ha
  split at ha
  · rename_i harray
    rw [hv] at harray
    exact harray
  · cases ha

/-- Only arrays have a place. -/
theorem place?_eq_none {sym : VarSymbol} (hv : Γ.var? v = some sym) (ha : sym.ty.isArray = false) :
    Eval.place? Γ v = none := by
  cases hplace : Eval.place? Γ v with
  | none => rfl
  | some a =>
    rw [isArray_of_place? hv hplace] at ha
    cases ha

section Exprs

variable {Γ : Symbols} {S : Site} {U V : VarId → Prop}

/-- Reading a variable yields its place if it is an array. -/
theorem keeps_get (hC : Agrees Γ U S.context) {v : VarId} {sym : VarSymbol}
    (hv : Γ.var? v = some sym) (hu : U v) (hV : V v) :
    Keeps Γ S V [(Env.ofSymbols Γ).get v] V := by
  refine .single (fun _ h => h) (fun vs st hst => ?_) (fun vs st hst => ?_) (fun vs st _ x hx => ?_)
  · rw [exec_get hC hv hu]
    exact hst
  · intro v' a ha hget call
    have heq : v' = v := by
      have hget : (Env.ofSymbols Γ).get v = .localGet v' ∨
          (Env.ofSymbols Γ).get v = .globalGet v' := hget
      unfold Env.get at hget
      split at hget
      · rcases hget with hget | hget <;> cases hget
        rfl
      · rcases hget with hget | hget <;> cases hget
        rfl
    subst heq
    have hread : exec S.context S.floats call ((Env.ofSymbols Γ).get v') vs st =
      .next (⟨sym.ty.valType, Eval.read Γ v' st⟩ :: vs) st := exec_get hC hv hu vs st
    rw [hst.read_eq ha hV, Ty.valType_of_isArray (isArray_of_place? hv ha)] at hread
    exact hread
  · unfold Env.get at hx
    split at hx <;> cases hx

/-- A variable that is no array is assigned to. -/
theorem keeps_set (hC : Agrees Γ U S.context) {v : VarId} {sym : VarSymbol}
    (hv : Γ.var? v = some sym) (hu : U v) (ha : sym.ty.isArray = false) :
    Keeps Γ S V [(Env.ofSymbols Γ).set v] V := by
  have hplace := place?_eq_none hv ha
  refine .single (fun _ h => h) (fun vs st hst => ?_) (fun vs st hst => ?_) (fun vs st _ x hx => ?_)
  · have hwritten := hst.write hplace
    cases hs : sym.storage with
    | globalVar =>
      rw [(get_set_of_globalVar hv hs).2, exec, hC.globalTy hv hu hs, ha]
      refine keeps_pop fun w ws => ?_
      have hw := hwritten w
      rw [Eval.write, if_pos (isGlobal_of_globalVar hv hs)] at hw
      exact hw
    | localVar =>
      rw [(get_set_of_localVar hv hs).2, exec, hC.localTy hv hu hs]
      refine keeps_pop fun w ws => ?_
      have hw := hwritten w
      rw [Eval.write, if_neg (not_isGlobal_of_localVar hv hs)] at hw
      exact hw
  · refine Keeps.yields_of_not_isGet ?_ _ _
    show ((Env.ofSymbols Γ).set v).isGet = false
    unfold Env.set
    split <;> rfl
  · unfold Env.set at hx
    split at hx <;> cases hx

/-- A call keeps all arrays where they are. -/
theorem keeps_call (hS : CallsKeep Γ S) (f : String) : Keeps Γ S V [.call f] V := by
  refine .single (fun _ h => h) (fun vs st hst => ?_)
    (fun vs st _ => Keeps.yields_of_not_isGet rfl _ _) (fun vs st hst x hx => ?_)
  · rw [exec]
    split
    · trivial
    · split
      · trivial
      · split
        · rename_i hcall
          exact ⟨hS.call _ _ _ _ _ hst.globals hcall, hst.locals⟩
        all_goals trivial
  · rw [Site.inside, inside] at hx
    split at hx
    · cases hx
    · split at hx
      · cases hx
      · exact hS.inner _ _ _ hst.globals x hx

/-- Expressions keep all arrays where they are. -/
theorem composed_keeps (hC : Agrees Γ U S.context) (hS : CallsKeep Γ S) (hV : ∀ v, V v → U v) :
    Composed Γ V (.ofSymbols Γ) fun code => Keeps Γ S V code V where
  operators := .operators
  get hv hu := keeps_get hC hv (hV _ hu) hu
  set hv hu ha := keeps_set hC hv (hV _ hu) ha
  call := keeps_call hS
  append := .append
  choice hbody hother := hbody.choice hother (.inr rfl)

/-- **The code of an expression keeps places**, if what it names holds them. -/
theorem keeps_expr (hC : Agrees Γ U S.context) (hS : CallsKeep Γ S) (hV : ∀ v, V v → U v)
    {e : Expr} {t : Ty} (h : HasTy Γ V e t) : Keeps Γ S V (expr (.ofSymbols Γ) e) V :=
  (composed_keeps hC hS hV).expr h

end Exprs

/-! ## §5. Statements -/

section Stmts

variable {Γ : Symbols} {S : Site} {U V : VarId → Prop}

theorem keeps_whole (hC : Agrees Γ U S.context) (hS : CallsKeep Γ S) (hV : ∀ v, V v → U v)
    {e : Expr} (h : WholeTyped Γ V e) : Keeps Γ S V (expr (.ofSymbols Γ) e) V := by
  obtain ⟨t, ht, _⟩ := h
  exact keeps_expr hC hS hV ht

theorem keeps_condition (hC : Agrees Γ U S.context) (hS : CallsKeep Γ S) (hV : ∀ v, V v → U v)
    {e : Expr} (h : WholeTyped Γ V e) : Keeps Γ S V (condition (.ofSymbols Γ) e) V := by
  obtain ⟨t, ht, _⟩ := h
  exact (composed_keeps hC hS hV).condition ht

/-- **A declaration gives an array its place**, and it may be named from then
on. -/
theorem keeps_declare (hC : Agrees Γ U S.context) (hS : CallsKeep Γ S) (hV : ∀ v, V v → U v)
    {depth : Nat} {v : VarId} {sym : VarSymbol} {init : Option Expr} (hv : Γ.var? v = some sym)
    (hu : U v) (hs : sym.storage = .localVar) (hinit : ∀ e ∈ init, WholeTyped Γ V e) :
    Keeps Γ S V (stmt (.ofSymbols Γ) depth (.declare v init)) (fun v' => V v' ∨ v' = v) := by
  have hplace := Env.address?_eq_place? Γ v
  unfold stmt
  cases haddr : (Env.ofSymbols Γ).address? v with
  | some address =>
    rw [haddr] at hplace
    have hplace : Eval.place? Γ v = some address.toBitVec := hplace.symm
    have hty := Ty.valType_of_isArray (isArray_of_place? hv hplace)
    have hset : ∀ vs st, S.run [.const (.word address), (Env.ofSymbols Γ).set v] vs st =
        .next vs (st.setLocal v address.toBitVec) := by
      intro vs st
      rw [Site.run, execAll_cons, exec_const, Flow.andThen, execAll_singleton,
        (get_set_of_localVar hv hs).2, exec, hC.localTy hv hu hs, hty]
      exact pop_cons _ _ _ _
    refine ⟨fun _ h => .inl h, fun vs st hst => ?_, fun vs st hst x hx => ?_⟩
    · rw [hset]
      exact hst.declare hplace
    · -- neither the constant nor the assignment reads a variable
      refine Keeps.yields_of_not_isGet ?_ _ _
      rw [(get_set_of_localVar hv hs).2, Site.visits, along_cons, exec_const] at hx
      rcases List.mem_cons.1 hx with rfl | hx
      · rfl
      · rcases List.mem_append.1 hx with hx | hx
        · cases hx
        · rw [Flow.further, along_singleton] at hx
          rcases List.mem_cons.1 hx with rfl | hx
          · rfl
          · cases hx
  | none =>
    rw [haddr] at hplace
    have hplace : Eval.place? Γ v = none := hplace.symm
    have hextend : Keeps Γ S V [] (fun v' => V v' ∨ v' = v) :=
      ⟨fun _ h => .inl h, fun vs st hst => hst.extend hplace, (Keeps.nil V).visits⟩
    cases init with
    | none => exact hextend
    | some e =>
      have hset : Keeps Γ S V [(Env.ofSymbols Γ).set v] V := by
        refine keeps_set hC hv hu ?_
        have harray := Env.isSome_address? Γ v
        rw [haddr, hv] at harray
        exact harray.symm
      have hcode := ((keeps_whole hC hS hV (hinit e rfl)).append hset).append hextend
      rw [List.append_nil] at hcode
      exact hcode

/-- What a statement declares is among the variables of the function. -/
theorem usable_extend {ret : Ty} {depth : Nat} {s : Stmt} (h : StmtTyped Γ U ret depth s)
    (hV : ∀ v, V v → U v) : ∀ v, s.extend V v → U v := by
  intro v hv
  cases h with
  | declare hv' hu hlocal hne hinit => exact hv.elim (hV v) fun heq => heq ▸ hu
  | _ => exact hV v hv

mutual

/-- **A statement keeps all arrays where they are.** -/
theorem keeps_stmt (hC : Agrees Γ U S.context) (hS : CallsKeep Γ S) {ret : Ty} {depth : Nat}
    {s : Stmt} (h : StmtTyped Γ U ret depth s) {V : VarId → Prop} (hV : ∀ v, V v → U v)
    (hs : s.Scoped Γ V) : Keeps Γ S V (stmt (.ofSymbols Γ) depth s) (s.extend V) := by
  cases h with
  | declare hv hu hlocal hne hinit => exact keeps_declare hC hS hV hv hu hlocal hs
  | expr he =>
    refine (keeps_whole hC hS hV hs).append ?_
    split
    · exact .nil V
    · exact .quiet rfl
  | ret hr => exact .quiet rfl
  | retValue hne he => exact (keeps_whole hC hS hV (hs _ rfl)).append (.quiet rfl)
  | branch hc hb ho =>
    obtain ⟨hcond, hbody, hother⟩ := hs
    obtain ⟨W, hcode⟩ := keeps_stmts hC hS hb hV hbody
    exact (keeps_condition hC hS hV hcond).append (keeps_branch hC hS ho hV hother hcode)
  | loop hc hb =>
    obtain ⟨hcond, hbody⟩ := hs
    obtain ⟨W, hcode⟩ := keeps_stmts hC hS hb hV hbody
    have hexit : Keeps Γ S V [.eqz, .brIf (.exit (depth + 1))] V :=
      (Keeps.quiet rfl).append (.quiet rfl)
    have hback : Keeps Γ S W [.br (.entry (depth + 1))] W := .quiet rfl
    have hturn := (((keeps_condition hC hS hV hcond).append hexit).append hcode).append hback
    exact (hturn.loop _).block _
  | leave hpos => exact .quiet rfl
  | again hpos => exact .quiet rfl

/-- After the test of a branch. -/
theorem keeps_branch (hC : Agrees Γ U S.context) (hS : CallsKeep Γ S) {ret : Ty} {depth : Nat}
    {o : Else} (h : ElseTyped Γ U ret depth o) {V W : VarId → Prop} (hV : ∀ v, V v → U v)
    (ho : o.Scoped Γ V) {code : List Instr} (hcode : Keeps Γ S V code W) :
    Keeps Γ S V (branch (.ofSymbols Γ) depth code o) V := by
  cases h with
  | nothing => exact hcode.ifThen
  | branch hc hb hother =>
    obtain ⟨hcond, hbody, hrest⟩ := ho
    obtain ⟨X, hcode'⟩ := keeps_stmts hC hS hb hV hbody
    have hfurther := (keeps_condition hC hS hV hcond).append
      (keeps_branch hC hS hother hV hrest hcode')
    exact hcode.choice hfurther (.inl rfl)
  | block hb =>
    obtain ⟨X, hcode'⟩ := keeps_stmts hC hS hb hV ho
    exact hcode.choice hcode' (.inl rfl)

/-- **The code of statements keeps places.** -/
theorem keeps_stmts (hC : Agrees Γ U S.context) (hS : CallsKeep Γ S) {ret : Ty} {depth : Nat}
    {ss : List Stmt} (h : StmtsTyped Γ U ret depth ss) {V : VarId → Prop} (hV : ∀ v, V v → U v)
    (hs : Stmt.AllScoped Γ V ss) : ∃ W, Keeps Γ S V (stmts (.ofSymbols Γ) depth ss) W := by
  cases h with
  | nil => exact ⟨V, .nil V⟩
  | cons h hrest =>
    obtain ⟨W, hcode⟩ := keeps_stmts hC hS hrest (usable_extend h hV) hs.2
    exact ⟨W, (keeps_stmt hC hS h hV hs.1).append hcode⟩

end

end Stmts

/-! ## §6. Calls -/

/-- The places of arrays are words. -/
theorem lt_of_address? {offset : Nat} {tys : List Ty} {i a : Nat}
    (h : (StaticLayout.place offset tys).address? i = some a) : a < 2 ^ 32 := by
  induction tys generalizing offset i with
  | nil => cases h
  | cons ty tys ih =>
    rw [StaticLayout.place] at h
    split at h
    · cases i with
      | zero =>
        cases Option.some.inj h
        exact Nat.lt_of_le_of_lt (Nat.min_le_right _ _) (by decide)
      | succ i => exact ih h
    · cases i with
      | zero => cases h
      | succ i => exact ih h

theorem isSome_layout_address? (Γ : Symbols) (v : VarId) :
    ((StaticLayout.ofTypes Γ.varTypes).address? v.index).isSome =
      (Γ.var? v).any (·.ty.isArray) := by
  rw [← Env.isSome_address?, Env.address?, Option.isSome_map]
  rfl

/-- The address of an array is its place. -/
theorem place?_of_address? {a : Nat}
    (h : (StaticLayout.ofTypes Γ.varTypes).address? v.index = some a) :
    Eval.place? Γ v = some (BitVec.ofNat 32 a) := by
  have harray := isSome_layout_address? Γ v
  unfold Eval.place?
  rw [h] at harray ⊢
  exact if_pos harray.symm

end Lower

/-- The globals that cannot be assigned to have the values they start with. -/
def Wasm.Module.Settled (m : Module) (w : World) : Prop :=
  ∀ g ∈ m.globals, g.mutable = false → w.globals g.var = g.init.value.bits

/-- The host does not change globals that cannot be assigned to. -/
def Wasm.Module.RespectedBy (m : Module) (host : Host) : Prop :=
  ∀ name args calls w r w', host name args calls w = some (r, w') → m.Settled w → m.Settled w'

namespace Lower

section Programs

variable {text : String} {p : Program} (h : parse text = .ok p)
include h

/-- A global variable has an item. -/
theorem exists_global {v : VarId} (hg : Eval.isGlobal p.symbols v = true) :
    ∃ init, .global v init ∈ p.items := by
  have hp := wellFormed_of_parse h
  have hmem : v ∈ p.symbols.varIds := by
    rw [Symbols.mem_varIds]
    unfold Eval.isGlobal at hg
    cases hv : p.symbols.var? v with
    | none =>
      rw [hv] at hg
      cases hg
    | some sym => rfl
  rw [← (owned_of_parse h).1] at hmem
  obtain ⟨i, hi, hv⟩ := List.mem_flatMap.1 hmem
  cases i with
  | global v' init =>
    rw [List.mem_singleton.1 hv]
    exact ⟨init, hi⟩
  | function f =>
    -- what a function owns is local
    obtain ⟨sym, hsym, hs⟩ := (hp.functions f (Program.mem_functions.2 hi)).locals_local v hv
    exact absurd hg (not_isGlobal_of_localVar hsym hs)

/-- Exactly the arrays among the globals cannot be assigned to, and they start
with their places. -/
theorem settled_iff_fixed (w : World) : (program p).Settled w ↔ Fixed p.symbols w := by
  have hp := wellFormed_of_parse h
  constructor
  · intro hw v a ha hg
    obtain ⟨init, hi⟩ := exists_global h hg
    have hplace := Env.address?_eq_place? p.symbols v
    rw [ha] at hplace
    obtain ⟨address, haddr, rfl⟩ := Option.map_eq_some_iff.1 hplace
    have hglobal : global (.ofSymbols p.symbols) v init = ⟨v, .word address, false⟩ := by
      unfold global
      rw [haddr]
    have hmem : global (.ofSymbols p.symbols) v init ∈ (program p).globals :=
      List.mem_filterMap.2 ⟨.global v init, hi, rfl⟩
    rw [hglobal] at hmem
    exact hw _ hmem rfl
  · intro hw g hg hmut
    obtain ⟨v, init, hi, rfl⟩ := mem_program_globals hg
    obtain ⟨sym, hwf⟩ := hp.globals v init hi
    have hplace := Env.address?_eq_place? p.symbols v
    unfold global at hmut ⊢
    cases haddr : (Env.ofSymbols p.symbols).address? v with
    | some address =>
      rw [haddr] at hplace
      exact hw v _ hplace.symm (isGlobal_of_globalVar hwf.symbol hwf.storage)
    | none =>
      rw [haddr] at hmut
      dsimp only at hmut
      split at hmut <;> cases hmut

/-- A function starts with the places of all arrays that it may name. -/
theorem placed_start {f : Function} (hf : f ∈ p.functions) {s : Store}
    (hs : Fixed p.symbols s.toWorld) (locals : VarId → Word) :
    Placed p.symbols (fun v => v ∈ p.globals ∨ v ∈ f.params) ⟨locals, s⟩ := by
  have hp := wellFormed_of_parse h
  refine ⟨hs, fun v a ha hg hv => ?_⟩
  rcases hv with hv | hv
  · obtain ⟨i, hi, heq⟩ := List.mem_filterMap.1 hv
    cases i with
    | function f => cases heq
    | global v' init =>
      cases heq
      obtain ⟨sym, hwf⟩ := hp.globals v init hi
      rw [isGlobal_of_globalVar hwf.symbol hwf.storage] at hg
      cases hg
  · -- no parameter is an array
    have hwf := hp.functions f hf
    obtain ⟨sym, hsym, _⟩ := hwf.locals_local v (hwf.params_prefix.subset hv)
    have hnone := place?_eq_none hsym ((scoped_of_parse h f hf).params v hv hsym)
    rw [hnone] at ha
    cases ha

/-- The body of a function keeps places. -/
theorem keeps_body {f : Function} (hf : f ∈ p.functions) {S : Site}
    (hC : S.context = (program p).context (function (.ofSymbols p.symbols) f))
    (hS : CallsKeep p.symbols S) :
    ∃ W, Keeps p.symbols S (fun v => v ∈ p.globals ∨ v ∈ f.params)
      (function (.ofSymbols p.symbols) f).body W := by
  have hp := wellFormed_of_parse h
  have hwf := hp.functions f hf
  have hagrees := agrees hp hf
  rw [← hC] at hagrees
  obtain ⟨W, hcode⟩ := keeps_stmts hagrees hS hwf.body
    (fun v hv => hv.imp_right fun hv => hwf.params_prefix.subset hv) (scoped_of_parse h f hf).body
  refine ⟨W, hcode.append ?_⟩
  split
  · exact .quiet rfl
  · exact .nil W

omit h in
/-- After a call, arrays are where they were. -/
theorem fixed_of_reply {Γ : Symbols} {V W : VarId → Prop} {f : Func} {flow : Flow} {w : Word}
    {s : Store} (hflow : flow.Keeps Γ V W) (hreply : f.reply flow = some (.value w s)) :
    Fixed Γ s.toWorld := by
  unfold Func.reply at hreply
  split at hreply
  · split at hreply
    · cases hreply
      exact Placed.globals hflow
    · split at hreply
      · cases hreply
        exact Placed.globals hflow
      · cases hreply
    · cases hreply
  · split at hreply
    · cases hreply
      exact hflow
    · split at hreply
      · cases hreply
        exact hflow
      · cases hreply
    · cases hreply
  all_goals cases hreply

/-- **Calls keep places**, whatever functions they call in turn. -/
theorem call_keeps (F : FloatUnit) {host : Host} (hhost : (program p).RespectedBy host)
    (name : String) (args : List Word) (s : Store) (hs : Fixed p.symbols s.toWorld) :
    (∀ x ∈ (program p).visits F host name args s, Yields p.symbols (program p) F x) ∧
      ∀ w s', (program p).call F host name args s = some (.value w s') →
        Fixed p.symbols s'.toWorld := by
  induction hn : s.ticks using Nat.strong_induction_on generalizing name args s with
  | _ n ih =>
    rcases (program p).call_cases F host name args s with
      ⟨hcall, hvisits⟩ | ⟨hcall, hvisits⟩ | ⟨f, k, hf, hk, hcall, hvisits⟩
    · -- the host answers, and it respects what has its place
      rw [hvisits, hcall]
      refine ⟨List.forall_mem_nil _, fun w s' heq => ?_⟩
      unfold Store.askHost at heq
      dsimp only at heq
      split at heq
      · rename_i hanswer
        cases heq
        have hsettled := (settled_iff_fixed h s.toWorld).2 hs
        exact (settled_iff_fixed h _).1 (hhost _ _ _ _ _ _ hanswer hsettled)
      · cases heq
    · rw [hvisits]
      exact ⟨List.forall_mem_nil _, fun w s' heq => absurd heq (hcall w s')⟩
    · -- calls inside the body have fewer ticks
      have hmem := List.mem_of_find?_eq_some hf
      rw [program_funcs] at hmem
      obtain ⟨g, hg, rfl⟩ := List.mem_map.1 hmem
      have hinner : CallsKeep p.symbols
          ((program p).site F host (function (.ofSymbols p.symbols) g) k) := by
        have hrest (name : String) (args : List Word) (s : Store)
            (hs : Fixed p.symbols s.toWorld) := by
          have hlt : min s.ticks k < n := by omega
          exact ih _ hlt name args (s.atMost k) hs rfl
        exact ⟨fun name args s w s' hs => (hrest name args s hs).2 w s',
          fun name args s hs => (hrest name args s hs).1⟩
      obtain ⟨W, hkeeps⟩ := keeps_body h hg rfl hinner
      have hstart := placed_start h hg (s := s.noteCall name args k) hs
        (startLocals ((function (.ofSymbols p.symbols) g).params.map (·.var)) args)
      rw [hvisits, hcall]
      exact ⟨hkeeps.visits [] _ hstart,
        fun w s' heq => fixed_of_reply (hkeeps.flow [] _ hstart) heq⟩

/-- **An array variable always holds its place.**  Whenever a run of a function
reads the variable of an array, at any depth of calls and in any turn of a
loop, the machine pushes the address that the array was given.  The functions
of the host may do anything but assign to globals that cannot be assigned
to. -/
theorem array_read_yields_place (F : FloatUnit) {host : Host}
    (hhost : (program p).RespectedBy host) (name : String) (args : List Word) {s : Store}
    (hs : (program p).Settled s.toWorld) {x : Visit}
    (hx : x ∈ (program p).visits F host name args s) {v : VarId}
    (hread : x.instr = .localGet v ∨ x.instr = .globalGet v) {sym : VarSymbol}
    (hv : p.symbols.var? v = some sym) (harray : sym.ty.isArray = true) :
    ∃ (address : Nat) (w : Word),
      (StaticLayout.ofTypes p.symbols.varTypes).address? v.index = some address ∧
      w.toNat = address ∧
      ∀ call, exec ((program p).context x.func) F call x.instr x.stack x.state =
        .next (⟨.i32, w⟩ :: x.stack) x.state := by
  have hfixed := (settled_iff_fixed h s.toWorld).1 hs
  have hyields := (call_keeps h F hhost name args s hfixed).1 x hx
  have hsome := isSome_layout_address? p.symbols v
  rw [hv, Option.any_some, harray] at hsome
  obtain ⟨address, haddress⟩ := Option.isSome_iff_exists.1 hsome
  refine ⟨address, BitVec.ofNat 32 address, haddress, ?_, ?_⟩
  · rw [BitVec.toNat_ofNat]
    exact Nat.mod_eq_of_lt (lt_of_address? haddress)
  · exact hyields v _ (place?_of_address? haddress) hread

end Programs

/-- A function with an array in a loop, which calls itself there. -/
def loopArrayText : String :=
  "int f(int n) { while (n) { int a[2]; n = f(0) + *a; } return 0; }"

def loopArrayFunction : Function where
  id := ⟨0⟩
  name := "f"
  ret := .int
  params := [⟨0⟩]
  locals := [⟨0⟩, ⟨1⟩]
  body := [
    .loop (.var ⟨0⟩ .int 1) [
      .declare ⟨1⟩ none,
      .expr (.binary .assign (.var ⟨0⟩ .int 1)
        (.binary (.arith .add) (.call ⟨0⟩ [.literal (.int 0) .int 1] .int 1)
          (.unary .deref (.var ⟨1⟩ (.array .int 2) 1) .int 1) .int 1) .void 1)],
    .ret (some (.literal (.int 0) .int 1))]

def loopArrayProgram : Program where
  items := [.function loopArrayFunction]
  imports := []
  symbols :=
    { vars := ⟨#[⟨"n", .int, .localVar, 1⟩, ⟨"a", .array .int 2, .localVar, 1⟩]⟩
      funcs := ⟨#[⟨"f", .int, [.int], .defined, 1⟩]⟩ }

set_option maxRecDepth 10000 in
theorem parse_loopArrayText : parse loopArrayText = .ok loopArrayProgram := by
  cbv

/-- The array is read in the loop, after the function has called itself. -/
theorem array_read_yields_place_after_call :
    ∃ x ∈ (program loopArrayProgram).visits sampleFloats (fun _ _ _ _ => none) "f" [1]
        sampleState.store,
      x.instr = .localGet ⟨1⟩ ∧ x.state.store.calls = [⟨"f", [1]⟩, ⟨"f", [0]⟩] ∧
      ∃ w : Word, w.toNat = 16 ∧ ∀ call,
        exec ((program loopArrayProgram).context x.func) sampleFloats call x.instr x.stack x.state =
          .next (⟨.i32, w⟩ :: x.stack) x.state := by
  have hread : ∃ x ∈ (program loopArrayProgram).visits sampleFloats (fun _ _ _ _ => none) "f" [1]
      sampleState.store,
      x.instr = .localGet ⟨1⟩ ∧ x.state.store.calls = [⟨"f", [1]⟩, ⟨"f", [0]⟩] := by
    refine ⟨_, List.mem_of_getElem? (i := 16) (by cbv), ?_⟩
    exact ⟨rfl, rfl⟩
  obtain ⟨x, hx, hinstr, hcalls⟩ := hread
  have hhost : (program loopArrayProgram).RespectedBy fun _ _ _ _ => none := by
    intro name args calls w r w' heq
    cases heq
  obtain ⟨address, w, haddress, hw, hexec⟩ := array_read_yields_place parse_loopArrayText
    sampleFloats hhost "f" [1] (fun g hg => absurd hg (List.not_mem_nil)) hx (.inl hinstr) rfl rfl
  cases haddress
  exact ⟨x, hx, hinstr, hcalls, w, hw, hexec⟩

end Lower

end MiniC
