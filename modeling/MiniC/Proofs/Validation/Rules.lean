/-
  MiniC.Proofs.Validation.Rules

  When a module is valid.

  An instruction takes values of some types from the stack and leaves values
  of others; whatever lies below stays as it is.  After an instruction that
  does not go on (a return, a branch, a stop) the stack may be taken to be
  anything.  Blocks start with an empty stack and end with exactly their
  results.  The types of a stack are listed from the top on.

  A module is valid if all its functions are, no two things of one kind share
  a name, and its memory is not too large (`Module.Valid`).
-/
import MiniC.Proofs.Execution.Machine

namespace MiniC.Wasm

/-! ## §1. Code -/

/-- The type of what an operator on floats leaves. -/
def FloatOp.ty : FloatOp → ValType
  | .add | .sub | .mul | .div => .f32
  | .eq | .ne | .lt | .gt | .le | .ge => .i32

/-- The same names inside a block or loop with this label. -/
def Context.inside (C : Context) (l : Label) : Context := { C with labels := l :: C.labels }

mutual

/-- The types of the values that an instruction takes and leaves. -/
inductive InstrTyped : Context → Instr → List ValType → List ValType → Prop where
  | const {C : Context} (c : Const) : InstrTyped C (.const c) [] [c.ty]
  | localGet {C : Context} {v : VarId} {t : ValType} (h : C.localTy v = some t) :
      InstrTyped C (.localGet v) [] [t]
  | localSet {C : Context} {v : VarId} {t : ValType} (h : C.localTy v = some t) :
      InstrTyped C (.localSet v) [t] []
  | globalGet {C : Context} {v : VarId} {t : ValType} {mutable : Bool}
      (h : C.globalTy v = some (t, mutable)) : InstrTyped C (.globalGet v) [] [t]
  | globalSet {C : Context} {v : VarId} {t : ValType} (h : C.globalTy v = some (t, true)) :
      InstrTyped C (.globalSet v) [t] []
  | call {C : Context} {f : String} {ty : FuncType} (h : C.funcTy f = some ty) :
      InstrTyped C (.call f) ty.params.reverse ty.result.toList
  | load {C : Context} (t : ValType) (h : C.memory = true) : InstrTyped C (.load t) [.i32] [t]
  | int {C : Context} (op : IntOp) : InstrTyped C (.int op) [.i32, .i32] [.i32]
  | float {C : Context} (op : FloatOp) : InstrTyped C (.float op) [.f32, .f32] [op.ty]
  | eqz {C : Context} : InstrTyped C .eqz [.i32] [.i32]
  | floatNeg {C : Context} : InstrTyped C .floatNeg [.f32] [.f32]
  | convert {C : Context} : InstrTyped C .convert [.i32] [.f32]
  | truncate {C : Context} : InstrTyped C .truncate [.f32] [.i32]
  | drop {C : Context} (t : ValType) : InstrTyped C .drop [t] []
  | ret {C : Context} (ts us : List ValType) : InstrTyped C .ret (C.result.toList ++ ts) us
  | unreachable {C : Context} (ts us : List ValType) : InstrTyped C .unreachable ts us
  | br {C : Context} {l : Label} (h : l ∈ C.labels) (ts us : List ValType) :
      InstrTyped C (.br l) ts us
  | brIf {C : Context} {l : Label} (h : l ∈ C.labels) : InstrTyped C (.brIf l) [.i32] []
  | block {C : Context} {l : Label} {body : List Instr} (h : CodeTyped (C.inside l) body [] []) :
      InstrTyped C (.block l body) [] []
  | loop {C : Context} {l : Label} {body : List Instr} (h : CodeTyped (C.inside l) body [] []) :
      InstrTyped C (.loop l body) [] []
  | ifThen {C : Context} {body : List Instr} (h : CodeTyped C body [] []) :
      InstrTyped C (.ifThen body) [.i32] []
  | ifElse {C : Context} {body other : List Instr} (h : CodeTyped C body [] [])
      (h' : CodeTyped C other [] []) : InstrTyped C (.ifElse body other) [.i32] []
  | ifValue {C : Context} {body other : List Instr} (h : CodeTyped C body [] [.i32])
      (h' : CodeTyped C other [] [.i32]) : InstrTyped C (.ifValue body other) [.i32] [.i32]

/-- The types of a whole stack before and after code. -/
inductive CodeTyped : Context → List Instr → List ValType → List ValType → Prop where
  | nil {C : Context} {ts : List ValType} : CodeTyped C [] ts ts
  | cons {C : Context} {i : Instr} {is : List Instr} {ts us below vs : List ValType}
      (hi : InstrTyped C i ts us) (his : CodeTyped C is (us ++ below) vs) :
      CodeTyped C (i :: is) (ts ++ below) vs

end

section Code

variable {C : Context} {ts us vs : List ValType}

/-- One instruction, with the values below it. -/
theorem InstrTyped.code {i : Instr} (h : InstrTyped C i ts us) (below : List ValType) :
    CodeTyped C [i] (ts ++ below) (us ++ below) :=
  .cons h .nil

/-- Code one after the other. -/
theorem CodeTyped.append {code code' : List Instr} (h : CodeTyped C code ts us)
    (h' : CodeTyped C code' us vs) : CodeTyped C (code ++ code') ts vs := by
  induction code generalizing ts with
  | nil =>
    cases h
    exact h'
  | cons i is ih =>
    cases h with
    | cons hi his => exact .cons hi (ih his)

end Code

/-! ## §2. Memory -/

mutual

/-- There need not be memory if none is read. -/
theorem InstrTyped.withMemory {C : Context} {i : Instr} {ts us : List ValType} {memory : Bool}
    (h : InstrTyped C i ts us) (hm : i.readsMemory = true → memory = true) :
    InstrTyped { C with memory := memory } i ts us := by
  cases h with
  | const c => exact .const c
  | localGet h => exact .localGet h
  | localSet h => exact .localSet h
  | globalGet h => exact .globalGet h
  | globalSet h => exact .globalSet h
  | call h => exact .call h
  | load t h => exact .load t (hm rfl)
  | int op => exact .int op
  | float op => exact .float op
  | eqz => exact .eqz
  | floatNeg => exact .floatNeg
  | convert => exact .convert
  | truncate => exact .truncate
  | drop t => exact .drop t
  | ret ts us => exact .ret ts us
  | unreachable => exact .unreachable _ _
  | br h => exact InstrTyped.br (C := { C with memory := memory }) h _ _
  | brIf h => exact .brIf h
  | block h => exact .block (h.withMemory hm)
  | loop h => exact .loop (h.withMemory hm)
  | ifThen h => exact .ifThen (h.withMemory hm)
  | ifElse h h' =>
    simp only [Instr.readsMemory, Bool.or_eq_true] at hm
    exact .ifElse (h.withMemory fun hr => hm (.inl hr)) (h'.withMemory fun hr => hm (.inr hr))
  | ifValue h h' =>
    simp only [Instr.readsMemory, Bool.or_eq_true] at hm
    exact .ifValue (h.withMemory fun hr => hm (.inl hr)) (h'.withMemory fun hr => hm (.inr hr))

/-- Code that reads no memory needs none. -/
theorem CodeTyped.withMemory {C : Context} {code : List Instr} {ts us : List ValType}
    {memory : Bool} (h : CodeTyped C code ts us)
    (hm : codeReadsMemory code = true → memory = true) :
    CodeTyped { C with memory := memory } code ts us := by
  cases h with
  | nil => exact .nil
  | cons hi his =>
    simp only [codeReadsMemory, Bool.or_eq_true] at hm
    exact .cons (hi.withMemory fun hr => hm (.inl hr)) (his.withMemory fun hr => hm (.inr hr))

end

/-! ## §3. Modules -/

/-- The most pages that 32-bit addresses can reach. -/
def maxPages : Nat := 65536

/-- A valid function of a module. -/
structure Func.Valid (m : Module) (f : Func) : Prop where
  vars_nodup : ((f.params ++ f.locals).map (·.var)).Nodup
  /-- The body ends with exactly the result. -/
  body : CodeTyped (m.context f) f.body [] f.result.toList

/-- A valid module. -/
structure Module.Valid (m : Module) : Prop where
  funcs : ∀ f ∈ m.funcs, f.Valid m
  /-- No two functions share an identifier, the imported ones included. -/
  names_nodup : (m.imports.map (·.name) ++ m.funcs.map (·.name)).Nodup
  /-- No two functions are exported under one name. -/
  exports_nodup : (m.funcs.map (·.name)).Nodup
  globals_nodup : (m.globals.map (·.var)).Nodup
  memory : ∀ pages ∈ m.memory, pages ≤ maxPages

end MiniC.Wasm
