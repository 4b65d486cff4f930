/-
  MiniC.Proofs.Execution.Machine

  The stack machine that modules run on.

  A value on the stack is 32 bits with a type; locals, globals and memory hold
  bits alone, and a name says with which type they are read.  An instruction
  that does not find operands of the types it needs, or a name that is not
  declared, leaves the machine `stuck`: that is a module that makes no sense,
  and not a trap, which is a division by zero or an address outside memory.

  Control is structured.  Running code ends in one of the ways of `Flow`: it
  goes on, branches to a label, returns, traps, or uses up its ticks.  A block
  runs on a stack of its own; what leaves it is what its type says.
-/
import MiniC.Proofs.Execution.Store
import MiniC.Wasm.Module

namespace MiniC.Wasm

open Exec

/-! ## §1. Values -/

/-- A value on the stack. -/
structure Value where
  ty : ValType
  bits : Word
  deriving DecidableEq, Repr

/-- The value of a constant. -/
def Const.value : Const → Value
  | .int n => ⟨.i32, n.toBitVec⟩
  | .word n => ⟨.i32, n.toBitVec⟩
  | .float x => ⟨.f32, x.bits.toBitVec⟩
  | .zero t => ⟨t, 0⟩

/-- Signed division, which has no result if the divisor is zero or the
quotient too large. -/
def divide (a b : Word) : Option Word :=
  if b = 0 ∨ (a = BitVec.intMin 32 ∧ b = -1) then none else some (a.sdiv b)

/-- An operator on two integers. -/
def IntOp.eval : IntOp → Word → Word → Option Word
  | .add, a, b => some (a + b)
  | .sub, a, b => some (a - b)
  | .mul, a, b => some (a * b)
  | .divS, a, b => divide a b
  | .and, a, b => some (a &&& b)
  | .or, a, b => some (a ||| b)
  | .eq, a, b => some (truth (a = b))
  | .ne, a, b => some (truth (a ≠ b))
  | .lt signed, a, b => some (truth (if signed then a.slt b else a.ult b))
  | .gt signed, a, b => some (truth (if signed then b.slt a else b.ult a))
  | .le signed, a, b => some (truth (if signed then a.sle b else a.ule b))
  | .ge signed, a, b => some (truth (if signed then b.sle a else b.ule a))

/-- An operator on two floats. -/
def FloatOp.eval (F : FloatUnit) : FloatOp → Word → Word → Value
  | .add, a, b => ⟨.f32, F.add a b⟩
  | .sub, a, b => ⟨.f32, F.sub a b⟩
  | .mul, a, b => ⟨.f32, F.mul a b⟩
  | .div, a, b => ⟨.f32, F.div a b⟩
  | .eq, a, b => ⟨.i32, truth (F.eq a b)⟩
  | .ne, a, b => ⟨.i32, truth (!F.eq a b)⟩
  | .lt, a, b => ⟨.i32, truth (F.lt a b)⟩
  | .gt, a, b => ⟨.i32, truth (F.lt b a)⟩
  | .le, a, b => ⟨.i32, truth (F.le a b)⟩
  | .ge, a, b => ⟨.i32, truth (F.le b a)⟩

/-! ## §2. Ends of code -/

/-- How a stretch of code ends. -/
inductive Flow where
  /-- At its end, with a stack. -/
  | next (vs : List Value) (st : State)
  /-- With a jump to a label. -/
  | branch (l : Label) (st : State)
  /-- With the end of the function. -/
  | returned (vs : List Value) (st : State)
  | trap (s : Store)
  /-- The ticks were used up. -/
  | exhausted (s : Store)
  /-- The code makes no sense. -/
  | stuck

namespace Flow

/-- Goes on with further code if the end was reached. -/
def andThen (flow : Flow) (k : List Value → State → Flow) : Flow :=
  match flow with
  | .next vs st => k vs st
  | flow => flow

/-- A jump to the label ends at the end of the block that has it. -/
def catchAt (l : Label) : Flow → Flow
  | .branch l' st => if l' = l then .next [] st else .branch l' st
  | flow => flow

/-- The end of a block on top of the stack `vs`, with results of the types
given. -/
def leave (results : List ValType) (vs : List Value) : Flow → Flow
  | .next vs' st => if vs'.map (·.ty) = results then .next (vs' ++ vs) st else .stuck
  | flow => flow

end Flow

/-! ## §3. Names -/

/-- The type of a function. -/
structure FuncType where
  params : List ValType
  result : Option ValType
  deriving DecidableEq, Repr

/-- What the names in the code of a function stand for. -/
structure Context where
  localTy : VarId → Option ValType
  /-- The type of a global, and whether it can be assigned to. -/
  globalTy : VarId → Option (ValType × Bool)
  funcTy : String → Option FuncType
  /-- What the function returns. -/
  result : Option ValType
  /-- There is memory. -/
  memory : Bool
  /-- The blocks and loops around the code. -/
  labels : List Label

/-- The type of an import. -/
def Import.type (i : Import) : FuncType := ⟨i.params, i.result⟩

/-- The type of a function. -/
def Func.type (f : Func) : FuncType := ⟨f.params.map (·.ty), f.result⟩

/-- The names of a module, in the code of one of its functions. -/
def Module.context (m : Module) (f : Func) : Context where
  localTy v := ((f.params ++ f.locals).find? (·.var = v)).map (·.ty)
  globalTy v := (m.globals.find? (·.var = v)).map fun g => (g.init.ty, g.mutable)
  funcTy name :=
    match m.imports.find? (·.name = name) with
    | some i => some i.type
    | none => (m.funcs.find? (·.name = name)).map Func.type
  result := f.result
  memory := m.memory.isSome
  labels := []

/-! ## §4. Running code -/

/-- Takes an operand of type `t`. -/
def pop (t : ValType) (vs : List Value) (k : Word → List Value → Flow) : Flow :=
  match vs with
  | [] => .stuck
  | v :: vs => if v.ty = t then k v.bits vs else .stuck

/-- Takes the arguments of a call, the last of which is on top. -/
def popArgs (params : List ValType) (vs : List Value) : Option (List Word × List Value) :=
  let args := (vs.take params.length).reverse
  if args.map (·.ty) = params then some (args.map (·.bits), vs.drop params.length) else none

/-- Pushes the result of a call, if it has one. -/
def pushResult : Option ValType → Word → List Value → List Value
  | some t, w, vs => ⟨t, w⟩ :: vs
  | none, _, vs => vs

/-- Turns of a loop: one after the other, as long as the body jumps back to
the loop's label.  Each takes a tick. -/
def turns (l : Label) (body : State → Flow) (st : State) : Flow :=
  match _h : st.store.ticks with
  | 0 => .exhausted st.store
  | n + 1 =>
    match body (st.withTicks n) with
    | .branch l' st' =>
      -- a jump to any other label goes out of the loop
      if l' = l then turns l body { st' with store := st'.store.atMost n } else .branch l' st'
    | flow => flow
termination_by st.store.ticks
decreasing_by
  show min st'.store.ticks n < st.store.ticks
  omega

section

variable (C : Context) (F : FloatUnit) (call : String → List Word → Store → Option Reply)

mutual

/-- Runs one instruction. -/
def exec : Instr → List Value → State → Flow
  | .const c, vs, st => .next (c.value :: vs) st
  | .localGet v, vs, st =>
    match C.localTy v with
    | some t => .next (⟨t, st.locals v⟩ :: vs) st
    | none => .stuck
  | .localSet v, vs, st =>
    match C.localTy v with
    | some t => pop t vs fun w vs => .next vs (st.setLocal v w)
    | none => .stuck
  | .globalGet v, vs, st =>
    match C.globalTy v with
    | some (t, _) => .next (⟨t, st.store.globals v⟩ :: vs) st
    | none => .stuck
  | .globalSet v, vs, st =>
    match C.globalTy v with
    -- a global that cannot be changed is as bad as none
    | some (t, true) => pop t vs fun w vs => .next vs (st.setGlobal v w)
    | _ => .stuck
  | .call f, vs, st =>
    match C.funcTy f with
    | none => .stuck
    | some ty =>
      match popArgs ty.params vs with
      | none => .stuck
      | some (args, vs) =>
        match call f args st.store with
        | some (.value w s) => .next (pushResult ty.result w vs) { st with store := s }
        | some (.trap s) => .trap s
        | some (.exhausted s) => .exhausted s
        | none => .stuck
  | .load t, vs, st =>
    pop .i32 vs fun address vs =>
      match st.store.memory.load address with
      | some w => .next (⟨t, w⟩ :: vs) st
      | none => .trap st.store
  | .int op, vs, st =>
    pop .i32 vs fun b vs => pop .i32 vs fun a vs =>
      match op.eval a b with
      | some w => .next (⟨.i32, w⟩ :: vs) st
      | none => .trap st.store
  | .float op, vs, st =>
    pop .f32 vs fun b vs => pop .f32 vs fun a vs => .next (op.eval F a b :: vs) st
  | .eqz, vs, st => pop .i32 vs fun w vs => .next (⟨.i32, truth (w = 0)⟩ :: vs) st
  | .floatNeg, vs, st => pop .f32 vs fun w vs => .next (⟨.f32, F.neg w⟩ :: vs) st
  | .convert, vs, st => pop .i32 vs fun w vs => .next (⟨.f32, F.ofInt w⟩ :: vs) st
  | .truncate, vs, st =>
    pop .f32 vs fun w vs =>
      match F.toInt? w with
      | some n => .next (⟨.i32, n⟩ :: vs) st
      | none => .trap st.store
  | .drop, vs, st =>
    match vs with
    | [] => .stuck
    | _ :: vs => .next vs st
  | .ret, vs, st => .returned vs st
  | .unreachable, _, st => .trap st.store
  | .br l, _, st => .branch l st
  | .brIf l, vs, st => pop .i32 vs fun w vs => if w = 0 then .next vs st else .branch l st
  -- the bodies of blocks run on stacks of their own
  | .block l body, vs, st => ((execAll body [] st).catchAt l).leave [] vs
  | .loop l body, vs, st => (turns l (fun st => execAll body [] st) st).leave [] vs
  | .ifThen body, vs, st =>
    pop .i32 vs fun w vs =>
      if w = 0 then .next vs st else (execAll body [] st).leave [] vs
  | .ifElse body other, vs, st =>
    pop .i32 vs fun w vs =>
      if w = 0 then (execAll other [] st).leave [] vs else (execAll body [] st).leave [] vs
  | .ifValue body other, vs, st =>
    pop .i32 vs fun w vs =>
      if w = 0 then (execAll other [] st).leave [.i32] vs
      else (execAll body [] st).leave [.i32] vs

/-- Runs instructions one after the other. -/
def execAll : List Instr → List Value → State → Flow
  | [], vs, st => .next vs st
  | i :: is, vs, st => (exec i vs st).andThen fun vs st => execAll is vs st

end

end

/-! ## §5. Running functions -/

/-- How a call ends if the body of the function ends so: there has to be a
result if the function has one, and nothing else may be left at the end. -/
def Func.reply (f : Func) : Flow → Option Reply
  | .next vs st =>
    match f.result, vs with
    | none, [] => some (.value 0 st.store)
    | some t, [v] => if v.ty = t then some (.value v.bits st.store) else none
    | _, _ => none
  | .returned vs st =>
    match f.result, vs with
    | none, _ => some (.value 0 st.store)
    | some t, v :: _ => if v.ty = t then some (.value v.bits st.store) else none
    | some _, [] => none
  | .trap s => some (.trap s)
  | .exhausted s => some (.exhausted s)
  | .branch .. | .stuck => none

/-- Calls a function of a module by its name; nothing comes back if the module
makes no sense. -/
def Module.call (m : Module) (F : FloatUnit) (host : Host) (name : String) (args : List Word)
    (s : Store) : Option Reply :=
  match m.imports.find? (·.name = name) with
  | some _ => some (s.askHost host name args)
  | none =>
    match m.funcs.find? (·.name = name) with
    | none => none
    | some f =>
      if args.length = f.params.length then
        -- the call takes a tick, and calls inside it get no more than are left
        match _h : s.ticks with
        | 0 => some (.exhausted s)
        | n + 1 =>
          f.reply (execAll (m.context f) F
            (fun name args s' => m.call F host name args (s'.atMost n)) f.body []
            ⟨startLocals (f.params.map (·.var)) args, s.noteCall name args n⟩)
      else none
termination_by s.ticks
decreasing_by
  show min s'.ticks n < s.ticks
  omega

end MiniC.Wasm
