/-
  MiniC.Proofs.Execution.Tree

  What a checked program means, by a walk over its tree.

  Operands and arguments are evaluated from left to right.  Integers are
  computed exactly and wrapped to 32 bits; a quotient that does not exist or
  does not fit traps.  Pointers are ordered as unsigned numbers, what is added
  to them counts in elements, and the bytes between two of them are divided by
  the size of an element, both as signed words.  An array is its own address, so it is
  never read from memory.

  A statement that does not trap completes in one of the ways of `Completion`.
  Locals start at zero; an array is given its place in memory where it is
  declared; a function that has to return a value traps at its end.

  Nothing here knows of instructions.
-/
import MiniC.Memory
import MiniC.Program
import MiniC.Proofs.Execution.Store

namespace MiniC.Eval

open Exec

/-! ## §1. Results -/

/-- How an evaluation ends. -/
inductive Result (α : Type) where
  | value (a : α) (st : State)
  | trap (s : Store)
  /-- The ticks were used up. -/
  | exhausted (s : Store)

namespace Result

variable {α β : Type}

/-- Goes on if there is a value. -/
def andThen (r : Result α) (k : α → State → Result β) : Result β :=
  match r with
  | .value a st => k a st
  | .trap s => .trap s
  | .exhausted s => .exhausted s

/-- A trap if there is no value. -/
def orTrap (a? : Option α) (st : State) : Result α :=
  match a? with
  | some a => .value a st
  | none => .trap st.store

/-- The end of a call seen from its caller, whose locals stay as they are. -/
def ofReply (st : State) : Reply → Result Word
  | .value w s => .value w { st with store := s }
  | .trap s => .trap s
  | .exhausted s => .exhausted s

end Result

/-! ## §2. Operators -/

/-- The quotient toward zero; none if the divisor is zero, or if the quotient
is the one that does not fit. -/
def quotient (a b : Int) : Option Word :=
  if b = 0 ∨ (a = -0x80000000 ∧ b = -1) then none else some (.ofInt 32 (a.tdiv b))

/-- Arithmetic on integers. -/
def intArith (op : ArithOp) (a b : Int) : Option Word :=
  match op with
  | .add => some (.ofInt 32 (a + b))
  | .sub => some (.ofInt 32 (a - b))
  | .mul => some (.ofInt 32 (a * b))
  | .div => quotient a b

/-- Arithmetic on floats. -/
def floatArith (F : FloatUnit) (op : ArithOp) (a b : Word) : Word :=
  match op with
  | .add => F.add a b
  | .sub => F.sub a b
  | .mul => F.mul a b
  | .div => F.div a b

/-- Arithmetic on operands of types `l` and `r`.  A difference of pointers is
divided by the size of an element as a signed word, which is the size itself
below 2 ^ 31 (`Lower.arith_difference_of_lt`). -/
def arith (F : FloatUnit) (op : ArithOp) (l r : Ty) (a b : Word) : Option Word :=
  match l.isPointerLike, r.isPointerLike with
  -- the difference of two addresses is taken as signed before it is divided
  | true, true =>
    quotient (BitVec.ofInt 32 ((a.toNat : Int) - b.toNat)).toInt (BitVec.ofNat 32 l.stride).toInt
  -- a number next to a pointer counts elements
  | true, false =>
    let bytes := b.toInt * l.stride
    some (.ofInt 32 (if op = .sub then a.toNat - bytes else a.toNat + bytes))
  | false, true => some (.ofInt 32 (a.toInt * r.stride + b.toNat))
  | false, false =>
    if l = .float then some (floatArith F op a b) else intArith op a.toInt b.toInt

/-- The order of numbers. -/
def compareInt (op : CompareOp) (a b : Int) : Bool :=
  match op with
  | .eq => a = b
  | .notEq => a ≠ b
  | .lt => a < b
  | .gt => a > b
  | .ltEq => a ≤ b
  | .gtEq => a ≥ b

/-- The order of floats. -/
def compareFloat (F : FloatUnit) (op : CompareOp) (a b : Word) : Bool :=
  match op with
  | .eq => F.eq a b
  | .notEq => !F.eq a b
  | .lt => F.lt a b
  | .gt => F.lt b a
  | .ltEq => F.le a b
  | .gtEq => F.le b a

/-- Compares two values of type `ty`. -/
def compare (F : FloatUnit) (op : CompareOp) (ty : Ty) (a b : Word) : Bool :=
  if ty = .float then compareFloat F op a b
  else if ty.isPointerLike then compareInt op a.toNat b.toNat
  else compareInt op a.toInt b.toInt

/-- Combines the bits of two integers. -/
def bitwise : BitOp → Word → Word → Word
  | .and, a, b => a &&& b
  | .or, a, b => a ||| b

/-- A value of type `ty` counts as true if it is not zero. -/
def holds (F : FloatUnit) (ty : Ty) (w : Word) : Bool :=
  if ty = .float then !F.eq w 0 else w ≠ 0

/-- The number with the other sign. -/
def negate (F : FloatUnit) (ty : Ty) (w : Word) : Word :=
  if ty = .float then F.neg w else .ofInt 32 (-w.toInt)

/-- Conversion between integers and floats; all else keeps its bits. -/
def convert (F : FloatUnit) : Ty → Ty → Word → Option Word
  | .int, .float, w => some (F.ofInt w)
  | .float, .int, w => F.toInt? w
  | _, _, w => some w

/-! ## §3. Variables -/

section Variables

variable (Γ : Symbols)

/-- The variable is one of the whole program. -/
def isGlobal (v : VarId) : Bool := (Γ.var? v).any (·.storage = .globalVar)

/-- The value of a variable. -/
def read (v : VarId) (st : State) : Word :=
  if isGlobal Γ v then st.store.globals v else st.locals v

/-- Gives a variable a value. -/
def write (v : VarId) (w : Word) (st : State) : State :=
  if isGlobal Γ v then st.setGlobal v w else st.setLocal v w

/-- The place in memory of a variable that is an array. -/
def place? (v : VarId) : Option Word :=
  if (Γ.var? v).any (·.ty.isArray) then
    ((StaticLayout.ofTypes Γ.varTypes).address? v.index).map (BitVec.ofNat 32)
  else none

end Variables

/-! ## §4. Expressions -/

section Exprs

variable (Γ : Symbols) (F : FloatUnit) (call : FuncId → List Word → Store → Reply)

mutual

/-- The value of an expression.  An assignment gives the value assigned. -/
def expr : Expr → State → Result Word
  | .literal (.int n) _ _, st => .value n.toBitVec st
  | .literal (.float x) _ _, st => .value x.bits.toBitVec st
  | .var v _ _, st => .value (read Γ v st) st
  | .call f args _ _, st =>
    (exprs args st).andThen fun ws st => .ofReply st (call f ws st.store)
  | .unary .negate e _ _, st =>
    (expr e st).andThen fun w st => .value (negate F e.ty w) st
  | .unary .not e _ _, st =>
    (expr e st).andThen fun w st => .value (truth (!holds F e.ty w)) st
  | .unary .deref e _ _, st =>
    (expr e st).andThen fun w st =>
      -- an array is not read but stands for its address
      if e.ty.base?.any Ty.isArray then .value w st else .orTrap (st.store.memory.load w) st
  -- the address of what is at an address reads nothing
  | .unary .addressOf (.unary .deref e _ _) _ _, st => expr e st
  | .unary .addressOf e _ _, st => expr e st
  | .unary .cast e ty _, st =>
    (expr e st).andThen fun w st => .orTrap (convert F e.ty ty w) st
  | .binary .assign (.var v _ _) r _ _, st =>
    (expr r st).andThen fun w st => .value w (write Γ v w st)
  | .binary .assign _ r _ _, st => expr r st
  | .binary (.arith op) l r _ _, st =>
    (expr l st).andThen fun a st => (expr r st).andThen fun b st =>
      .orTrap (arith F op l.ty r.ty a b) st
  | .binary (.compare op) l r _ _, st =>
    (expr l st).andThen fun a st => (expr r st).andThen fun b st =>
      .value (truth (compare F op l.ty a b)) st
  | .binary (.bitwise op) l r _ _, st =>
    (expr l st).andThen fun a st => (expr r st).andThen fun b st =>
      .value (bitwise op a b) st
  | .binary (.logical .and) l r _ _, st =>
    (expr l st).andThen fun a st =>
      if holds F l.ty a then
        (expr r st).andThen fun b st => .value (truth (holds F r.ty b)) st
      else .value 0 st
  | .binary (.logical .or) l r _ _, st =>
    (expr l st).andThen fun a st =>
      if holds F l.ty a then .value 1 st
      else (expr r st).andThen fun b st => .value (truth (holds F r.ty b)) st

/-- The values of expressions, from left to right. -/
def exprs : List Expr → State → Result (List Word)
  | [], st => .value [] st
  | e :: es, st =>
    (expr e st).andThen fun w st => (exprs es st).andThen fun ws st => .value (w :: ws) st

end

end Exprs

/-! ## §5. Statements -/

/-- How a statement completes. -/
inductive Completion where
  /-- The next statement follows. -/
  | normal
  /-- The innermost loop is left. -/
  | leave
  /-- The condition of the innermost loop is tested again. -/
  | again
  /-- The function returns. -/
  | ret (w : Option Word)
  deriving DecidableEq, Repr

/-- A loop: the body is run as long as the condition holds.  Each turn takes a
tick. -/
def whileLoop (cond : State → Result Bool) (body : State → Result Completion) (st : State) :
    Result Completion :=
  match _h : st.store.ticks with
  | 0 => .exhausted st.store
  | n + 1 =>
    (cond (st.withTicks n)).andThen fun b st' =>
      if b then
        (body st').andThen fun c st' =>
          match c with
          -- the end of the body and a wish to test again are the same to the loop
          | .normal | .again => whileLoop cond body { st' with store := st'.store.atMost n }
          | .leave => .value .normal st'
          | .ret w => .value (.ret w) st'
      else .value .normal st'
termination_by st.store.ticks
decreasing_by
  all_goals
    show min st'.store.ticks n < st.store.ticks
    omega

section Stmts

variable (Γ : Symbols) (F : FloatUnit) (call : FuncId → List Word → Store → Reply)

/-- Whether a condition holds. -/
def test (e : Expr) (st : State) : Result Bool :=
  (expr Γ F call e st).andThen fun w st => .value (holds F e.ty w) st

mutual

/-- Runs a statement. -/
def stmt : Stmt → State → Result Completion
  | .declare v init, st =>
    match place? Γ v, init with
    | some address, _ => .value .normal (write Γ v address st)
    | none, some e => (expr Γ F call e st).andThen fun w st => .value .normal (write Γ v w st)
    | none, none => .value .normal st
  | .expr e, st => (expr Γ F call e st).andThen fun _ st => .value .normal st
  | .ret none, st => .value (.ret none) st
  | .ret (some e), st => (expr Γ F call e st).andThen fun w st => .value (.ret (some w)) st
  | .branch cond body otherwise, st =>
    (test Γ F call cond st).andThen fun b st =>
      if b then stmts body st else elseBranch otherwise st
  | .loop cond body, st => whileLoop (test Γ F call cond) (fun st => stmts body st) st
  | .leave, st => .value .leave st
  | .again, st => .value .again st

/-- Runs what is done if a condition fails. -/
def elseBranch : Else → State → Result Completion
  | .nothing, st => .value .normal st
  | .branch cond body otherwise, st =>
    (test Γ F call cond st).andThen fun b st =>
      if b then stmts body st else elseBranch otherwise st
  | .block body, st => stmts body st

/-- Runs statements in order, as long as they complete normally. -/
def stmts : List Stmt → State → Result Completion
  | [], st => .value .normal st
  | s :: ss, st =>
    (stmt s st).andThen fun c st =>
      match c with
      | .normal => stmts ss st
      | c => .value c st

end

end Stmts

/-! ## §6. Programs -/

/-- The end of a call of a function that returns `ret`, if its body ends so. -/
def reply (ret : Ty) : Result Completion → Reply
  | .value (.ret w) st => .value (w.getD 0) st.store
  -- a body that reaches its end without a value it owes
  | .value _ st => if ret = .void then .value 0 st.store else .trap st.store
  | .trap s => .trap s
  | .exhausted s => .exhausted s

/-- The function of a program with a body, by its place in the table. -/
def function? (p : Program) (f : FuncId) : Option Function :=
  p.items.findSome? fun
    | .function g => if g.id = f then some g else none
    | .global .. => none

/-- The name of a function. -/
def nameOf (Γ : Symbols) (f : FuncId) : String := ((Γ.func? f).map (·.name)).getD ""

theorem nameOf_eq {Γ : Symbols} {f : FuncId} {sym : FuncSymbol} (h : Γ.func? f = some sym) :
    nameOf Γ f = sym.name := by
  rw [nameOf, h]
  rfl

/-- Calls a function of a program.  One without a body is the host's. -/
def call (p : Program) (F : FloatUnit) (host : Host) (f : FuncId) (args : List Word)
    (s : Store) : Reply :=
  match function? p f with
  | none => s.askHost host (nameOf p.symbols f) args
  | some g =>
    match _h : s.ticks with
    | 0 => .exhausted s
    | n + 1 =>
      reply g.ret (stmts p.symbols F (fun f args s' => call p F host f args (s'.atMost n)) g.body
        ⟨startLocals g.params args, s.noteCall (nameOf p.symbols f) args n⟩)
termination_by s.ticks
decreasing_by
  show min s'.ticks n < s.ticks
  omega

end MiniC.Eval
