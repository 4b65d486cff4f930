/-
  MiniC.Proofs.Execution.Store

  What a program works on when it runs.

  A variable holds 32 bits, whatever its type.  Locals belong to one call of a
  function; globals and memory are shared.  The calls made so far are noted in
  order, so that two runs that end in one store have made the same calls.

  A run has a number of ticks.  Every call of a function of the program and
  every turn of a loop takes one, and nothing else can go on for ever, so the
  ticks bound the length of a run.

  What floats do is left open (`FloatUnit`), and so is what the host does
  (`Host`).
-/
import MiniC.Expr

namespace MiniC.Exec

/-! ## §1. Words -/

/-- 32 bits. -/
abbrev Word := BitVec 32

/-- One for true and zero for false. -/
def truth (b : Bool) : Word := if b then 1 else 0

/-- What can be done with floats, each given by its bits. -/
structure FloatUnit where
  add : Word → Word → Word
  sub : Word → Word → Word
  mul : Word → Word → Word
  div : Word → Word → Word
  eq : Word → Word → Bool
  lt : Word → Word → Bool
  le : Word → Word → Bool
  neg : Word → Word
  /-- The float nearest to a signed integer. -/
  ofInt : Word → Word
  /-- The signed integer toward zero; none if it does not fit. -/
  toInt? : Word → Option Word

/-! ## §2. States -/

/-- Linear memory. -/
structure LinearMemory where
  /-- The number of bytes. -/
  size : Nat
  byte : Nat → BitVec 8

/-- The four bytes at an address, the lowest first; none if they are not all
in memory. -/
def LinearMemory.load (m : LinearMemory) (address : Word) : Option Word :=
  let a := address.toNat
  if a + 4 ≤ m.size then
    some (m.byte (a + 3) ++ m.byte (a + 2) ++ m.byte (a + 1) ++ m.byte a)
  else none

/-- What a call leaves behind, apart from its result. -/
structure World where
  globals : VarId → Word
  memory : LinearMemory

/-- A call that was made. -/
structure Call where
  name : String
  args : List Word
  deriving DecidableEq, Repr

/-- All that the functions of a program share. -/
structure Store extends World where
  /-- The calls made so far, in order. -/
  calls : List Call
  /-- How many calls and turns of loops may still come. -/
  ticks : Nat

/-- What the body of a function works on. -/
structure State where
  locals : VarId → Word
  store : Store

namespace State

/-- Gives a local a value. -/
def setLocal (st : State) (v : VarId) (w : Word) : State :=
  { st with locals := fun v' => if v' = v then w else st.locals v' }

/-- Gives a global a value. -/
def setGlobal (st : State) (v : VarId) (w : Word) : State :=
  { st with store := { st.store with
      globals := fun v' => if v' = v then w else st.store.globals v' } }

/-- With `n` ticks left. -/
def withTicks (st : State) (n : Nat) : State := { st with store := { st.store with ticks := n } }

end State

namespace Store

/-- With no more than `n` ticks left.  No run gains ticks, so this changes
nothing after one that started with `n`; it makes plain that a loop ends. -/
def atMost (s : Store) (n : Nat) : Store := { s with ticks := min s.ticks n }

/-- A call is noted, which leaves `n` ticks. -/
def noteCall (s : Store) (name : String) (args : List Word) (n : Nat) : Store :=
  { s with calls := s.calls ++ [⟨name, args⟩], ticks := n }

end Store

/-- How a call ends. -/
inductive Reply where
  /-- With a result; what it is does not matter for a function without one. -/
  | value (w : Word) (s : Store)
  | trap (s : Store)
  /-- The ticks were used up. -/
  | exhausted (s : Store)

/-- What the functions of the host do with a name, arguments, the calls made
before and what there is; a trap if nothing comes back. -/
abbrev Host := String → List Word → List Call → World → Option (Word × World)

/-- A call of a function of the host. -/
def Store.askHost (s : Store) (host : Host) (name : String) (args : List Word) : Reply :=
  let after := s.noteCall name args s.ticks
  match host name args s.calls s.toWorld with
  | some (w, world) => .value w { after with toWorld := world }
  | none => .trap after

/-- The locals of a function when it starts: its arguments, and zero in all
others. -/
def startLocals (params : List VarId) (args : List Word) (v : VarId) : Word :=
  ((params.zip args).lookup v).getD 0

end MiniC.Exec
