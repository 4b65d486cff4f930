/-
  MiniC.Outline

  The phrases of a source text, as its grammar alone gives them.

  An outline records what was read before any name is looked up and any type
  is checked: expressions are still flat runs, and nothing says what a name
  stands for.  Reading ends at the first place where the grammar fails.  What
  was read up to there is kept, and a broken leaf at that place holds the
  fault, so that whoever walks the outline in order meets complaints in the
  order of the text.
-/
import MiniC.Fault

namespace MiniC.Outline

/-! ## §1. Expressions -/

mutual

/-- An element of an expression. -/
inductive Node where
  /-- A whole number. -/
  | int (n : Int32) (line : Nat)
  /-- A number with a point. -/
  | float (x : Binary32) (line : Nat)
  /-- A name on its own. -/
  | name (x : String) (line : Nat)
  /-- A name and its arguments. -/
  | call (f : String) (line : Nat) (args : Args)
  /-- An expression in parentheses. -/
  | group (inner : Run)
  /-- An operator in front of an operand; a cast names its target. -/
  | unary (op : UnaryOp) (target : Option Ty) (line : Nat)
  /-- An operator between two operands. -/
  | binary (op : BinaryOp) (line : Nat)
  /-- Reading ended here. -/
  | broken (f : Fault)
  deriving Repr

/-- An expression: one element or more. -/
inductive Run where
  | last (n : Node)
  | more (n : Node) (rest : Run)
  deriving Repr

/-- The arguments of a call. -/
inductive Args where
  | none
  | arg (e : Run) (rest : Args)
  deriving Repr

end

/-- The element is an operand, so that an operator between two may follow. -/
def Node.isOperand : Node → Bool
  | .unary .. | .binary .. => false
  | _ => true

/-! ## §2. Declarations and statements -/

/-- How a variable starts. -/
inductive Initial where
  /-- Without a value. -/
  | none
  /-- With the value of an expression. -/
  | value (e : Run)
  /-- Reading ended here. -/
  | broken (f : Fault)
  deriving Repr

/-- The declaration of a variable. -/
structure Declaration where
  /-- The type before the name. -/
  base : Ty
  name : String
  /-- The line of the name. -/
  line : Nat
  /-- The lengths in brackets after the name. -/
  lengths : List Run
  init : Initial
  deriving Repr

mutual

/-- A statement. -/
inductive Stmt where
  /-- A variable. -/
  | declare (d : Declaration)
  /-- An expression. -/
  | expr (e : Run)
  /-- A return without a value. -/
  | ret (line : Nat)
  /-- A return with a value. -/
  | retValue (e : Run)
  /-- A test and what depends on it. -/
  | branch (cond : Run) (body : List Stmt) (otherwise : Else)
  /-- A loop. -/
  | loop (cond : Run) (body : List Stmt)
  /-- A jump out of a loop, and the fault if no semicolon follows. -/
  | leave (line : Nat) (fault : Option Fault)
  /-- A jump back to the test of a loop, and the fault if no semicolon
  follows. -/
  | again (line : Nat) (fault : Option Fault)
  /-- Reading ended here. -/
  | broken (f : Fault)
  deriving Repr

/-- What follows the block of a test. -/
inductive Else where
  /-- Nothing. -/
  | nothing
  /-- A further test. -/
  | branch (cond : Run) (body : List Stmt) (otherwise : Else)
  /-- A block. -/
  | block (body : List Stmt)
  deriving Repr

end

/-! ## §3. Items -/

/-- A parameter of a function. -/
structure Param where
  ty : Ty
  name : String
  /-- The line of the name. -/
  line : Nat
  deriving DecidableEq, Repr

/-- The head of a function. -/
structure Signature where
  ret : Ty
  name : String
  /-- The line of the name. -/
  line : Nat
  params : List Param
  /-- The fault, if reading ended among the parameters. -/
  fault : Option Fault
  deriving DecidableEq, Repr

/-- What follows the head of a function. -/
inductive Body where
  /-- Nothing: a declaration. -/
  | none
  /-- A block: a definition. -/
  | block (body : List Stmt)
  /-- Reading ended here. -/
  | broken (f : Fault)
  deriving Repr

/-- A declaration at the top of a program. -/
inductive Item where
  /-- A function of the host, and the fault if no semicolon follows. -/
  | imported (sig : Signature) (fault : Option Fault)
  /-- A function. -/
  | function (sig : Signature) (body : Body)
  /-- A global variable. -/
  | global (d : Declaration)
  /-- Reading ended here. -/
  | broken (f : Fault)
  deriving Repr

end MiniC.Outline
