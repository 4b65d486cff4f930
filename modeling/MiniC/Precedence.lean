/-
  MiniC.Precedence

  From a flat run of operators and operands to a tree.

  An expression is read as a run: operands, operators in front of an operand
  and operators between two.  The run is collapsed in passes.  A pass looks at
  each finished node in turn and hands it to the neighbour that binds it
  tighter, where it fills the open side; the neighbour is finished once all
  its sides are filled.  A run that is well formed ends as one finished tree,
  in which operators in front bind tightest and those between two associate to
  the left.
-/
import MiniC.Fault

namespace MiniC

/-! ## §1. Binding powers -/

namespace BinaryOp

/-- How tightly an operator holds the operand on its left. -/
def leftPower : BinaryOp → Nat
  | .assign => 1
  | .logical _ => 3
  | .bitwise _ => 5
  | .compare _ => 7
  | .arith .add | .arith .sub => 10
  | .arith .mul | .arith .div => 20

/-- How tightly an operator holds the operand on its right: a little more, so
that it associates to the left. -/
def rightPower (op : BinaryOp) : Nat := op.leftPower + 1

end BinaryOp

/-- How tightly an operator in front holds its operand. -/
def unaryPower : Nat := 30

/-! ## §2. Runs and trees -/

/-- One element of a run, with its line. -/
inductive Part (α : Type) where
  /-- An operand. -/
  | operand (a : α) (line : Nat)
  /-- An operator in front of an operand; a cast names its target. -/
  | unary (op : UnaryOp) (target : Option Ty) (line : Nat)
  /-- An operator between two operands. -/
  | binary (op : BinaryOp) (line : Nat)
  deriving DecidableEq, Repr

/-- A tree of which some sides may still be open. -/
inductive Tree (α : Type) where
  /-- An open side. -/
  | hole
  /-- An operand. -/
  | operand (a : α) (line : Nat)
  /-- An operator in front of its operand. -/
  | unary (op : UnaryOp) (target : Option Ty) (line : Nat) (arg : Tree α)
  /-- An operator between its operands. -/
  | binary (op : BinaryOp) (line : Nat) (left right : Tree α)
  deriving DecidableEq, Repr

/-- The element as a tree, with its sides open. -/
def Part.toTree {α : Type} : Part α → Tree α
  | .operand a line => .operand a line
  | .unary op target line => .unary op target line .hole
  | .binary op line => .binary op line .hole .hole

namespace Tree

variable {α : Type}

/-- An open side. -/
def isHole : Tree α → Bool
  | .hole => true
  | _ => false

/-- No side of the root is open. -/
def isFinished : Tree α → Bool
  | .hole => false
  | .operand .. => true
  | .unary _ _ _ arg => !arg.isHole
  | .binary _ _ left right => !left.isHole && !right.isHole

/-- The line of the root. -/
def line : Tree α → Nat
  | .hole => 0
  | .operand _ line | .unary _ _ line _ | .binary _ line _ _ => line

/-- The power with which the root asks for an operand on its left. -/
def openLeft? : Tree α → Option Nat
  | .binary op _ .hole _ => some op.leftPower
  | _ => none

/-- The power with which the root asks for an operand on its right. -/
def openRight? : Tree α → Option Nat
  | .binary op _ _ .hole => some op.rightPower
  | .unary _ _ _ .hole => some unaryPower
  | _ => none

/-- The tree with `child` on the left of its root. -/
def fillLeft (t child : Tree α) : Tree α :=
  match t with
  | .binary op line _ right => .binary op line child right
  | t => t

/-- The tree with `child` on the right of its root. -/
def fillRight (t child : Tree α) : Tree α :=
  match t with
  | .binary op line left _ => .binary op line left child
  | .unary op target line _ => .unary op target line child
  | t => t

end Tree

/-! ## §3. Collapsing a run -/

namespace Precedence

variable {α : Type}

/-- A neighbour in a run. -/
inductive Side where
  | left | right
  deriving DecidableEq, Repr

/-- Which neighbour binds tighter, given the powers of those that ask. -/
def tighter : Option Nat → Option Nat → Option Side
  | none, none => none
  | some _, none => some .left
  | none, some _ => some .right
  | some l, some r => if r < l then some .left else some .right

/-- One pass over a run: the nodes gone past, nearest first, the node looked
at, and the nodes to come. -/
def pass (before : List (Tree α)) (here : Tree α) :
    List (Tree α) → Except Fault (List (Tree α))
  | [] =>
    if here.isFinished then
      match before with
      | [] => .ok [here]
      | left :: before =>
        match left.openRight? with
        | some _ => .ok (left.fillRight here :: before).reverse
        | none => .error ⟨.badCombination, here.line⟩
    else .ok (here :: before).reverse
  | next :: after =>
    if here.isFinished then
      match before with
      | [] =>
        match next.openLeft? with
        | some _ => pass [] (next.fillLeft here) after
        | none => .error ⟨.badCombination, here.line⟩
      | left :: before =>
        match tighter left.openRight? next.openLeft? with
        | some .left => pass (left.fillRight here :: before) next after
        | some .right => pass (left :: before) (next.fillLeft here) after
        | none => .error ⟨.badCombination, here.line⟩
    else pass (here :: before) next after

/-- Collapses a run into one tree.  A pass that hands on nothing ends it. -/
def collapse : List (Tree α) → Except Fault (Tree α)
  | [] => .ok .hole
  | [root] => .ok root
  | first :: second :: rest =>
    match pass [] first (second :: rest) with
    | .error f => .error f
    | .ok run =>
      if run.length < (first :: second :: rest).length then collapse run
      else .error ⟨.badExpression, first.line⟩
termination_by run => run.length
decreasing_by assumption

/-- Types a collapsed tree, operands first and from left to right; `line` is
where an open side is reported. -/
def finish (line : Nat) : Tree Expr → Except Fault Expr
  | .hole => .error ⟨.badExpression, line⟩
  | .operand e _ => .ok e
  | .unary op target line arg => do
    let arg ← finish line arg
    typed line (Typing.unary op target arg line)
  | .binary op line left right => do
    let left ← finish line left
    let right ← finish line right
    typed line (Typing.binary op left right line)

/-- The typed expression that a run stands for. -/
def resolve (parts : List (Part Expr)) : Except Fault Expr := do
  let root ← collapse (parts.map Part.toTree)
  finish root.line root

end Precedence

end MiniC
