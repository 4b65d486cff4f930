/-
  MiniC.Scope

  Which name means what at a place in the source.

  Blocks nest, and each has a frame of its own for the names it declares.  A
  name means what the innermost frame that has it says.  A frame has a name at
  most once.  Variables and functions share the names.
-/
import MiniC.Expr

namespace MiniC

/-- What a name stands for. -/
inductive Binding where
  | var (v : VarId)
  | func (f : FuncId)
  deriving DecidableEq, Repr

/-- The names of one block. -/
abbrev Frame := List (String × Binding)

/-- The open frames: those of the blocks around a place, innermost first, and
the global one beyond them. -/
structure Scope where
  /-- The frames of the open blocks, innermost first. -/
  inner : List Frame := []
  /-- The global frame, which is always open. -/
  outer : Frame := []
  deriving DecidableEq, Repr

/-- A second declaration of a name in one block. -/
structure Duplicate where
  /-- What the name already stands for. -/
  first : Binding
  /-- What it was to stand for. -/
  second : Binding
  deriving DecidableEq, Repr

namespace Scope

/-- Only the global frame, with no names in it. -/
def empty : Scope := {}

/-- Opens a block. -/
def push (s : Scope) : Scope := { s with inner := [] :: s.inner }

/-- Closes the innermost block.  The global frame stays. -/
def pop (s : Scope) : Scope := { s with inner := s.inner.tail }

/-- The innermost frame. -/
def top (s : Scope) : Frame := s.inner.headD s.outer

/-- What a name stands for. -/
def get? (s : Scope) (name : String) : Option Binding :=
  (s.inner ++ [s.outer]).findSome? (·.lookup name)

/-- Gives a name a meaning in the innermost frame, unless it has one there. -/
def add (s : Scope) (name : String) (b : Binding) : Except Duplicate Scope :=
  match s.top.lookup name with
  | some first => .error ⟨first, b⟩
  | none =>
    match s.inner with
    | [] => .ok { s with outer := (name, b) :: s.outer }
    | frame :: frames => .ok { s with inner := ((name, b) :: frame) :: frames }

end Scope

end MiniC
