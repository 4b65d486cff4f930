/-
  MiniC.Program

  Checked programs.

  A program lists its functions and global variables in source order.  What is
  known of each variable and function stands in a table of symbols, and the
  tree refers to them by their place in it.
-/
import MiniC.Expr
import MiniC.Table

namespace MiniC

/-! ## §1. Symbols -/

/-- Where a variable lives. -/
inductive Storage where
  /-- In one function. -/
  | localVar
  /-- In the whole program. -/
  | globalVar
  deriving DecidableEq, Repr

/-- What is known of a variable. -/
structure VarSymbol where
  name : String
  ty : Ty
  storage : Storage
  /-- The line of the name in its declaration. -/
  line : Nat
  deriving DecidableEq, Repr

/-- How much of a function has been seen. -/
inductive FuncState where
  /-- Provided by the host. -/
  | imported
  /-- Declared, without a body so far. -/
  | declared
  /-- With a body. -/
  | defined
  deriving DecidableEq, Repr

/-- What is known of a function. -/
structure FuncSymbol where
  name : String
  ret : Ty
  params : List Ty
  state : FuncState
  /-- The line of the name in its first declaration. -/
  line : Nat
  deriving DecidableEq, Repr

/-- All variables and functions of a program. -/
structure Symbols where
  vars : Table VarSymbol := {}
  funcs : Table FuncSymbol := {}
  deriving DecidableEq, Repr

namespace Symbols

/-- What is known of a variable. -/
def var? (s : Symbols) (v : VarId) : Option VarSymbol := s.vars.get? v.index

/-- What is known of a function. -/
def func? (s : Symbols) (f : FuncId) : Option FuncSymbol := s.funcs.get? f.index

/-- The variables' types in order of declaration. -/
def varTypes (s : Symbols) : List Ty := s.vars.rows.toList.map (·.ty)

end Symbols

/-! ## §2. Statements -/

mutual

/-- A statement. -/
inductive Stmt where
  /-- A local variable, with the value it starts with if one is given. -/
  | declare (v : VarId) (init : Option Expr)
  /-- An expression for its effect. -/
  | expr (e : Expr)
  /-- The end of the function, with its value if it has one. -/
  | ret (value : Option Expr)
  /-- One branch or the other. -/
  | branch (cond : Expr) (body : List Stmt) (otherwise : Else)
  /-- As long as the condition holds. -/
  | loop (cond : Expr) (body : List Stmt)
  /-- Leaves the innermost loop. -/
  | leave
  /-- Tests the condition of the innermost loop again. -/
  | again
  deriving Repr

/-- What is done if a condition fails. -/
inductive Else where
  /-- Nothing. -/
  | nothing
  /-- A further test. -/
  | branch (cond : Expr) (body : List Stmt) (otherwise : Else)
  /-- A block. -/
  | block (body : List Stmt)
  deriving Repr

end

/-- The statement ends the function. -/
def Stmt.isReturn : Stmt → Bool
  | .ret _ => true
  | _ => false

/-! ## §3. Programs -/

/-- A function with its body. -/
structure Function where
  id : FuncId
  name : String
  ret : Ty
  params : List VarId
  /-- Every variable declared in the function, the parameters first. -/
  locals : List VarId
  body : List Stmt
  deriving Repr

/-- A function or a global variable. -/
inductive Item where
  /-- A function with its body. -/
  | function (f : Function)
  /-- A global variable, with its constant if one is given. -/
  | global (v : VarId) (init : Option Literal)
  deriving Repr

/-- A checked program. -/
structure Program where
  /-- Functions and globals in source order. -/
  items : List Item
  /-- The functions that the host provides, in source order. -/
  imports : List FuncId
  /-- What is known of each variable and function. -/
  symbols : Symbols
  deriving Repr

end MiniC
