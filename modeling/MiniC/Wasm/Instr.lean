/-
  MiniC.Wasm.Instr

  The instructions of the stack machine that programs are compiled to.

  These are the instructions of WebAssembly that the compiler uses.  Control
  is structured: a block, a loop and a test hold the instructions inside them,
  and a branch names the block or loop it goes to.  Variables and functions
  keep the names that the text of a module gives them.
-/
import MiniC.Binary32.Decimal
import MiniC.Expr

namespace MiniC.Wasm

/-! ## §1. Values -/

/-- The types of values on the stack. -/
inductive ValType where
  | i32 | f32
  deriving DecidableEq, Repr

/-- A constant. -/
inductive Const where
  /-- A signed integer. -/
  | int (n : Int32)
  /-- An address or a number of bytes. -/
  | word (n : UInt32)
  /-- A float. -/
  | float (x : Binary32)
  /-- Zero of either type. -/
  | zero (t : ValType)
  deriving DecidableEq, Repr

/-- The type of a constant. -/
def Const.ty : Const → ValType
  | .int _ | .word _ => .i32
  | .float _ => .f32
  | .zero t => t

/-! ## §2. Operators -/

/-- Operators on two integers. -/
inductive IntOp where
  | add | sub | mul | divS | and | or | eq | ne
  /-- Ordered comparisons, signed or unsigned. -/
  | lt (signed : Bool)
  | gt (signed : Bool)
  | le (signed : Bool)
  | ge (signed : Bool)
  deriving DecidableEq, Repr

/-- Operators on two floats. -/
inductive FloatOp where
  | add | sub | mul | div | eq | ne | lt | gt | le | ge
  deriving DecidableEq, Repr

/-! ## §3. Instructions -/

/-- The name of a block or loop, by the number of loops around it. -/
inductive Label where
  /-- The block around a loop: going there leaves the loop. -/
  | exit (depth : Nat)
  /-- The loop itself: going there starts it again. -/
  | entry (depth : Nat)
  deriving DecidableEq, Repr

/-- An instruction. -/
inductive Instr where
  /-- Pushes a constant. -/
  | const (c : Const)
  /-- Pushes the value of a local. -/
  | localGet (v : VarId)
  /-- Pops a value into a local. -/
  | localSet (v : VarId)
  /-- Pushes the value of a global. -/
  | globalGet (v : VarId)
  /-- Pops a value into a global. -/
  | globalSet (v : VarId)
  /-- Calls a function. -/
  | call (f : String)
  /-- Replaces an address by the four bytes there. -/
  | load (t : ValType)
  /-- Combines two integers. -/
  | int (op : IntOp)
  /-- Combines two floats. -/
  | float (op : FloatOp)
  /-- One for zero, zero for all else. -/
  | eqz
  /-- Changes the sign of a float. -/
  | floatNeg
  /-- Converts a signed integer to a float. -/
  | convert
  /-- Converts a float to a signed integer, toward zero. -/
  | truncate
  /-- Pops a value. -/
  | drop
  /-- Returns from the function. -/
  | ret
  /-- Stops the machine. -/
  | unreachable
  /-- Goes to a block or loop. -/
  | br (l : Label)
  /-- Goes to a block or loop if the value popped is not zero. -/
  | brIf (l : Label)
  /-- A block: going to it goes past its end. -/
  | block (l : Label) (body : List Instr)
  /-- A loop: going to it goes back to its start. -/
  | loop (l : Label) (body : List Instr)
  /-- Runs the body if the value popped is not zero. -/
  | ifThen (body : List Instr)
  /-- Runs one of two bodies. -/
  | ifElse (body other : List Instr)
  /-- Runs one of two bodies, each of which leaves an integer. -/
  | ifValue (body other : List Instr)
  deriving Repr

mutual

/-- The instruction reads memory, or one inside it does. -/
def Instr.readsMemory : Instr → Bool
  | .load _ => true
  | .block _ body | .loop _ body | .ifThen body => codeReadsMemory body
  | .ifElse body other | .ifValue body other => codeReadsMemory body || codeReadsMemory other
  | _ => false

/-- One of the instructions reads memory. -/
def codeReadsMemory : List Instr → Bool
  | [] => false
  | i :: is => i.readsMemory || codeReadsMemory is

end

end MiniC.Wasm
