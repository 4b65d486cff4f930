/-
  MiniC.Diagnostic

  Messages about sources.

  A diagnostic is a message with the source lines it is about, each with a
  label.  Sources are known by their place in a list.
-/
import MiniC.Fault

namespace MiniC

/-- How a line takes part in a message. -/
inductive Emphasis where
  /-- The line that is at fault. -/
  | primary
  /-- A line that explains the fault. -/
  | secondary
  deriving DecidableEq, Repr

/-- A source line with a label. -/
structure Snippet where
  label : String
  emphasis : Emphasis
  /-- The place of the source in the list of sources. -/
  source : Nat
  /-- The line, counted from 1. -/
  line : Nat
  deriving DecidableEq, Repr

/-- A message with the lines it is about. -/
structure Diagnostic where
  message : Option String
  snippets : List Snippet
  deriving DecidableEq, Repr

/-- A fault in words: what kind it is, what is said and on which line. -/
structure Complaint where
  category : Category
  message : String
  line : Nat
  deriving DecidableEq, Repr

/-- What is said of a fault. -/
def Fault.complaint (f : Fault) : Complaint := ⟨f.cause.category, f.cause.message, f.line⟩

/-- The label of the line that a complaint is about. -/
def Category.label : Category → String
  | .lexical => "invalid token on this line"
  | .grammar => "unexpected syntax"
  | .naming => "name used here"
  | .typing => "in this expression"

/-- The diagnostic of a complaint about a source. -/
def Complaint.diagnostic (c : Complaint) (source : Nat) : Diagnostic where
  message := some (c.category.title ++ ": " ++ c.message)
  snippets := [⟨c.category.label, .primary, source, c.line⟩]

end MiniC
