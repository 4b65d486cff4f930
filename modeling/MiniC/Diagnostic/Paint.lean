/-
  MiniC.Diagnostic.Paint

  Text in styles.

  A terminal is told to change style by escape sequences.  Every styled piece
  of text clears the style before it, sets its own and clears it again, so
  pieces do not depend on each other.  Without colors only the text is left.

  Drawing itself needs to know of a terminal only how wide a text is on it and
  how a piece of text is sent to it (`Terminal`).
-/
import MiniC.Text.Width

namespace MiniC.Diagnostic

/-- How a piece of text looks. -/
inductive Style where
  /-- As it comes. -/
  | plain
  /-- Bold and red. -/
  | alert
  /-- Bold. -/
  | strong
  /-- Dim and italic. -/
  | faint
  deriving DecidableEq, Repr

/-- The sequence that clears all styles. -/
def clear : String := "\x1b[0m"

/-- The sequences that set a style. -/
def Style.codes : Style → String
  | .plain => ""
  | .alert => "\x1b[1m\x1b[31m"
  | .strong => "\x1b[1m"
  | .faint => "\x1b[2m\x1b[3m"

/-- A piece of text in one style. -/
structure Span where
  style : Style
  text : String
  deriving DecidableEq, Repr

/-- What drawing takes from the terminal. -/
structure Terminal where
  /-- How many columns a text takes. -/
  width : List Char → Nat
  /-- A text in a style, as it is sent. -/
  send : Style → String → String

/-- Pieces of text, one after the other, as they are sent. -/
def Terminal.paint (t : Terminal) (spans : List Span) : String :=
  String.join (spans.map fun s => t.send s.style s.text)

/-- A terminal that takes colors or not. -/
def Terminal.standard (colors : Bool) : Terminal where
  width := Text.width
  send style text :=
    if colors = false ∨ style = .plain then text else clear ++ style.codes ++ text ++ clear

/-- Without colors a text is sent as it is. -/
theorem Terminal.send_standard_false (style : Style) (text : String) :
    (standard false).send style text = text := by
  simp [standard]

end MiniC.Diagnostic
