/-
  MiniC.Text.Quoted

  A character as an error message shows it: in single quotes, with an escape
  where it could not be read as it is.

  The usual controls, the single quote and the backslash have a short escape.
  A character that extends the one before it, or leaves no mark when printed,
  is given by its code point in hexadecimal.
-/
import MiniC.Text.Extender
import MiniC.Text.Printable

namespace MiniC.Text

/-- The code point in braces, in lower-case hexadecimal without padding. -/
def codePoint (c : Char) : List Char :=
  ['\\', 'u', '{'] ++ Nat.toDigits 16 c.toNat ++ ['}']

/-- How a character is written between quotes. -/
def escaped (c : Char) : List Char :=
  match c with
  | '\x00' => ['\\', '0']
  | '\t' => ['\\', 't']
  | '\r' => ['\\', 'r']
  | '\n' => ['\\', 'n']
  | '\'' => ['\\', '\'']
  | '\\' => ['\\', '\\']
  | c => if isExtender c || !isPrintable c then codePoint c else [c]

/-- A character in single quotes. -/
def quoted (c : Char) : String :=
  String.ofList (['\''] ++ escaped c ++ ['\''])

end MiniC.Text
