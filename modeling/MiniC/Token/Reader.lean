/-
  MiniC.Token.Reader

  Reading tokens on demand, with lookahead.

  Looking ahead scans the tokens in question and then goes back; the names met
  on the way stay in the table of names.  A place can be kept and returned to
  at any time.
-/
import MiniC.Names
import MiniC.Token.Scan

namespace MiniC

open Scan (Place scan)

/-- A place in a text, and the names met so far. -/
structure Reader where
  /-- Where the next token is read. -/
  here : Place
  /-- The distinct names among the tokens scanned so far. -/
  names : Names := {}
  deriving DecidableEq, Repr

/-- Interns the name if the token is one. -/
def Names.note (names : Names) (t : Token) : Names :=
  match t.kind with
  | .identifier name => (names.intern name).2
  | _ => names

/-- The distinct names among tokens, in order of first occurrence. -/
def Names.ofTokens (ts : List Token) : Names := ts.foldl Names.note {}

namespace Reader

/-- A reader at the start of a text. -/
def ofString (text : String) : Reader := ⟨.start text, {}⟩

/-- Reads the next token. -/
def next (r : Reader) : Token × Reader :=
  let (t, after) := scan r.here
  (t, ⟨after, r.names.note t⟩)

/-- Reads the token that has `n` tokens before it. -/
def skipNext : (n : Nat) → Reader → Token × Reader
  | 0, r => r.next
  | n + 1, r => skipNext n r.next.2

/-- Goes to a place kept from before. -/
def jump (r : Reader) (place : Place) : Reader := { r with here := place }

/-- The token that has `n` tokens before it, without moving. -/
def peek (n : Nat) (r : Reader) : Token × Reader :=
  let (t, after) := r.skipNext n
  (t, after.jump r.here)

end Reader

end MiniC
