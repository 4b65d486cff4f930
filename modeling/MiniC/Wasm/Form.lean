/-
  MiniC.Wasm.Form

  Text laid out by its nesting.

  A form is a line, or a group of forms between an opening line and a line
  with the closing parenthesis.  What is inside a group is indented by four
  spaces more than the group.
-/

namespace MiniC.Wasm

/-- A line, or a group with the line that opens it. -/
inductive Form where
  /-- One line. -/
  | line (text : String)
  /-- An opening parenthesis and `head`, the body, and the closing
  parenthesis. -/
  | group (head : String) (body : List Form)
  deriving Repr

namespace Form

/-- The space in front of a line that `depth` groups enclose. -/
def indent (depth : Nat) : String := String.ofList (List.replicate (4 * depth) ' ')

mutual

/-- The lines of a form that `depth` groups enclose. -/
def lines (depth : Nat) : Form → List String
  | .line text => [indent depth ++ text]
  | .group head body =>
    (indent depth ++ "(" ++ head) :: (linesAll (depth + 1) body ++ [indent depth ++ ")"])

/-- The lines of forms that `depth` groups enclose. -/
def linesAll (depth : Nat) : List Form → List String
  | [] => []
  | f :: fs => lines depth f ++ linesAll depth fs

end

/-- The text of a form, each line with its newline. -/
def text (f : Form) : String := String.join ((lines 0 f).map (· ++ "\n"))

end Form

end MiniC.Wasm
