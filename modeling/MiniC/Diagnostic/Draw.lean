/-
  MiniC.Diagnostic.Draw

  Drawing a diagnostic.

  Below the message stand the windows on the sources.  A window is a row with
  the name of the source, a row for each line with its number, and below the
  line a row for each label on it, which also underlines the line.  Numbers are
  aligned to the right, so that all gutters of a window are in one column.
-/
import MiniC.Diagnostic.Paint
import MiniC.Diagnostic.Window

namespace MiniC.Diagnostic

/-- What is drawn around the lines. -/
structure Look where
  /-- How many lines of context are shown. -/
  context : Nat := 1
  /-- Stands between a number and its line. -/
  gutter : String := "│"
  /-- Stands below each column of a line with a label. -/
  underline : String := "^"
  /-- Stands between the underline and the label. -/
  underlineAfter : String := " "
  deriving DecidableEq, Repr

/-! ## §1. Rows -/

/-- A row of a window. -/
inductive Row where
  /-- Where the window is. -/
  | place (name : String) (line : Nat)
  /-- A line with its number. -/
  | numbered (number : Nat) (text : List Char)
  /-- A label, below the line with the text given. -/
  | label (snippet : Snippet) (text : List Char)
  /-- The empty row that ends a window. -/
  | gap
  deriving DecidableEq, Repr

/-- A line with four spaces for each tab. -/
def expandTabs (cs : List Char) : List Char :=
  cs.flatMap fun c => if c = '\t' then [' ', ' ', ' ', ' '] else [c]

/-- The text shown for line `number`, counted from 1. -/
def shownLine (source : Text.Source) (number : Nat) : List Char :=
  expandTabs ((source.line? (number - 1)).getD [])

/-- The rows of one line of a window. -/
def Window.rowsAt (w : Window) (source : Text.Source) (number : Nat) : List Row :=
  let text := shownLine source number
  .numbered number text :: (w.snippets.filter (·.line = number)).map (.label · text)

/-- The rows of a window. -/
def Window.rows (w : Window) (source : Text.Source) : List Row :=
  .place source.name w.lead.line :: (w.lines.flatMap (w.rowsAt source) ++ [.gap])

/-! ## §2. The text of a row -/

/-- The style of an underline and its label. -/
def labelStyle : Emphasis → Style
  | .primary => .alert
  | .secondary => .strong

/-- Spaces. -/
def blanks (n : Nat) : String := String.ofList (List.replicate n ' ')

/-- The column of numbers, `width` wide, and the gutter. -/
def gutterSpan (look : Look) (width : Nat) (number : String) : Span :=
  ⟨.faint, blanks (width - number.length) ++ number ++ " " ++ look.gutter ++ " "⟩

/-- A text a number of times. -/
def repeated (n : Nat) (text : String) : String := String.join (List.replicate n text)

/-- The underline below a line and the label after it. -/
def underlined (t : Terminal) (look : Look) (text : List Char) (label : String) : String :=
  blanks (t.width (text.takeWhile Text.isBlank)) ++
    repeated (max (t.width (Text.trim text)) 1) look.underline ++ look.underlineAfter ++ label

/-- A row in styles, with numbers `width` wide. -/
def Row.spans (t : Terminal) (look : Look) (width : Nat) : Row → List Span
  | .place name line => [⟨.faint, "In " ++ name ++ ":" ++ Text.unsigned line ++ "\n"⟩]
  | .numbered number text =>
    [gutterSpan look width (Text.unsigned number), ⟨.plain, String.ofList text ++ "\n"⟩]
  | .label s text =>
    [gutterSpan look width "", ⟨labelStyle s.emphasis, underlined t look text s.label ++ "\n"⟩]
  | .gap => [⟨.plain, "\n"⟩]

/-! ## §3. The whole -/

/-- How wide the column of numbers of a window is. -/
def Window.numberWidth (w : Window) : Nat := (Text.digitsOf w.last).length

/-- A window in styles. -/
def Window.spans (w : Window) (t : Terminal) (look : Look) (source : Text.Source) : List Span :=
  (w.rows source).flatMap (Row.spans t look w.numberWidth)

/-- The message in styles. -/
def header (d : Diagnostic) : List Span :=
  [⟨.alert, "Error:"⟩,
    ⟨.plain, match d.message with
      | some message => " " ++ message ++ "\n"
      | none => "\n"⟩]

/-- A diagnostic in styles.  An empty row takes the place of the windows if
there are none. -/
def spans (d : Diagnostic) (t : Terminal) (sources : List Text.Source) (look : Look) : List Span :=
  d.header ++
    match d.windows sources look.context with
    | [] => [⟨.plain, "\n"⟩]
    | ws => ws.flatMap fun (source, w) => w.spans t look source

/-- A diagnostic as it is sent to a terminal. -/
def drawOn (d : Diagnostic) (t : Terminal) (sources : List Text.Source) (look : Look) : String :=
  t.paint (d.spans t sources look)

/-- A diagnostic with or without colors. -/
def draw (d : Diagnostic) (sources : List Text.Source) (look : Look) (colors : Bool) : String :=
  d.drawOn (.standard colors) sources look

end MiniC.Diagnostic
