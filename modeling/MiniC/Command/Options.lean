/-
  MiniC.Command.Options

  The arguments of the command.

  The command is `build`, followed by one input and options in any order.  An
  option may be written out or as one letter; letters can share a dash, and a
  value can be attached to its option or be the next argument.  After two
  dashes nothing is an option.  No option may be given twice.
-/

namespace MiniC.Command

/-! ## §1. Options -/

/-- When messages are in color. -/
inductive ColorChoice where
  /-- If the terminal shows colors. -/
  | auto
  /-- Always. -/
  | always
  /-- Never. -/
  | never
  deriving DecidableEq, Repr

/-- The choice with a name. -/
def ColorChoice.ofName? : String → Option ColorChoice
  | "auto" => some .auto
  | "always" => some .always
  | "never" => some .never
  | _ => none

/-- What is known of the terminal. -/
structure Terminal where
  /-- The kind of terminal, if one is named. -/
  kind : Option String
  /-- Colors are not wanted. -/
  plain : Bool
  deriving DecidableEq, Repr

/-- Messages are in color on this terminal. -/
def ColorChoice.allows (t : Terminal) : ColorChoice → Bool
  | .always => true
  | .never => false
  | .auto => t.kind.any (· ≠ "dumb") && !t.plain

/-- What the command is asked to do. -/
structure Options where
  /-- The path of the source, or the source itself. -/
  input : String
  /-- The input is the source itself. -/
  inline : Bool
  /-- The path that the module is written to, if not to standard output. -/
  output : Option String
  color : ColorChoice
  deriving DecidableEq, Repr

/-! ## §2. The shape of an argument -/

/-- An argument by its dashes. -/
inductive Argument where
  /-- Two dashes alone. -/
  | escape
  /-- An option written out, with the value attached to it. -/
  | long (name : String) (value : Option String)
  /-- Options of one letter each, perhaps with a value at the end. -/
  | short (letters : List Char)
  /-- No option. -/
  | plain (text : String)
  deriving DecidableEq, Repr

/-- Splits at the first equals sign. -/
def splitValue (cs : List Char) : String × Option String :=
  match cs.dropWhile (· ≠ '=') with
  | [] => (String.ofList cs, none)
  | _ :: value => (String.ofList (cs.takeWhile (· ≠ '=')), some (String.ofList value))

/-- The shape of an argument.  One dash alone is no option. -/
def Argument.ofString (s : String) : Argument :=
  match s.toList with
  | ['-', '-'] => .escape
  | '-' :: '-' :: cs => .long (splitValue cs).1 (splitValue cs).2
  | ['-'] => .plain s
  | '-' :: letters => .short letters
  | _ => .plain s

/-! ## §3. Reading the arguments -/

/-- An option that takes a value. -/
inductive Valued where
  | output
  | color
  deriving DecidableEq, Repr

/-- What has been given so far. -/
structure Given where
  input : Option String := none
  inline : Bool := false
  output : Option String := none
  color : Option ColorChoice := none
  deriving DecidableEq, Repr

namespace Given

/-- The input is given. -/
def setInput (g : Given) (text : String) : Option Given :=
  if g.input.isSome then none else some { g with input := some text }

/-- The input is said to be the source itself. -/
def setInline (g : Given) : Option Given :=
  if g.inline then none else some { g with inline := true }

/-- An option is given its value.  A path is not empty. -/
def set (g : Given) (option : Valued) (value : String) : Option Given :=
  match option with
  | .output =>
    if g.output.isSome || value.isEmpty then none else some { g with output := some value }
  | .color =>
    match g.color, ColorChoice.ofName? value with
    | none, some choice => some { g with color := some choice }
    | _, _ => none

/-- The options that follow from what is given.  The input must be. -/
def options (g : Given) : Option Options :=
  g.input.map fun input => ⟨input, g.inline, g.output, g.color.getD .auto⟩

end Given

/-- Reads options of one letter.  The second part is the option that waits for
its value. -/
def readLetters (g : Given) : List Char → Option (Given × Option Valued)
  | [] => some (g, none)
  | 's' :: rest => do readLetters (← g.setInline) rest
  | 'o' :: [] => some (g, some .output)
  | 'o' :: '=' :: value | 'o' :: value => do
    return (← g.set .output (String.ofList value), none)
  | _ => none

/-- Reads an option written out.  The second part is the option that waits for
its value. -/
def readLong (g : Given) : String → Option String → Option (Given × Option Valued)
  | "source", none => do return (← g.setInline, none)
  | "output", some value => do return (← g.set .output value, none)
  | "output", none => some (g, some .output)
  | "color", some value => do return (← g.set .color value, none)
  | "color", none => some (g, some .color)
  | _, _ => none

/-- Reads arguments, with the option that waits for its value. -/
def readArguments : Option Valued → Given → List String → Option Given
  | none, g, [] => some g
  | some _, _, [] => none
  | some option, g, arg :: args =>
    match Argument.ofString arg with
    | .plain value => do readArguments none (← g.set option value) args
    | _ => none
  | none, g, arg :: args =>
    match Argument.ofString arg with
    | .plain text => do readArguments none (← g.setInput text) args
    | .escape => args.foldlM Given.setInput g
    | .long name value => do
      let (g, waiting) ← readLong g name value
      readArguments waiting g args
    | .short letters => do
      let (g, waiting) ← readLetters g letters
      readArguments waiting g args

/-- The options that the arguments of the command give. -/
def Options.ofArguments? : List String → Option Options
  | "build" :: args => do (← readArguments none {} args).options
  | _ => none

end MiniC.Command
