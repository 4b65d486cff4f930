/-
  MiniC.Command.Build

  What the command does.

  It reads a source, compiles it, and prints the module or writes it to a
  file.  It ends with 0, or with 1 and the reason on standard error, or with 2
  if the arguments make no sense.
-/
import MiniC.Command.Folder
import MiniC.Command.Options
import MiniC.Session

namespace MiniC.Command

/-- What the command prints and how it ends. -/
structure Outcome where
  exitCode : UInt8
  out : String := ""
  err : String := ""
  deriving DecidableEq, Repr

/-- The name of a source that is given as such. -/
def unnamed : String := "<unnamed>"

/-- How the command is called. -/
def usage : String :=
  "usage: build <input> [-s | --source] [-o | --output <file>] [--color auto | always | never]\n"

/-- The command fails for a reason. -/
def Outcome.failure (reason : String) : Outcome := ⟨1, "", reason ++ "\n"⟩

/-- The source that the options name. -/
def source {m : Type → Type} [Monad m] (host : Host m) (o : Options) :
    m (Except FileError Text.Source) := do
  if o.inline then return .ok ⟨unnamed, o.input⟩
  else return (← host.read o.input).map (⟨o.input, ·⟩)

/-- Prints a module, or writes it to the file that the options name. -/
def deliver {m : Type → Type} [Monad m] (host : Host m) (o : Options) (text : String) :
    m Outcome := do
  match o.output with
  | none => return ⟨0, text, ""⟩
  | some path =>
    match ← host.write path text with
    | .ok () => return ⟨0, "", ""⟩
    | .error e => return .failure e.message

/-- Builds what the options ask for. -/
def build {m : Type → Type} [Monad m] (host : Host m) (terminal : Terminal) (o : Options) :
    m Outcome := do
  match ← source host o with
  | .error e => return .failure e.message
  | .ok source =>
    match Session.empty.compile source with
    | (.ok text, _) => deliver host o text
    | (.error d, session) =>
      let drawn := d.draw session.sources {} (o.color.allows terminal)
      return .failure (drawn ++ "errors while compiling")

/-- Runs the command with its arguments. -/
def run {m : Type → Type} [Monad m] (host : Host m) (terminal : Terminal) (args : List String) :
    m Outcome :=
  match Options.ofArguments? args with
  | some o => build host terminal o
  | none => return ⟨2, "", usage⟩

end MiniC.Command
