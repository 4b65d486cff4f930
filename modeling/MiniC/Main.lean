/-
  MiniC.Main

  The command on the files and the terminal of the machine it runs on.
-/
import MiniC.Command.Build

namespace MiniC.Command

/-- The reason that the machine gives. -/
def FileError.ofMachine : IO.Error → FileError
  | .noFileOrDirectory .. => .notFound
  | .inappropriateType _ code reason =>
    match code with
    | 20 => .notFolder
    | 21 => .isFolder
    | _ => .other reason
  | .invalidArgument _ code reason =>
    if code = 36 then .nameTooLong else .other reason
  | e => .other (toString e)

/-- Does something with a file. -/
def attempt {α : Type} (action : IO α) : IO (Except FileError α) := do
  try
    return .ok (← action)
  catch e =>
    return .error (.ofMachine e)

/-- The files of the machine. -/
def machine : Host IO where
  read path := do return (← attempt (IO.FS.readBinFile path)).bind decodeText
  write path text := attempt (IO.FS.writeFile path text)

end MiniC.Command

open MiniC.Command in
/-- Runs the command. -/
def main (args : List String) : IO UInt32 := do
  let terminal : Terminal := ⟨← IO.getEnv "TERM", (← IO.getEnv "NO_COLOR").isSome⟩
  let outcome ← run machine terminal args
  IO.print outcome.out
  IO.eprint outcome.err
  return outcome.exitCode.toUInt32
