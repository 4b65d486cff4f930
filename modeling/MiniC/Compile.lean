/-
  MiniC.Compile

  From a source text to the text of a module.
-/
import MiniC.Check.Items
import MiniC.Lower.Program
import MiniC.Outline.Items

namespace MiniC

/-- The checked program of a source text. -/
def parse (text : String) : Except Fault Program :=
  Check.program (Outline.ofTokens (Scan.tokens text))

/-- The module that a source text compiles to. -/
def compileModule (text : String) : Except Fault Wasm.Module := do
  return Lower.program (← parse text)

/-- The text of the module that a source text compiles to. -/
def compile (text : String) : Except Fault String := do
  return (← compileModule text).text

end MiniC
