/-
  MiniC.Session

  Compiling several sources and keeping what was said about them.
-/
import MiniC.Compile
import MiniC.Diagnostic.Draw

namespace MiniC

/-- The sources compiled so far, whether they compiled or not, and the
diagnostics reported so far. -/
structure Session where
  sources : List Text.Source := []
  diagnostics : List Diagnostic := []
  deriving DecidableEq, Repr

namespace Session

/-- Nothing compiled and nothing reported. -/
def empty : Session := {}

/-- Keeps the diagnostic of a complaint about a source. -/
def report (s : Session) (c : Complaint) (source : Nat) : Diagnostic × Session :=
  let d := c.diagnostic source
  (d, { s with diagnostics := s.diagnostics ++ [d] })

/-- Compiles a source.  The text of its module, or the diagnostic that was
reported. -/
def compile (s : Session) (source : Text.Source) : Except Diagnostic String × Session :=
  let s' := { s with sources := s.sources ++ [source] }
  match MiniC.compile source.text with
  | .ok text => (.ok text, s')
  | .error f =>
    let (d, s') := s'.report f.complaint s.sources.length
    (.error d, s')

/-- Every source is kept. -/
theorem sources_compile (s : Session) (source : Text.Source) :
    (s.compile source).2.sources = s.sources ++ [source] := by
  unfold compile
  split <;> rfl

end Session

end MiniC
