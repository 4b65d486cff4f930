/-
  MiniC.Proofs.Strict.Compile

  **Compiling never breaks off.**

  Here a source text is compiled by operations that break off where they have
  no result: every row of the tables of variables, functions and nodes is
  looked up, every name is entered in the table of names as it is read and
  spelled from there, a pass over a run indexes its neighbours, blocks and
  loops are closed and left also after a fault, and the indentation is counted
  down.

  If the text has fewer distinct names than the table of names can hold, all
  of this gives what compiling gives, be it a module or a fault
  (`strict_compile`).
-/
import MiniC.Compile
import MiniC.Proofs.Strict.Emission
import MiniC.Proofs.Strict.Items
import MiniC.Proofs.Strict.Tokens
import MiniC.Proofs.Typing.Items

namespace MiniC

/-- The names in a text, in order, as often as they occur. -/
def namesIn (text : String) : List String := (kinds (Scan.tokens text).list).filterMap Kind.name?

namespace Strict

/-- The text of the module that a source text compiles to.  It is made with the
names that were read. -/
def compile (text : String) : Checked String := do
  let (p, names) ← (program (Outline.ofTokens (Scan.tokens text))).whole
  let m ← Emit.program names p
  Emit.text m

/-- The names that are read are names of the text. -/
theorem spelled_outline (text : String) :
    Spelled (namesIn text) (words (Outline.marksOf (Outline.ofTokens (Scan.tokens text)))) := by
  intro x hx
  have hmem := Outline.names_readItems _ _ hx
  exact List.mem_filterMap.2 ⟨_, hmem, rfl⟩

end Strict

/-- **Compiling never breaks off.**  Done by operations that break off where
they have no result, it gives what it gives; and so does scanning, as long as
the points of a numeral can be counted in a signed word. -/
theorem strict_compile (text : String) (h : (namesIn text).dedup.length < 2 ^ 32 - 1) :
    (Strict.compile text).run = .ok (compile text) ∧
      (text.toList.count '.' < 2 ^ 31 → ∀ n, Strict.scan ((Scan.Place.start text).beyond n) =
        .ok (Scan.scan ((Scan.Place.start text).beyond n))) := by
  refine ⟨?_, Strict.scan_beyond⟩
  have hprogram := Strict.program_yields (Strict.spelled_outline text) h
  have hparse : parse text = Check.program (Outline.ofTokens (Scan.tokens text)) := rfl
  unfold Strict.compile compile compileModule
  cases hp : parse text with
  | error f =>
    rw [← hparse, hp] at hprogram
    rw [show (Strict.program _).whole = Strict.sure (.error f) from hprogram]
    rfl
  | ok p =>
    rw [← hparse, hp] at hprogram
    obtain ⟨names, hwhole, hentered⟩ := hprogram
    rw [hwhole, Strict.sure_bind_ok]
    dsimp only
    rw [Strict.Emit.program_eq (wellFormed_of_parse hp) hentered, Strict.liftM_ok,
      Strict.sure_bind_ok, Strict.Emit.text_eq]
    rfl

/-- A text that fails in the body of a loop, after a call within a run of
operators. -/
def midwayText : String := "int f(int a) { while (a) { a = f(-a) + 1; y; } }"

/-- The tokens of the text, all of them on one line. -/
def midwayTokens : Scan.Tokens where
  list :=
    [.keyword .kwInt, .identifier "f", .punct .lparen, .keyword .kwInt, .identifier "a",
      .punct .rparen, .punct .lbrace,
      .keyword .kwWhile, .punct .lparen, .identifier "a", .punct .rparen, .punct .lbrace,
      .identifier "a", .punct .eq, .identifier "f", .punct .lparen, .punct .minus,
      .identifier "a", .punct .rparen, .punct .plus, .integer 1, .punct .semicolon,
      .identifier "y", .punct .semicolon, .punct .rbrace, .punct .rbrace].map (⟨·, 1⟩)
  endLine := 1

set_option maxRecDepth 10000 in
theorem tokens_midwayText : Scan.tokens midwayText = midwayTokens := by
  cbv

set_option maxRecDepth 10000 in
theorem parse_midwayText : parse midwayText = .error ⟨.unknown "y", 1⟩ := by
  show Check.program (Outline.ofTokens (Scan.tokens midwayText)) = _
  rw [tokens_midwayText]
  cbv

/-- The blocks and the loop around the fault are closed and left. -/
theorem strict_compile_midway :
    (namesIn midwayText).dedup.length < 2 ^ 32 - 1 ∧
      (Strict.compile midwayText).run = .ok (.error ⟨.unknown "y", 1⟩) ∧
      midwayText.toList.count '.' < 2 ^ 31 ∧
      ∀ n, Strict.scan ((Scan.Place.start midwayText).beyond n) =
        .ok (Scan.scan ((Scan.Place.start midwayText).beyond n)) := by
  have hroom : (namesIn midwayText).dedup.length < 2 ^ 32 - 1 := by
    rw [namesIn, tokens_midwayText]
    decide
  have hpoints : midwayText.toList.count '.' < 2 ^ 31 := by decide
  have hcompile : compile midwayText = .error ⟨.unknown "y", 1⟩ := by
    rw [compile, compileModule, parse_midwayText]
    rfl
  obtain ⟨hstrict, hscan⟩ := strict_compile midwayText hroom
  exact ⟨hroom, hstrict.trans (congrArg Except.ok hcompile), hpoints, hscan hpoints⟩

end MiniC
