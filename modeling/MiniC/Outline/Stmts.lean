/-
  MiniC.Outline.Stmts

  Reading declarations of variables, statements and blocks.
-/
import MiniC.Outline.Runs

namespace MiniC.Outline

/-! ## §1. Declarations -/

/-- Reads the lengths in brackets after a name. -/
def readLengths (last : Nat) (ts : List Token) :
    List Run × Option (Rest ts.length) :=
  match ts with
  | ⟨.punct .lbracket, _⟩ :: after =>
    match readRun last .bracket false after with
    | (e, none) => ([e], none)
    | (e, some (_, rest)) =>
      match readLengths last rest.1 with
      | (es, rest') =>
        (e :: es, rest'.map fun r => (rest.past r).succ.toRest)
  | ts => ([], some (.all ts))
termination_by ts.length
decreasing_by
  have := rest.2
  simp only [List.length_cons]
  omega

/-- Reads what follows a declared name and its lengths: a value, or nothing,
and the semicolon. -/
def readInitial (last : Nat) (ts : List Token) : Initial × Option (Left ts.length) :=
  match ts with
  | ⟨.punct .eq, _⟩ :: after =>
    match readRun last .semicolon false after with
    | (e, rest) => (.value e, rest.map (·.2.succ))
  | ts =>
    match expect last .semicolon ts with
    | .ok rest => (.none, some rest)
    | .error f => (.broken f, none)

/-- Reads the declaration of a variable, or says why there is none. -/
def readDeclaration (last : Nat) (ts : List Token) :
    Except Fault (Declaration × Option (Left ts.length)) := do
  let (base, afterTy) ← readTy last ts
  let ((name, line), afterName) ← readName last afterTy.1
  match readLengths last afterName.1 with
  | (lengths, none) => return (⟨base, name, line, lengths, .none⟩, none)
  | (lengths, some afterLengths) =>
    match readInitial last afterLengths.1 with
    | (init, rest) =>
      return (⟨base, name, line, lengths, init⟩,
        rest.map fun r => afterTy.within (afterName.within (afterLengths.within r)))

/-! ## §2. Statements -/

/-- Reads a condition in parentheses. -/
def readCondition (last : Nat) (ts : List Token) : Run × Option (Left ts.length) :=
  match expect last .lparen ts with
  | .error f => (.last (.broken f), none)
  | .ok after =>
    match readRun last .paren false after.1 with
    | (cond, rest) => (cond, rest.map (after.within ·.2))

/-- Reads the semicolon after a jump, or the fault in its place. -/
def readJumpEnd (last : Nat) (ts : List Token) : Option Fault × Option (Left ts.length) :=
  match expect last .semicolon ts with
  | .ok rest => (none, some rest)
  | .error f => (some f, none)

/-- What follows the block of a test. -/
inductive AfterTest (n : Nat) where
  /-- No other branch. -/
  | nothing
  /-- The words that open a further test. -/
  | test (after : Left n)
  /-- The word before the other branch. -/
  | block (after : Left n)

/-- Takes the words between the block of a test and its other branch. -/
def afterTest : (ts : List Token) → AfterTest ts.length
  | [] => .nothing
  | t :: ts =>
    if t.kind = .keyword .kwElse then
      match ts with
      | [] => .block (.tail [])
      | s :: rest =>
        if s.kind = .keyword .kwIf then .test (Left.tail rest).succ
        else .block (.tail (s :: rest))
    else .nothing

mutual

/-- Reads a statement. -/
def readStmt (last : Nat) (ts : List Token) : Stmt × Option (Left ts.length) :=
  match ts with
  | [] =>
    match readRun last .semicolon false [] with
    | (e, rest) => (.expr e, rest.map (·.2))
  | t :: after =>
    if t.kind.isType then
      match readDeclaration last (t :: after) with
      | .ok (d, rest) => (.declare d, rest)
      | .error f => (.broken f, none)
    else
      match t.kind with
      | .keyword .kwReturn =>
        match after with
        | ⟨.punct .semicolon, _⟩ :: rest =>
          (.ret t.line, some (Left.tail rest).succ)
        | after =>
          match readRun last .semicolon false after with
          | (e, rest) => (.retValue e, rest.map (·.2.succ))
      | .keyword .kwIf =>
        match readBranch last after with
        | ((cond, body, otherwise), rest) =>
          (.branch cond body otherwise, rest.map (·.succ))
      | .keyword .kwWhile =>
        match readCondition last after with
        | (cond, none) => (.loop cond [], none)
        | (cond, some afterCond) =>
          match readBlock last afterCond.1 with
          | (body, rest) =>
            (.loop cond body, rest.map fun r => (afterCond.within r).succ)
      | .keyword .kwBreak =>
        match readJumpEnd last after with
        | (fault, rest) => (.leave t.line fault, rest.map (·.succ))
      | .keyword .kwContinue =>
        match readJumpEnd last after with
        | (fault, rest) => (.again t.line fault, rest.map (·.succ))
      | _ =>
        match readRun last .semicolon false (t :: after) with
        | (e, rest) => (.expr e, rest.map (·.2))
termination_by (ts.length, 0)

/-- Reads a test and what depends on it, after the word that opens it. -/
def readBranch (last : Nat) (ts : List Token) :
    (Run × List Stmt × Else) × Option (Left ts.length) :=
  match readCondition last ts with
  | (cond, none) => ((cond, [], .nothing), none)
  | (cond, some afterCond) =>
    match readBlock last afterCond.1 with
    | (body, none) => ((cond, body, .nothing), none)
    | (body, some afterBody) =>
      match readElse last afterBody.1 with
      | (otherwise, rest) =>
        ((cond, body, otherwise), rest.map fun r => afterCond.within (afterBody.past r))
termination_by (ts.length, 0)
decreasing_by
  · exact Prod.Lex.left _ _ afterCond.2
  · exact Prod.Lex.left _ _ (Nat.lt_trans afterBody.2 afterCond.2)

/-- Reads what follows the block of a test. -/
def readElse (last : Nat) (ts : List Token) :
    Else × Option (Rest ts.length) :=
  match afterTest ts with
  | .nothing => (.nothing, some (.all ts))
  | .test after =>
    match readBranch last after.1 with
    | ((cond, body, otherwise), rest) =>
      (.branch cond body otherwise, rest.map fun r => (after.within r).toRest)
  | .block after =>
    match readBlock last after.1 with
    | (body, rest) =>
      (.block body, rest.map fun r => (after.within r).toRest)
termination_by (ts.length, 0)
decreasing_by
  · exact Prod.Lex.left _ _ after.2
  · exact Prod.Lex.left _ _ after.2

/-- Reads a block with its braces. -/
def readBlock (last : Nat) (ts : List Token) : List Stmt × Option (Left ts.length) :=
  match expect last .lbrace ts with
  | .error f => ([.broken f], none)
  | .ok after =>
    match readBlockRest last after.1 with
    | (body, rest) => (body, rest.map after.within)
termination_by (ts.length, 0)
decreasing_by
  exact Prod.Lex.left _ _ after.2

/-- Reads a block after its opening brace. -/
def readBlockRest (last : Nat) (ts : List Token) : List Stmt × Option (Left ts.length) :=
  match ts with
  | [] => ([.broken (.expected (.exactly .rbrace) (front last []))], none)
  | t :: after =>
    if t.kind = .punct .rbrace then ([], some (.tail after))
    else
      match readStmt last (t :: after) with
      | (s, none) => ([s], none)
      | (s, some rest) =>
        match readBlockRest last rest.1 with
        | (body, rest') => (s :: body, rest'.map rest.within)
termination_by (ts.length, 1)
decreasing_by
  · exact Prod.Lex.right _ (by decide)
  · exact Prod.Lex.left _ _ rest.2

end

end MiniC.Outline
