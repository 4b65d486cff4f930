/-
  MiniC.Outline.Items

  Reading functions, global variables and whole programs.

  A type, its stars, a name and an opening parenthesis begin a function; a
  type without them begins a global variable.
-/
import MiniC.Outline.Stmts
import MiniC.Token.Scan

namespace MiniC.Outline

/-! ## §1. Heads of functions -/

/-- What follows a parameter. -/
inductive ParamEnd where
  /-- Another parameter. -/
  | comma
  /-- The end of the parameters. -/
  | paren
  deriving DecidableEq, Repr

/-- Takes what follows a parameter. -/
def readParamEnd (last : Nat) (ts : List Token) : Except Fault (ParamEnd × Left ts.length) :=
  match ts with
  | [] => .error (.expected (.either .comma .rparen) (front last []))
  | t :: ts =>
    if t.kind = .punct .comma then .ok (.comma, .tail ts)
    else if t.kind = .punct .rparen then .ok (.paren, .tail ts)
    else .error (.expected (.either .comma .rparen) t)

/-- Reads the parameters of a function from the first one on. -/
def readParams (last : Nat) (ts : List Token) :
    List Param × Except Fault (Left ts.length) :=
  match readTy last ts with
  | .error f => ([], .error f)
  | .ok (ty, afterTy) =>
    match readName last afterTy.1 with
    | .error f => ([], .error f)
    | .ok ((name, line), afterName) =>
      match readParamEnd last afterName.1 with
      | .error f => ([⟨ty, name, line⟩], .error f)
      | .ok (.comma, rest) =>
        match readParams last rest.1 with
        | (params, result) =>
          (⟨ty, name, line⟩ :: params,
            result.map fun r => afterTy.within (afterName.within (rest.within r)))
      | .ok (.paren, rest) => ([⟨ty, name, line⟩], .ok (afterTy.within (afterName.within rest)))
termination_by ts.length
decreasing_by exact (afterTy.within (afterName.within rest)).2

/-- Reads the parameters of a function, after the opening parenthesis. -/
def readParamList (last : Nat) (ts : List Token) :
    List Param × Except Fault (Left ts.length) :=
  match ts with
  | ⟨.punct .rparen, _⟩ :: rest => ([], .ok (.tail rest))
  | ts => readParams last ts

/-- Reads the head of a function, or says why there is none. -/
def readSignature (last : Nat) (ts : List Token) :
    Except Fault (Signature × Option (Left ts.length)) := do
  let (ret, afterTy) ← readTy last ts
  let ((name, line), afterName) ← readName last afterTy.1
  let afterParen ← expect last .lparen afterName.1
  match readParamList last afterParen.1 with
  | (params, .error f) => return (⟨ret, name, line, params, some f⟩, none)
  | (params, .ok rest) =>
    return (⟨ret, name, line, params, none⟩,
      some (afterTy.within (afterName.within (afterParen.within rest))))

/-! ## §2. Items -/

/-- Reads the semicolon after a function of the host, or the fault in its
place. -/
def readImportEnd (last : Nat) (ts : List Token) : Option Fault × Option (Left ts.length) :=
  match ts with
  | ⟨.punct .lbrace, line⟩ :: _ => (some ⟨.importWithBody, line⟩, none)
  | ts => readJumpEnd last ts

/-- Reads what follows the head of a function. -/
def readBody (last : Nat) (ts : List Token) : Body × Option (Left ts.length) :=
  match ts with
  | [] => (.broken (.expected (.either .semicolon .lbrace) (front last [])), none)
  | t :: after =>
    if t.kind = .punct .semicolon then (.none, some (.tail after))
    else if t.kind = .punct .lbrace then
      match readBlockRest last after with
      | (body, rest) => (.block body, rest.map (·.succ))
    else (.broken (.expected (.either .semicolon .lbrace) t), none)

/-- Skips the stars after a type. -/
def skipStars : List Token → List Token
  | [] => []
  | t :: ts => if t.kind = .punct .star then skipStars ts else t :: ts

/-- A name and an opening parenthesis stand here. -/
def startsCall : List Token → Bool
  | ⟨.identifier _, _⟩ :: ⟨.punct .lparen, _⟩ :: _ => true
  | _ => false

/-- The head of a function stands here. -/
def startsFunction (ts : List Token) : Bool :=
  startsType ts && startsCall (skipStars ts.tail)

/-- Reads a function of the host, after the word that opens it. -/
def readImport (last : Nat) (ts : List Token) : Item × Option (Left ts.length) :=
  match readSignature last ts with
  | .error f => (.broken f, none)
  | .ok (sig, none) => (.imported sig none, none)
  | .ok (sig, some after) =>
    match readImportEnd last after.1 with
    | (fault, rest) => (.imported sig fault, rest.map after.within)

/-- Reads a function. -/
def readFunction (last : Nat) (ts : List Token) : Item × Option (Left ts.length) :=
  match readSignature last ts with
  | .error f => (.broken f, none)
  | .ok (sig, none) => (.function sig .none, none)
  | .ok (sig, some after) =>
    match readBody last after.1 with
    | (body, rest) => (.function sig body, rest.map after.within)

/-- Reads a global variable. -/
def readGlobal (last : Nat) (ts : List Token) : Item × Option (Left ts.length) :=
  match readDeclaration last ts with
  | .error f => (.broken f, none)
  | .ok (d, rest) => (.global d, rest)

/-- Reads the item that starts with `t`. -/
def readItem (last : Nat) (t : Token) (ts : List Token) : Item × Option (Left (ts.length + 1)) :=
  if t.kind = .keyword .kwExtern then
    match readImport last ts with
    | (item, rest) => (item, rest.map (·.succ))
  else if startsFunction (t :: ts) then readFunction last (t :: ts)
  else if t.kind.isType then readGlobal last (t :: ts)
  else (.broken (.notDeclaration t), none)

/-- Reads all items of a program. -/
def readItems (last : Nat) (ts : List Token) : List Item :=
  match ts with
  | [] => []
  | t :: after =>
    match readItem last t after with
    | (item, none) => [item]
    | (item, some rest) => item :: readItems last rest.1
termination_by ts.length
decreasing_by exact rest.2

/-- The outline of a source text. -/
def ofTokens (ts : Scan.Tokens) : List Item := readItems ts.endLine ts.list

end MiniC.Outline
