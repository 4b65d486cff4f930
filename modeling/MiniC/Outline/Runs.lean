/-
  MiniC.Outline.Runs

  Reading expressions.

  An expression runs up to a token that ends it, which is taken as well.  A
  minus, star or ampersand is an operator in front of an operand unless an
  operand stands before it.  A parenthesis opens a cast if the name of a type
  follows and an expression otherwise; a name followed by one is a call.
-/
import MiniC.Outline.Steps

namespace MiniC.Outline

/-- What ends an expression. -/
inductive Stop where
  /-- A semicolon. -/
  | semicolon
  /-- A closing parenthesis. -/
  | paren
  /-- A closing bracket. -/
  | bracket
  /-- A comma or a closing parenthesis. -/
  | argument
  deriving DecidableEq, Repr

/-- The token ends an expression. -/
def Stop.ends : Stop → Kind → Bool
  | .semicolon, k => k = .punct .semicolon
  | .paren, k => k = .punct .rparen
  | .bracket, k => k = .punct .rbracket
  | .argument, k => k = .punct .comma || k = .punct .rparen

/-- The operator that a token is in front of an operand. -/
def unaryOp? : Punct → Option UnaryOp
  | .minus => some .negate
  | .star => some .deref
  | .amp => some .addressOf
  | _ => none

/-- The operator that a token is between two operands. -/
def binaryOp? : Punct → Option BinaryOp
  | .eq => some .assign
  | .plus => some (.arith .add)
  | .minus => some (.arith .sub)
  | .star => some (.arith .mul)
  | .slash => some (.arith .div)
  | .eqEq => some (.compare .eq)
  | .bangEq => some (.compare .notEq)
  | .lt => some (.compare .lt)
  | .gt => some (.compare .gt)
  | .ltEq => some (.compare .ltEq)
  | .gtEq => some (.compare .gtEq)
  | .ampAmp => some (.logical .and)
  | .pipePipe => some (.logical .or)
  | .amp => some (.bitwise .and)
  | .pipe => some (.bitwise .or)
  | _ => none

/-- The element that an operator token is, given whether an operand stands
before it. -/
def operator? (operandBefore : Bool) (p : Punct) (line : Nat) : Option Node :=
  match unaryOp? p, operandBefore with
  | some op, false => some (.unary op none line)
  | _, _ =>
    match p with
    | .bang => some (.unary .not none line)
    | p => (binaryOp? p).map fun op => .binary op line

/-- The type of a cast, after its opening parenthesis. -/
def readCast (last : Nat) (ts : List Token) : Except Fault (Ty × Left ts.length) := do
  let (ty, rest) ← readTy last ts
  let rest' ← expect last .rparen rest.1
  return (ty, rest.within rest')

mutual

/-- Reads the element that starts with `t`. -/
def readNode (last : Nat) (operandBefore : Bool) (t : Token) (ts : List Token) :
    Node × Option (Left (ts.length + 1)) :=
  match t.kind with
  | .integer n => (.int n t.line, some (.tail ts))
  | .float x => (.float x t.line, some (.tail ts))
  | .identifier name =>
    match ts with
    | ⟨.punct .lparen, _⟩ :: after =>
      match readArgs last after with
      | (args, rest) =>
        (.call name t.line args, rest.map (·.succ.succ))
    | ts => (.name name t.line, some (.tail ts))
  | .punct .lparen =>
    if startsType ts then
      match readCast last ts with
      | .ok (ty, rest) => (.unary .cast (some ty) t.line, some rest.succ)
      | .error f => (.broken f, none)
    else
      match readRun last .paren false ts with
      | (inner, rest) => (.group inner, rest.map (·.2.succ))
  | .punct p =>
    match operator? operandBefore p t.line with
    | some node => (node, some (.tail ts))
    | none => (.broken (.unexpected t), none)
  | _ => (.broken (.unexpected t), none)
termination_by (ts.length, 1)

/-- Reads an expression up to the token that ends it, which comes with it. -/
def readRun (last : Nat) (stop : Stop) (operandBefore : Bool) (ts : List Token) :
    Run × Option (Token × Left ts.length) :=
  match ts with
  | [] => (.last (.broken (.unexpected (front last []))), none)
  | t :: ts =>
    if stop.ends t.kind then (.last (.broken (.expected .anExpression t)), none)
    else
      match readNode last operandBefore t ts with
      | (node, none) => (.last node, none)
      | (node, some ⟨[], _⟩) =>
        (.more node (.last (.broken (.unexpected (front last [])))), none)
      | (node, some ⟨s :: rest, h⟩) =>
        if stop.ends s.kind then (.last node, some (s, Left.within ⟨s :: rest, h⟩ (.tail rest)))
        else
          match readRun last stop node.isOperand (s :: rest) with
          | (run, rest') =>
            (.more node run, rest'.map fun r => (r.1, Left.within ⟨s :: rest, h⟩ r.2))
termination_by (ts.length, 0)

/-- Reads the arguments of a call, after its opening parenthesis. -/
def readArgs (last : Nat) (ts : List Token) : Args × Option (Left ts.length) :=
  match ts with
  | ⟨.punct .rparen, _⟩ :: after => (.none, some (.tail after))
  | ts => readMoreArgs last ts
termination_by (ts.length, 2)

/-- Reads one argument and those after it. -/
def readMoreArgs (last : Nat) (ts : List Token) : Args × Option (Left ts.length) :=
  match readRun last .argument false ts with
  | (e, none) => (.arg e .none, none)
  | (e, some (s, rest)) =>
    if s.kind = .punct .comma then
      match readMoreArgs last rest.1 with
      | (args, rest') => (.arg e args, rest'.map rest.within)
    else (.arg e .none, some rest)
termination_by (ts.length, 1)
decreasing_by
  · exact Prod.Lex.right _ (by decide)
  · exact Prod.Lex.left _ _ rest.2

end

end MiniC.Outline
