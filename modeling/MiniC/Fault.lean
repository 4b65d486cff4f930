/-
  MiniC.Fault

  What can be wrong with a source text, and how it is reported.

  A fault is a cause and the line it is reported on.  Causes fall into four
  categories: the words, the grammar, the names and the types.  The wording of
  every message is in this one place.
-/
import MiniC.Text.Blank
import MiniC.Text.Lines
import MiniC.Token
import MiniC.Typing

namespace MiniC

/-- What the grammar asks for at a place. -/
inductive Wanted where
  /-- One piece of punctuation. -/
  | exactly (p : Punct)
  /-- One of two. -/
  | either (p q : Punct)
  /-- The name of a type. -/
  | aType
  /-- A name. -/
  | anIdentifier
  /-- An expression. -/
  | anExpression
  deriving DecidableEq, Repr

/-- What a message calls it. -/
def Wanted.description : Wanted → String
  | .exactly p => "`" ++ p.spelling ++ "`"
  | .either p q => "`" ++ p.spelling ++ "` or `" ++ q.spelling ++ "`"
  | .aType => "a type"
  | .anIdentifier => "an identifier"
  | .anExpression => "an expression"

/-- The four categories of faults. -/
inductive Category where
  /-- The words. -/
  | lexical
  /-- The grammar. -/
  | grammar
  /-- The names. -/
  | naming
  /-- The types. -/
  | typing
  deriving DecidableEq, Repr

/-- How a report begins. -/
def Category.title : Category → String
  | .lexical => "lex error"
  | .grammar => "syntax error"
  | .naming => "scope error"
  | .typing => "type error"

/-- What is wrong. -/
inductive Cause where
  /-- The text is no word of the language. -/
  | malformed (m : Malformed)
  /-- The grammar asks for something else. -/
  | expected (wanted : Wanted) (found : Kind)
  /-- No expression goes on like this. -/
  | unexpected (found : Kind)
  /-- No declaration begins like this. -/
  | notDeclaration
  /-- A function of the host has a body. -/
  | importWithBody
  /-- A jump out of a loop where there is none. -/
  | outsideLoop (jump : Keyword)
  /-- A call has more arguments than the function has parameters. -/
  | tooManyArguments
  /-- A call has fewer arguments than the function has parameters. -/
  | notEnoughArguments
  /-- Two operands without an operator between them. -/
  | badCombination
  /-- An operator without an operand. -/
  | badExpression
  /-- A name is declared twice. -/
  | redefined (name : String)
  /-- A name is not declared. -/
  | unknown (name : String)
  /-- A variable is called. -/
  | notFunction (name : String)
  /-- A function is used as a value. -/
  | notVariable (name : String)
  /-- A function has no body. -/
  | neverDefined (name : String)
  /-- A variable without a value. -/
  | voidVariable (name : String)
  /-- Two declarations of a function differ. -/
  | conflicting (name : String)
  /-- A global starts with something that is no constant. -/
  | notConstant
  /-- The length of an array is no constant. -/
  | lengthNotConstant
  /-- The length of an array is zero or less. -/
  | lengthNotPositive
  /-- An array starts with a value. -/
  | arrayInitializer
  /-- A function that returns a value returns none. -/
  | missingValue (ret : Ty)
  /-- A function that returns no value returns one. -/
  | unwantedValue
  /-- A condition without a value. -/
  | voidCondition
  /-- An operator or a conversion does not apply. -/
  | illTyped (e : TypeError)
  deriving DecidableEq, Repr

namespace Cause

/-- The category a cause belongs to. -/
def category : Cause → Category
  | .malformed _ => .lexical
  | .expected .. | .unexpected _ | .notDeclaration | .importWithBody | .outsideLoop _
  | .tooManyArguments | .notEnoughArguments | .badCombination | .badExpression => .grammar
  | .redefined _ | .unknown _ | .notFunction _ | .notVariable _ | .neverDefined _ => .naming
  | .voidVariable _ | .conflicting _ | .notConstant | .lengthNotConstant | .lengthNotPositive
  | .arrayInitializer | .missingValue _ | .unwantedValue | .voidCondition | .illTyped _ => .typing

/-- What is said. -/
def message : Cause → String
  | .malformed m => m.message
  | .expected wanted found => "expected " ++ wanted.description ++ ", found " ++ found.description
  | .unexpected found => "unexpected " ++ found.description ++ " in expression"
  | .notDeclaration => "invalid high level declaration"
  | .importWithBody => "extern functions cannot have a body"
  | .outsideLoop jump => "`" ++ jump.spelling ++ "` outside of a loop"
  | .tooManyArguments => "too many arguments"
  | .notEnoughArguments => "not enough arguments"
  | .badCombination => "invalid combination of operators and operands"
  | .badExpression => "invalid expression"
  | .redefined name => "redefinition of the symbol `" ++ name ++ "`"
  | .unknown name => "no such symbol `" ++ name ++ "`"
  | .notFunction name => "`" ++ name ++ "` is not a function"
  | .notVariable name => "`" ++ name ++ "` is not a variable"
  | .neverDefined name => "function `" ++ name ++ "` is declared but never defined"
  | .voidVariable name => "`" ++ name ++ "` cannot have type `void`"
  | .conflicting name => "conflicting types for `" ++ name ++ "`"
  | .notConstant => "global initializer must be a constant"
  | .lengthNotConstant => "array length must be a constant integer"
  | .lengthNotPositive => "array length must be positive"
  | .arrayInitializer => "arrays cannot have initializers"
  | .missingValue ret => "function returning `" ++ ret.display ++ "` must return a value"
  | .unwantedValue => "void function cannot return a value"
  | .voidCondition => "condition cannot be void"
  | .illTyped e => e.message

end Cause

/-- A cause and the line it is reported on. -/
structure Fault where
  cause : Cause
  line : Nat
  deriving DecidableEq, Repr

namespace Fault

/-- The fault of finding `t` where the grammar asks for something else.
Malformed text is reported as such. -/
def expected (wanted : Wanted) (t : Token) : Fault :=
  match t.kind with
  | .invalid m => ⟨.malformed m, t.line⟩
  | found => ⟨.expected wanted found, t.line⟩

/-- The fault of finding `t` in an expression. -/
def unexpected (t : Token) : Fault :=
  match t.kind with
  | .invalid m => ⟨.malformed m, t.line⟩
  | found => ⟨.unexpected found, t.line⟩

/-- The fault of finding `t` where a declaration should begin. -/
def notDeclaration (t : Token) : Fault :=
  match t.kind with
  | .invalid m => ⟨.malformed m, t.line⟩
  | _ => ⟨.notDeclaration, t.line⟩

/-- The trimmed source line that a fault is reported on. -/
def sourceLine (f : Fault) (text : String) : String :=
  String.ofList (Text.trim (Text.lineAt text f.line))

/-- A fault in full: its line, category and message, and the source line. -/
def display (f : Fault) (text : String) : String :=
  "line " ++ Text.unsigned f.line ++ ": " ++ f.cause.category.title ++ ": " ++
    f.cause.message ++ "\n" ++ f.sourceLine text

end Fault

/-- Reports a type error on a line. -/
def typed {α : Type} (line : Nat) : Except TypeError α → Except Fault α
  | .ok a => .ok a
  | .error e => .error ⟨.illTyped e, line⟩

end MiniC
