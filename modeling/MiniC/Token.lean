/-
  MiniC.Token

  The words of the language.

  A token is a keyword, a name, a number, a piece of punctuation, or a stretch
  of text that is none of these; the last is kept as an invalid token with the
  reason.  Each has the line on which it starts, counted from 1.  The end of
  the text counts as a token where a reader has to be told what stands there.
-/
import MiniC.Binary32.Basic
import MiniC.Text.Quoted

namespace MiniC

/-! ## §1. Kinds of words -/

/-- The reserved words. -/
inductive Keyword where
  | kwWhile | kwIf | kwElse | kwBreak | kwContinue | kwReturn | kwExtern
  | kwVoid | kwInt | kwFloat
  deriving DecidableEq, Repr

namespace Keyword

/-- Every reserved word. -/
def all : List Keyword :=
  [.kwWhile, .kwIf, .kwElse, .kwBreak, .kwContinue, .kwReturn, .kwExtern,
   .kwVoid, .kwInt, .kwFloat]

/-- How a reserved word is written. -/
def spelling : Keyword → String
  | .kwWhile => "while"
  | .kwIf => "if"
  | .kwElse => "else"
  | .kwBreak => "break"
  | .kwContinue => "continue"
  | .kwReturn => "return"
  | .kwExtern => "extern"
  | .kwVoid => "void"
  | .kwInt => "int"
  | .kwFloat => "float"

/-- The reserved word that is written so, if there is one. -/
def ofSpelling? (word : String) : Option Keyword :=
  all.find? fun k => k.spelling = word

/-- Begins the name of a type. -/
def isType : Keyword → Bool
  | .kwVoid | .kwInt | .kwFloat => true
  | _ => false

end Keyword

/-- Punctuation and operators. -/
inductive Punct where
  | semicolon | comma | lbrace | rbrace | lparen | rparen | lbracket | rbracket
  | plus | minus | star | slash
  | bang | bangEq | amp | ampAmp | pipe | pipePipe
  | eq | eqEq | lt | ltEq | gt | gtEq
  deriving DecidableEq, Repr

/-- How a piece of punctuation is written. -/
def Punct.spelling : Punct → String
  | .semicolon => ";"
  | .comma => ","
  | .lbrace => "\x7b"
  | .rbrace => "\x7d"
  | .lparen => "("
  | .rparen => ")"
  | .lbracket => "["
  | .rbracket => "]"
  | .plus => "+"
  | .minus => "-"
  | .star => "*"
  | .slash => "/"
  | .bang => "!"
  | .bangEq => "!="
  | .amp => "&"
  | .ampAmp => "&&"
  | .pipe => "|"
  | .pipePipe => "||"
  | .eq => "="
  | .eqEq => "=="
  | .lt => "<"
  | .ltEq => "<="
  | .gt => ">"
  | .gtEq => ">="

/-- Why a stretch of text is no word of the language. -/
inductive Malformed where
  /-- No word starts with this character. -/
  | unexpectedChar (c : Char)
  /-- A character literal is not closed. -/
  | unterminatedChar
  /-- A backslash is followed by a character that makes no escape. -/
  | invalidEscape (c : Char)
  /-- A number has more than one point. -/
  | malformedFloat
  /-- An integer does not fit 32 bits. -/
  | integerOverflow
  /-- A block comment is not closed. -/
  | unterminatedComment
  deriving DecidableEq, Repr

/-- What is said about malformed text. -/
def Malformed.message : Malformed → String
  | .unexpectedChar c => "unexpected character " ++ Text.quoted c
  | .unterminatedChar => "unterminated character literal"
  | .invalidEscape c => "invalid escape sequence `\\" ++ String.singleton c ++ "`"
  | .malformedFloat => "malformed float literal"
  | .integerOverflow => "integer overflow"
  | .unterminatedComment => "unterminated block comment"

/-! ## §2. Tokens -/

/-- What a token is. -/
inductive Kind where
  /-- A reserved word. -/
  | keyword (k : Keyword)
  /-- Any other word. -/
  | identifier (name : String)
  /-- A whole number, or the code point of a character literal. -/
  | integer (n : Int32)
  /-- A number with a point. -/
  | float (x : Binary32)
  /-- Punctuation or an operator. -/
  | punct (p : Punct)
  /-- Text that is no word. -/
  | invalid (m : Malformed)
  /-- The end of the text. -/
  | endOfFile
  deriving DecidableEq, Repr

namespace Kind

/-- Begins the name of a type. -/
def isType : Kind → Bool
  | .keyword k => k.isType
  | _ => false

/-- The name, if the word is one. -/
def name? : Kind → Option String
  | .identifier x => some x
  | _ => none

/-- What a message calls such a token. -/
def description : Kind → String
  | .keyword k => "keyword `" ++ k.spelling ++ "`"
  | .identifier _ => "identifier"
  | .integer _ => "integer"
  | .float _ => "float"
  | .punct p => "`" ++ p.spelling ++ "`"
  | .invalid _ => "invalid token"
  | .endOfFile => "end of file"

end Kind

/-- A token and the line on which it starts. -/
structure Token where
  /-- What it is. -/
  kind : Kind
  /-- Its line, counted from 1. -/
  line : Nat
  deriving DecidableEq, Repr

/-! ## §3. Spelling -/

/-- No two reserved words are written alike. -/
theorem Keyword.ofSpelling?_spelling (k : Keyword) : ofSpelling? k.spelling = some k := by
  cases k <;> decide

/-- A word found in the list of reserved words is written that way. -/
theorem Keyword.spelling_of_ofSpelling? {word : String} {k : Keyword}
    (h : ofSpelling? word = some k) : k.spelling = word := by
  simpa using List.find?_some h

end MiniC
