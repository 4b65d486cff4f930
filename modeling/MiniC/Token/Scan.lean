/-
  MiniC.Token.Scan

  From characters to tokens.

  Between tokens lie blanks and comments.  A line comment runs up to the
  newline, a block comment to the first end mark after its start.  What
  follows is read as far as it goes: the longest run of name characters, the
  longest run of digits and points, the longer of two operators.

  Newlines between tokens, comments included, raise the line number.  A
  character literal that is broken off by a newline takes it in without
  counting it.

  Scanning never stops early: malformed text becomes an invalid token and the
  characters after it are scanned as usual.  Every token but the end of the
  text takes at least one character (`length_scan_lt`), so a text has finitely
  many.
-/
import MiniC.Binary32.Decimal
import MiniC.Text.Cursor
import MiniC.Token

namespace MiniC

open Text (Cursor)

namespace Scan

/-! ## §1. Character classes -/

/-- The blanks between tokens on one line. -/
def isSpace (c : Char) : Bool := c = ' ' || c = '\t' || c = '\r' || c = '\x0c'

/-- An ASCII letter. -/
def isLetter (c : Char) : Bool := ('a' ≤ c && c ≤ 'z') || ('A' ≤ c && c ≤ 'Z')

/-- May begin a name. -/
def isNameStart (c : Char) : Bool := isLetter c || c = '_'

/-- May stand in a name. -/
def isNameChar (c : Char) : Bool := isLetter c || Text.isDigit c || c = '_'

/-- May stand in a number. -/
def isNumberChar (c : Char) : Bool := Text.isDigit c || c = '.'

/-! ## §2. Blanks and comments -/

/-- A place in the text. -/
structure Place where
  /-- The characters still to be read. -/
  rest : Cursor
  /-- The line they start on, counted from 1. -/
  line : Nat
  deriving DecidableEq, Repr

/-- Where blanks and comments end. -/
structure Gap where
  /-- The place after them. -/
  after : Place
  /-- The line of a block comment that is not closed. -/
  unclosed : Option Nat := none
  deriving DecidableEq, Repr

/-- What the characters to be skipped belong to. -/
inductive Inside where
  /-- No comment. -/
  | nothing
  /-- A line comment. -/
  | lineComment
  /-- A block comment that starts on the line given. -/
  | blockComment (start : Nat)
  deriving DecidableEq, Repr

/-- Skips blanks and comments; `line` is the line of the first character. -/
def skip : Inside → Cursor → (line : Nat) → Gap
  | .nothing, [], line => ⟨⟨[], line⟩, none⟩
  | .nothing, '\n' :: cs, line => skip .nothing cs (line + 1)
  | .nothing, '/' :: '/' :: cs, line => skip .lineComment cs line
  | .nothing, '/' :: '*' :: cs, line => skip (.blockComment line) cs line
  | .nothing, c :: cs, line =>
    if isSpace c then skip .nothing cs line else ⟨⟨c :: cs, line⟩, none⟩
  | .lineComment, [], line => ⟨⟨[], line⟩, none⟩
  | .lineComment, '\n' :: cs, line => skip .nothing cs (line + 1)
  | .lineComment, _ :: cs, line => skip .lineComment cs line
  | .blockComment start, [], line => ⟨⟨[], line⟩, some start⟩
  | .blockComment _, '*' :: '/' :: cs, line => skip .nothing cs line
  | .blockComment start, '\n' :: cs, line => skip (.blockComment start) cs (line + 1)
  | .blockComment start, _ :: cs, line => skip (.blockComment start) cs line

/-! ## §3. Single tokens -/

/-- The longer operator if `c` follows, the shorter one otherwise. -/
def longer (c : Char) (long short : Punct) (cs : Cursor) : Kind × Cursor :=
  match cs.eat? c with
  | some rest => (.punct long, rest)
  | none => (.punct short, cs)

/-- The closing quote of a character literal. -/
def closeQuote (c : Char) (cs : Cursor) : Kind × Cursor :=
  match cs.eat? '\'' with
  | some rest => (.integer (Int32.ofNat c.toNat), rest)
  | none => (.invalid .unterminatedChar, cs)

/-- A character literal after its backslash. -/
def escape : Cursor → Kind × Cursor
  | [] => (.invalid .unterminatedChar, [])
  | 'n' :: cs => closeQuote '\n' cs
  | 'r' :: cs => closeQuote '\r' cs
  | '0' :: cs => closeQuote '\x00' cs
  | '\\' :: cs => closeQuote '\\' cs
  | '\n' :: cs => (.invalid .unterminatedChar, cs)
  | c :: cs => (.invalid (.invalidEscape c), cs)

/-- A character literal after its opening quote. -/
def character : Cursor → Kind × Cursor
  | [] => (.invalid .unterminatedChar, [])
  | '\\' :: cs => escape cs
  | '\n' :: cs => (.invalid .unterminatedChar, cs)
  | '\'' :: cs => (.invalid .unterminatedChar, cs)
  | c :: cs => closeQuote c cs

/-- The number that a run of digits and so many points is. -/
def numberWith (points : Nat) (run : List Char) : Kind :=
  match points with
  | 0 =>
    let n := Text.digitsValue run
    if n ≤ 2147483647 then .integer (Int32.ofNat n) else .invalid .integerOverflow
  | 1 =>
    let whole := run.takeWhile Text.isDigit
    let fraction := (run.dropWhile Text.isDigit).drop 1
    .float (Decimal.ofPointed whole fraction).toBinary32
  | _ => .invalid .malformedFloat

/-- The number that a run of digits and points is. -/
def number (run : List Char) : Kind := numberWith (run.count '.') run

/-- The word that a run of name characters is. -/
def word (run : List Char) : Kind :=
  let text := String.ofList run
  match Keyword.ofSpelling? text with
  | some k => .keyword k
  | none => .identifier text

/-- The token that starts with `c`, and what follows it. -/
def lexeme (c : Char) (cs : Cursor) : Kind × Cursor :=
  match c with
  | ';' => (.punct .semicolon, cs)
  | ',' => (.punct .comma, cs)
  | '{' => (.punct .lbrace, cs)
  | '}' => (.punct .rbrace, cs)
  | '(' => (.punct .lparen, cs)
  | ')' => (.punct .rparen, cs)
  | '[' => (.punct .lbracket, cs)
  | ']' => (.punct .rbracket, cs)
  | '+' => (.punct .plus, cs)
  | '-' => (.punct .minus, cs)
  | '*' => (.punct .star, cs)
  | '/' => (.punct .slash, cs)
  | '!' => longer '=' .bangEq .bang cs
  | '&' => longer '&' .ampAmp .amp cs
  | '|' => longer '|' .pipePipe .pipe cs
  | '=' => longer '=' .eqEq .eq cs
  | '<' => longer '=' .ltEq .lt cs
  | '>' => longer '=' .gtEq .gt cs
  | '\'' => character cs
  | c =>
    if Text.isDigit c then
      (number (c :: cs.takeWhile isNumberChar), cs.dropWhile isNumberChar)
    else if isNameStart c then
      (word (c :: cs.takeWhile isNameChar), cs.dropWhile isNameChar)
    else (.invalid (.unexpectedChar c), cs)

/-- The next token, and the place after it. -/
def scan (p : Place) : Token × Place :=
  let gap := skip .nothing p.rest p.line
  match gap.unclosed with
  | some start => (⟨.invalid .unterminatedComment, start⟩, gap.after)
  | none =>
    match gap.after.rest with
    | [] => (⟨.endOfFile, gap.after.line⟩, gap.after)
    | c :: cs =>
      let (kind, rest) := lexeme c cs
      (⟨kind, gap.after.line⟩, ⟨rest, gap.after.line⟩)

/-! ## §4. Scanning makes progress -/

theorem length_dropWhile_le (p : Char → Bool) (cs : Cursor) :
    (cs.dropWhile p).length ≤ cs.length :=
  (List.dropWhile_sublist p).length_le

/-- A sign does not lengthen the text. -/
theorem length_longer_le (c : Char) (long short : Punct) (cs : Cursor) :
    (longer c long short cs).2.length ≤ cs.length := by
  unfold longer
  split
  · rename_i h
    rw [Cursor.eq_cons_of_eat? h]
    simp
  · exact Nat.le_refl _

/-- A closing quote does not lengthen the text. -/
theorem length_closeQuote_le (c : Char) (cs : Cursor) :
    (closeQuote c cs).2.length ≤ cs.length := by
  unfold closeQuote
  split
  · rename_i h
    rw [Cursor.eq_cons_of_eat? h]
    simp
  · exact Nat.le_refl _

theorem length_escape_le (cs : Cursor) : (escape cs).2.length ≤ cs.length := by
  fun_cases escape cs <;> grind [length_closeQuote_le]

theorem length_character_le (cs : Cursor) : (character cs).2.length ≤ cs.length := by
  fun_cases character cs <;> grind [length_closeQuote_le, length_escape_le]

/-- A token is at most what there is. -/
theorem length_lexeme_le (c : Char) (cs : Cursor) : (lexeme c cs).2.length ≤ cs.length := by
  fun_cases lexeme c cs <;>
    grind [length_longer_le, length_character_le, length_dropWhile_le]

/-- Blanks and comments are at most what there is. -/
theorem length_skip_le (inside : Inside) (cs : Cursor) (line : Nat) :
    (skip inside cs line).after.rest.length ≤ cs.length := by
  fun_induction skip inside cs line <;> simp_all only [List.length_cons, Nat.le_refl] <;> omega

/-- A comment that is not closed leaves nothing to read. -/
theorem rest_skip_of_unclosed {inside : Inside} {cs : Cursor} {line start : Nat}
    (h : (skip inside cs line).unclosed = some start) :
    (skip inside cs line).after.rest = [] := by
  fun_induction skip inside cs line <;> simp_all

/-- Only a text with something in it can hold a comment that is not closed. -/
theorem length_pos_of_unclosed {cs : Cursor} {line start : Nat}
    (h : (skip .nothing cs line).unclosed = some start) : 0 < cs.length := by
  cases cs with
  | nil => simp [skip] at h
  | cons c cs => simp

/-- A token other than the end of the text takes at least one character. -/
theorem length_scan_lt {p : Place} (h : (scan p).1.kind ≠ .endOfFile) :
    (scan p).2.rest.length < p.rest.length := by
  unfold scan at h ⊢
  dsimp only at h ⊢
  split
  · rename_i start hs
    rw [rest_skip_of_unclosed hs]
    exact length_pos_of_unclosed hs
  · rename_i hs
    rw [hs] at h
    dsimp only at h
    split
    · rename_i hr
      rw [hr] at h
      exact absurd rfl h
    · rename_i c cs hr
      have hle := length_skip_le .nothing p.rest p.line
      have hlex := length_lexeme_le c cs
      rw [hr] at hle
      simp only [List.length_cons] at hle
      dsimp only
      omega

/-! ## §5. All tokens -/

/-- The tokens of a text, and the line on which the text ends. -/
structure Tokens where
  /-- The tokens before the end of the text. -/
  list : List Token
  /-- The line of the end. -/
  endLine : Nat
  deriving DecidableEq, Repr

/-- The tokens from a place on. -/
def tokensFrom (p : Place) : Tokens :=
  match h : scan p with
  | (t, after) =>
    if ht : t.kind = .endOfFile then ⟨[], t.line⟩
    else
      have : after.rest.length < p.rest.length := by
        have := length_scan_lt (p := p)
        rw [h] at this
        exact this ht
      let later := tokensFrom after
      ⟨t :: later.list, later.endLine⟩
termination_by p.rest.length

/-- The start of a text. -/
def Place.start (text : String) : Place := ⟨Cursor.ofString text, 1⟩

/-- The tokens of a text. -/
def tokens (text : String) : Tokens := tokensFrom (.start text)

/-- The tokens with the end of the text as the last. -/
def Tokens.withEnd (ts : Tokens) : List Token := ts.list ++ [⟨.endOfFile, ts.endLine⟩]

end Scan

end MiniC
