/-
  MiniC.Text.Lines

  A named source text and its lines.

  A newline ends a line, so a text with `k` newlines has `k + 1` lines, the
  last of which may be empty.  A carriage return that ends a line is not part
  of what is shown.  Lines are found by index, either as text or as the byte
  at which they start.  Both go by the bytes at which the newlines stand: a
  line is the slice of the text up to the byte after its newline, without the
  line ending.

  `terminatedLines` is the stricter reading of an error message: there a
  final newline opens no further line, and a carriage return is dropped only
  before a newline.
-/

namespace MiniC.Text

/-! ## §1. Splitting at newlines -/

/-- The segments between newlines; always at least one. -/
def splitLines : List Char → List (List Char)
  | [] => [[]]
  | c :: cs =>
    if c = '\n' then [] :: splitLines cs
    else
      match splitLines cs with
      | [] => [[c]]
      | line :: rest => (c :: line) :: rest

/-- Drops one `c` at the end. -/
def dropEnd (c : Char) (line : List Char) : List Char :=
  if line.getLast? = some c then line.dropLast else line

/-- Drops one carriage return at the end. -/
def dropReturn (line : List Char) : List Char := dropEnd '\r' line

/-- The lines of a text in which a final newline opens no further line.  Only
a line that a newline ends loses its carriage return. -/
def terminatedLines (cs : List Char) : List (List Char) :=
  go (splitLines cs)
where
  go : List (List Char) → List (List Char)
    | [] => []
    | [last] => if last.isEmpty then [] else [last]
    | line :: rest => dropReturn line :: go rest

/-- Line `n` of a text, counted from 1; empty if there is none. -/
def lineAt (text : String) (n : Nat) : List Char :=
  match n with
  | 0 => []
  | n + 1 => (terminatedLines text.toList)[n]?.getD []

/-! ## §2. Bytes of a text -/

/-- How many bytes characters take up. -/
def byteCount : List Char → Nat
  | [] => 0
  | c :: cs => c.utf8Size + byteCount cs

/-- The bytes at which the newlines stand, if the first character stands at
`byte`. -/
def breaksFrom (byte : Nat) : List Char → List Nat
  | [] => []
  | c :: cs =>
    if c = '\n' then byte :: breaksFrom (byte + c.utf8Size) cs
    else breaksFrom (byte + c.utf8Size) cs

/-- The characters that take up the first `n` bytes, and those after them;
nothing if byte `n` lies within a character or past the end. -/
def cutBytes? : (n : Nat) → List Char → Option (List Char × List Char)
  | 0, cs => some ([], cs)
  | _ + 1, [] => none
  | n + 1, c :: cs =>
    if c.utf8Size ≤ n + 1 then
      (cutBytes? (n + 1 - c.utf8Size) cs).map fun cut => (c :: cut.1, cut.2)
    else none

/-- The characters from one byte up to another; nothing unless both lie between
characters, in this order. -/
def slice? (cs : List Char) (start stop : Nat) : Option (List Char) :=
  if start ≤ stop then
    (cutBytes? start cs).bind fun cut => (cutBytes? (stop - start) cut.2).map Prod.fst
  else none

/-! ## §3. Named sources -/

/-- A source text with its name. -/
structure Source where
  /-- The name shown above its lines. -/
  name : String
  /-- The text. -/
  text : String
  deriving DecidableEq, Repr

namespace Source

/-- The bytes at which the newlines stand. -/
def lineBreaks (s : Source) : List Nat := breaksFrom 0 s.text.toList

/-- How many lines there are: one more than newlines. -/
def lineCount (s : Source) : Nat := s.lineBreaks.length + 1

/-- The byte at which line `i` starts, counted from 0. -/
def lineStart? (s : Source) (i : Nat) : Option Nat :=
  match i with
  | 0 => some 0
  | i + 1 => s.lineBreaks[i]?.map (· + 1)

/-- The text of line `i`, counted from 0, without its line ending. -/
def line? (s : Source) (i : Nat) : Option (List Char) := do
  let start ← s.lineStart? i
  let stop := (s.lineStart? (i + 1)).getD (byteCount s.text.toList)
  let line ← slice? s.text.toList start stop
  return dropReturn (dropEnd '\n' line)

end Source

/-! ## §4. Counting lines -/

/-- There is always a first line. -/
theorem splitLines_ne_nil (cs : List Char) : splitLines cs ≠ [] := by
  cases cs with
  | nil => simp [splitLines]
  | cons c cs =>
    rw [splitLines]
    split
    · simp
    · split <;> simp

/-- One more line than newlines. -/
theorem length_splitLines (cs : List Char) :
    (splitLines cs).length = cs.count '\n' + 1 := by
  induction cs with
  | nil => rfl
  | cons c cs ih =>
    rw [splitLines]
    split
    · rename_i h
      simp [h, ih]
    · rename_i h
      split
      · rename_i hnil
        exact absurd hnil (splitLines_ne_nil cs)
      · rename_i line rest hcons
        rw [hcons] at ih
        simpa [h] using ih

/-- There are as many breaks as newlines. -/
theorem length_breaksFrom (byte : Nat) (cs : List Char) :
    (breaksFrom byte cs).length = cs.count '\n' := by
  induction cs generalizing byte with
  | nil => rfl
  | cons c cs ih =>
    rw [breaksFrom]
    split
    · rename_i h
      simp [h, ih]
    · rename_i h
      simp [h, ih]

theorem Source.lineCount_eq (s : Source) : s.lineCount = s.text.toList.count '\n' + 1 := by
  rw [lineCount, lineBreaks, length_breaksFrom]

end MiniC.Text
