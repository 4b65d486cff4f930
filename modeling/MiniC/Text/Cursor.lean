/-
  MiniC.Text.Cursor

  Reading a text one character at a time.

  A cursor is simply the characters that are still to be read.  Looking at
  the first of them changes nothing; taking it leaves a shorter cursor.
-/

namespace MiniC.Text

/-- The characters still to be read. -/
abbrev Cursor := List Char

namespace Cursor

/-- A cursor at the start of a text. -/
def ofString (text : String) : Cursor := text.toList

/-- The next character, left where it is. -/
def peek? (cs : Cursor) : Option Char := cs.head?

/-- The next character and the cursor after it. -/
def next? : Cursor → Option (Char × Cursor)
  | [] => none
  | c :: cs => some (c, cs)

/-- Takes the next character if it is `c`, and says nothing otherwise. -/
def eat? (c : Char) : Cursor → Option Cursor
  | [] => none
  | d :: cs => if d = c then some cs else none

/-- Nothing is left. -/
def atEnd (cs : Cursor) : Bool := cs.isEmpty

/-- The text that is left. -/
def text (cs : Cursor) : String := String.ofList cs

/-- A character that is eaten was the first one. -/
theorem eq_cons_of_eat? {c : Char} {cs rest : Cursor} (h : eat? c cs = some rest) :
    cs = c :: rest := by
  cases cs with
  | nil => simp [eat?] at h
  | cons d ds =>
    simp only [eat?, Option.ite_none_right_eq_some, Option.some.injEq] at h
    rw [h.1, h.2]

end Cursor

end MiniC.Text
