/-
  MiniC.Text.Ranges

  Sets of code points given as closed ranges.

  The tables of character properties in this folder are lists of such ranges.
  The long ones are written as text (`Ranges.ofTable`).
-/

namespace MiniC.Text

/-- A set of code points, as closed ranges. -/
abbrev Ranges := List (Nat × Nat)

namespace Ranges

/-- The character lies in one of the ranges. -/
def has (rs : Ranges) (c : Char) : Bool :=
  rs.any fun r => r.1 ≤ c.toNat && c.toNat ≤ r.2

/-- The value of a hexadecimal digit. -/
def hexDigit? (c : Char) : Option Nat :=
  if '0' ≤ c && c ≤ '9' then some (c.toNat - '0'.toNat)
  else if 'A' ≤ c && c ≤ 'F' then some (c.toNat - 'A'.toNat + 10)
  else none

/-- The last code point of a range, of which only the digits may be written
that differ from the first. -/
def lastOf (first n : Nat) : Nat :=
  let bits := 4 * (n.log2 / 4 + 1)
  if first ≤ n then n else (first >>> bits) <<< bits + n

/-- The entry of a table that ends with this number, if there is one: a range
if a first code point was read, else one code point. -/
def entry (first? : Option Nat) : Option Nat → Ranges
  | some n => first?.elim [(n, n)] fun first => [(first, lastOf first n)]
  | none => []

/-- Reads entries on, after the first code point of a range and the first
digits of a number. -/
def readEntries (first? number? : Option Nat) : List Char → Ranges
  | [] => entry first? number?
  | c :: cs =>
    if c == '-' then readEntries number? none cs
    else
      match hexDigit? c with
      | some d => readEntries first? (some (16 * number?.getD 0 + d)) cs
      | none => entry first? number? ++ readEntries none none cs

/-- The ranges of a table in hexadecimal: code points, and ranges with a dash
in them, with blanks between the entries. -/
def ofTable (table : String) : Ranges :=
  readEntries none none table.toList

end Ranges

end MiniC.Text
