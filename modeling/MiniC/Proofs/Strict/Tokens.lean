/-
  MiniC.Proofs.Strict.Tokens

  Scanning with points that are counted in 32 bits.

  The points of a numeral are counted in a signed word, which ends at
  2 ^ 31 - 1.  Here one point more breaks off.  A text with no more points than
  that is scanned all the same (`scan_beyond`).
-/
import Mathlib.Algebra.Group.Nat.Defs
import MiniC.Proofs.Scanning.Printing
import MiniC.Proofs.Strict.Breach

namespace MiniC.Strict

open Text (Cursor)
open Scan (Place Tokens)

/-! ## §1. Scanning -/

/-- Counts the points among characters after `points` others, in a signed
word. -/
def countPoints (points : Nat) : List Char → Except Breach Nat
  | [] => .ok points
  | c :: cs =>
    if c ≠ '.' then countPoints points cs
    else if points + 1 < 2 ^ 31 then countPoints (points + 1) cs
    else .error .tooManyPoints

/-- The number that a run of digits and points is. -/
def number (run : List Char) : Except Breach Kind := do
  return Scan.numberWith (← countPoints 0 run) run

/-- The token that starts with `c`, and what follows it. -/
def lexeme (c : Char) (cs : Cursor) : Except Breach (Kind × Cursor) :=
  if Text.isDigit c then do
    return (← number (c :: cs.takeWhile Scan.isNumberChar), cs.dropWhile Scan.isNumberChar)
  else .ok (Scan.lexeme c cs)

/-- The next token, and the place after it. -/
def scan (p : Place) : Except Breach (Token × Place) :=
  let gap := Scan.skip .nothing p.rest p.line
  match gap.unclosed with
  | some start => .ok (⟨.invalid .unterminatedComment, start⟩, gap.after)
  | none =>
    match gap.after.rest with
    | [] => .ok (⟨.endOfFile, gap.after.line⟩, gap.after)
    | c :: cs => do
      let (kind, rest) ← lexeme c cs
      return (⟨kind, gap.after.line⟩, ⟨rest, gap.after.line⟩)

/-! ## §2. Scanning does not break off -/

/-- A count that stays below 2 ^ 31 is exact. -/
theorem countPoints_eq {cs : List Char} {points : Nat} (h : points + cs.count '.' < 2 ^ 31) :
    countPoints points cs = .ok (points + cs.count '.') := by
  induction cs generalizing points with
  | nil => rfl
  | cons c cs ih =>
    rw [countPoints]
    by_cases hc : c = '.'
    · subst hc
      rw [List.count_cons_self] at h ⊢
      rw [if_neg (not_not.2 rfl), if_pos (by omega), ih (by omega)]
      exact congrArg Except.ok (by omega)
    · rw [List.count_cons_of_ne hc] at h ⊢
      rw [if_pos hc, ih h]

/-- A token is scanned as it is, if few points follow its first character. -/
theorem lexeme_eq {c : Char} {cs : Cursor} (h : (c :: cs).count '.' < 2 ^ 31) :
    lexeme c cs = .ok (Scan.lexeme c cs) := by
  unfold lexeme
  split
  · rename_i hdigit
    have hrun : (c :: cs.takeWhile Scan.isNumberChar).count '.' < 2 ^ 31 :=
      Nat.lt_of_le_of_lt (((List.takeWhile_sublist _).cons_cons c).count_le '.') h
    rw [number, countPoints_eq (by omega), Nat.zero_add, Scan.lexeme_of_isDigit hdigit]
    rfl
  · rfl

/-- The next token is scanned as it is, if few points are left. -/
theorem scan_eq {p : Place} (h : p.rest.count '.' < 2 ^ 31) : scan p = .ok (Scan.scan p) := by
  have hskip := Scan.suffix_skip .nothing p.rest p.line
  unfold scan Scan.scan
  generalize Scan.skip .nothing p.rest p.line = gap at hskip
  obtain ⟨⟨rest, line⟩, unclosed⟩ := gap
  cases unclosed with
  | some start => rfl
  | none =>
    cases rest with
    | nil => rfl
    | cons c cs =>
      dsimp only
      rw [lexeme_eq (Nat.lt_of_le_of_lt (hskip.sublist.count_le '.') h)]
      rfl

/-- **Scanning token after token does not break off** in a text with fewer than
2 ^ 31 points. -/
theorem scan_beyond {text : String} (h : text.toList.count '.' < 2 ^ 31) (n : Nat) :
    scan ((Place.start text).beyond n) = .ok (Scan.scan ((Place.start text).beyond n)) :=
  scan_eq (Nat.lt_of_le_of_lt ((Scan.suffix_beyond _ n).sublist.count_le '.') h)

end MiniC.Strict
