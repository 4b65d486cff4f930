/-
  MiniC.Text.Width

  How many columns a text takes when printed.

  The columns of its characters do not simply add up: an emoji may be written
  with several characters, letters merge into ligatures, and a variation
  selector changes the width of the character before it.  What decides always
  stands after the character, so a text is measured from its end: each
  character is added to what the text after it has left open.
-/
import MiniC.Text.Ligature

namespace MiniC.Text

/-! ## §1. What a text leaves open at its start -/

/-- How a variation selector wants the character before it. -/
inductive Variant where
  /-- As text. -/
  | text
  /-- As an emoji. -/
  | emoji
  deriving DecidableEq, Repr

/-- What the start of a text can still become part of. -/
inductive Opening where
  /-- Nothing. -/
  | closed
  /-- A ligature. -/
  | tail (t : Tail)
  /-- A sequence that a joiner makes with this emoji. -/
  | emoji
  /-- An emoji with this colour of skin. -/
  | skinTone
  /-- A flag, with a number of regional indicators. -/
  | indicators (count : Nat)
  /-- A sequence that goes on after a joiner. -/
  | joined
  /-- A keycap in such a sequence. -/
  | joinedKeycap
  /-- A flag in such a sequence, with a number of regional indicators. -/
  | joinedIndicators (count : Nat)
  /-- A tagged flag in such a sequence, with a number of letters at its end. -/
  | tagLetters (count : Nat)
  /-- A tagged flag in such a sequence, with a number of digits before them. -/
  | tagDigits (count : Nat)
  deriving DecidableEq, Repr

/-- An opening, and the selector that stands before it. -/
structure Start where
  opening : Opening
  variant : Option Variant := none
  deriving DecidableEq, Repr

namespace Opening

/-- The opening of a character with nothing after it that it belongs to. -/
def ofChar (c : Char) : Opening :=
  match Tail.ofChar? c with
  | some t => .tail t
  | none =>
    if isIndicator c then .indicators 1
    else if isSkinTone c then .skinTone
    else if emojis.has c then .emoji
    else .closed

/-- An emoji is complete, so that a joiner can add to it. -/
def isEmoji : Opening → Bool
  | .emoji | .skinTone => true
  | .indicators n | .joinedIndicators n => 2 ≤ n
  | _ => false

/-- A joiner asks for one more emoji. -/
def isJoined : Opening → Bool
  | .joined | .joinedKeycap => true
  | _ => false

/-- Tags that are a region's code: two letters or three digits for the
country, and up to four more letters. -/
def isRegion : Opening → Bool
  | .tagLetters n => 3 ≤ n
  | .tagDigits n => n = 3
  | _ => false

/-- The character makes the open sequence longer: the columns that it adds,
and what is open then. -/
def extend? (o : Opening) (c : Char) : Option (Int × Opening) :=
  if c = joiner && o.isEmoji then some (0, .joined)
  else if c = blackFlag && o.isRegion then some (0, .emoji)
  else match o with
    | .tail t =>
      match t.merge? c with
      | some (n, rest) => some (n, (rest.map .tail).getD .closed)
      | none => (t.skip? c).map fun t' => (0, .tail t')
    | .skinTone => if skins.has c then some (0, .emoji) else none
    | .indicators n => if isIndicator c then some (1, .indicators (n + 1)) else none
    | .joined =>
      if c = keycap then some (0, .joinedKeycap)
      else if c = tagEnd then some (0, .tagLetters 0)
      else if isIndicator c then some (1, .joinedIndicators 1)
      else if isSkinTone c then some (0, .skinTone)
      else if emojis.has c then some (0, .emoji)
      else none
    | .joinedIndicators n =>
      if isIndicator c then some (if n % 2 = 1 then -1 else 3, .joinedIndicators (n + 1)) else none
    | .tagLetters n =>
      if isTagLetter c && n < 6 then some (0, .tagLetters (n + 1))
      else if isTagDigit c && n < 5 then some (0, .tagDigits 1)
      else none
    | .tagDigits n => if isTagDigit c && n < 3 then some (0, .tagDigits (n + 1)) else none
    | _ => none

/-- What stays open before a text selector, or before a selector that did not
apply: ligatures only. -/
def acrossText : Opening → Opening
  | .tail t => .tail t
  | _ => .closed

/-- What stays open before an emoji selector: an emoji before a joiner can
need one. -/
def acrossEmoji (o : Opening) : Opening :=
  if o.isJoined then o else o.acrossText

/-- Puts a character before an opening: the columns that it adds, and what is
open then. -/
def put (o : Opening) (c : Char) : Int × Start :=
  if c.toNat ≤ 0xA0 then (1, ⟨.closed, none⟩)
  else if c = emojiSelector then (0, ⟨o.acrossEmoji, some .emoji⟩)
  else if c = textSelector then (0, ⟨o.acrossText, some .text⟩)
  else match o.extend? c with
    | some (n, o') => (n, ⟨o', none⟩)
    | none => (charWidth c, ⟨.ofChar c, none⟩)

end Opening

/-! ## §2. The measure -/

/-- Puts a character before a text: the columns that it adds, and what is open
then.  An emoji in a sequence that goes on adds none. -/
def Start.put (s : Start) (c : Char) : Int × Start :=
  match s.variant with
  | none => s.opening.put c
  | some .text =>
    if textStyled.has c then (1, ⟨.closed, none⟩) else s.opening.put c
  | some .emoji =>
    if emojiStyled.has c then (if s.opening.isJoined then 0 else 2, ⟨.emoji, none⟩)
    else s.opening.acrossText.put c

/-- The columns of a text, and what it leaves open. -/
def measure (cs : List Char) : Int × Start :=
  cs.foldr (fun c rest => ((rest.2.put c).1 + rest.1, (rest.2.put c).2)) (0, ⟨.closed, none⟩)

/-- Columns of a text. -/
def width (cs : List Char) : Nat := (measure cs).1.toNat

end MiniC.Text
