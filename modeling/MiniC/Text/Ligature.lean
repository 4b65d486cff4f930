/-
  MiniC.Text.Ligature

  Letters that merge with what stands before them and then take fewer columns
  than on their own.

  A text is measured from its end, so a ligature is met at its last letter:
  `Tail` is such an end, and `Tail.merge` says what the character before it
  adds.
-/
import MiniC.Text.Columns
import MiniC.Text.Emoji

namespace MiniC.Text

/-! ## §1. Letters -/

/-- The forms of the Arabic letter alef. -/
def alefs : Ranges :=
  [(0x622, 0x623), (0x625, 0x625), (0x627, 0x627), (0x671, 0x673),
   (0x675, 0x675), (0x773, 0x774), (0x870, 0x882)]

/-- The forms of the Arabic letter lam. -/
def lams : Ranges :=
  [(0x644, 0x644), (0x6B5, 0x6B8), (0x76A, 0x76A), (0x8A6, 0x8A6), (0x8C7, 0x8C7)]

/-- The Khmer letters that take no column of their own below another letter. -/
def khmerLetters : Ranges :=
  [(0x1780, 0x1782), (0x1784, 0x1787), (0x1789, 0x178C), (0x178E, 0x1793),
   (0x1795, 0x1798), (0x179B, 0x179D), (0x17A0, 0x17A0), (0x17A2, 0x17A2),
   (0x17A7, 0x17A7), (0x17AB, 0x17AC), (0x17AF, 0x17AF)]

/-- The Tifinagh consonants. -/
def tifinaghConsonants : Ranges := [(0x2D31, 0x2D65), (0x2D6F, 0x2D6F)]

/-- The Lisu tones that a second tone may follow in the same place. -/
def lisuFirstTones : Ranges := [(0xA4F8, 0xA4FB)]

/-- The Lisu tones that can be the second of a pair. -/
def lisuSecondTones : Ranges := [(0xA4FC, 0xA4FD)]

/-- Marks that are ignored, so that the letters around them still merge. -/
def ignoredMarks : Ranges :=
  [(0x34F, 0x34F), (0x17B4, 0x17B5), (0x180B, 0x180D), (0x180F, 0x180F),
   (0xFE00, 0xFE0F), (0xE0100, 0xE01EF)]

/-! ## §2. Ends of ligatures -/

/-- The end of a text that may merge with the character before it.  Where a
joiner is needed, `joined` says that it is there. -/
inductive Tail where
  /-- An Arabic alef, after which a lam adds no column. -/
  | alef
  /-- The Hebrew lamed, which a joiner merges with an alef. -/
  | lamed (joined : Bool)
  /-- A Khmer letter, which a coeng sign puts below the letter before. -/
  | khmer
  /-- The Buginese ya, which a joiner merges with the syllable i. -/
  | ya (joined : Bool)
  /-- The Buginese sign i before a joined ya. -/
  | signYa
  /-- A Tifinagh consonant. -/
  | tifinagh (joined : Bool)
  /-- A Tifinagh consonant after the consonant joiner. -/
  | biconsonant
  /-- The second of two Lisu tones. -/
  | lisuTone
  /-- The Old Turkic i, which a joiner merges with an ec. -/
  | orkhonI (joined : Bool)
  deriving DecidableEq, Repr

namespace Tail

/-- The ligature that a letter can end. -/
def ofChar? (c : Char) : Option Tail :=
  if c = '\u05DC' then some (.lamed false)
  else if alefs.has c then some .alef
  else if khmerLetters.has c then some .khmer
  else if c = '\u1A10' then some (.ya false)
  else if tifinaghConsonants.has c then some (.tifinagh false)
  else if lisuSecondTones.has c then some .lisuTone
  else if c = Char.ofNat 0x10C03 then some (.orkhonI false)
  else none

/-- The end with a joiner before it. -/
def join : Tail → Tail
  | .lamed _ => .lamed true
  | .ya _ => .ya true
  | .tifinagh _ => .tifinagh true
  | .orkhonI _ => .orkhonI true
  | t => t

/-- The end reaches over the character to the one before it.  Arabic letters
join across whatever takes no column, the others across ignored marks. -/
def skip? (t : Tail) (c : Char) : Option Tail :=
  if t = .alef then if joinsAcross c then some t else none
  else if c = joiner then some t.join
  else if ignoredMarks.has c then some t
  else none

/-- What the character adds to the columns if it merges with the end, and the
end that the two make together. -/
def merge? (t : Tail) (c : Char) : Option (Int × Option Tail) :=
  match t with
  | .alef => if lams.has c then some (0, none) else none
  | .lamed joined => if joined && c = '\u05D0' then some (0, none) else none
  | .khmer => if c = '\u17D2' then some (-1, none) else none
  | .ya joined => if joined && c = '\u1A17' then some (0, some .signYa) else none
  | .signYa => if c = '\u1A15' then some (0, none) else none
  | .tifinagh joined =>
    if c = '\u2D7F' then some (1, some .biconsonant)
    else if joined && tifinaghConsonants.has c then some (0, none)
    else none
  | .biconsonant => if tifinaghConsonants.has c then some (-1, none) else none
  | .lisuTone => if lisuFirstTones.has c then some (0, none) else none
  | .orkhonI joined => if joined && c = Char.ofNat 0x10C32 then some (0, none) else none

end Tail

end MiniC.Text
