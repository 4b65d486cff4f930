/-
  MiniC.Text.Columns

  How many columns a character takes on its own.

  Most take one.  East Asian wide and fullwidth characters take two; marks
  that extend the character before, signs that are drawn on the one after,
  ignorable characters and the inner letters of a Hangul syllable take none.
  The tables follow Unicode 15.1.
-/
import MiniC.Text.Emoji
import MiniC.Text.Extender

namespace MiniC.Text

/-- The code points that take no column. -/
def zeroWidths : Ranges :=
  extendingMarks ++ .ofTable "
    AD 605 61C 70F 890-1 8E2 D4E 1160-FF 180E 200B-F 202A-E 2060-F 3164 A8FA D7B0-C6 D7CB-FB FEFF
    FF9E-A0 FFF0-8 111C2-3 1171E 1193F 11941 11A3A 11A84-9 11D46 11F02 1BCA0-3 1D173-A E0000-FF
    E01F0-FFF"

/-- The code points that take two columns. -/
def wides : Ranges :=
  emojis ++ .ofTable "
    1100-5F 17A4 2329-A 2E80-99 2E9B-F3 2F00-D5 2FF0-3029 3030-E 3041-96 309B-FF 3105-2F 3131-63
    3165-8E 3190-E3 31EF-21E 3220-47 3250-4DBF 4E00-A48C A490-C6 A960-7C AC00-D7A3 F900-AFF FE10-9
    FE30-52 FE54-66 FE68-B FF01-60 FFE0-6 16FE0-3 16FF0-1 17000-87F7 18800-CD5 18D00-8 1AFF0-3
    1AFF5-B 1AFFD-E 1B000-122 1B132 1B150-2 1B155 1B164-7 1B170-2FB 1F200 1F202 1F210-9 1F21B-2E
    1F230-1 1F237 1F23B 1F240-8 1F260-5 1F3FB-F 20000-FFFD 30000-FFFD"

/-- The code points without a column at which Arabic letters stop joining. -/
def joiningBreaks : Ranges :=
  .ofTable "
    605 890-1 8E2 9BE 9D7 B3E B57 BBE BD7 CC0 CC2 CC7-8 CCA-B CD5-6 D3E D4E D57 DCF DDF 1160-FF
    180E 1B35 1B3B 1B3D 1B43 200C-D 2065-9 302E-F 3164 A8FA D7B0-C6 D7CB-FB FF9E-A0 FFF0-8 111C2-3
    1133E 11357 114B0 114BD 115AF 11930 1193F 11941 11A3A 11A84-9 11D46 11F02 1D165 1D16E-72 E0000
    E0002-1F E0080-FF E01F0-FFF"

/-- Columns of one character.  The Khmer sign beyyal is three letters wide. -/
def charWidth (c : Char) : Nat :=
  if c = '\u17D8' then 3
  else if zeroWidths.has c then 0
  else if wides.has c then 2
  else 1

/-- The character takes no column, and Arabic letters join across it. -/
def joinsAcross (c : Char) : Bool := zeroWidths.has c && !joiningBreaks.has c

end MiniC.Text
