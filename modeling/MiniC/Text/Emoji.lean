/-
  MiniC.Text.Emoji

  The parts that sequences of emoji are made of.

  An emoji is drawn two columns wide.  Some characters are emoji by
  themselves; others are drawn as emoji or as text according to the variation
  selector after them.  The tables follow Unicode 15.1.
-/
import MiniC.Text.Ranges

namespace MiniC.Text

/-! ## §1. Single characters -/

/-- Joins the emoji before it and the one after it into one. -/
def joiner : Char := '\u200D'

/-- Asks for the character before it as text. -/
def textSelector : Char := '\uFE0E'

/-- Asks for the character before it as an emoji. -/
def emojiSelector : Char := '\uFE0F'

/-- Draws a key around the character before it. -/
def keycap : Char := '\u20E3'

/-- The flag to which tags add a region. -/
def blackFlag : Char := Char.ofNat 0x1F3F4

/-- Ends a run of tags. -/
def tagEnd : Char := Char.ofNat 0xE007F

/-! ## §2. Classes -/

/-- The characters drawn as emoji unless a selector asks for text, regional
indicators and skin tones apart. -/
def emojis : Ranges :=
  .ofTable "
    231A-B 23E9-C 23F0 23F3 25FD-E 2614-5 2648-53 267F 2693 26A1 26AA-B 26BD-E 26C4-5 26CE 26D4
    26EA 26F2-3 26F5 26FA 26FD 2705 270A-B 2728 274C 274E 2753-5 2757 2795-7 27B0 27BF 2B1B-C 2B50
    2B55 1F004 1F0CF 1F18E 1F191-A 1F201 1F21A 1F22F 1F232-6 1F238-A 1F250-1 1F300-20 1F32D-35
    1F337-7C 1F37E-93 1F3A0-CA 1F3CF-D3 1F3E0-F0 1F3F4 1F3F8-A 1F400-3E 1F440 1F442-FC 1F4FF-53D
    1F54B-E 1F550-67 1F57A 1F595-6 1F5A4 1F5FB-64F 1F680-C5 1F6CC 1F6D0-2 1F6D5-7 1F6DC-F 1F6EB-C
    1F6F4-C 1F7E0-B 1F7F0 1F90C-3A 1F93C-45 1F947-FF 1FA70-C 1FA80-8 1FA90-BD 1FABF-C5 1FACE-DB
    1FAE0-8 1FAF0-8"

/-- The emoji that a skin tone colours. -/
def skins : Ranges :=
  .ofTable "
    261D 26F9 270A-D 1F385 1F3C2-4 1F3C7 1F3CA-C 1F442-3 1F446-50 1F466-78 1F47C 1F481-3 1F485-7
    1F48F 1F491 1F4AA 1F574-5 1F57A 1F590 1F595-6 1F645-7 1F64B-F 1F6A3 1F6B4-6 1F6C0 1F6CC 1F90C
    1F90F 1F918-F 1F926 1F930-9 1F93C-E 1F977 1F9B5-6 1F9B8-9 1F9BB 1F9CD-F 1F9D1-D 1FAC3-5
    1FAF0-8"

/-- The emoji that a text selector narrows to one column.  Squared ideographs
stay wide as text. -/
def textStyled : Ranges :=
  .ofTable "
    231A-B 23E9-C 23F0 23F3 25FD-E 2614-5 2648-53 267F 2693 26A1 26AA-B 26BD-E 26C4-5 26CE 26D4
    26EA 26F2-3 26F5 26FA 26FD 2705 270A-B 2728 274C 274E 2753-5 2757 2795-7 27B0 27BF 2B1B-C 2B50
    2B55 1F004 1F30D-F 1F315 1F31C 1F378 1F393 1F3A7 1F3AC-E 1F3C2 1F3C4 1F3C6 1F3CA 1F3E0 1F3ED
    1F408 1F415 1F41F 1F426 1F442 1F446-9 1F44D-E 1F453 1F46A 1F47D 1F4A3 1F4B0 1F4B3 1F4BB 1F4BF
    1F4CB 1F4DA 1F4DF 1F4E4-6 1F4EA-D 1F4F7 1F4F9-B 1F508 1F50D 1F512-3 1F550-67 1F610 1F687 1F68D
    1F691 1F694 1F698 1F6AD 1F6B2 1F6B9-A 1F6BC"

/-- The characters that an emoji selector applies to. -/
def emojiStyled : Ranges :=
  textStyled ++ .ofTable "
    23 2A 30-9 A9 AE 203C 2049 2122 2139 2194-9 21A9-A 2328 23CF 23ED-F 23F1-2 23F8-A 24C2 25AA-B
    25B6 25C0 25FB-C 2600-4 260E 2611 2618 261D 2620 2622-3 2626 262A 262E-F 2638-A 2640 2642
    265F-60 2663 2665-6 2668 267B 267E 2692 2694-7 2699 269B-C 26A0 26A7 26B0-1 26C8 26CF 26D1
    26D3 26E9 26F0-1 26F4 26F7-9 2702 2708-9 270C-D 270F 2712 2714 2716 271D 2721 2733-4 2744 2747
    2763-4 27A1 2934-5 2B05-7 3030 303D 3297 3299 1F170-1 1F17E-F 1F202 1F21A 1F22F 1F237 1F321
    1F324-C 1F336 1F37D 1F396-7 1F399-B 1F39E-F 1F3CB-E 1F3D4-F 1F3F3 1F3F5 1F3F7 1F43F 1F441
    1F4FD 1F549-A 1F56F-70 1F573-9 1F587 1F58A-D 1F590 1F5A5 1F5A8 1F5B1-2 1F5BC 1F5C2-4 1F5D1-3
    1F5DC-E 1F5E1 1F5E3 1F5E8 1F5EF 1F5F3 1F5FA 1F6CB 1F6CD-F 1F6E0-5 1F6E9 1F6F0 1F6F3"

/-- A letter of a country's code.  Two of them are its flag. -/
def isIndicator (c : Char) : Bool := 0x1F1E6 ≤ c.toNat && c.toNat ≤ 0x1F1FF

/-- A colour of skin. -/
def isSkinTone (c : Char) : Bool := 0x1F3FB ≤ c.toNat && c.toNat ≤ 0x1F3FF

/-- A letter of a region's code, as a tag. -/
def isTagLetter (c : Char) : Bool := 0xE0061 ≤ c.toNat && c.toNat ≤ 0xE007A

/-- A digit of a region's code, as a tag. -/
def isTagDigit (c : Char) : Bool := 0xE0030 ≤ c.toNat && c.toNat ≤ 0xE0039

end MiniC.Text
