/-
  MiniC.Text.Extender

  Combining marks that extend the character before them (Grapheme_Extend).
  They cannot be shown alone.
-/
import MiniC.Text.Ranges

namespace MiniC.Text

/-- The marks that extend the character before them and take no column. -/
def extendingMarks : Ranges :=
  .ofTable "
    300-6F 483-9 591-BD 5BF 5C1-2 5C4-5 5C7 610-A 64B-5F 670 6D6-C 6DF-E4 6E7-8 6EA-D 711 730-4A
    7A6-B0 7EB-F3 7FD 816-9 81B-23 825-7 829-D 859-B 898-F 8CA-E1 8E3-902 93A 93C 941-8 94D 951-7
    962-3 981 9BC 9BE 9C1-4 9CD 9D7 9E2-3 9FE A01-2 A3C A41-2 A47-8 A4B-D A51 A70-1 A75 A81-2 ABC
    AC1-5 AC7-8 ACD AE2-3 AFA-F B01 B3C B3E-F B41-4 B4D B55-7 B62-3 B82 BBE BC0 BCD BD7 C00 C04
    C3C C3E-40 C46-8 C4A-D C55-6 C62-3 C81 CBC CBF-C0 CC2 CC6-8 CCA-D CD5-6 CE2-3 D00-1 D3B-C D3E
    D41-4 D4D D57 D62-3 D81 DCA DCF DD2-4 DD6 DDF E31 E34-A E47-E EB1 EB4-C EC8-E F18-9 F35 F37
    F39 F71-E F80-4 F86-7 F8D-97 F99-BC FC6 102D-30 1032-7 1039-A 103D-E 1058-9 105E-60 1071-4
    1082 1085-6 108D 109D 135D-F 1712-4 1732-3 1752-3 1772-3 17B4-5 17B7-D 17C6 17C9-D3 17DD
    180B-D 180F 1885-6 18A9 1920-2 1927-8 1932 1939-B 1A17-8 1A1B 1A56 1A58-E 1A60 1A62 1A65-C
    1A73-C 1A7F 1AB0-CE 1B00-3 1B34-D 1B42-3 1B6B-73 1B80-1 1BA2-5 1BA8-9 1BAB-D 1BE6 1BE8-9 1BED
    1BEF-F1 1C2C-33 1C36-7 1CD0-2 1CD4-E0 1CE2-8 1CED 1CF4 1CF8-9 1DC0-FF 20D0-F0 2CEF-F1 2DE0-FF
    302A-F 3099-A A66F-72 A674-D A69E-F A6F0-1 A802 A806 A80B A825-6 A82C A8C4-5 A8E0-F1 A8FF
    A926-D A947-51 A980-2 A9B3 A9B6-9 A9BC-D A9E5 AA29-E AA31-2 AA35-6 AA43 AA4C AA7C AAB0 AAB2-4
    AAB7-8 AABE-F AAC1 AAEC-D AAF6 ABE5 ABE8 ABED FB1E FE00-F FE20-F 101FD 102E0 10376-A 10A01-3
    10A05-6 10A0C-F 10A38-A 10A3F 10AE5-6 10D24-7 10EAB-C 10EFD-F 10F46-50 10F82-5 11001 11038-46
    11070 11073-4 1107F-81 110B3-6 110B9-A 110C2 11100-2 11127-B 1112D-34 11173 11180-1 111B6-E
    111C9-C 111CF 1122F-31 11234 11236-7 1123E 11241 112DF 112E3-A 11300-1 1133B-C 1133E 11340
    11357 11366-C 11370-4 11438-F 11442-4 11446 1145E 114B0 114B3-8 114BA 114BD 114BF-C0 114C2-3
    115AF 115B2-5 115BC-D 115BF-C0 115DC-D 11633-A 1163D 1163F-40 116AB 116AD 116B0-5 116B7 1171D
    1171F 11722-5 11727-B 1182F-37 11839-A 11930 1193B-C 1193E 11943 119D4-7 119DA-B 119E0 11A01-A
    11A33-8 11A3B-E 11A47 11A51-6 11A59-B 11A8A-96 11A98-9 11C30-6 11C38-D 11C3F 11C92-A7 11CAA-B0
    11CB2-3 11CB5-6 11D31-6 11D3A 11D3C-D 11D3F-45 11D47 11D90-1 11D95 11D97 11EF3-4 11F00-1
    11F36-A 11F40 11F42 13440 13447-55 16AF0-4 16B30-6 16F4F 16F8F-92 16FE4 1BC9D-E 1CF00-2D
    1CF30-46 1D165 1D167-9 1D16E-72 1D17B-82 1D185-B 1D1AA-D 1D242-4 1DA00-36 1DA3B-6C 1DA75 1DA84
    1DA9B-F 1DAA1-F 1E000-6 1E008-18 1E01B-21 1E023-4 1E026-A 1E08F 1E130-6 1E2AE 1E2EC-F 1E4EC-F
    1E8D0-6 1E944-A E0100-EF"

/-- The marks with the property Grapheme_Extend, as of Unicode 17. -/
def extenders : Ranges :=
  extendingMarks ++ .ofTable "
    897 1715 1734 1ACF-DD 1AE0-B 1B44 1BAA 1BF2-3 2D7F A953 A9C0 10D69-D 10EFA-C 111C0 11235 1134D
    113B8 113BB-C0 113C2 113C5 113C7-9 113CE-D0 113D2 113E1-2 116B6 1193D 11B60 11B62-4 11B66
    11F41 11F5A 1611E-29 1612D-F 16FF0-1 1D166 1D16D 1E5EE-F 1E6E3 1E6E6 1E6EE-F 1E6F5"

/-- The character is a mark that extends the one before it. -/
def isExtender (c : Char) : Bool := extenders.has c

end MiniC.Text
