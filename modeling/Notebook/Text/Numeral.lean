import Notebook.Text.Letter

/-!
# Digits and other numerals

Three classes: the ten ASCII digits are core's `Char.isDigit`, the decimal digits of all
scripts (category *Nd*) are `isDecimalDigit`, and `isNumeral` adds letter numerals and the
other numbers (*Nl* and *No*).
-/

namespace Notebook

/-- Code points above ASCII of category *Nd*. -/
def decimalDigitRanges : CodeRanges :=
  [(0x660, 10), (0x6f0, 10), (0x7c0, 10), (0x966, 10), (0x9e6, 10), (0xa66, 10), (0xae6, 10),
   (0xb66, 10), (0xbe6, 10), (0xc66, 10), (0xce6, 10), (0xd66, 10), (0xde6, 10), (0xe50, 10),
   (0xed0, 10), (0xf20, 10), (0x1040, 10), (0x1090, 10), (0x17e0, 10), (0x1810, 10),
   (0x1946, 10), (0x19d0, 10), (0x1a80, 10), (0x1a90, 10), (0x1b50, 10), (0x1bb0, 10),
   (0x1c40, 10), (0x1c50, 10), (0xa620, 10), (0xa8d0, 10), (0xa900, 10), (0xa9d0, 10),
   (0xa9f0, 10), (0xaa50, 10), (0xabf0, 10), (0xff10, 10), (0x104a0, 10), (0x10d30, 10),
   (0x10d40, 10), (0x11066, 10), (0x110f0, 10), (0x11136, 10), (0x111d0, 10), (0x112f0, 10),
   (0x11450, 10), (0x114d0, 10), (0x11650, 10), (0x116c0, 10), (0x116d0, 20), (0x11730, 10),
   (0x118e0, 10), (0x11950, 10), (0x11bf0, 10), (0x11c50, 10), (0x11d50, 10), (0x11da0, 10),
   (0x11de0, 10), (0x11f50, 10), (0x16130, 10), (0x16a60, 10), (0x16ac0, 10), (0x16b50, 10),
   (0x16d70, 10), (0x1ccf0, 10), (0x1d7ce, 50), (0x1e140, 10), (0x1e2f0, 10), (0x1e4f0, 10),
   (0x1e5f1, 10), (0x1e950, 10), (0x1fbf0, 10)]

/-- Code points above ASCII of category *Nl* or *No*. -/
def otherNumeralRanges : CodeRanges :=
  [(0xb2, 2), (0xb9, 1), (0xbc, 3), (0x9f4, 6), (0xb72, 6), (0xbf0, 3), (0xc78, 7),
   (0xd58, 7), (0xd70, 9), (0xf2a, 10), (0x1369, 20), (0x16ee, 3), (0x17f0, 10), (0x19da, 1),
   (0x2070, 1), (0x2074, 6), (0x2080, 10), (0x2150, 51), (0x2185, 5), (0x2460, 60),
   (0x24ea, 22), (0x2776, 30), (0x2cfd, 1), (0x3007, 1), (0x3021, 9), (0x3038, 3),
   (0x3192, 4), (0x3220, 10), (0x3248, 8), (0x3251, 15), (0x3280, 10), (0x32b1, 15),
   (0xa6e6, 10), (0xa830, 6), (0x10107, 45), (0x10140, 57), (0x1018a, 2), (0x102e1, 27),
   (0x10320, 4), (0x10341, 1), (0x1034a, 1), (0x103d1, 5), (0x10858, 8), (0x10879, 7),
   (0x108a7, 9), (0x108fb, 5), (0x10916, 6), (0x109bc, 2), (0x109c0, 16), (0x109d2, 46),
   (0x10a40, 9), (0x10a7d, 2), (0x10a9d, 3), (0x10aeb, 5), (0x10b58, 8), (0x10b78, 8),
   (0x10ba9, 7), (0x10cfa, 6), (0x10e60, 31), (0x10f1d, 10), (0x10f51, 4), (0x10fc5, 7),
   (0x11052, 20), (0x111e1, 20), (0x1173a, 2), (0x118ea, 9), (0x11c5a, 19), (0x11fc0, 21),
   (0x12400, 111), (0x16b5b, 7), (0x16e80, 23), (0x16ff4, 3), (0x1d2c0, 20), (0x1d2e0, 20),
   (0x1d360, 25), (0x1e8c7, 9), (0x1ec71, 59), (0x1ecad, 3), (0x1ecb1, 4), (0x1ed01, 45),
   (0x1ed2f, 15), (0x1f100, 13)]

/-- A decimal digit of any script. -/
def isDecimalDigit (c : Char) : Bool :=
  if c.toNat < 0x80 then c.isDigit else decimalDigitRanges.contains c.toNat

/-- A character of one of the three number categories. -/
def isNumeral (c : Char) : Bool :=
  if c.toNat < 0x80 then c.isDigit
  else decimalDigitRanges.contains c.toNat || otherNumeralRanges.contains c.toNat

/-- A letter or a numeral. -/
def isAlphanumeric (c : Char) : Bool :=
  isLetter c || isNumeral c

/-- A character that can stand inside an identifier. -/
def isIdentifierChar (c : Char) : Bool :=
  isAlphanumeric c || c == '_'

end Notebook
