import Notebook.Text.Age
import Notebook.Text.Combining
import Notebook.Text.Numeral

/-!
# Word characters

The characters that a compiler report may use in a name: letters, marks, decimal digits,
connector punctuation and the two joiners, all of them as edition 16 of Unicode knows them.
-/

namespace Notebook

/-- Connector punctuation above ASCII, category *Pc*. -/
def connectorRanges : CodeRanges :=
  [(0x203f, 2), (0x2054, 1), (0xfe33, 2), (0xfe4d, 3), (0xff3f, 1)]

/-- Combining characters that belong to no word: skin tones and tags. -/
def pictureMarkRanges : CodeRanges :=
  [(0x1f3fb, 5), (0xe0020, 96)]

/-- A decimal digit of a report. -/
def isWordDigit (c : Char) : Bool :=
  isDecimalDigit c && !isNewcomer c

/-- A mark or joiner of a word. -/
def isWordMark (c : Char) : Bool :=
  isCombining c && !pictureMarkRanges.contains c.toNat

/-- A word character. -/
def isWordChar (c : Char) : Bool :=
  if c.toNat < 0x80 then c.isAlphanum || c == '_'
  else (isLetter c || isWordMark c) && !isNewcomer c || isWordDigit c ||
    connectorRanges.contains c.toNat

end Notebook
