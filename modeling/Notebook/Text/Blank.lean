import Notebook.Text.Range

/-!
# White space

The Unicode property *White_Space*, twenty-five code points.
-/

namespace Notebook

/-- Code points above ASCII with the property *White_Space*. -/
def blankRanges : CodeRanges :=
  [(0x85, 1), (0xa0, 1), (0x1680, 1), (0x2000, 11), (0x2028, 2), (0x202f, 1), (0x205f, 1),
   (0x3000, 1)]

/-- A white space character; the ASCII ones are the space and the five controls from tab to
carriage return. -/
def isBlank (c : Char) : Bool :=
  if c.toNat < 0x80 then c == ' ' || (0x09 ≤ c.toNat && c.toNat ≤ 0x0d)
  else blankRanges.contains c.toNat

end Notebook
