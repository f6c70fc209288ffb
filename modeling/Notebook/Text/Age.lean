import Notebook.Text.Range

/-!
# Characters of the latest edition

The Unicode property *Age* tells with which edition of the standard a character came.
Identifiers are spelled with letters of all editions up to 17.  The words of a compiler report
are read by edition 16, to which the characters of age 17 are unassigned.
-/

namespace Notebook

/-- Letters and decimal digits of *Age* 17, in increasing order. -/
def newcomerRanges : CodeRanges :=
  [(0x88f, 1), (0xc5c, 1), (0xcdc, 1), (0xa7ce, 2), (0xa7d2, 1), (0xa7d4, 1), (0xa7f1, 1),
   (0x10940, 26), (0x10ec5, 3), (0x10efa, 2), (0x11b60, 8), (0x11db0, 44), (0x11de0, 10),
   (0x16ea0, 25), (0x16ebb, 25), (0x16ff2, 5), (0x187f8, 8), (0x18d09, 22), (0x18d80, 115),
   (0x1e6c0, 31), (0x1e6e0, 22), (0x1e6fe, 2), (0x2b73a, 6), (0x2cea2, 12), (0x323b0, 4298)]

/-- A letter or decimal digit that came with edition 17. -/
def isNewcomer (c : Char) : Bool :=
  newcomerRanges.contains c.toNat

end Notebook
