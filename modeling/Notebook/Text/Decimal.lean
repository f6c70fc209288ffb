import Notebook.Text

/-!
# Decimal numbers

Numbers of 64 bits in decimal, as reports and command lines write them.
-/

namespace Notebook

namespace Text

/-- The value of decimal digits, read on from a value. -/
def digitsValue (digits : Text) : Nat :=
  digits.foldl (fun n c => n * 10 + (c.toNat - '0'.toNat)) 0

/-- Reads an unsigned number of 64 bits: ASCII digits, with an optional plus sign in front. -/
def toWord64? (t : Text) : Option Nat :=
  let digits := if t.head? = some '+' then t.tail else t
  if digits.isEmpty || !digits.all Char.isDigit then none
  else if digitsValue digits < UInt64.size then some (digitsValue digits)
  else none

/-- A number in decimal. -/
def ofNat (n : Nat) : Text :=
  Nat.toDigits 10 n

end Text

end Notebook
