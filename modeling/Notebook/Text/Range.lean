/-!
# Tables of code points

A character property is given by the runs of code points that have it, in increasing order.
-/

namespace Notebook

/-- Runs of code points, each by its first code point and its length, in increasing order and
disjoint. -/
abbrev CodeRanges := List (Nat × Nat)

/-- Membership, which stops at the first run that begins above the code point. -/
def CodeRanges.contains : CodeRanges → Nat → Bool
  | [], _ => false
  | (first, length) :: ranges, n =>
    if n < first then false
    else if n < first + length then true else CodeRanges.contains ranges n

end Notebook
