import Notebook.Span

/-!
# Edits of a text

An edit replaces a span of a text.  A list of edits is applied from the back of the text to
the front, so that the spans still to come keep their meaning; of two edits at one start the
longer goes first, and of two on one span the earlier in the list.
-/

namespace Notebook

/-- Replaces the text in a span. -/
structure Edit where
  span : Span
  text : Text
deriving DecidableEq, Repr

namespace Edit

/-- Puts a text in front of the byte at an offset. -/
def insertion (offset : Nat) (text : Text) : Edit := ⟨⟨offset, offset⟩, text⟩

/-- Takes a span out. -/
def deletion (span : Span) : Edit := ⟨span, []⟩

/-- Whether an edit is applied no later than another. -/
def notAfter (a b : Edit) : Bool :=
  b.span.start < a.span.start || (b.span.start == a.span.start && b.span.stop ≤ a.span.stop)

/-- The text with one span replaced. -/
def apply (e : Edit) (t : Text) : Checked Text :=
  (e.span.cut t).map fun p => p.1 ++ e.text ++ p.2.2

/-- Applies edits from the back of the text to the front.  Each span is read in the text as
edited so far. -/
def applyAll (t : Text) (edits : List Edit) : Checked Text :=
  (edits.mergeSort notAfter).foldlM (fun t e => e.apply t) t

end Edit

end Notebook
