import Notebook.Source

/-!
# Statements

A run of tokens splits into statements at the semicolons outside all brackets.  The semicolons
in the header of an `if`, `for`, `switch` or `select` do not split: a header begins with the
keyword at the front of a statement, or with an `else`, and lasts to the next opening brace
outside brackets.

## Main definitions

* `Statement`: token numbers, extent, and the semicolon behind
* `Source.split`: the splitting of a list of tokens
* `Source.statements`, `Source.bodyStatements`: statements of a whole text and of the entry
  function
-/

namespace Notebook

/-- A statement: its first and last token, its extent in the text, and the number of the
semicolon that ends it. -/
structure Statement where
  first : Nat
  last : Nat
  span : Span
  terminator : Option Nat
deriving DecidableEq, Repr

/-- A statement on a line of its own in the body of a function. -/
def bodyLine (statement : Text) : Text :=
  "\t" ++ statement ++ "\n"

namespace Source

/-- The part of a statement read so far: first and last token and extent. -/
structure OpenStatement where
  first : Nat
  last : Nat
  span : Span
deriving DecidableEq, Repr

/-- The memory of the splitting: bracket depth, whether a header is being read, and the
statement that is not ended yet. -/
structure SplitState where
  depth : Nat
  header : Bool
  current : Option OpenStatement
deriving DecidableEq, Repr

namespace SplitState

/-- At the front of a statement, outside brackets and headers. -/
def initial : SplitState := ⟨0, false, none⟩

/-- Whether a token of this kind ends the current statement. -/
def splitsAt (st : SplitState) (k : TokenKind) : Bool :=
  k == .semi && st.depth == 0 && !st.header

/-- The keywords whose header may hold semicolons. -/
def opensHeader : TokenKind → Bool
  | .keyword .ifKw | .keyword .forKw | .keyword .switchKw | .keyword .selectKw => true
  | _ => false

/-- Whether a header is being read behind a token. -/
def headerAfter (st : SplitState) (k : TokenKind) : Bool :=
  if k == .opening .brace && st.depth == 0 then false
  else if opensHeader k && st.current.isNone then true
  else if k == .keyword .elseKw && st.depth == 0 then true
  else st.header

/-- Takes a token into the current statement. -/
def take (st : SplitState) (i : Nat) (t : Token) : SplitState where
  depth := depthAfter st.depth t.kind
  header := st.headerAfter t.kind
  current := some
    (match st.current with
      | none => ⟨i, i, ⟨t.pos, t.stop⟩⟩
      | some c => ⟨c.first, i, ⟨c.span.start, t.stop⟩⟩)

/-- The current statement, ended by the semicolon `terminator` or by the end of the tokens. -/
def close (st : SplitState) (terminator : Option Nat) : List Statement :=
  match st.current with
  | none => []
  | some c => [⟨c.first, c.last, c.span, terminator⟩]

end SplitState

/-- Splits tokens, the first of which has number `i`, into statements.  The end token ends the
last one. -/
def split (i : Nat) (st : SplitState) : List Token → List Statement
  | [] => st.close none
  | t :: ts =>
    if t.kind = .eof then st.close none
    else if st.splitsAt t.kind then
      st.close (some i) ++ split (i + 1) ⟨st.depth, st.header, none⟩ ts
    else split (i + 1) (st.take i t) ts

/-- The statements of the tokens numbered from `first` up to but without `stop`. -/
def statementsBetween (s : Source) (first stop : Nat) : List Statement :=
  split first .initial ((s.tokens.drop first).take (stop - first))

/-- As `statementsBetween`, but a nonempty range that begins past the last token is a
fault.  A range that begins earlier and goes on past it is none: the reading ends with the
end token. -/
def statementsIn (s : Source) (first stop : Nat) : Checked (List Statement) :=
  if first < stop ∧ s.tokens.length ≤ first then .error (.token first)
  else .ok (s.statementsBetween first stop)

/-- The statements of the whole text. -/
def statements (s : Source) : List Statement :=
  s.statementsBetween 0 s.tokens.length

@[inherit_doc statements]
def readStatements (s : Source) : Checked (List Statement) :=
  s.statementsIn 0 s.tokens.length

/-- The statements in the body of the entry function. -/
def bodyStatements (s : Source) (e : EntryPoint) : List Statement :=
  s.statementsBetween (e.openIndex + 1) e.closeIndex

@[inherit_doc bodyStatements]
def readBodyStatements (s : Source) (e : EntryPoint) : Checked (List Statement) :=
  s.statementsIn (e.openIndex + 1) e.closeIndex

/-- The tokens of a statement. -/
def tokensOf (s : Source) (st : Statement) : List Token :=
  s.segment st.first st.last

@[inherit_doc tokensOf]
def readTokensOf (s : Source) (st : Statement) : Checked (List Token) :=
  s.readSegment st.first st.last

/-- The text of a statement. -/
def statementText (s : Source) (st : Statement) : Checked Text :=
  s.slice st.span

end Source

end Notebook
