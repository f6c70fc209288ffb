import Notebook.Span
import Notebook.Token.Lexer

/-!
# Source text with its tokens

A `Source` is a text together with its tokens.  Nothing here parses Go in full: brackets are
paired by counting, and the entry point is found by the shape of its first five tokens.

Tokens have numbers, and a number may lie past the last token.  `Source.kindAt` answers there
with the end.  What has to be a token is *read*: `Source.tokenAt` and `Source.readSegment`
fail with a `Fault` outside the tokens, and so does every function whose name begins with
`read`.  The function of the same name without that word says what is read where nothing
fails.

## Main definitions

* `Source`, `Source.ofText`: a text and its tokens
* `Source.tokenAt`, `Source.readSegment`: tokens by their numbers
* `Source.matching`: the bracket that closes another
* `Source.entryPoint`, `Source.readEntryPoint`: the function `main` and the extent of its body
-/

namespace Notebook

/-- A text together with its tokens. -/
structure Source where
  text : Text
  tokens : List Token := tokenize text
  tokens_eq : tokens = tokenize text := by rfl

/-- The entry function of a program: its brackets as token numbers, and the offsets between
which its body stands. -/
structure EntryPoint where
  openIndex : Nat
  closeIndex : Nat
  bodyStart : Nat
  bodyStop : Nat
deriving DecidableEq, Repr

namespace Source

/-- Reads a text. -/
def ofText (t : Text) : Source := { text := t }

/-- The kind of a token; past the last token it is the end. -/
def kindAt (s : Source) (i : Nat) : TokenKind :=
  (s.tokens[i]?.map Token.kind).getD .eof

/-- The token with a number. -/
def tokenAt (s : Source) (i : Nat) : Checked Token :=
  match s.tokens[i]? with
  | some t => .ok t
  | none => .error (.token i)

/-- The text of a token. -/
def tokenText (s : Source) (i : Nat) : Checked Text :=
  (s.tokenAt i).map Token.text

/-- The tokens from one number up to and with another. -/
def segment (s : Source) (first last : Nat) : List Token :=
  (s.tokens.drop first).take (last + 1 - first)

/-- As `segment`, but a range that reaches past the last token is a fault. -/
def readSegment (s : Source) (first last : Nat) : Checked (List Token) :=
  if first ≤ last ∧ s.tokens.length ≤ last then .error (.token (max first s.tokens.length))
  else .ok (s.segment first last)

/-- The tokens before a number. -/
def readBefore (s : Source) (stop : Nat) : Checked (List Token) :=
  if s.tokens.length < stop then .error (.token stop) else .ok (s.tokens.take stop)

/-- The text in a span. -/
def slice (s : Source) (span : Span) : Checked Text :=
  span.slice s.text

/-! ### Brackets -/

/-- The nesting depth behind a token.  A bracket that closes nothing is ignored. -/
def depthAfter (depth : Nat) (k : TokenKind) : Nat :=
  if k.opens then depth + 1 else if k.closes then depth - 1 else depth

/-- How many tokens lie before the closing bracket that brings the depth back to zero. -/
def closingIndex (depth : Nat) : List Token → Option Nat
  | [] => none
  | t :: ts =>
    if t.kind.closes && depth - 1 == 0 then some 0
    else (closingIndex (depthAfter depth t.kind) ts).map (· + 1)

/-- The token that closes the bracket at the given token.  All three kinds of brackets count
alike. -/
def matching (s : Source) (openIndex : Nat) : Option Nat :=
  (closingIndex 0 (s.tokens.drop openIndex)).map (· + openIndex)

/-! ### The entry point -/

/-- Whether tokens begin like the entry function: `func main ( ) {`. -/
def startsEntry : List Token → Bool
  | f :: m :: l :: r :: b :: _ =>
    f.kind == .keyword .funcKw && m.isIdent "main" && l.kind == .opening .paren &&
      r.kind == .closing .paren && b.kind == .opening .brace
  | _ => false

/-- How many tokens lie before the first entry function outside all brackets. -/
def entryIndex (depth : Nat) : List Token → Option Nat
  | [] => none
  | t :: ts =>
    if depth == 0 && startsEntry (t :: ts) then some 0
    else (entryIndex (depthAfter depth t.kind) ts).map (· + 1)

/-- The first function `main` outside all brackets, if its body is closed. -/
def entryPoint (s : Source) : Option EntryPoint := do
  let i ← entryIndex 0 s.tokens
  let openIndex := i + 4
  let closeIndex ← s.matching openIndex
  let openToken ← s.tokens[openIndex]?
  let closeToken ← s.tokens[closeIndex]?
  return ⟨openIndex, closeIndex, openToken.stop, closeToken.pos⟩

/-- As `entryPoint`, with the two braces read by their numbers. -/
def readEntryPoint (s : Source) : Checked (Option EntryPoint) :=
  match entryIndex 0 s.tokens with
  | none => .ok none
  | some i =>
    match s.matching (i + 4) with
    | none => .ok none
    | some closeIndex => do
      let openToken ← s.tokenAt (i + 4)
      let closeToken ← s.tokenAt closeIndex
      return some ⟨i + 4, closeIndex, openToken.stop, closeToken.pos⟩

end Source

end Notebook
