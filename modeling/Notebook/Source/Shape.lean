import Notebook.Source.Statement

/-!
# The shape of a statement

A statement is sorted by its first tokens and by what stands in it outside all brackets.  The
order of the tests matters: a declaration or a piece of control flow is never anything else, a
call of one of the printing functions is a display, and only what is no assignment and no send
can be a call or another expression.
-/

namespace Notebook

/-- What a statement does. -/
inductive StatementKind where
  | empty
  /-- A call of one of the functions `fmt.Print…`. -/
  | display
  | assign
  | send
  | decl
  | control
  /-- A call, with the extent of the expression that is called. -/
  | call (callee : Span)
  | expr
deriving DecidableEq, Repr

namespace Source

/-- The extent of a run of tokens. -/
def extent (ts : List Token) : Option Span := do
  let first ← ts.head?
  let last ← ts.getLast?
  return ⟨first.pos, last.stop⟩

/-- The tokens outside all brackets; a bracket that is itself not inside another counts as
outside. -/
def topLevel (depth : Nat) : List Token → List Token
  | [] => []
  | t :: ts =>
    let before := if t.kind.closes then depth - 1 else depth
    let behind := if t.kind.opens then before + 1 else before
    if before = 0 then t :: topLevel behind ts else topLevel behind ts

/-- Whether tokens begin with a call of a printing function, `fmt.Print… (`. -/
def startsDisplay : List Token → Bool
  | p :: d :: f :: l :: _ =>
    p.isIdent "fmt" && d.kind == .dot && f.kind == .ident &&
      "Print".toList.isPrefixOf f.lexeme &&
      l.kind == .opening .paren
  | _ => false

/-- Whether a statement is a display. -/
def isDisplay (s : Source) (st : Statement) : Bool :=
  startsDisplay (s.tokens.drop st.first)

/-- As `isDisplay`.  The third token is read only if it is a name. -/
def readIsDisplay (s : Source) (st : Statement) : Checked Bool := do
  let first ← s.tokenAt st.first
  if first.isIdent "fmt" && s.kindAt (st.first + 1) == .dot &&
    s.kindAt (st.first + 2) == .ident then
    let name ← s.tokenAt (st.first + 2)
    return "Print".toList.isPrefixOf name.lexeme && s.kindAt (st.first + 3) == .opening .paren
  else return false

/-- Whether tokens begin with a call of the function that stores a value. -/
def startsPersistence : List Token → Bool
  | f :: l :: _ => f.isIdent "_Serialize" && l.kind == .opening .paren
  | _ => false

/-- Whether a statement stores a value: a call of the storing function up to its last
token. -/
def isPersistence (s : Source) (st : Statement) : Bool :=
  startsPersistence (s.tokens.drop st.first) && s.kindAt st.last == .closing .paren

@[inherit_doc isPersistence]
def readIsPersistence (s : Source) (st : Statement) : Checked Bool := do
  let first ← s.tokenAt st.first
  return first.isIdent "_Serialize" && s.kindAt (st.first + 1) == .opening .paren &&
    s.kindAt st.last == .closing .paren

/-- Whether the `func` at a token declares a method: a receiver in parentheses, a name, and a
list of parameters or type parameters. -/
def isMethodAt (s : Source) (i : Nat) : Bool :=
  match s.matching (i + 1) with
  | some close =>
    s.kindAt (close + 1) == .ident &&
      (s.kindAt (close + 2) == .opening .paren || s.kindAt (close + 2) == .opening .square)
  | none => false

/-- Kinds that assign. -/
def assigns : TokenKind → Bool
  | .define | .assign | .opAssign => true
  | _ => false

/-- In tokens read from the back, how many lie behind the bracket that opens the last
group. -/
def openingIndex (depth : Nat) : List Token → Option Nat
  | [] => none
  | t :: ts =>
    if t.kind.opens && depth - 1 == 0 then some 0
    else
      let behind := if t.kind.closes then depth + 1 else if t.kind.opens then
        depth - 1 else depth
      (openingIndex behind ts).map (· + 1)

/-- Whether tokens can stand before the brackets of a call: outside brackets only names, dots
and the words that begin a type or a function, and a star in front. -/
def isCallee (depth : Nat) (front : Bool) : List Token → Bool
  | [] => true
  | t :: ts =>
    if t.kind.closes then isCallee (depth - 1) false ts
    else if t.kind.opens then isCallee (depth + 1) false ts
    else if 0 < depth then isCallee depth false ts
    else
      match t.kind with
      | .ident | .dot | .keyword .mapKw | .keyword .chanKw | .keyword .funcKw =>
        isCallee depth false ts
      | .op => t.lexeme == "*" && front && isCallee depth false ts
      | _ => false

/-- The part of a statement that its last brackets call. -/
def calleeSpan (ts : List Token) : Option Span := do
  let behind ← openingIndex 0 ts.reverse
  let callee := ts.take (ts.length - 1 - behind)
  if isCallee 0 true callee then extent callee else none

/-- The kind that the first tokens of a statement decide alone; `first` is the kind of the
first. -/
def leadingKindFrom? (s : Source) (st : Statement) (first : TokenKind) :
    Option StatementKind :=
  match first with
  | .eof | .semi => some .empty
  | .keyword .varKw | .keyword .constKw | .keyword .typeKw | .keyword .importKw
  | .keyword .packageKw => some .decl
  | .keyword .funcKw =>
    if s.kindAt (st.first + 1) == .ident then some .decl
    else if s.kindAt (st.first + 1) == .opening .paren &&
      s.isMethodAt st.first then some .decl
    else none
  | .opening .brace => some .control
  | .keyword k => if k.isControl then some .control else none
  | .ident => if s.kindAt (st.first + 1) == .colon then some .control else none
  | _ => none

@[inherit_doc leadingKindFrom?]
def leadingKind? (s : Source) (st : Statement) : Option StatementKind :=
  s.leadingKindFrom? st (s.kindAt st.first)

/-- The kind of a statement that is no display and that its first tokens do not decide, from
its tokens and the kind of the last one.  An arrow in front receives; only one further on
sends. -/
def innerKind (ts : List Token) (last : TokenKind) : StatementKind :=
  let top := topLevel 0 ts
  if last == .inc || last == .dec then .assign
  else if top.any fun t => assigns t.kind then .assign
  else if top.tail.any fun t => t.kind == .arrow then .send
  else if last == .closing .paren then
    match calleeSpan ts with
    | some callee => .call callee
    | none => .expr
  else .expr

/-- What a statement does. -/
def classify (s : Source) (st : Statement) : StatementKind :=
  match s.leadingKind? st with
  | some k => k
  | none => if s.isDisplay st then .display else innerKind (s.tokensOf st) (s.kindAt st.last)

@[inherit_doc classify]
def readKind (s : Source) (st : Statement) : Checked StatementKind := do
  let first ← s.tokenAt st.first
  match s.leadingKindFrom? st first.kind with
  | some k => return k
  | none =>
    if ← s.readIsDisplay st then return .display
    else return innerKind (← s.readTokensOf st) (s.kindAt st.last)

end Source

end Notebook
