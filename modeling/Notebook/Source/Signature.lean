import Notebook.Source.Binding

/-!
# Function signatures

How many results a function has is read from the tokens behind its parameters: none before a
body or the end of a statement, as many as there are groups in parentheses, and else one.
-/

namespace Notebook

/-- A function declaration: its name, whether it has a receiver, the number of its results,
and its extent. -/
structure FunctionDecl where
  name : Text
  receiver : Bool
  results : Nat
  span : Span
deriving DecidableEq, Repr

namespace Source

/-- The number of results that the tokens from `i` on declare. -/
def resultCount (s : Source) (i : Nat) : Nat :=
  match s.kindAt i with
  | .opening .brace | .semi | .eof | .closing .paren => 0
  | .opening .paren =>
    match s.matching i with
    | none => 0
    | some close => if close = i + 1 then 0 else
      (commaParts (s.segment (i + 1) (close - 1))).length
  | _ => 1

@[inherit_doc resultCount]
def readResultCount (s : Source) (i : Nat) : Checked Nat :=
  match s.kindAt i with
  | .opening .brace | .semi | .eof | .closing .paren => .ok 0
  | .opening .paren =>
    match s.matching i with
    | none => .ok 0
    | some close =>
      if close = i + 1 then .ok 0
      else do return (commaParts (← s.readSegment (i + 1) (close - 1))).length
  | _ => .ok 1

/-- Where a declaration says what it declares: whether it has a receiver, the number of its
name, and the number of the token behind its parameters. -/
structure FunctionPlace where
  receiver : Bool
  nameIndex : Nat
  resultIndex : Nat
deriving DecidableEq, Repr

/-- The number of the token behind a group in brackets; where no such group begins, the number
that is given. -/
def behindGroup? (s : Source) (b : Bracket) (i : Nat) : Option Nat :=
  if s.kindAt i = .opening b then (s.matching i).map (· + 1) else some i

/-- Finds a function declaration with a name, from its first token. -/
def functionPlace? (s : Source) (st : Statement) : Option FunctionPlace := do
  let nameIndex ← s.behindGroup? .paren (st.first + 1)
  if s.kindAt nameIndex = .ident then
    let params ← s.behindGroup? .square (nameIndex + 1)
    if s.kindAt params = .opening .paren then
      let close ← s.matching params
      return ⟨s.kindAt (st.first + 1) == .opening .paren, nameIndex, close + 1⟩
    else none
  else none

/-- The function declaration with a name that a statement is, if it is one. -/
def functionDecl? (s : Source) (st : Statement) : Option FunctionDecl := do
  let place ← s.functionPlace? st
  let name ← s.tokens[place.nameIndex]?
  return ⟨name.lexeme, place.receiver, s.resultCount place.resultIndex, st.span⟩

@[inherit_doc functionDecl?]
def readFunctionDecl? (s : Source) (st : Statement) : Checked (Option FunctionDecl) :=
  match s.functionPlace? st with
  | none => .ok none
  | some place => do
    let name ← s.tokenAt place.nameIndex
    return some ⟨name.lexeme, place.receiver, ← s.readResultCount place.resultIndex, st.span⟩

/-- The function declarations of a text, in order. -/
def functionDecls (s : Source) : List FunctionDecl :=
  (s.statements.filter fun st => s.kindAt st.first == .keyword .funcKw).filterMap
    s.functionDecl?

@[inherit_doc functionDecls]
def readFunctionDecls (s : Source) : Checked (List FunctionDecl) := do
  let functions := (← s.readStatements).filter fun st => s.kindAt st.first == .keyword .funcKw
  return (← functions.mapM s.readFunctionDecl?).filterMap id

/-- The name that tokens bind to a function literal, the first of them with number `first`,
and the number of the token behind its parameters. -/
def closurePlace? (s : Source) (first : Nat) (ts : List Token) : Option (Text × Nat) := do
  let b ← (assignmentBindings ts).head?
  let value ← b.value
  let k ← ts.findIdx? fun t => t.pos == value.start
  let i := first + k
  if s.kindAt i = .keyword .funcKw ∧ s.kindAt (i + 1) = .opening .paren then
    let close ← s.matching (i + 1)
    return (b.name, close + 1)
  else none

/-- The name that a statement binds to a function literal, and the number of its results. -/
def closureArity (s : Source) (st : Statement) : Option (Text × Nat) :=
  (s.closurePlace? st.first (s.tokensOf st)).map fun p => (p.1, s.resultCount p.2)

@[inherit_doc closureArity]
def readClosureArity (s : Source) (st : Statement) : Checked (Option (Text × Nat)) := do
  match s.closurePlace? st.first (← s.readTokensOf st) with
  | none => return none
  | some p => return some (p.1, ← s.readResultCount p.2)

end Source

end Notebook
