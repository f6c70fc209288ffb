import Notebook.Store

/-!
# Which variables a program stores

Every name that a statement of the entry function binds to a value is *captured*: the program
stores it at the end of its run, so that the next turn can bring it back.  Storing calls that
are already there are moved to the end and not doubled.

## Main definitions

* `Capture`: a captured name and the function literal it holds
* `PersistencePlan`: the program with its storing calls, and what it stores
* `planPersistence`: the plan of a program
-/

namespace Notebook

/-- A captured name, the offset where it is bound, and its source if it holds a function
literal. -/
structure Capture where
  name : Text
  pos : Nat
  literal : Option Text
deriving DecidableEq, Repr

/-- A program that stores its variables, the names of what it stores, and the function
literals among them. -/
structure PersistencePlan where
  program : Text
  names : List Text
  literals : Literals
deriving DecidableEq, Repr

/-- The call that stores a variable. -/
def persistenceCall (name : Text) : Text :=
  "_Serialize(\"" ++ variableKey name ++ "\", " ++ name ++ ")"

namespace PersistencePlan

/-- Drops quotation marks at both ends. -/
def dropQuotes (t : Text) : Text :=
  ((t.dropWhile (· == '"')).reverse.dropWhile (· == '"')).reverse

/-- The name of the variable under a quoted key. -/
def nameOfKey? (literal : Text) : Option Text :=
  let key := dropQuotes literal
  if "var-".toList.isPrefixOf key then some (key.drop 4) else none

/-- The name that a storing call stores, from the tokens between its parentheses: the last
identifier, or the name in the key.  A call that stores `nil` stores nothing. -/
def persistedName? (args : List Token) : Option Text :=
  if args.any fun t => t.isIdent "nil" then none
  else
    match (args.filter fun t => t.kind == .ident).getLast? with
    | some t => some t.lexeme
    | none => (args.filter fun t => t.kind == .str).findSome? fun t => nameOfKey? t.lexeme

/-- A storing call that is already there: its extent, its text, and the name it stores. -/
structure Existing where
  span : Span
  text : Text
  name? : Option Text
deriving DecidableEq, Repr

/-- Reads a storing call. -/
def existing (s : Source) (st : Statement) : Checked Existing := do
  let text ← s.statementText st
  let args ← s.readSegment (st.first + 2) (st.last - 1)
  return ⟨st.span, text, persistedName? args⟩

/-- The capture that a binding makes: none for the blank name, for `nil` and without a
value. -/
def capture? (s : Source) (b : Binding) : Checked (Option Capture) :=
  if b.name = blankName then .ok none
  else
    match b.value, b.rhs with
    | some value, _ => do
      let text ← s.slice value
      if text.trim = ("nil".toList) then return none
      else return some ⟨b.name, b.pos, if isFunctionLiteral text then some text else none⟩
    | none, some _ => .ok (some ⟨b.name, b.pos, none⟩)
    | none, none => .ok none

/-- Keeps the first capture of every name. -/
def firstOfEach (seen : List Text) : List Capture → List Capture
  | [] => []
  | c :: cs => if c.name ∈ seen then firstOfEach seen cs else
    c :: firstOfEach (seen ++ [c.name]) cs

/-- The captures of statements, by the place of their binding. -/
def captures (s : Source) (statements : List Statement) : Checked (List Capture) := do
  let bindings ← statements.mapM s.readBindings
  let found ← bindings.flatten.mapM (capture? s)
  return (firstOfEach [] (found.filterMap id)).mergeSort fun a b => a.pos ≤ b.pos

/-- The lines at the end of the entry function: the calls that were there, then one for every
other captured name. -/
def tail (existing : List (Text × Text)) (captures : List Capture) : Text :=
  (existing.flatMap fun p => bodyLine p.2) ++
    ((captures.map (·.name)).filter (· ∉ existing.map Prod.fst)).flatMap fun n =>
      bodyLine (persistenceCall n)

/-- The stored names: the captured ones, then those of other storing calls, each once. -/
def storedNames (existing : List (Text × Text)) (captures : List Capture) : List Text :=
  addNames (captures.map (·.name)) (existing.map Prod.fst)

/-- What the entry function of a program stores: the storing calls that are there, and the
captures of its other statements. -/
structure Findings where
  calls : List Existing
  captures : List Capture
deriving DecidableEq, Repr

/-- Looks through an entry function. -/
def findings (s : Source) (entry : EntryPoint) : Checked Findings := do
  let statements ← s.readBodyStatements entry
  let calls ← (← statements.filterM s.readIsPersistence).mapM (existing s)
  let others ← statements.filterM fun st => return !(← s.readIsPersistence st)
  return ⟨calls, ← captures s others⟩

namespace Findings

/-- The storing calls that store a variable, by its name. -/
def stored (f : Findings) : List (Text × Text) :=
  f.calls.filterMap fun c => c.name?.map fun n => (n, c.text)

/-- The edits that move the storing calls to the end and add those that are missing. -/
def edits (f : Findings) (entry : EntryPoint) : List Edit :=
  f.calls.map (fun c => Edit.deletion c.span) ++
    [Edit.insertion entry.bodyStop (tail f.stored f.captures)]

/-- The function literals among the captures. -/
def literals (f : Findings) : Literals :=
  f.captures.filterMap fun c => c.literal.map fun l => (c.name, l)

end Findings

end PersistencePlan

open PersistencePlan in
/-- Plans what a program stores; a program without an entry point has no plan. -/
def planPersistence (program : Text) : Checked (Option PersistencePlan) := do
  let s := Source.ofText program
  match ← s.readEntryPoint with
  | none => return none
  | some entry =>
    let found ← findings s entry
    return some {
      program := ← Edit.applyAll program (found.edits entry)
      names := storedNames found.stored found.captures
      literals := found.literals }

end Notebook
