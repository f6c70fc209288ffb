import Notebook.Store

/-!
# One program per turn

A turn's program is the package clause, the accumulated declarations, and an entry function
that first brings every live variable back and then does what the input says.  The input's
last line carries a mark, so that its last statement can be found again; the mark is taken out
before the program is run.

## Main definitions

* `assemble`: the program of a turn
* `Redeclaration`: an input statement that declares live names again
* `stripMark`: the program without the mark

## Design notes

An input may declare a name that is live already.  If the old value is still read, by an
earlier statement, by the new value or by a function literal, then the name is brought back
and the input's `:=` becomes `=`; otherwise the old value is not brought back at all.
-/

namespace Notebook

/-- The mark behind the input. -/
def inputMark : Text := "// :INPUT"

/-- A program without the input mark. -/
def stripMark (program : Text) : Text :=
  Text.erase (Text.erase program (" " ++ inputMark)) inputMark

/-- A statement of the input that declares live names again. -/
structure Redeclaration where
  names : List Text
  /-- Whether the old value of one of them is still read. -/
  needed : Bool
  /-- Turns the declaration into an assignment, if all its names are live. -/
  demotion : Option Edit
deriving DecidableEq, Repr

namespace Redeclaration

/-- Whether the old value of a name is read before or while the statement with these bindings
declares it again; `earlier` are the tokens before the statement. -/
def isNeededBehind (s : Source) (session : Session) (st : Statement) (earlier : List Token)
    (bindings : List Binding) (name : Text) : Bool :=
  let start := bindings.head?.elim st.span.start (·.pos)
  let firstPos := bindings.foldl (fun p b => min p b.pos) start
  let before := earlier.any fun t => t.isIdent name && t.pos < firstPos
  let inValue := bindings.any fun b => b.rhs.any fun r => s.mentionsIn r name
  let inLiteral := session.literals.any fun l => l.1 != name &&
    (Source.ofText l.2).mentions name
  before || inValue || inLiteral

/-- Whether the old value of a name is read before or while the statement with these bindings
declares it again. -/
def isNeeded (s : Source) (session : Session) (st : Statement) (bindings : List Binding)
    (name : Text) : Bool :=
  isNeededBehind s session st (s.tokens.take st.first) bindings name

/-- The edit that replaces the first `:=` of some tokens by `=`. -/
def demotionIn (ts : List Token) : Option Edit :=
  (ts.find? fun t => t.kind == .define).map fun t => ⟨⟨t.pos, t.stop⟩, "="⟩

/-- The edit that replaces the first `:=` of a statement by `=`. -/
def demotionOf (s : Source) (st : Statement) : Option Edit :=
  demotionIn (s.tokensOf st)

/-- The redeclaration that bindings make, if they make one.  `isVar` says whether they are
those of a `var` declaration, `isNeeded` whether the old value of a name is read, and
`demotion` is the edit that makes the statement an assignment. -/
def ofBindings? (session : Session) (isVar : Bool) (bindings : List Binding)
    (isNeeded : Text → Bool) (demotion : Option Edit) : Option Redeclaration :=
  let live (name : Text) : Bool := name ∈ session.names
  let names := (bindings.map (·.name)).filter live
  if names.isEmpty || !(isVar || bindings.any (·.define)) then none
  else
    some {
      names := names
      needed := names.any isNeeded
      demotion :=
        if !isVar && bindings.all (fun b => b.name == blankName || live b.name) then demotion
        else none }

/-- The redeclaration that a statement makes, if it makes one. -/
def ofStatement? (s : Source) (session : Session) (st : Statement) : Option Redeclaration :=
  let bindings := s.bindings st
  ofBindings? session (s.kindAt st.first == .keyword .varKw) bindings
    (isNeeded s session st bindings) (demotionOf s st)

@[inherit_doc ofStatement?]
def readStatement? (s : Source) (session : Session) (st : Statement) :
    Checked (Option Redeclaration) := do
  let bindings ← s.readBindings st
  let earlier ← s.readBefore st.first
  let ts ← s.readTokensOf st
  return ofBindings? session (s.kindAt st.first == .keyword .varKw) bindings
    (isNeededBehind s session st earlier bindings) (demotionIn ts)

end Redeclaration

/-- The program of a turn, and the declarations that its input makes. -/
structure Assembled where
  program : Text
  declarations : List Declaration
deriving DecidableEq, Repr

/-- The redeclarations that an input without package-level declarations makes. -/
def redeclarations (session : Session) (body : Text) : List Redeclaration :=
  let s := Source.ofText body
  s.statements.filterMap (Redeclaration.ofStatement? s session)

@[inherit_doc redeclarations]
def readRedeclarations (session : Session) (body : Text) : Checked (List Redeclaration) := do
  let s := Source.ofText body
  return (← (← s.readStatements).mapM (Redeclaration.readStatement? s session)).filterMap id

/-- The edits that turn declarations into assignments where the old value is still read. -/
def demotions (again : List Redeclaration) : List Edit :=
  (again.filter (·.needed)).filterMap (·.demotion)

/-- The names whose old value nobody reads. -/
def skippedNames (again : List Redeclaration) : List Text :=
  (again.filter (!·.needed)).flatMap (·.names)

/-- The live names that come back, each with the statement that brings it back; those are left
out that are not wanted or cannot come back. -/
def rehydrations (session : Session) (store : ValueStore) (files : FileTree)
    (skipped : List Text) : List (Text × Text) :=
  (session.names.filter (· ∉ skipped)).filterMap fun name =>
    (store.rehydration files name (session.literal? name)).toOption.map fun st => (name, st)

/-- The lines that bring live variables back. -/
def rehydrationLines (session : Session) (store : ValueStore) (files : FileTree)
    (skipped : List Text) : Text :=
  (rehydrations session store files skipped).flatMap fun r => bodyLine r.2

/-- The text of a program from its parts. -/
def programText (declarations : List Declaration) (rehydrations body : Text) : Text :=
  "package main\n\n" ++ Declaration.render declarations ++ "func main() \x7b\n" ++
    rehydrations ++
    "\t" ++ body ++ "\n\x7d\n"

/-- Builds the program of a turn from the session, the store and the input. -/
def assemble (session : Session) (store : ValueStore) (files : FileTree) (input : Text) :
    Checked Assembled := do
  let (declarations, body) ← splitDeclarations input
  let again ← readRedeclarations session body
  let body ← Edit.applyAll body (demotions again)
  return {
    program := programText (Declaration.merge session.declarations declarations)
      (rehydrationLines session store files (skippedNames again))
      (body.trim ++ " " ++ inputMark)
    declarations := declarations }

end Notebook
