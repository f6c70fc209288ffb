import Notebook.Edit
import Notebook.Source.Binding

/-!
# Package-level declarations

Imports, functions, methods and types are no statements of the entry function: they are taken
out of an input and kept beside it.  Two declarations of one kind and key are versions of the
same thing, and the later one takes the place of the earlier.

## Main definitions

* `Declaration`, `Declaration.merge`: the accumulated declarations
* `Declaration.render`: their text in a program, imports first
* `Declaration.ofStatement?`, `splitDeclarations`: how they are found in an input
-/

namespace Notebook

/-- What is declared. -/
inductive DeclarationKind where
  | importDecl
  | function
  | typeDecl
deriving DecidableEq, Repr

/-- A declaration with its identity.  The key is the name, the receiver type and name of a
method joined by a dot, or the source itself for imports and groups. -/
structure Declaration where
  kind : DeclarationKind
  key : Text
  source : Text
deriving DecidableEq, Repr

namespace Declaration

/-- Whether two declarations are versions of the same thing. -/
def sameIdentity (a b : Declaration) : Bool :=
  a.kind == b.kind && a.key == b.key

/-- Puts a declaration in the place of its earlier version, or at the end. -/
def put : List Declaration → Declaration → List Declaration
  | [], d => [d]
  | e :: es, d => if e.sameIdentity d then d :: es else e :: put es d

/-- Adds declarations one after the other. -/
def merge (existing pending : List Declaration) : List Declaration :=
  pending.foldl put existing

@[simp] theorem merge_nil (existing : List Declaration) : merge existing [] = existing := rfl

@[simp] theorem merge_cons (existing : List Declaration) (d : Declaration)
    (ds : List Declaration) :
    merge existing (d :: ds) = merge (put existing d) ds := rfl

/-- Adding two lists of declarations is adding one after the other. -/
theorem merge_append (existing a b : List Declaration) :
    merge existing (a ++ b) = merge (merge existing a) b :=
  List.foldl_append

/-- The text of declarations, imports first, each with an empty line behind it. -/
def render (ds : List Declaration) : Text :=
  (ds.filter (·.kind == .importDecl) ++ ds.filter (·.kind != .importDecl)).flatMap fun d =>
    Text.trim d.source ++ "\n\n"

/-- The receiver type in the tokens between the parentheses of a receiver and the closing one:
the last name that no operator follows. -/
def receiverName? : List Token → Option Text
  | a :: b :: ts =>
    match receiverName? (b :: ts) with
    | some name => some name
    | none => if a.kind = .ident ∧ b.kind ≠ .op then some a.lexeme else none
  | _ => none

/-- The kind and key of the declaration that a statement makes, if it makes one; `source` is
the statement's text. -/
def identify? (s : Source) (st : Statement) (source : Text) :
    Option (DeclarationKind × Text) :=
  match s.tokens.drop st.first with
  | [] => none
  | t :: ts =>
    let nextIdent := ts.head?.filter fun n => n.kind == .ident
    match t.kind with
    | .keyword .importKw => some (.importDecl, source)
    | .keyword .typeKw => some (.typeDecl, (nextIdent.map Token.lexeme).getD source)
    | .keyword .funcKw =>
      match nextIdent with
      | some n => some (.function, n.lexeme)
      | none =>
        if s.kindAt (st.first + 1) = .opening .paren then do
          let close ← s.matching (st.first + 1)
          let name ← s.tokens[close + 1]?
          if name.kind = .ident ∧ s.kindAt (close + 2) = .opening .paren then
            some (.function,
              (receiverName? (s.segment (st.first + 2) close)).getD [] ++ "." ++ name.lexeme)
          else none
        else none
    | _ => none

@[inherit_doc identify?]
def readIdentity? (s : Source) (st : Statement) (source : Text) :
    Checked (Option (DeclarationKind × Text)) :=
  let next := st.first + 1
  match s.kindAt st.first with
  | .keyword .importKw => .ok (some (.importDecl, source))
  | .keyword .typeKw =>
    if s.kindAt next = .ident then do return some (.typeDecl, (← s.tokenAt next).lexeme)
    else .ok (some (.typeDecl, source))
  | .keyword .funcKw =>
    if s.kindAt next = .ident then do return some (.function, (← s.tokenAt next).lexeme)
    else if s.kindAt next = .opening .paren then
      match s.matching next with
      | none => .ok none
      | some close =>
        if s.kindAt (close + 1) = .ident ∧ s.kindAt (close + 2) = .opening .paren then do
          let receiver ← s.readSegment (st.first + 2) close
          let name ← s.tokenAt (close + 1)
          return some (.function, (receiverName? receiver).getD [] ++ "." ++ name.lexeme)
        else .ok none
    else .ok none
  | _ => .ok none

/-- The declaration that a statement makes, if it makes one. -/
def ofStatement? (s : Source) (st : Statement) : Checked (Option Declaration) := do
  let source ← s.statementText st
  return (← readIdentity? s st source).map fun i => ⟨i.1, i.2, source⟩

end Declaration

/-- The declarations that an input makes, in order, each with the edit that takes it out. -/
def declarationsOf (input : Text) : Checked (List (Declaration × Edit)) := do
  let s := Source.ofText input
  let found ← (← s.readStatements).mapM fun st => do
    return (← Declaration.ofStatement? s st).map fun d => (d, Edit.deletion st.span)
  return found.filterMap id

/-- Takes the declarations out of an input: what they are, in order, and the input without
them. -/
def splitDeclarations (input : Text) : Checked (List Declaration × Text) := do
  let found ← declarationsOf input
  return (found.map Prod.fst, ← Edit.applyAll input (found.map Prod.snd))

end Notebook
