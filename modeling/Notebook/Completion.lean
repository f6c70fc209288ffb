import Notebook.Assembly

/-!
# Completing a name

A cursor in an input is followed into the program that the input would make, and the names of
the session, its declarations and the keywords are offered that begin with the identifier
characters before the cursor.
-/

namespace Notebook

/-- A cursor in a program, and the names around it.  Line and column count from zero, the
column in bytes. -/
structure CompletionRequest where
  program : Text
  offset : Nat
  line : Nat
  column : Nat
  /-- The identifier characters directly before the cursor. -/
  stem : Text
  names : List Text
  declarations : List (DeclarationKind × Text)
deriving DecidableEq, Repr

/-- The identifier characters at the end of a text. -/
def identifierTail (t : Text) : Text :=
  (t.reverse.takeWhile isIdentifierChar).reverse

namespace CompletionRequest

/-- The request at an offset; an offset past the end means the end. -/
def make (program : Text) (offset : Nat) (names : List Text)
    (declarations : List (DeclarationKind × Text)) : Checked CompletionRequest := do
  let offset := min offset program.byteSize
  let before ← Span.slice ⟨0, offset⟩ program
  let lineTail := (before.reverse.takeWhile (· != '\n')).reverse
  return {
    program := program
    offset := offset
    line := before.count '\n'
    column := Text.byteSize lineTail
    stem := identifierTail before
    names := names
    declarations := declarations }

end CompletionRequest

/-- A name that is offered, and what it is. -/
structure CompletionItem where
  label : Text
  detail : Text
deriving DecidableEq, Repr

/-- What a declaration is, for somebody who chooses one. -/
def DeclarationKind.detail : DeclarationKind → Text
  | .function => "func"
  | .typeDecl => "type"
  | .importDecl => "package"

/-- Keeps the first item of every label. -/
def distinctItems (seen : List Text) : List CompletionItem → List CompletionItem
  | [] => []
  | i :: is =>
    if i.label ∈ seen then distinctItems seen is else i :: distinctItems (i.label :: seen) is

namespace CompletionRequest

/-- All that could be offered: variables, declarations and keywords. -/
def candidates (r : CompletionRequest) : List CompletionItem :=
  r.names.map (⟨·, "variable"⟩) ++ r.declarations.map (fun d => ⟨d.2, d.1.detail⟩) ++
    Keyword.all.map fun k => ⟨k.spelling, "keyword"⟩

/-- What is offered: the candidates that begin with the characters before the cursor, if there
are any. -/
def items (r : CompletionRequest) : List CompletionItem :=
  if r.stem.isEmpty then []
  else distinctItems [] (r.candidates.filter fun i => r.stem.isPrefixOf i.label)

end CompletionRequest

/-- The word that stands for the cursor while the program is made. -/
def cursorMark : Text := "__gocell_cursor__"

/-- A text without the first occurrence of another, and the offset where it stood, or the
end. -/
def eraseFirst (needle t : Text) : Text × Nat :=
  match Text.cutFirst? needle t with
  | some (before, behind) => (before ++ behind, Text.byteSize before)
  | none => (t, t.byteSize)

/-- The request for a cursor in an input: the program that the input would make, with the
cursor in it.  An offset that is no place of the input means its end. -/
def completionRequest (session : Session) (store : ValueStore) (files : FileTree)
    (input : Text) (cursor : Nat) : Checked CompletionRequest := do
  let (before, behind) := (input.cutAt? cursor).getD (input, [])
  let made ← assemble session store files (before ++ cursorMark ++ behind)
  let (program, offset) := eraseFirst cursorMark (Text.erase made.program inputMark)
  let declarations := Declaration.merge session.declarations made.declarations
  let declarations := declarations.filter fun d => !d.key.containsText cursorMark
  CompletionRequest.make program offset session.tracked
    (declarations.map fun d => (d.kind, d.key))

end Notebook
