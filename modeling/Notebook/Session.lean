import Notebook.Declaration

/-!
# Sessions

What one turn hands to the next: the names of live variables in the order of their first
definition, the source of the variables that hold function literals, and the accumulated
declarations.
-/

namespace Notebook

/-- Sources by name, in the order in which the names were first put in. -/
abbrev Literals := List (Text × Text)

namespace Literals

/-- The source under a name. -/
def find? (ls : Literals) (name : Text) : Option Text :=
  ls.lookup name

/-- Sets the source under a name; a name that is there keeps its place. -/
def put : Literals → Text → Text → Literals
  | [], name, source => [(name, source)]
  | (n, s) :: ls, name, source =>
    if n = name then (n, source) :: ls else (n, s) :: put ls name source

/-- Puts pairs in one after the other. -/
def ofList (pairs : List (Text × Text)) : Literals :=
  pairs.foldl (fun ls p => put ls p.1 p.2) []

end Literals

/-- The state that outlives a turn. -/
structure Session where
  names : List Text
  literals : Literals
  declarations : List Declaration
deriving DecidableEq, Repr

namespace Session

/-- The state before any turn. -/
def empty : Session := ⟨[], [], []⟩

/-- The live names and the names of function literals, each once. -/
def tracked (s : Session) : List Text :=
  addNames s.names (s.literals.map Prod.fst)

/-- The source of a function literal. -/
def literal? (s : Session) (name : Text) : Option Text :=
  s.literals.find? name

/-- Forgets names, as variables and as function literals. -/
def evict (s : Session) (names : List Text) : Session :=
  { s with
    names := s.names.filter (· ∉ names)
    literals := s.literals.filter (·.1 ∉ names) }

/-- Replaces the variables by what a run has stored; a function literal is kept only under a
live name. -/
def commit (s : Session) (names : List Text) (literals : Literals) : Session :=
  { s with names := names, literals := literals.filter (·.1 ∈ names) }

/-- Adds declarations. -/
def addDeclarations (s : Session) (pending : List Declaration) : Session :=
  { s with declarations := Declaration.merge s.declarations pending }

end Session

end Notebook
