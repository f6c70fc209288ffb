import Notebook.Diagnostic
import Notebook.Edit
import Notebook.Source.Binding

/-!
# Unused variables

The compiler refuses a variable that is declared and not used, but in a notebook a later turn
may use it.  The names that a trial build reports are used for nothing at the end of the entry
function, as far as statements of the entry function itself bind them.
-/

namespace Notebook

/-- A statement that binds names: its first and last line, and the names. -/
structure BindingLines where
  firstLine : Nat
  lastLine : Nat
  names : List Text
deriving DecidableEq, Repr

/-- The lines of a statement and the names that it binds. -/
def BindingLines.ofStatement (s : Source) (st : Statement) : Checked BindingLines := do
  let first ← s.tokenAt st.first
  let last ← s.tokenAt st.last
  return ⟨first.start.line, last.start.line, (← s.readBindings st).map (·.name)⟩

/-- The statements of the entry function that bind names. -/
def bindingLines (program : Text) : Checked (List BindingLines) := do
  let s := Source.ofText program
  match ← s.readEntryPoint with
  | none => return []
  | some entry =>
    let found ← (← s.readBodyStatements entry).mapM (BindingLines.ofStatement s)
    return found.filter fun b => !b.names.isEmpty

/-- Whether a statement binds the reported name on the reported line. -/
def BindingLines.explains (b : BindingLines) (r : UnusedReport) : Bool :=
  decide (r.name ∈ b.names) && r.line.all fun l => b.firstLine ≤ l && l ≤ b.lastLine

/-- The reported names that statements of the entry function bind, each once; `built` is the
text that the reports speak of. -/
def unusedNames (built : Text) (reports : List UnusedReport) : Checked (List Text) := do
  let statements ← bindingLines built
  return addNames [] ((reports.filter fun r => statements.any (·.explains r)).map (·.name))

/-- The edits that use names for nothing at the end of an entry function. -/
def discards (entry : EntryPoint) (names : List Text) : List Edit :=
  [Edit.insertion entry.bodyStop (names.flatMap discardLine)]

/-- The program with names used for nothing at the end of its entry function. -/
def discardNames (program : Text) (entry : EntryPoint) (names : List Text) : Checked Text :=
  Edit.applyAll program (discards entry names)

end Notebook
