import Notebook.Assembly

/-!
# Showing the last value

The statement that ends on the marked line is wrapped in a printing call if it yields a value:
an expression always does, and a call does if its function has results.  Only one display of
the entry function is kept, the wrapped statement or else the last display that is written.

Whether a function has results may be a question to somebody else, so the work is in two
halves: `DisplayPlan.ofProgram?` finds the statement and the question, and `DisplayPlan.apply`
makes the program from the answer.  `analyze` joins them for a pure answerer.
-/

namespace Notebook

/-- The question how many results the function of a call has, with the program around the
call. -/
structure ArityQuery where
  callee : Text
  program : Text
  /-- The offset where the body of the entry function begins. -/
  bodyStart : Nat
  /-- The offset where the statement of the call begins. -/
  statementStart : Nat
deriving DecidableEq, Repr

/-- When the marked statement is to be shown. -/
inductive DisplayNeed where
  | never
  | always
  /-- If the function that it calls has results. -/
  | ifResults (query : ArityQuery)
deriving DecidableEq, Repr

/-- What is known of a program before its last value is shown. -/
structure DisplayPlan where
  source : Source
  statements : List Statement
  /-- The statement that ends on the marked line. -/
  marked : Option Statement
  need : DisplayNeed

namespace DisplayPlan

/-- The offset of the mark and the offset where its line begins. -/
def markOffsets? (program : Text) : Option (Nat × Nat) := do
  let (before, _) ← Text.cutLast? inputMark program
  let lineStart := match Text.cutLast? "\n" before with
    | some (above, _) => Text.byteSize above + 1
    | none => 0
  return (Text.byteSize before, lineStart)

/-- The last statement before the mark, if it ends on the line of the mark. -/
def markedStatement (statements : List Statement) (mark lineStart : Nat) : Option Statement :=
  (statements.reverse.find? fun st => st.span.stop ≤ mark).filter fun st =>
    lineStart ≤ st.span.stop

/-- When a statement is to be shown. -/
def needOf (s : Source) (entry : EntryPoint) (st : Statement) : Checked DisplayNeed := do
  match ← s.readKind st with
  | .expr => return .always
  | .call callee =>
    let callee ← s.slice callee
    return .ifResults ⟨callee, s.text, entry.bodyStart, st.span.start⟩
  | _ => return .never

/-- Finds the statement to show.  There is no plan for a program without a mark or an entry
point. -/
def ofProgram? (program : Text) : Checked (Option DisplayPlan) := do
  let s := Source.ofText program
  match markOffsets? program, ← s.readEntryPoint with
  | some (mark, lineStart), some entry =>
    let statements ← s.readBodyStatements entry
    let marked := markedStatement statements mark lineStart
    let need ← match marked with
      | some st => needOf s entry st
      | none => pure .never
    return some ⟨s, statements, marked, need⟩
  | _, _ => return none

/-- The question that the plan depends on. -/
def query? (p : DisplayPlan) : Option ArityQuery :=
  match p.need with
  | .ifResults q => some q
  | _ => none

/-- Whether the marked statement is shown, given the answer to the question. -/
def shows (p : DisplayPlan) (answer : Option Nat) : Bool :=
  match p.need with
  | .never => false
  | .always => true
  | .ifResults _ => answer.any (0 < ·)

/-- What is taken out with a statement: itself, and a written semicolon behind it with the
blanks that follow. -/
def deletionSpan (s : Source) (st : Statement) : Checked Span :=
  match st.terminator with
  | none => .ok st.span
  | some i => do
    let semi ← s.tokenAt i
    if semi.isImpliedSemi then return st.span
    else
      match s.text.cutAt? semi.stop with
      | none => throw (.offset semi.stop)
      | some (_, behind) =>
        let blanks := behind.takeWhile fun c => c == ' ' || c == '\t'
        return ⟨st.span.start, semi.stop + Text.byteSize blanks⟩

/-- The edits that wrap the marked statement. -/
def wrapEdits (p : DisplayPlan) (answer : Option Nat) : Checked (List Edit) :=
  match p.marked with
  | some st =>
    if p.shows answer then do
      let text ← p.source.statementText st
      return [⟨st.span, "fmt.Println(" ++ text ++ ")"⟩]
    else .ok []
  | none => .ok []

/-- Of some displays, those that are taken out: all but the last, and the last too if a
statement is wrapped. -/
def droppedOf (displays : List Statement) (wrapped : List Edit) : List Statement :=
  match wrapped with
  | [] => displays.dropLast
  | e :: _ => displays.filter fun st => st.span != e.span

/-- The displays that are taken out. -/
def dropped (p : DisplayPlan) (wrapped : List Edit) : List Statement :=
  droppedOf (p.statements.filter p.source.isDisplay) wrapped

/-- The edits that show the last value. -/
def edits (p : DisplayPlan) (answer : Option Nat) : Checked (List Edit) := do
  let wrapped ← p.wrapEdits answer
  let displays ← p.statements.filterM p.source.readIsDisplay
  let deletions ← (droppedOf displays wrapped).mapM fun st => do
    return Edit.deletion (← deletionSpan p.source st)
  return wrapped ++ deletions

/-- The program with its last value shown. -/
def apply (p : DisplayPlan) (answer : Option Nat) : Checked Text := do
  Edit.applyAll p.source.text (← p.edits answer)

end DisplayPlan

/-- Shows the last value of a program, with `resultCount` to say how many results a function
has. -/
def analyze (resultCount : ArityQuery → Checked (Option Nat)) (program : Text) :
    Checked Text := do
  match ← DisplayPlan.ofProgram? program with
  | none => return program
  | some p =>
    let answer ← match p.query? with
      | some q => resultCount q
      | none => pure none
    p.apply answer

end Notebook
