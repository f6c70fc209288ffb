import Notebook.Diagnostic
import Notebook.Store

/-!
# After a failed run

The diagnostics of a failed run point at lines of the program, or of other files.  The live
names on those lines are forgotten, so that the next turn does not bring the trouble back, and
the report is retold in terms of the lines themselves.
-/

namespace Notebook

/-- The report of a run that failed.  A benign one is shown, but costs the session nothing. -/
structure RunFailure where
  text : Text
  benign : Bool
deriving DecidableEq, Repr

/-- A program and where it stands. -/
structure ProgramFile where
  text : Text
  path : Path
deriving DecidableEq, Repr

/-- A line of a text, counted from one. -/
def lineOf? (text : Text) (line : Nat) : Option Text :=
  if line = 0 then none else text.lines[line - 1]?

/-- The source line that a diagnostic points at: of the program, if the location names its
file and the program has the line, else of the file at the location, seen from the program's
directory. -/
def sourceLine? (files : FileTree) (program : ProgramFile) (d : Diagnostic) : Option Text :=
  let own :=
    if Path.fileName? d.location = Path.fileName? program.path then
      lineOf? program.text d.line
    else none
  match own with
  | some line => some line
  | none =>
    let path := if Path.isAbsolute d.location then d.location
      else (Path.parent? program.path).elim d.location fun dir => Path.join dir d.location
    match files.readText path with
    | .ok text => lineOf? text d.line
    | .error _ => none

/-- The tracked names on the lines that a report points at. -/
def implicatedNames (files : FileTree) (program : ProgramFile) (tracked : List Text)
    (report : Text) : List Text :=
  let lines := (diagnostics report).filterMap (sourceLine? files program)
  (lines.flatMap identifiers).filter (· ∈ tracked)

/-- One line of a report as it is shown: the source line and the message, or the line number
where the source line is not known or blank. -/
def showDiagnosticLine (files : FileTree) (program : ProgramFile) (line : Text) : Text :=
  match Diagnostic.ofLine? line with
  | none => line
  | some d =>
    match (sourceLine? files program d).map Text.trim with
    | some (c :: code) => c :: code ++ ": " ++ d.message
    | _ => "line " ++ Text.ofNat d.line ++ ": " ++ d.message

/-- A report as it is shown, without the line that names the package. -/
def showFailure (files : FileTree) (program : ProgramFile) (report : Text) : Text :=
  let lines := report.lines
  let lines := if lines.head?.any ("# ".toList.isPrefixOf ·) then lines.tail else lines
  Text.joinWith "\n" (lines.map (showDiagnosticLine files program))

/-- Forgets what a failure implicates, and gives the report to show. -/
def recover (files : FileTree) (session : Session) (program : ProgramFile)
    (failure : RunFailure) :
    Session × Text :=
  let session :=
    if failure.benign then session
    else session.evict (implicatedNames files program session.tracked failure.text)
  (session, showFailure files program failure.text)

end Notebook
