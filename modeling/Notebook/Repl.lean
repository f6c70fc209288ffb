import Notebook.Kernel
import Notebook.Text.Cluster

/-!
# The dialogue

Lines are read until the brackets in them are closed, and backspaces in them are obeyed.  A
line that begins with a colon is a command of the dialogue; all else is code for one turn.
-/

namespace Notebook

/-- What a program has printed on its two channels. -/
structure Transcript where
  stdout : Text
  stderr : Text
deriving DecidableEq, Repr

namespace Transcript

/-- Nothing printed. -/
def empty : Transcript := ⟨[], []⟩

/-- Prints a text. -/
def print (o : Transcript) (t : Text) : Transcript :=
  { o with stdout := o.stdout ++ t }

/-- Prints a line. -/
def printLine (o : Transcript) (t : Text) : Transcript :=
  o.print (t ++ "\n")

/-- Prints a line on the error channel. -/
def complain (o : Transcript) (t : Text) : Transcript :=
  { o with stderr := o.stderr ++ t ++ "\n" }

/-- Whether anything was printed on the error channel. -/
def complained (o : Transcript) : Bool :=
  !o.stderr.isEmpty

/-- Prints the outcome of a turn: what the program printed, unless that is nothing, and a
complaint if it failed. -/
def printTurn (o : Transcript) (result : Except TurnError Text) : Transcript :=
  let emit (o : Transcript) (t : Text) : Transcript := if t.isEmpty then o else o.printLine t
  match result with
  | .ok stdout => emit o stdout
  | .error (.run stdout text benign) =>
    (emit o stdout).complain (TurnError.run stdout text benign).report
  | .error (.kernel e) => o.complain (TurnError.kernel e).report

end Transcript

namespace Repl

/-! ### Entries -/

/-- The number of brackets that are opened less the number that are closed. -/
def openBrackets (t : Text) : Int :=
  let step (d : Int) (k : Token) : Int :=
    if k.kind.opens then d + 1 else if k.kind.closes then d - 1 else d
  (tokenize t).foldl step 0

/-- Whether an entry need not be continued on the next line: a command, or code without open
brackets. -/
def isComplete (entry : Text) : Bool :=
  (Text.trimStart entry).head? == some ':' || openBrackets entry ≤ 0

/-- The complete entries of lines that keep their ends; `begun` is the part of an entry read
so far.  An entry that is never completed is lost. -/
def entriesFrom (begun : Text) : List Text → List Text
  | [] => []
  | line :: lines =>
    let read := begun ++ line
    let content := Text.dropLineEnd read
    let entry := Text.takeBack content
    if isComplete entry then entry :: entriesFrom [] lines
    else entriesFrom (entry ++ read.drop content.length) lines

/-- The complete entries of an input. -/
def entries (input : Text) : List Text :=
  entriesFrom [] (Text.lineFeedSegments input)

/-! ### Commands -/

/-- What the help command prints. -/
def help : Text :=
  ":help          show this help\n" ++
  ":quit, :q      exit\n" ++
  ":vars          captured variables and their stored types\n" ++
  ":decls         accumulated imports, functions and types\n" ++
  ":program       the program generated for the last turn\n" ++
  ":reset         forget all session state\n" ++
  "\n" ++
  "Anything else is Go code, run as the body of main.\n" ++
  "Open braces continue the input on the next line.\n"

/-- A line of the dialogue. -/
inductive Command where
  | help
  | quit
  | listVariables
  | declarations
  | program
  | reset
  | code (input : Text)
deriving DecidableEq, Repr

/-- Reads a trimmed line. -/
def Command.ofText (t : Text) : Command :=
  if t = ":help".toList ∨ t = ":h".toList then .help
  else if t = ":q".toList ∨ t = ":quit".toList then .quit
  else if t = ":vars".toList then .listVariables
  else if t = ":decls".toList then .declarations
  else if t = ":program".toList then .program
  else if t = ":reset".toList then .reset
  else .code t

/-- The dialogue between two lines. -/
structure State (σ : Type) where
  kernel : Kernel
  world : World σ
  output : Transcript

/-- Prints the live variables. -/
def printVariables (vars : List (Text × Text)) (o : Transcript) : Transcript :=
  if vars.isEmpty then o.printLine "no variables"
  else vars.foldl (fun o v => o.printLine (v.1 ++ ": " ++ v.2)) o

/-- Does what a line says. -/
def State.step {σ : Type} (tools : Toolchain σ) (s : State σ) : Command → Checked (State σ)
  | .help => .ok { s with output := s.output.print help }
  | .quit => .ok s
  | .listVariables =>
    .ok { s with output := printVariables (s.kernel.liveVariables s.world.files) s.output }
  | .declarations =>
    let decls := s.kernel.session.declarations
    .ok { s with
      output := if decls.isEmpty then s.output.printLine "no declarations"
        else s.output.print (Declaration.render decls) }
  | .program =>
    .ok { s with
      output := match s.kernel.lastProgram s.world.files with
        | some program => s.output.print program
        | none => s.output.printLine "nothing has run yet" }
  | .reset =>
    let (kernel, world) := s.kernel.reset s.world
    .ok ⟨kernel, world, s.output.printLine "session cleared"⟩
  | .code input => do
    let (result, kernel, world) ← s.kernel.turn tools input s.world
    return ⟨kernel, world, s.output.printTurn result⟩

/-- How a dialogue ends: its state, the lines that were entered, and the fault that broke it
off, if there was one. -/
structure Ending (σ : Type) where
  state : State σ
  history : List Text
  fault : Option Fault

/-- Goes through entries until one quits, or to the end of the input; each is asked for with a
prompt. -/
def loop {σ : Type} (tools : Toolchain σ) (prompt : Text) (s : State σ)
    (history : List Text) :
    List Text → Ending σ
  | [] => ⟨{ s with output := (s.output.print prompt).printLine "Goodbye" }, history, none⟩
  | entry :: entries =>
    let s := { s with output := s.output.print prompt }
    let line := Text.trim entry
    if line.isEmpty then loop tools prompt s history entries
    else
      let history := history ++ [line]
      match Command.ofText line with
      | .quit => ⟨s, history, none⟩
      | command =>
        match s.step tools command with
        | .ok s => loop tools prompt s history entries
        | .error fault => ⟨s, history, some fault⟩

/-- The line that greets. -/
def greeting (k : Kernel) : Text :=
  "gocell session " ++ k.workspace.id ++ " (:help for commands)"

/-- The prompt for an input that is not typed: none, unless the terminal is of a kind that
cannot be written to freely. -/
def promptFor (terminal : Option Text) : Text :=
  let plain : List Text := ["dumb".toList, "cons25".toList, "emacs".toList]
  if terminal.any fun t => plain.contains (t.map Char.toLower) then ">>> " else []

/-- Goes through a whole input. -/
def run {σ : Type} (tools : Toolchain σ) (k : Kernel) (terminal : Option Text) (input : Text)
    (w : World σ) (o : Transcript) : Ending σ :=
  loop tools (promptFor terminal) ⟨k, w, o.printLine (greeting k)⟩ [] (entries input)

/-! ### Completion -/

/-- What is offered at a place of a line: where the replaced part begins, and each item as it
is shown and as it is put in. -/
def complete (k : Kernel) (files : FileTree) (line : Text) (pos : Nat) :
    Checked (Nat × List (Text × Text)) := do
  let items ← k.complete files line pos
  let before ← Span.slice ⟨0, pos⟩ line
  let start := pos - Text.byteSize (identifierTail before)
  return (start, items.map fun i => (i.label ++ "  (" ++ i.detail ++ ")", i.label))

end Repl

end Notebook
