import Notebook.Arity.Answer
import Notebook.Completion
import Notebook.Persistence
import Notebook.Resolution

/-!
# A session at work

A `Kernel` is an open session.  Each turn makes one program from the session and an input,
runs it, and takes over what the run has stored.  If the run does not end well the session
keeps its state, less what the failure implicates.

## Main definitions

* `Kernel.start`: opens a session and resumes its snapshot
* `Kernel.turnProgram`: the program of a turn, in the order assembly, display, trial build,
persistence
* `Kernel.turn`: one turn
-/

namespace Notebook

/-- An open session. -/
structure Kernel where
  config : Config
  workspace : Workspace
  session : Session
  cache : ArityCache
deriving DecidableEq, Repr

/-- Why a turn has no result. -/
inductive TurnError where
  /-- The program failed: what it printed before, the report to show, and whether it is
  benign. -/
  | run (stdout text : Text) (benign : Bool)
  | kernel (error : KernelError)
deriving DecidableEq, Repr

namespace TurnError

/-- What is said of the error, if that does not rest with the file system. -/
def message? : TurnError → Option Text
  | .run _ text _ => some text
  | .kernel e => e.message?

/-- The code of the kind of error. -/
def code : TurnError → Text
  | .run _ _ _ => "gocell::run"
  | .kernel e => e.code

/-- What may help. -/
def help? : TurnError → Option Text
  | .run _ _ _ => none
  | .kernel e => e.help?

/-- How an error is shown: its code, what is said of it, and what may help. -/
def report (e : TurnError) : Text :=
  let message : Text := e.message?.getD "input or output failed"
  let help : Text := match e.help? with
    | some help => "\n  help: " ++ help
    | none => []
  e.code ++ ": " ++ message ++ help

end TurnError

/-- The program of a turn, what it stores, and the declarations of its input. -/
structure TurnProgram where
  program : Text
  plan : Option PersistencePlan
  declarations : List Declaration
deriving DecidableEq, Repr

namespace Kernel

/-- Opens the session that a configuration names.  A snapshot that cannot be read is passed
over. -/
def start {σ : Type} (config : Config) (w : World σ) : Except KernelError Kernel × World σ :=
  match Workspace.prepare config w with
  | (.error _, w) => (.error .io, w)
  | (.ok ws, w) =>
    let session := ((Session.load ws.store w.files).toOption.bind id).getD .empty
    (.ok ⟨config, ws, session, []⟩, w)

/-- Stores the session; a store that cannot be written is passed over. -/
def save {σ : Type} (k : Kernel) (w : World σ) : World σ :=
  { w with files := (k.session.save k.workspace.store w.files).2 }

/-- Shows the last value of a program, asking for numbers of results where it matters. -/
def display {σ : Type} (tools : Toolchain σ) (k : Kernel) (program : Text) (w : World σ) :
    Checked (Text × ArityCache × World σ) := do
  match ← DisplayPlan.ofProgram? program with
  | none => return (program, k.cache, w)
  | some p =>
    match p.query? with
    | none => return (← p.apply none, k.cache, w)
    | some q =>
      let (answer, cache, w) ← arityAnswer tools k.workspace
        k.config.probeExternal q k.cache w
      return (← p.apply answer, cache, w)

/-- Makes the program of a turn. -/
def turnProgram {σ : Type} (tools : Toolchain σ) (k : Kernel) (input : Text) (w : World σ) :
    Checked (TurnProgram × ArityCache × World σ) := do
  let made ← assemble k.session k.workspace.store w.files input
  let (shown, cache, w) ← display tools k made.program w
  let (resolved, w) ← resolve tools k.workspace (stripMark shown) w
  let plan ← planPersistence resolved.program
  return (⟨(plan.map (·.program)).getD resolved.program, plan, made.declarations⟩, cache, w)

/-- The session behind a run: what the program stored and its declarations are taken over if
the process ended well. -/
def sessionAfterRun (session : Session) (t : TurnProgram) (report : RunReport) : Session :=
  if report.exitedOk then
    let session := match t.plan with
      | some plan => session.commit plan.names plan.literals
      | none => session
    session.addDeclarations t.declarations
  else session

/-- Ends a turn: a failure is recovered from, and the session is stored. -/
def finish {σ : Type} (k : Kernel) (report : RunReport) (path : Path) (w : World σ) :
    Except TurnError Text × Kernel × World σ :=
  match report.failure with
  | none => (.ok report.stdout, k, k.save w)
  | some failure =>
    let (session, text) := recover w.files k.session ⟨report.program, path⟩ failure
    let k := { k with session := session }
    (.error (.run report.stdout text failure.benign), k, k.save w)

/-- Runs one turn; the result is what the program prints. -/
def turn {σ : Type} (tools : Toolchain σ) (k : Kernel) (input : Text) (w : World σ) :
    Checked (Except TurnError Text × Kernel × World σ) := do
  let (t, cache, w) ← k.turnProgram tools input w
  let k := { k with cache := cache }
  let path := k.workspace.programPath
  match runProgram tools k.config t.program path w with
  | (.error e, w) => return (.error (.kernel e), k, w)
  | (.ok report, w) =>
    return finish { k with session := sessionAfterRun k.session t report } report path w

/-- Runs a Go file with its siblings; the session has no part in it. -/
def runGoFile {σ : Type} (tools : Toolchain σ) (k : Kernel) (path : Path) (w : World σ) :
    Except TurnError Text × World σ :=
  match runFile tools k.config path w with
  | (.error e, w) => (.error (.kernel e), w)
  | (.ok report, w) =>
    match report.failure with
    | none => (.ok report.stdout, w)
    | some failure =>
      let text := showFailure w.files ⟨report.program, path⟩ failure.text
      (.error (.run report.stdout text failure.benign), w)

/-- Forgets all state. -/
def reset {σ : Type} (k : Kernel) (w : World σ) : Kernel × World σ :=
  let k := { k with session := .empty, cache := [] }
  (k, k.save w)

/-- The live names with what is known of their types. -/
def liveVariables (k : Kernel) (files : FileTree) : List (Text × Text) :=
  k.session.names.map fun name =>
    (name,
      match k.session.literal? name with
      | some _ => "func literal"
      | none =>
        match k.workspace.store.typeTag files name with
        | .ok tag => tag.text
        | .error e => "<" ++ e.message ++ ">")

/-- The program of the last turn. -/
def lastProgram (k : Kernel) (files : FileTree) : Option Text :=
  (files.readText k.workspace.programPath).toOption

/-- The completion request for a cursor in an input. -/
def completionRequest (k : Kernel) (files : FileTree) (input : Text) (cursor : Nat) :
    Checked CompletionRequest :=
  Notebook.completionRequest k.session k.workspace.store files input cursor

/-- What is offered at a cursor in an input. -/
def complete (k : Kernel) (files : FileTree) (input : Text) (cursor : Nat) :
    Checked (List CompletionItem) :=
  (k.completionRequest files input cursor).map (·.items)

end Kernel

end Notebook
