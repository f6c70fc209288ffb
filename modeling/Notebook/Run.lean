import Notebook.Recovery
import Notebook.Workspace

/-!
# Running a program

A program is written, its imports are completed, and it is run together with the other Go
files of its directory.  A run counts as failed if the tool says so or if anything was printed
as an error; whether the process itself ended well is kept apart.
-/

namespace Notebook

/-- What keeps a session from doing its work. -/
inductive KernelError where
  | tool (error : ToolError)
  /-- A configuration file that cannot be read as one. -/
  | config (path : Path)
  | io
deriving DecidableEq, Repr

namespace KernelError

/-- What is said of the error, if that does not rest with the file system. -/
def message? : KernelError → Option Text
  | .tool e => some e.message
  | .config path => some ("invalid config file " ++ path)
  | .io => none

/-- The code of the kind of error. -/
def code : KernelError → Text
  | .tool e => e.code
  | .config _ => "gocell::config"
  | .io => "gocell::io"

/-- What may help. -/
def help? : KernelError → Option Text
  | .tool e => some e.help
  | .config _ => some "the config file must be a JSON object"
  | .io => none

end KernelError

/-- Reads a configuration file. -/
def Config.load (files : FileTree) (path : Path) : Except KernelError Config :=
  match files.readText path with
  | .error _ => .error .io
  | .ok text =>
    match Config.ofText? text with
    | none => .error (.config path)
    | some config => .ok config

/-- The outcome of a run. -/
structure RunReport where
  stdout : Text
  /-- The program as it stands in its file after the run. -/
  program : Text
  /-- Whether the process ended well, whatever it printed. -/
  exitedOk : Bool
  failure : Option RunFailure
deriving DecidableEq, Repr

/-- The Go files next to a program that are compiled with it, in order of their names: not
itself, and no tests. -/
def siblings (files : FileTree) (main : Path) : Except FileError (List Path) := do
  let dir := Path.directoryOf main
  let names ← files.list dir
  let wanted := names.filter fun name =>
    Path.extension? name == some "go".toList && !("_test.go".toList.isSuffixOf name) &&
      some name != Path.fileName? main
  return (wanted.map (Path.join dir)).filter files.isFile

/-- A report of a failure, with whether it is benign. -/
def failureOf (config : Config) (text : Text) : RunFailure :=
  ⟨text, config.isBenign text⟩

/-- The report on a tool's output. -/
def reportOf (config : Config) (output : ToolOutput) (program : Text) : RunReport where
  stdout := output.stdout
  program := program
  exitedOk := output.success
  failure :=
    if output.stderr.isEmpty then
      if output.success then none
      else some (failureOf config "program exited with a failure status")
    else some (failureOf config output.stderr)

/-- Runs a file as it is, together with its siblings. -/
def runFile {σ : Type} (tools : Toolchain σ) (config : Config) (path : Path) (w : World σ) :
    Except KernelError RunReport × World σ :=
  match siblings w.files path with
  | .error _ => (.error .io, w)
  | .ok others =>
    match tools.run path others w with
    | (.error e, w) => (.error (.tool e), w)
    | (.ok output, w) =>
      match w.files.readText path with
      | .error _ => (.error .io, w)
      | .ok program => (.ok (reportOf config output program), w)

/-- Writes a program, completes its imports and runs it. -/
def runProgram {σ : Type} (tools : Toolchain σ) (config : Config)
    (program : Text) (path : Path) (w : World σ) : Except KernelError RunReport × World σ :=
  match w.files.writeText path program with
  | .error _ => (.error .io, w)
  | .ok files =>
    match tools.fixImports path { w with files := files } with
    | (.error e, w) => (.error (.tool e), w)
    | (.ok fixed, w) =>
      if fixed.success then runFile tools config path w
      else
        match w.files.readText path with
        | .error _ => (.error .io, w)
        | .ok program => (.ok ⟨[], program, false, some (failureOf config fixed.stderr)⟩, w)

end Notebook
