import Notebook.Config
import Notebook.FileTree

/-!
# The outside world

A turn writes files and calls tools that compile and run programs.  Both are values here: the
files are a tree, and a tool is a function from one state of the world to a reply and the
next.  Nothing is assumed of the tools; they may answer anything and change any file.

## Main definitions

* `World`: files, scratch space, clock, and the state of the tools
* `Toolchain`: the three services that a session needs
* `Commands`, `Toolchain.ofCommands`: the services made from commands of the Go distribution
-/

namespace Notebook

/-- The surroundings of a session; `σ` is the state that the tools keep for themselves. -/
structure World (σ : Type) where
  files : FileTree
  /-- The directory in which scratch directories are made, if they can be made. -/
  temp : Option Path
  /-- How many scratch directories were made. -/
  scratchCount : Nat
  /-- A time in microseconds, from which new sessions take their ids. -/
  clock : Nat
  processId : Nat
  tools : σ

/-- The outcome of a tool that was started. -/
structure ToolOutput where
  stdout : Text
  stderr : Text
  success : Bool
deriving DecidableEq, Repr

/-- A tool that could not be started. -/
structure ToolError where
  program : Text
deriving DecidableEq, Repr

namespace ToolError

/-- The sentence shown for an error. -/
def message (e : ToolError) : Text :=
  "failed to start `" ++ e.program ++ "`"

/-- The code of an error. -/
def code (_ : ToolError) : Text := "gocell::toolchain::spawn"

/-- What one can do about an error. -/
def help (e : ToolError) : Text :=
  "make sure `" ++ e.program ++ "` is installed and on PATH " ++
    "(goimports: `go install golang.org/x/tools/cmd/goimports@latest`)"

end ToolError

/-- What a tool gives back: its outcome, or that it did not start, and the world behind it. -/
abbrev ToolResult (σ : Type) := Except ToolError ToolOutput × World σ

/-- The tools that a session calls. -/
structure Toolchain (σ : Type) where
  /-- Completes the imports of a file in place. -/
  fixImports : Path → World σ → ToolResult σ
  /-- Compiles and runs a program with further files. -/
  run : Path → List Path → World σ → ToolResult σ
  /-- Builds the package in a directory. -/
  build : Path → World σ → ToolResult σ

/-- Starts commands: a program, its arguments, and the directory it works in. -/
structure Commands (σ : Type) where
  execute : (program : Text) → (arguments : List Text) → (directory : Path) →
    World σ → ToolResult σ

namespace Commands

/-- Starts a command and trims what it prints. -/
def executeTrimmed {σ : Type} (c : Commands σ) (program : Text) (arguments : List Text)
    (directory : Path) (w : World σ) : ToolResult σ :=
  let (reply, w) := c.execute program arguments directory w
  (reply.map fun o => { o with stdout := o.stdout.trim, stderr := o.stderr.trim }, w)

end Commands

/-- The services made from the commands that the configuration names.  A directory without a
module file is made a module before it is built. -/
def Toolchain.ofCommands {σ : Type} (config : Config) (c : Commands σ) : Toolchain σ where
  fixImports path w :=
    c.executeTrimmed config.importFixer ["-w", path] (Path.directoryOf path) w
  run main siblings w :=
    c.executeTrimmed config.goTool ("run" :: main :: siblings) (Path.directoryOf main) w
  build directory w :=
    let build (w : World σ) := c.executeTrimmed config.goTool ["build", "."] directory w
    if w.files.pathExists (Path.join directory "go.mod") then build w
    else
      match c.executeTrimmed config.goTool ["mod", "init", "gocell"] directory w with
      | (.ok output, w) => if output.success then build w else (.ok output, w)
      | (.error e, w) => (.error e, w)

end Notebook
