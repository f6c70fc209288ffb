import Notebook.CommandLine
import Notebook.Repl

/-!
# Doing what a command line asks

The whole program as one function: arguments, environment and input go in, with a world around
them; what was printed, the exit code and the next world come out.
-/

namespace Notebook

namespace CommandLine

/-- What is given to the program from outside. -/
structure Given (σ : Type) where
  arguments : List Text
  environment : Environment
  /-- The home directory that the system has on record for the user. -/
  home : Option Path
  stdin : Text
  world : World σ

/-- How the program ends. -/
structure Exit (σ : Type) where
  code : Nat
  output : Transcript
  world : World σ

namespace Exit

/-- A good end. -/
def good {σ : Type} (o : Transcript) (w : World σ) : Exit σ := ⟨0, o, w⟩

/-- An end with an error. -/
def bad {σ : Type} (o : Transcript) (e : KernelError) (w : World σ) : Exit σ :=
  ⟨1, o.complain (TurnError.kernel e).report, w⟩

/-- An end at a place of a text that is not there. -/
def broken {σ : Type} (o : Transcript) (fault : Fault) (w : World σ) : Exit σ :=
  ⟨101, o.complain fault.message, w⟩

end Exit

/-! ### The log -/

/-- The home directory: the one that the environment names, or else the one on record. -/
def homeOf? (env : Environment) (home : Option Path) : Option Path :=
  match env.get? "HOME" with
  | some (c :: dir) => some (c :: dir)
  | _ => home

/-- The data directory of the user: an absolute path that the environment names, or a
directory in the home directory. -/
def dataDirectory? (env : Environment) (home : Option Path) : Option Path :=
  match (env.get? "XDG_DATA_HOME").filter Path.isAbsolute with
  | some dir => some dir
  | none => (homeOf? env home).map fun dir => Path.join (Path.join dir ".local") "share"

/-- The log file: below the data directory of the user. -/
def logPath? (env : Environment) (home : Option Path) : Option Path :=
  (dataDirectory? env home).map fun data =>
    Path.join (Path.join (Path.join data "gocell") "log") "gocell.log"

/-- Makes a log file and the directories above it, unless they are there. -/
def openLog (path : Path) (files : FileTree) : Except FileError Unit × FileTree :=
  match files.createDirectories (Path.directoryOf path) with
  | (.error e, files) => (.error e, files)
  | (.ok _, files) =>
    match files.read path with
    | .ok _ => (.ok (), files)
    | .error .notFound =>
      match files.write path [] with
      | .ok files => (.ok (), files)
      | .error e => (.error e, files)
    | .error e => (.error e, files)

/-- The last lines of the log file. -/
def logTail (log : Option Path) (files : FileTree) (count : Nat) :
    Except FileError (List Text) :=
  match log with
  | none => .ok []
  | some path =>
    match files.readText path with
    | .ok text => .ok (text.lines.drop (text.lines.length - count))
    | .error .notFound => .ok []
    | .error e => .error e

/-! ### Commands -/

/-- The configuration: the file or the defaults, then the environment, then the options. -/
def configOf (files : FileTree) (env : Environment) (o : Options) :
    Except KernelError Config := do
  let config ← match o.config with
    | none => pure Config.default
    | some path => Config.load files path
  let config := config.withEnvironment env
  let config := match o.workspace with
    | some root => { config with workspaceRoot := root }
    | none => config
  return match o.session with
    | some id => { config with sessionId := some id }
    | none => config

/-- A part of the file system: what a path names, and so many levels below it. -/
structure Region where
  path : Path
  depth : Nat
deriving DecidableEq, Repr

/-- The variables of the environment that are looked at. -/
def environmentNames : List String :=
  ["HOME", "XDG_DATA_HOME", "TERM", "TMPDIR", "GOCELL_SESSION_ID", "GOCELL_GO",
    "GOCELL_GOIMPORTS"]

/-- The parts of the file system that a command reads or writes, as far as the files already
known tell: the configuration, which may name another root, the log, the sessions, and the
directory of a file to run. -/
def reach (files : FileTree) (env : Environment) (home : Option Path) (i : Invocation) :
    List Region :=
  let named := (i.options.config.toList ++ (logPath? env home).toList).map (⟨·, 0⟩)
  let sessions := match configOf files env i.options with
    | .ok config => [⟨sessionsDirectory config.workspaceRoot, 64⟩]
    | .error _ => []
  let code := match i.command with
    | .run code => [⟨Path.directoryOf code, 1⟩]
    | _ => []
  named ++ sessions ++ code

/-- Says what was removed. -/
def printRemoval (o : Transcript) (removed : Bool) (dir : Path) : Transcript :=
  o.printLine ((if removed then "removed " else "nothing to clean at ") ++ dir)

/-- Removes the directory of the named session, or that of all sessions. -/
def clean {σ : Type} (config : Config) (o : Transcript) (w : World σ) : Exit σ :=
  match config.sessionId with
  | some _ =>
    match Workspace.locate? config w with
    | none => .bad o .io w
    | some ws =>
      match ws.remove w with
      | (.error _, w) => .bad o .io w
      | (.ok removed, w) => .good (printRemoval o removed ws.dir) w
  | none =>
    let base := sessionsDirectory config.workspaceRoot
    if w.files.pathExists base then
      match w.files.removeDirectory base with
      | (.error _, files) => .bad o .io { w with files := files }
      | (.ok _, files) => .good (printRemoval o true base) { w with files := files }
    else .good (printRemoval o false base) w

/-- Runs a file, or a snippet as one turn. -/
def runCode {σ : Type} (tools : Toolchain σ) (config : Config) (code : Text) (o : Transcript)
    (w : World σ) : Exit σ :=
  match Kernel.start config w with
  | (.error e, w) => .bad o e w
  | (.ok k, w) =>
    let finish (result : Except TurnError Text) (w : World σ) : Exit σ :=
      ⟨match result with
        | .ok _ => 0
        | .error _ => 1, o.printTurn result, w⟩
    if w.files.isFile code then
      let (result, w) := k.runGoFile tools code w
      finish result w
    else
      match k.turn tools code w with
      | .ok (result, _, w) => finish result w
      | .error fault => .broken o fault w

/-- The file with the lines that were entered. -/
def historyText (history : List Text) : Text :=
  history.flatMap fun line => line ++ "\n"

/-- Stores the lines that were entered, if there are any. -/
def saveHistory {σ : Type} (config : Config) (history : List Text) (w : World σ) :
    Except FileError (World σ) :=
  if history.isEmpty then .ok w
  else do
    let path := Path.join (sessionsDirectory config.workspaceRoot) "history.txt"
    return { w with files := ← w.files.writeText path (historyText history) }

/-- Holds a dialogue on the input. -/
def runRepl {σ : Type} (tools : Toolchain σ) (config : Config) (terminal : Option Text)
    (stdin : Text) (o : Transcript) (w : World σ) : Exit σ :=
  match Kernel.start config w with
  | (.error e, w) => .bad o e w
  | (.ok k, w) =>
    let ending := Repl.run tools k terminal stdin w o
    match ending.fault with
    | some fault => .broken ending.state.output fault ending.state.world
    | none =>
      match saveHistory config ending.history ending.state.world with
      | .ok w => .good ending.state.output w
      | .error _ => .bad ending.state.output .io ending.state.world

/-- Prints the end of the log. -/
def printLog {σ : Type} (log : Option Path) (count : Nat) (o : Transcript) (w : World σ) :
    Exit σ :=
  match logTail log w.files count with
  | .ok lines => .good (lines.foldl Transcript.printLine o) w
  | .error _ => .bad o .io w

/-- Makes the log ready; a log that cannot be written is only complained about. -/
def prepareLog {σ : Type} (log : Option Path) (w : World σ) : Transcript × World σ :=
  let disabled := Transcript.empty.complain "logging disabled"
  match log with
  | none => (disabled, w)
  | some path =>
    match openLog path w.files with
    | (.error _, files) => (disabled, { w with files := files })
    | (.ok _, files) => (.empty, { w with files := files })

/-- Where scratch directories are made: in the directory that the environment names, seen from
the current one, or else where the system has them. -/
def scratchRoot {σ : Type} (env : Environment) (w : World σ) : Option Path :=
  match env.get? "TMPDIR" with
  | some dir => some (Path.join (Path.ofRoot w.files.cwd) dir)
  | none => w.temp

/-- Carries out a command with its options. -/
def invoke {σ : Type} (commands : Commands σ) (given : Given σ) (i : Invocation) : Exit σ :=
  let log := logPath? given.environment given.home
  let (o, w) := prepareLog log given.world
  let w := { w with temp := scratchRoot given.environment w }
  match configOf w.files given.environment i.options with
  | .error e => .bad o e w
  | .ok config =>
    let tools := Toolchain.ofCommands config commands
    match i.command with
    | .repl => runRepl tools config (given.environment.get? "TERM") given.stdin o w
    | .run code => runCode tools config code o w
    | .log count => printLog log count o w
    | .clean => clean config o w

/-- The whole program. -/
def execute {σ : Type} (commands : Commands σ) (given : Given σ) : Exit σ :=
  match Request.ofArguments given.arguments with
  | none => ⟨2, Transcript.empty.complain usage, given.world⟩
  | some (.help topic) => .good (Transcript.empty.print topic.help) given.world
  | some .version => .good (Transcript.empty.print version) given.world
  | some (.invoke i) => invoke commands given i

end CommandLine

end Notebook
