import Notebook.Store
import Notebook.Text.Decimal
import Notebook.Toolchain
import Notebook.Workspace.Helper

/-!
# The directory of a session

A session lives in a directory of its own under the workspace root: the program file, the
helper files that every program is compiled with, and the store.  Programs that are only tried
out live in scratch directories with copies of the helper files.
-/

namespace Notebook

/-- A session's directory, by an absolute path. -/
structure Workspace where
  id : Text
  dir : Path
  absolute : Path.isAbsolute dir = true
deriving DecidableEq, Repr

/-- The directory of all sessions under a root. -/
def sessionsDirectory (root : Path) : Path :=
  Path.join root ".gocell"

/-- The name of the program file. -/
def programFileName : Text := "main.go"

namespace Workspace

/-- An id for a session that has none: the time in microseconds behind two letters. -/
def freshId {σ : Type} (w : World σ) : Text :=
  "GC" ++ Text.ofNat w.clock

/-- The workspace that a configuration names; an empty root names none. -/
def locate? {σ : Type} (config : Config) (w : World σ) : Option Workspace :=
  match h : Path.absolute? w.files.cwd config.workspaceRoot with
  | none => none
  | some root =>
    let id := config.sessionId.getD (freshId w)
    some ⟨id, Path.join (sessionsDirectory root) id,
      Path.isAbsolute_join (Path.isAbsolute_join (Path.isAbsolute_of_absolute? h))⟩

/-- The store of a session. -/
def store (ws : Workspace) : ValueStore :=
  ⟨Path.join ws.dir "store"⟩

/-- Where the program of a turn is written. -/
def programPath (ws : Workspace) : Path :=
  Path.join ws.dir programFileName

/-- The helper file, with the number of the process that wrote it. -/
def helperSource (processId : Nat) : Text :=
  helperText ++ "\nconst _gocellHostPID = " ++ Text.ofNat processId ++ "\n"

/-- The file that tells a program its session and store. -/
def sessionSource (ws : Workspace) : Text :=
  "// Code generated by gocell. DO NOT EDIT.\n\npackage main\n\n" ++
    "func init() \x7b\n\tSessionID = " ++ JsonValue.quote ws.id ++ "\n\tStoreDir = " ++
    JsonValue.quote ws.store.dir ++ "\n\x7d\n"

/-- Writes the helper files into a directory. -/
def writeHelpers {σ : Type} (ws : Workspace) (dir : Path) (w : World σ) :
    Except FileError Unit × World σ :=
  match w.files.writeText (Path.join dir "builtin.go") (helperSource w.processId) with
  | .error e => (.error e, w)
  | .ok files =>
    match files.writeText (Path.join dir "session.go") ws.sessionSource with
    | .error e => (.error e, { w with files := files })
    | .ok files => (.ok (), { w with files := files })

/-- Makes the directory of a session, or finds it again, and writes the helper files.  What
was made before a step that fails stays. -/
def prepare {σ : Type} (config : Config) (w : World σ) :
    Except FileError Workspace × World σ :=
  match locate? config w with
  | none => (.error .badName, w)
  | some ws =>
    match w.files.createDirectories ws.store.dir with
    | (.error e, files) => (.error e, { w with files := files })
    | (.ok _, files) =>
      let (outcome, w) := ws.writeHelpers ws.dir { w with files := files }
      (outcome.map fun _ => ws, w)

/-- The absolute path of the next scratch directory. -/
def scratchPath {σ : Type} (temp : Path) (w : World σ) : Path :=
  Path.join (Path.join (Path.ofRoot w.files.cwd) temp)
    ("gocell-" ++ Text.ofNat w.scratchCount)

/-- Makes a scratch directory with the helper files, or nothing. -/
def scratch {σ : Type} (ws : Workspace) (w : World σ) :
    Except FileError (Path × World σ) := do
  match w.temp with
  | none => throw .notFound
  | some temp =>
    let dir := scratchPath temp w
    let files ← w.files.createDirectory dir
    let (written, w) :=
      ws.writeHelpers dir { w with files := files, scratchCount := w.scratchCount + 1 }
    written
    return (dir, w)

/-- Takes a scratch directory away again. -/
def dropScratch {σ : Type} (dir : Path) (w : World σ) : World σ :=
  { w with files := (w.files.removeDirectory dir).2 }

/-- Removes the directory of a session; the answer says whether there was one. -/
def remove {σ : Type} (ws : Workspace) (w : World σ) : Except FileError Bool × World σ :=
  if w.files.pathExists ws.dir then
    let (outcome, files) := w.files.removeDirectory ws.dir
    (outcome.map fun _ => true, { w with files := files })
  else (.ok false, w)

end Workspace

end Notebook
