import Notebook.CommandLine.Execution
import Notebook.FileTree.Change

/-!
# The program

Reads the part of the file system that a command line can touch into a tree, lets
`CommandLine.execute` do the work, prints what it has printed, and carries the changes of the
tree back. Starting other programs is left to whoever supplies `Commands`; here none are
supplied, so that a turn reports its tool as one that cannot be started.
-/

namespace Notebook.Program

/-- A text as a string. -/
def string (t : Text) : String :=
  String.ofList t

/-- Whether a path names a directory; `none` if it names nothing. -/
def isDirectory? (p : Path) : IO (Option Bool) := do
  try
    return some (← (← IO.FS.realPath (string p)).isDir)
  catch _ => return none

/-- Reads what a path names into a tree, with so many levels below it. -/
def load : (depth : Nat) → FileTree → Path → IO FileTree
  | depth, t, p => do
    match ← isDirectory? p with
    | none => return t
    | some directory =>
      let t := (t.createDirectories (Path.directoryOf p)).2
      if directory then
        let t := t.setEntry (t.placeOf p) .directory
        match depth with
        | 0 => return t
        | depth + 1 =>
          let names := (← (← IO.FS.realPath (string p)).readDir).map (·.fileName)
          names.foldlM (fun t name => load depth t (Path.join p name.toList)) t
      else
        return t.setEntry (t.placeOf p) (.file (← IO.FS.readBinFile (string p)).toList)

/-- Reads regions into a tree. -/
def loadAll (t : FileTree) (regions : List CommandLine.Region) : IO FileTree :=
  regions.foldlM (fun t r => load r.depth t r.path) t

/-- Makes a change on the disk. -/
def apply : FileChange → IO Unit
  | .remove place .directory => IO.FS.removeDir (string (Path.ofRoot place))
  | .remove place (.file _) => IO.FS.removeFile (string (Path.ofRoot place))
  | .put place .directory => IO.FS.createDirAll (string (Path.ofRoot place))
  | .put place (.file content) =>
    IO.FS.writeBinFile (string (Path.ofRoot place)) content.toByteArray

/-- No command can be started. -/
def noCommands : Commands Unit where
  execute program _ _ w := (.error ⟨program⟩, w)

/-- The variables of the environment that are set. -/
def environment : IO Environment := do
  let values ← CommandLine.environmentNames.mapM fun name => do
    return (← IO.getEnv name).map fun value => (name.toList, value.toList)
  return values.filterMap id

/-- The rest of a stream. -/
partial def readRest (stream : IO.FS.Stream) (read : String) : IO String := do
  let line ← stream.getLine
  if line.isEmpty then return read else readRest stream (read ++ line)

/-- The files that a command can touch. -/
def filesFor (env : Environment) (i : CommandLine.Invocation) : IO FileTree := do
  let cwd := Path.steps (← IO.currentDir).toString.toList
  let start : FileTree := { FileTree.empty with cwd := cwd }
  let here := (start.createDirectories (Path.ofRoot cwd)).2
  let t ← loadAll here (CommandLine.reach here env none i)
  loadAll t (CommandLine.reach t env none i)

/-- Carries out a request in the world of the machine. -/
def run (arguments : List Text) : IO UInt32 := do
  let env ← environment
  let (files, stdin) ← match CommandLine.Request.ofArguments arguments with
    | some (.invoke i) => do
      let stdin ← if i.command = .repl then readRest (← IO.getStdin) "" else pure ""
      pure (← filesFor env i, stdin)
    | _ => pure (FileTree.empty, "")
  let world : World Unit := ⟨files, none, 0, (← IO.monoNanosNow) / 1000, 0, ()⟩
  let e := CommandLine.execute noCommands ⟨arguments, env, none, stdin.toList, world⟩
  (files.changes e.world.files).forM apply
  IO.print (string e.output.stdout)
  IO.eprint (string e.output.stderr)
  return UInt32.ofNat e.code

end Notebook.Program

/-- The command line. -/
def main (arguments : List String) : IO UInt32 :=
  Notebook.Program.run (arguments.map String.toList)
