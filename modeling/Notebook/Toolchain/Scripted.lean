import Notebook.Text.Decimal
import Notebook.Toolchain

/-!
# A toolchain that follows a script

Sessions can be replayed without a compiler: every call takes its reply from a queue and is
written down.  A run that ends well stores a blob and a type for every storing call in the
program, as the helper functions of a real program would.
-/

namespace Notebook

/-- A reply that the script has ready. -/
structure ScriptedReply where
  /-- The program that cannot be started, if the call is to fail so. -/
  unstartable : Option Text
  /-- Whether the tool ends well; left open, it does unless a line is complained about. -/
  success : Option Bool
  stdout : Text
  stderr : Text
  /-- A text to look for in the program, and the complaint about the line that holds it. -/
  complaint : Option (Text × Text)
  /-- What completing the imports puts behind the first line. -/
  insertion : Option Text
  /-- Types that hold from this reply on. -/
  types : List (Text × Option Text)
deriving DecidableEq, Repr

namespace ScriptedReply

/-- A tool that ends well and prints nothing. -/
def silent : ScriptedReply := ⟨none, none, [], [], none, none, []⟩

/-- The number of the first line that holds a text, or one. -/
def lineHolding (program needle : Text) : Nat :=
  ((program.lines.findIdx? fun l => Text.containsText l needle).getD 0) + 1

/-- The outcome of a call on a program. -/
def output (r : ScriptedReply) (program : Text) : ToolOutput :=
  match r.complaint with
  | some (needle, message) =>
    ⟨r.stdout, "# command-line-arguments\n./main.go:" ++
      Text.ofNat (lineHolding program needle) ++
      ":2: " ++ message, r.success.getD false⟩
  | none => ⟨r.stdout, r.stderr, r.success.getD true⟩

end ScriptedReply

/-- A call that was made. -/
inductive ToolCall where
  | fix (file : Text)
  | build (program : Text)
  | run (file : Text) (siblings : List Text) (program : Text)
  /-- A run outside the directory that the script watches. -/
  | probe (file : Text) (siblings : List Text) (program : Text)
  | command (arguments : List Text)
deriving DecidableEq, Repr

/-- The replies that are left, the types of variables, and the calls that were made. -/
structure Script where
  /-- The directory below which a run is no probe. -/
  root : Place
  fixes : List ScriptedReply
  builds : List ScriptedReply
  runs : List ScriptedReply
  probes : List ScriptedReply
  commands : List ScriptedReply
  /-- The types of variables; a variable without a type is not stored, and one that is not
  named is an integer. -/
  types : List (Text × Option Text)
  calls : List ToolCall
deriving DecidableEq, Repr

namespace Script

/-- Later types win over earlier ones. -/
def addTypes (s : Script) (types : List (Text × Option Text)) : Script :=
  { s with types := types.reverse ++ s.types }

/-- Writes a call down. -/
def log (s : Script) (call : ToolCall) : Script :=
  { s with calls := s.calls ++ [call] }

/-- The first reply of a queue, and the rest. -/
def next (queue : List ScriptedReply) : ScriptedReply × List ScriptedReply :=
  (queue.head?.getD .silent, queue.tail)

/-- The text of a file, or nothing. -/
def textAt (w : World Script) (path : Path) : Text :=
  (w.files.readText path).toOption.getD []

/-- The name at the end of a path, or nothing. -/
def baseName (path : Path) : Text :=
  (Path.fileName? path).getD []

/-- Answers with a reply. -/
def answer (r : ScriptedReply) (program : Text) (w : World Script) : ToolResult Script :=
  match r.unstartable with
  | some tool => (.error ⟨tool⟩, w)
  | none => (.ok (r.output program), w)

/-- A text with another behind its first line. -/
def insertBehindFirstLine (text insertion : Text) : Text :=
  match Text.cutFirst? "\n" text with
  | some (first, rest) => first ++ "\n" ++ insertion ++ rest
  | none => text ++ insertion

/-- Replaces a file, if that can be done. -/
def replaceFile (w : World Script) (path : Path) (text : Text) : World Script :=
  match w.files.writeText path text with
  | .ok files => { w with files := files }
  | .error _ => w

/-- Completes the imports of a file as the script says. -/
def fixImports (path : Path) (w : World Script) : ToolResult Script :=
  let (reply, rest) := next w.tools.fixes
  let w := { w with tools := { w.tools with fixes := rest }.log (.fix (baseName path)) }
  let w := match reply.unstartable, reply.insertion with
    | none, some insertion => replaceFile w path
      (insertBehindFirstLine (textAt w path) insertion)
    | _, _ => w
  answer reply (textAt w path) w

/-- Builds the program of a directory as the script says. -/
def build (directory : Path) (w : World Script) : ToolResult Script :=
  let (reply, rest) := next w.tools.builds
  let program := textAt w (Path.join directory "main.go")
  let w := { w with tools := { w.tools with builds := rest }.log (.build program) }
  answer reply program w

/-- The texts behind each occurrence of another, up to the next. -/
def piecesBehind (needle : Text) : Nat → Text → List Text
  | 0, _ => []
  | n + 1, t =>
    match Text.cutFirst? needle t with
    | none => []
    | some (_, behind) =>
      ((Text.cutFirst? needle behind).elim behind Prod.fst) :: piecesBehind needle n behind

/-- The names in the storing calls of a program. -/
def storedNames (program : Text) : List Text :=
  (piecesBehind "_Serialize(\"var-" program.length program).filterMap fun piece => do
    let (name, _) ← Text.cutFirst? "\"" piece
    if name.isEmpty || name.contains '/' || name.contains '\n' then none else some name

/-- Stores a variable next to a program. -/
def storeVariable (store : Path) (w : World Script) (name : Text) : World Script :=
  match (w.tools.types.lookup name).getD (some "int".toList) with
  | none => w
  | some tag =>
    let w := replaceFile w (Path.join store ("var-" ++ name)) "blob"
    replaceFile w (Path.join store ("var-" ++ name ++ ".type")) tag

/-- Stores the variables that a program stores. -/
def storeVariables (main : Path) (program : Text) (w : World Script) : World Script :=
  let store := Path.join (Path.directoryOf main) "store"
  if w.files.isDirectory store then (storedNames program).foldl (storeVariable store) w else w

/-- Whether a path lies in the directory that the script watches, or among sessions. -/
def isWatched (w : World Script) (path : Path) : Bool :=
  let place := w.files.placeOf path
  Place.isBelow place w.tools.root || place.contains ".gocell".toList

/-- Runs a program as the script says. -/
def run (main : Path) (siblings : List Path) (w : World Script) : ToolResult Script :=
  let program := textAt w main
  let others := siblings.map baseName
  if isWatched w main then
    let (reply, rest) := next w.tools.runs
    let tools := { w.tools with runs := rest }.log (.run (baseName main) others program)
    let types := if reply.unstartable.isSome then [] else reply.types
    let w := { w with tools := tools.addTypes types }
    match answer reply program w with
    | (.ok output, w) =>
      (.ok output, if output.success then storeVariables main program w else w)
    | failed => failed
  else
    let (reply, rest) := next w.tools.probes
    let w := { w with
      tools := { w.tools with probes := rest }.log (.probe (baseName main) others program) }
    answer reply program w

/-- Any other command of the Go tool. -/
def otherCommand (arguments : List Text) (w : World Script) : ToolResult Script :=
  let (reply, rest) := next w.tools.commands
  let w := { w with tools := { w.tools with commands := rest }.log (.command arguments) }
  answer reply [] w

/-- The script as a toolchain. -/
def toolchain : Toolchain Script where
  fixImports := fixImports
  run := run
  build := build

/-- The script as two commands, the Go tool and the import fixer; no other program can be
started. -/
def asCommands (goTool importFixer : Text) : Commands Script where
  execute program arguments directory w :=
    let path (p : Path) : Path := Path.join directory p
    if program = importFixer then
      match arguments with
      | [_, file] => fixImports (path file) w
      | _ => (.error ⟨program⟩, w)
    else if program = goTool then
      match arguments with
      | verb :: rest =>
        if verb = "run".toList then
          match rest with
          | main :: siblings => run (path main) (siblings.map path) w
          | [] => otherCommand arguments w
        else if verb = "build".toList then build directory w
        else otherCommand arguments w
      | [] => otherCommand arguments w
    else (.error ⟨program⟩, w)

end Script

end Notebook
