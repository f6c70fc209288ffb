import Notebook.JsonValue
import Notebook.Path

/-!
# Configuration

Where sessions live, which tools run the programs, and which failures cost nothing.  A
configuration file is a JSON object with some of the fields, or an array with the first few of
them in order; what it leaves out keeps its default.
-/

namespace Notebook

/-- Environment variables by name. -/
abbrev Environment := List (Text × Text)

/-- The value of a variable. -/
def Environment.get? (env : Environment) (name : Text) : Option Text :=
  env.lookup name

/-- The settings of a session. -/
structure Config where
  workspaceRoot : Path
  goTool : Text
  importFixer : Text
  /-- Failures whose report holds one of these texts are shown, but the session forgets
  nothing. -/
  benignDiagnostics : List Text
  /-- Whether a running program may be asked how many results a function has. -/
  probeExternal : Bool
  sessionId : Option Text
deriving DecidableEq, Repr

namespace Config

/-- The settings where nothing is said. -/
def default : Config where
  workspaceRoot := "."
  goTool := "go"
  importFixer := "goimports"
  benignDiagnostics := ["no new variables on left side of :="]
  probeExternal := true
  sessionId := none

/-! ### Reading -/

/-- The fields of a configuration file, in their order. -/
inductive Field where
  | workspaceRoot
  | goTool
  | importFixer
  | benignDiagnostics
  | probeExternal
  | sessionId
deriving DecidableEq, Repr

/-- All fields, in order. -/
def Field.all : List Field :=
  [.workspaceRoot, .goTool, .importFixer, .benignDiagnostics, .probeExternal, .sessionId]

/-- The key of a field. -/
def Field.key : Field → String
  | .workspaceRoot => "workspace_root"
  | .goTool => "go_bin"
  | .importFixer => "import_fixer"
  | .benignDiagnostics => "benign_diagnostics"
  | .probeExternal => "probe_external"
  | .sessionId => "session_id"

/-- A value that must be a text. -/
def textOf? : JsonValue → Option Text
  | .string t => t
  | _ => none

/-- A value that must be a list of texts. -/
def textsOf? : JsonValue → Option (List Text)
  | .array vs => vs.mapM textOf?
  | _ => none

/-- Sets a field from a value of its type. -/
def set? (c : Config) (f : Field) (v : JsonValue) : Option Config :=
  match f, v with
  | .workspaceRoot, v => (textOf? v).map fun t => { c with workspaceRoot := t }
  | .goTool, v => (textOf? v).map fun t => { c with goTool := t }
  | .importFixer, v => (textOf? v).map fun t => { c with importFixer := t }
  | .benignDiagnostics, v => (textsOf? v).map fun ts => { c with benignDiagnostics := ts }
  | .probeExternal, .bool b => some { c with probeExternal := b }
  | .probeExternal, _ => none
  | .sessionId, .null => some { c with sessionId := none }
  | .sessionId, v => (textOf? v).map fun t => { c with sessionId := some t }

/-- Sets fields from the members of an object.  Unknown members are passed over; a field that
is set twice, or a key that is no text, is an error. -/
def setMembers? (c : Config) (unset : List Field) :
    List (Option Text × JsonValue) → Option Config
  | [] => some c
  | (none, _) :: _ => none
  | (some key, v) :: ms =>
    match Field.all.find? fun f => f.key.toList == key with
    | none => setMembers? c unset ms
    | some f =>
      if f ∈ unset then do setMembers? (← c.set? f v) (unset.filter (· ≠ f)) ms else none

/-- Sets fields in their order from the items of an array, of which there may be fewer. -/
def setItems? (c : Config) : List Field → List JsonValue → Option Config
  | _, [] => some c
  | [], _ :: _ => none
  | f :: fs, v :: vs => do setItems? (← c.set? f v) fs vs

/-- Reads a configuration file. -/
def ofText? (t : Text) : Option Config := do
  match ← JsonValue.ofText? t with
  | .object ms => setMembers? default Field.all ms
  | .array vs => setItems? default Field.all vs
  | _ => none

/-! ### Overrides -/

/-- Applies the environment: a session id that is not blank, and names of tools that are not
empty. -/
def withEnvironment (c : Config) (env : Environment) : Config :=
  let c := match env.get? "GOCELL_SESSION_ID" with
    | some id => if id.trim.isEmpty then c else { c with sessionId := some id.trim }
    | none => c
  let c := match env.get? "GOCELL_GO" with
    | some tool => if tool.isEmpty then c else { c with goTool := tool }
    | none => c
  match env.get? "GOCELL_GOIMPORTS" with
  | some tool => if tool.isEmpty then c else { c with importFixer := tool }
  | none => c

/-- Whether a report is benign. -/
def isBenign (c : Config) (report : Text) : Bool :=
  c.benignDiagnostics.any fun needle => report.containsText needle

end Config

end Notebook
