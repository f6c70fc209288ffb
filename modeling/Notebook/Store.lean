import Notebook.FileTree
import Notebook.Store.Codec

/-!
# The store of values

Every key has two files: a blob, and beside it a tag that names the type of the value.  The
variables of the running programs are stored under `var-` and their name; they come back into
a program through a statement that decodes the blob at the recorded type, or replays the
source of a function literal.

## Main definitions

* `TypeTag`: a recorded type; functions are told apart, since no blob holds one
* `ValueStore.rehydration`: the statement that brings a variable back
* `ValueStore.encode`, `ValueStore.decode`: values that the session itself keeps
-/

namespace Notebook

/-- Why a value cannot be stored or brought back. -/
inductive StoreError where
  /-- There is no blob or no tag. -/
  | missing (name : Text)
  | typeMismatch (name expected found : Text)
  /-- A function whose source is not known. -/
  | unregisteredFunction (name : Text)
  /-- A value that is too large to be written. -/
  | unencodable (name : Text)
  | undecodable (name : Text)
  | io (path : Path)
deriving DecidableEq, Repr

namespace StoreError

/-- The sentence shown for an error. -/
def message : StoreError → Text
  | missing name => "no stored value for `" ++ name ++ "`"
  | typeMismatch name expected found =>
    "stored value `" ++ name ++ "` has type `" ++ found ++ "`, expected `" ++ expected ++ "`"
  | unregisteredFunction name => "function value `" ++ name ++ "` has no recorded source"
  | unencodable name => "failed to encode `" ++ name ++ "`"
  | undecodable name => "failed to decode `" ++ name ++ "`"
  | io path => "store io error at " ++ path

/-- The code of an error. -/
def code : StoreError → Text
  | missing _ => "gocell::store::missing"
  | typeMismatch _ _ _ => "gocell::store::type_mismatch"
  | unregisteredFunction _ => "gocell::store::unregistered_function"
  | unencodable _ => "gocell::store::encode"
  | undecodable _ => "gocell::store::decode"
  | io _ => "gocell::store::io"

/-- What one can do about an error. -/
def help? : StoreError → Option Text
  | missing _ => some "the value was never persisted, or its turn failed before persisting"
  | unregisteredFunction name =>
    some ("re-enter the function literal to bind `" ++ name ++ "` again")
  | _ => none

end StoreError

/-- The recorded type of a variable. -/
inductive TypeTag where
  | function (signature : Text)
  | value (type : Text)
deriving DecidableEq, Repr

namespace TypeTag

/-- Reads a tag; the type of a function begins with `func(`. -/
def ofText (t : Text) : TypeTag :=
  let t := t.trim
  if "func(".toList.isPrefixOf t then .function t else .value t

/-- The text of a tag. -/
def text : TypeTag → Text
  | function signature => signature
  | value type => type

end TypeTag

/-- The key under which a variable is stored. -/
def variableKey (name : Text) : Text :=
  "var-" ++ name

/-- The statement that decodes a variable at a type. -/
def decodeStatement (name type : Text) : Text :=
  name ++ ", _ := _Deserialize[" ++ type ++ "](\"" ++ variableKey name ++ "\")"

/-- The statement that binds a variable to the source of a function literal. -/
def replayStatement (name literal : Text) : Text :=
  name ++ " := " ++ literal

/-- The directory of a store. -/
structure ValueStore where
  dir : Path
deriving DecidableEq, Repr

namespace ValueStore

/-- The file that holds the value of a key. -/
def blobPath (s : ValueStore) (key : Text) : Path :=
  Path.join s.dir key

/-- The file that names the type of a key. -/
def tagPath (s : ValueStore) (key : Text) : Path :=
  Path.join s.dir (key ++ ".type")

/-- The tag of a key; `name` is what an error names. -/
def readTag (s : ValueStore) (files : FileTree) (key name : Text) : Except StoreError Text :=
  match files.readText (s.tagPath key) with
  | .ok t => .ok t.trim
  | .error .notFound => .error (.missing name)
  | .error _ => .error (.io (s.tagPath key))

/-- The recorded type of a variable. -/
def typeTag (s : ValueStore) (files : FileTree) (name : Text) : Except StoreError TypeTag :=
  (s.readTag files (variableKey name) name).map TypeTag.ofText

/-- The statement that brings a variable back: a function literal is replayed, and any other
value is decoded at its recorded type. -/
def rehydration (s : ValueStore) (files : FileTree) (name : Text) (literal? : Option Text) :
    Except StoreError Text :=
  match literal? with
  | some literal => .ok (replayStatement name literal)
  | none =>
    match s.typeTag files name with
    | .error e => .error e
    | .ok (.function _) => .error (.unregisteredFunction name)
    | .ok (.value type) =>
      if files.pathExists (s.blobPath (variableKey name)) then .ok (decodeStatement name type)
      else .error (.missing name)

/-- Stores a value under a key with a tag.  The first step that fails ends it, and what was
written before stays. -/
def encode {α : Type} (s : ValueStore) (c : Codec α) (key tag : Text) (value : α)
    (files : FileTree) : Except StoreError Unit × FileTree :=
  match c.encode value with
  | none => (.error (.unencodable key), files)
  | some bytes =>
    match files.createDirectories s.dir with
    | (.error _, files) => (.error (.io s.dir), files)
    | (.ok _, files) =>
      match files.write (s.blobPath key) bytes with
      | .error _ => (.error (.io (s.blobPath key)), files)
      | .ok files =>
        match files.writeText (s.tagPath key) tag with
        | .error _ => (.error (.io (s.tagPath key)), files)
        | .ok files => (.ok (), files)

/-- Reads a value; the stored tag must be the expected one. -/
def decode {α : Type} (s : ValueStore) (c : Codec α) (key tag : Text) (files : FileTree) :
    Except StoreError α :=
  match s.readTag files key key with
  | .error e => .error e
  | .ok found =>
    if found ≠ tag then .error (.typeMismatch key tag found)
    else
      match files.read (s.blobPath key) with
      | .error .notFound => .error (.missing key)
      | .error _ => .error (.io (s.blobPath key))
      | .ok bytes =>
        match c.decode bytes with
        | none => .error (.undecodable key)
        | some (value, _) => .ok value

end ValueStore

/-! ### The snapshot of a session -/

namespace Session

/-- The key of the snapshot. -/
def snapshotKey : Text := "session"

/-- The tag of the snapshot. -/
def snapshotTag : Text := "gocell.Session"

/-- Stores a session. -/
def save (session : Session) (store : ValueStore) (files : FileTree) :
    Except StoreError Unit × FileTree :=
  store.encode Codec.session snapshotKey snapshotTag session files

/-- The stored session, if there is one. -/
def load (store : ValueStore) (files : FileTree) : Except StoreError (Option Session) :=
  match store.decode Codec.session snapshotKey snapshotTag files with
  | .ok session => .ok (some session)
  | .error (.missing _) => .ok none
  | .error e => .error e

end Session

end Notebook
