import Notebook.Path
import Notebook.Text.Utf8

/-!
# A tree of files

Files and directories by the names that lead to them from the root, and the directory where
relative paths begin.  Paths are resolved step by step, as a file system does: every step but
the last must lead to a directory.

A single file is written or removed at once or not at all.  Making and removing directories
takes several steps, and what was done before a step that fails stays done.

## Main definitions

* `FileTree`, `FileTree.resolve`
* `FileTree.read`, `readText`, `write`, `removeFile`: contents
* `FileTree.createDirectory`, `createDirectories`, `removeDirectory`, `list`: directories
* `FileTree.put`, `remove`: whatever a path names
-/

namespace Notebook

/-- What stands at a place of the tree. -/
inductive FileEntry where
  | directory
  | file (content : Bytes)
deriving DecidableEq, Repr

/-- Why a file operation fails. -/
inductive FileError where
  | notFound
  | notDirectory
  | isDirectory
  | alreadyExists
  /-- A name that no file can have, or that cannot be used so: too long, with a zero
  character, or ending in dots. -/
  | badName
  /-- Contents that are no UTF-8 text. -/
  | badText
deriving DecidableEq, Repr

/-- A place in the tree: the names that lead to it from the root. -/
abbrev Place := List Text

namespace Place

/-- Whether a place is the other or lies below it. -/
def isBelow (place above : Place) : Bool :=
  above.isPrefixOf place

/-- The place behind one step: two dots lead up, and a name leads down. -/
def follow (place : Place) (name : Text) : Place :=
  if name = "..".toList then place.dropLast else place ++ [name]

theorem isBelow_iff {place above : Place} : isBelow place above = true ↔ above <+: place :=
  List.isPrefixOf_iff_prefix

/-- A place lies below whatever its directory lies below. -/
theorem isBelow_of_dropLast {place above : Place} (h : isBelow place.dropLast above = true) :
    isBelow place above = true :=
  isBelow_iff.2 ((isBelow_iff.1 h).trans (List.dropLast_prefix place))

end Place

/-- The place that a path leads to from another, whether or not its steps can be taken. -/
def Path.placeFrom (start : Place) (p : Path) : Place :=
  (steps p).foldl Place.follow start

/-- What stands at a place of a list of entries.  The root is a directory and needs no
entry. -/
def entryIn? (entries : List (Place × FileEntry)) (place : Place) : Option FileEntry :=
  if place = [] then some .directory else entries.lookup place

/-- Leaving out entries at other places changes nothing at a place. -/
theorem entryIn?_filter (keep : Place → Bool) {place : Place} (h : keep place = true)
    (entries : List (Place × FileEntry)) :
    entryIn? (entries.filter fun p => keep p.1) place = entryIn? entries place := by
  unfold entryIn?
  split
  · rfl
  · induction entries with
    | nil => rfl
    | cons p ps ih =>
      obtain ⟨key, entry⟩ := p
      cases hk : keep key with
      | true => simp [List.lookup_cons, hk, ih]
      | false =>
        have hne : (place == key) = false := by
          cases he : place == key with
          | false => rfl
          | true => rw [eq_of_beq he, hk] at h; cases h
        simp [List.lookup_cons, hk, hne, ih]

/-- Whether every entry stands in a directory. -/
def InDirectories (entries : List (Place × FileEntry)) : Prop :=
  ∀ e ∈ entries, entryIn? entries e.1.dropLast = some .directory

namespace InDirectories

variable {entries : List (Place × FileEntry)}

/-- Entries can be left out if those that stay keep their directories. -/
theorem filter (h : InDirectories entries) (keep : Place → Bool)
    (hkeep : ∀ place, keep place = true → keep place.dropLast = true) :
    InDirectories (entries.filter fun p => keep p.1) := by
  intro e he
  obtain ⟨hmem, hk⟩ := List.mem_filter.1 he
  rw [entryIn?_filter keep (hkeep e.1 hk)]
  exact h e hmem

/-- A place can be taken out together with all below it. -/
theorem removeBelow (h : InDirectories entries) (place : Place) :
    InDirectories (entries.filter fun p => !Place.isBelow p.1 place) := by
  refine h.filter (fun p => !Place.isBelow p place) fun p hp => ?_
  cases hb : Place.isBelow p.dropLast place with
  | false => rfl
  | true => simp [Place.isBelow_of_dropLast hb] at hp

/-- All below a place can be taken out. -/
theorem clearBelow (h : InDirectories entries) (place : Place) :
    InDirectories (entries.filter fun p => p.1 == place || !Place.isBelow p.1 place) := by
  refine h.filter (fun p => p == place || !Place.isBelow p place) fun p hp => ?_
  cases hb : Place.isBelow p.dropLast place with
  | false => simp
  | true =>
    -- Only the root is not longer than its own directory.
    obtain rfl : p = place := by simpa [Place.isBelow_of_dropLast hb] using hp
    have hle := (Place.isBelow_iff.1 hb).length_le
    rw [List.length_dropLast] at hle
    have hnil : p = [] := List.length_eq_zero_iff.1 (by omega)
    simp [hnil]

/-- An entry can be put into a directory, in place of all that stands there and below. -/
theorem cons (h : InDirectories entries) {place : Place} (e : FileEntry)
    (hdir : entryIn? entries place.dropLast = some .directory) (hne : place ≠ []) :
    InDirectories ((place, e) :: entries.filter fun p => !Place.isBelow p.1 place) := by
  have hnot : ∀ p : Place, Place.isBelow p place = false →
      entryIn? ((place, e) :: entries.filter fun p => !Place.isBelow p.1 place) p =
        entryIn? entries p := by
    intro p hp
    have hpne : (p == place) = false := by
      cases he : p == place with
      | false => rfl
      | true => rw [eq_of_beq he, Place.isBelow_iff.2 List.prefix_rfl] at hp; cases hp
    rw [← entryIn?_filter (fun p => !Place.isBelow p place) (by simp [hp]) entries]
    simp [entryIn?, List.lookup_cons, hpne]
  intro q hq
  rcases List.mem_cons.1 hq with rfl | hq
  · have hlt : Place.isBelow place.dropLast place = false := by
      cases hb : Place.isBelow place.dropLast place with
      | false => rfl
      | true =>
        have hle := (Place.isBelow_iff.1 hb).length_le
        have := List.length_pos_iff.2 hne
        rw [List.length_dropLast] at hle
        omega
    rw [hnot _ hlt]
    exact hdir
  · obtain ⟨hmem, hk⟩ := List.mem_filter.1 hq
    cases hb : Place.isBelow q.1.dropLast place with
    | true => simp [Place.isBelow_of_dropLast hb] at hk
    | false => rw [hnot _ hb]; exact h q hmem

end InDirectories

/-- Files and directories, and the directory where relative paths begin.  Whatever is in the
tree stands in a directory of the tree. -/
structure FileTree where
  cwd : Place
  entries : List (Place × FileEntry)
  inDirectories : InDirectories entries
deriving DecidableEq, Repr

namespace FileTree

/-- A tree with nothing but the root. -/
def empty : FileTree := ⟨[], [], by simp [InDirectories]⟩

/-- What stands at a place. -/
def entryAt? (t : FileTree) (place : Place) : Option FileEntry :=
  entryIn? t.entries place

/-- Takes out a place and all below it. -/
def removeBelow (t : FileTree) (place : Place) : FileTree :=
  ⟨t.cwd, _, t.inDirectories.removeBelow place⟩

/-- Takes out all that lies below a place, but not the place. -/
def clearBelow (t : FileTree) (place : Place) : FileTree :=
  ⟨t.cwd, _, t.inDirectories.clearBelow place⟩

/-- Puts an entry into a directory, over what was there.  Where there is no directory, nothing
is put. -/
def setEntry (t : FileTree) (place : Place) (e : FileEntry) : FileTree :=
  if h : t.entryAt? place.dropLast = some .directory ∧ place ≠ [] then
    ⟨t.cwd, _, t.inDirectories.cons e h.1 h.2⟩
  else t

/-! ### Resolving paths -/

/-- A name that a file can have. -/
def isUsableName (name : Text) : Bool :=
  name.byteSize ≤ 255

/-- A path that can be followed at all. -/
def isUsablePath (p : Path) : Bool :=
  p.byteSize < 4096 && !p.contains '\x00'

/-- Whether one can step on from a place. -/
def checkDirectory (t : FileTree) (place : Place) : Except FileError Unit :=
  match t.entryAt? place with
  | some .directory => .ok ()
  | some (.file _) => .error .notDirectory
  | none => .error .notFound

/-- One step from a directory. -/
def step (t : FileTree) (place : Place) (name : Text) : Except FileError Place := do
  t.checkDirectory place
  if name = ("..".toList) ∨ isUsableName name then return Place.follow place name
  else throw .badName

/-- Where a path begins. -/
def startOf (t : FileTree) (p : Path) : Place :=
  if Path.isAbsolute p then [] else t.cwd

/-- The place that a path leads to.  All its steps but the last must lead to directories, and
the last one too if the path ends in a slash or a dot. -/
def resolve (t : FileTree) (p : Path) : Except FileError Place := do
  if p.isEmpty then throw .notFound
  unless isUsablePath p do throw .badName
  let place ← (Path.steps p).foldlM t.step (t.startOf p)
  match t.entryAt? place with
  | some (.file _) =>
    if (Path.segments p).getLast?.any Path.isIdle then throw .notDirectory else return place
  | _ => return place

/-- The place that a path names, whether or not its steps can be taken. -/
def placeOf (t : FileTree) (p : Path) : Place :=
  Path.placeFrom (t.startOf p) p

/-- What stands at a path. -/
def lookup (t : FileTree) (p : Path) : Except FileError FileEntry := do
  match t.entryAt? (← t.resolve p) with
  | some e => return e
  | none => throw .notFound

/-- Whether something stands at a path. -/
def pathExists (t : FileTree) (p : Path) : Bool :=
  (t.lookup p).toBool

/-- Whether a file stands at a path. -/
def isFile (t : FileTree) (p : Path) : Bool :=
  match t.lookup p with
  | .ok (.file _) => true
  | _ => false

/-- Whether a directory stands at a path. -/
def isDirectory (t : FileTree) (p : Path) : Bool :=
  match t.lookup p with
  | .ok .directory => true
  | _ => false

/-! ### Contents -/

/-- The bytes of a file. -/
def read (t : FileTree) (p : Path) : Except FileError Bytes := do
  match ← t.lookup p with
  | .file content => return content
  | .directory => throw .isDirectory

/-- The text of a file. -/
def readText (t : FileTree) (p : Path) : Except FileError Text := do
  match Text.ofBytes? (← t.read p) with
  | some text => return text
  | none => throw .badText

/-- Writes a file, over an earlier one.  The directory must be there. -/
def write (t : FileTree) (p : Path) (content : Bytes) : Except FileError FileTree := do
  let place ← t.resolve p
  match t.entryAt? place with
  | some .directory => throw .isDirectory
  | some (.file _) => return t.setEntry place (.file content)
  | none =>
    if (Path.segments p).getLast?.any Path.isIdle then throw .isDirectory
    else return t.setEntry place (.file content)

/-- Writes a text to a file. -/
def writeText (t : FileTree) (p : Path) (text : Text) : Except FileError FileTree :=
  t.write p text.toBytes

/-- Removes a file. -/
def removeFile (t : FileTree) (p : Path) : Except FileError FileTree := do
  match ← t.lookup p with
  | .file _ => return t.removeBelow (← t.resolve p)
  | .directory => throw .isDirectory

/-! ### Directories -/

/-- Makes one directory, in a directory that is there. -/
def createDirectory (t : FileTree) (p : Path) : Except FileError FileTree := do
  let place ← t.resolve p
  match t.entryAt? place with
  | some _ => throw .alreadyExists
  | none => return t.setEntry place .directory

/-- Follows steps from a place and makes the directories that are missing, up to the first
step that cannot be taken.  With `lastExists` the last step makes nothing. -/
def makeSteps (t : FileTree) (lastExists : Bool) (place : Place) :
    List Text → Except FileError Unit × FileTree
  | [] => (.ok (), t)
  | name :: rest =>
    match t.step place name with
    | .error e => (.error e, t)
    | .ok place =>
      match t.entryAt? place with
      | some .directory => t.makeSteps lastExists place rest
      | some (.file _) => (.error .notDirectory, t)
      | none =>
        if lastExists && rest.isEmpty then (.error .notFound, t)
        else (t.setEntry place .directory).makeSteps lastExists place rest

/-- Makes a directory and all directories above it that are missing.  A path that ends in a
dot must name a directory that is there. -/
def createDirectories (t : FileTree) (p : Path) : Except FileError Unit × FileTree :=
  if isUsablePath p then
    t.makeSteps (Path.lastSegment? p == some ".".toList) (t.startOf p) (Path.steps p)
  else (.error .badName, t)

/-- The place of a directory. -/
def directoryPlace (t : FileTree) (p : Path) : Except FileError Place := do
  let place ← t.resolve p
  t.checkDirectory place
  return place

/-- Takes out the empty directory that a path names, if the path still leads there.  One that
is named by a dot or two cannot be taken out. -/
def removeEmpty (t : FileTree) (p : Path) : Except FileError FileTree :=
  match t.resolve p with
  | .error .notFound => .ok t
  | .error e => .error e
  | .ok place =>
    match Path.lastSegment? p with
    | none | some ['.'] | some ['.', '.'] => .error .badName
    | _ => .ok (t.removeBelow place)

/-- Removes a directory with all it holds: first what lies below it, and then, following the
path once more, the directory.  A path that leads through what is gone by then leaves it
empty. -/
def removeDirectory (t : FileTree) (p : Path) : Except FileError Unit × FileTree :=
  match t.directoryPlace p with
  | .error e => (.error e, t)
  | .ok place =>
    let cleared := t.clearBelow place
    match cleared.removeEmpty p with
    | .error e => (.error e, cleared)
    | .ok t => (.ok (), t)

/-- The names in a directory, in increasing order. -/
def list (t : FileTree) (p : Path) : Except FileError (List Text) := do
  let place ← t.directoryPlace p
  let names := t.entries.filterMap fun e =>
    if e.1.dropLast = place then e.1.getLast? else none
  return names.mergeSort Text.notAfter

/-! ### Whatever a path names -/

/-- Writes a file and makes the directories above it that are missing. -/
def put (t : FileTree) (p : Path) (content : Bytes) : Except FileError Unit × FileTree :=
  match t.createDirectories (Path.directoryOf p) with
  | (.error e, t) => (.error e, t)
  | (.ok _, t) =>
    match t.write p content with
    | .error e => (.error e, t)
    | .ok t => (.ok (), t)

/-- Removes a file, or a directory with all it holds. -/
def remove (t : FileTree) (p : Path) : Except FileError Unit × FileTree :=
  if t.isDirectory p then t.removeDirectory p
  else
    match t.removeFile p with
    | .error e => (.error e, t)
    | .ok t => (.ok (), t)

end FileTree

end Notebook
