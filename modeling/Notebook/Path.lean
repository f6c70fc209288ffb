import Notebook.Text

/-!
# Paths

A path is a text of names between slashes.  Empty names and single dots say nothing; two dots
step up, and are resolved only against a tree of files.
-/

namespace Notebook

/-- A path, absolute if it begins with a slash. -/
abbrev Path := Text

namespace Path

/-- The texts between the slashes, empty ones included. -/
def segments : Path → List Text
  | [] => [[]]
  | c :: p =>
    if c = '/' then [] :: segments p
    else
      match segments p with
      | [] => [[c]]
      | s :: ss => (c :: s) :: ss

/-- Whether a segment leaves the place as it is. -/
def isIdle (segment : Text) : Bool :=
  segment.isEmpty || segment == "."

/-- The steps that a path takes: names and double dots. -/
def steps (p : Path) : List Text :=
  (segments p).filter fun s => !isIdle s

/-- The last segment that is not empty. -/
def lastSegment? (p : Path) : Option Text :=
  (segments p).reverse.find? fun s => !s.isEmpty

/-- Whether a path begins at the root. -/
def isAbsolute (p : Path) : Bool :=
  p.head? == some '/'

/-- One path inside another; an absolute path stands for itself. -/
def join (dir p : Path) : Path :=
  if isAbsolute p then p
  else if dir.isEmpty || dir.getLast? == some '/' then dir ++ p
  else dir ++ "/" ++ p

/-- The name at the end of a path. -/
def fileName? (p : Path) : Option Text :=
  (steps p).getLast?.filter fun s => s != ".."

/-- Segments without the idle ones at the end; the first segment stays. -/
def dropIdleEnd (segments : List Text) : List Text :=
  match segments with
  | [] => []
  | s :: ss => s :: (ss.reverse.dropWhile isIdle).reverse

/-- The directory that holds what a path names: the path without its last step.  It is empty
for a single name, and a path without steps has none. -/
def parent? (p : Path) : Option Path :=
  match dropIdleEnd (segments p) with
  | [] | [[]] => none
  | ss =>
    match dropIdleEnd ss.dropLast with
    | [[]] => some "/"
    | rest => some (Text.joinWith "/" rest)

/-- The directory to work in for a file: its parent, or the current directory for a bare
name. -/
def directoryOf (p : Path) : Path :=
  match parent? p with
  | some (c :: d) => c :: d
  | _ => "."

/-- What follows the last dot of a file name, unless the name begins with that dot. -/
def extension? (p : Path) : Option Text := do
  let name ← fileName? p
  let (stem, ext) ← Text.cutLast? "." name
  if stem.isEmpty then none else some ext

/-- The path that a list of names leads to from the root. -/
def ofRoot (names : List Text) : Path :=
  "/" ++ Text.joinWith "/" names

/-- An absolute path without idle segments: relative paths begin at `cwd`, and exactly two
slashes in front are kept.  An empty path has none. -/
def absolute? (cwd : List Text) (p : Path) : Option Path :=
  if p.isEmpty then none
  else if !isAbsolute p then some (ofRoot (cwd ++ steps p))
  else if "//".toList.isPrefixOf p && !"///".toList.isPrefixOf p then
    some ('/' :: ofRoot (steps p))
  else some (ofRoot (steps p))

/-- A path inside an absolute one is absolute. -/
theorem isAbsolute_join {dir p : Path} (h : isAbsolute dir = true) :
    isAbsolute (join dir p) = true := by
  unfold join
  split
  · assumption
  · cases dir with
    | nil => simp [isAbsolute] at h
    | cons c dir => split <;> simpa [isAbsolute] using h

theorem isAbsolute_of_absolute? {cwd : List Text} {p q : Path}
    (h : absolute? cwd p = some q) :
    isAbsolute q = true := by
  unfold absolute? at h
  split at h
  · cases h
  · split at h
    · cases h; rfl
    · split at h <;> cases h <;> rfl

end Path

end Notebook
