import Notebook.FileTree

/-!
# The difference of two trees

What must be done to files on a disk so that they follow a tree: first the places that are
gone, the deepest first, and then the entries that are new or have new contents, from the root
down.
-/

namespace Notebook

/-- A step that brings one tree nearer to another. -/
inductive FileChange where
  | remove (place : Place) (entry : FileEntry)
  | put (place : Place) (entry : FileEntry)
deriving DecidableEq, Repr

namespace FileTree

/-- The steps from one tree to another. -/
def changes (before after : FileTree) : List FileChange :=
  let gone := before.entries.filter fun e => (after.entryAt? e.1).isNone
  let new := after.entries.filter fun e => before.entryAt? e.1 != some e.2
  let deepestFirst := gone.mergeSort fun a b => b.1.length ≤ a.1.length
  let fromTheRoot := new.mergeSort fun a b => a.1.length ≤ b.1.length
  (deepestFirst.map fun e => .remove e.1 e.2) ++ fromTheRoot.map fun e => .put e.1 e.2

end FileTree

end Notebook
