import Notebook.Kernel
import Notebook.Proofs.Places
import Notebook.Proofs.TokenReads

/-!
# What a turn does to files

A turn writes source files, in the session's directory and in scratch directories that it
makes and takes away again, and calls tools that may do anything.  A file that is no source
file of this kind therefore changes during a turn only as far as the tools change it.  How far
that is, is a relation between contents before and after that the tools keep to.
-/

namespace Notebook

variable {k : Kernel} {dir : Path} {q : Place} {program : Text} {ws : Workspace}

/-- The names of the source files that are written in the course of a turn. -/
def sourceNames : List Text := [programFileName, "builtin.go", "session.go"]

/-- A place where no source file is written. -/
def Place.HoldsNoSource (place : Place) : Prop :=
  ∀ name ∈ sourceNames, place.getLast? ≠ some name

instance (place : Place) : Decidable place.HoldsNoSource :=
  inferInstanceAs (Decidable (∀ _ ∈ _, _))

theorem isName_of_mem_sourceNames : ∀ name ∈ sourceNames, Path.IsName name := by
  decide

/-- Tools that keep to a relation between the content of a file before and after. -/
structure Toolchain.Respects {σ : Type} (tools : Toolchain σ)
    (R : Option Bytes → Option Bytes → Prop) (place : Place) : Prop where
  fixImports : ∀ p w, R (w.files.fileAt? place) ((tools.fixImports p w).2.files.fileAt? place)
  run : ∀ p ps w, R (w.files.fileAt? place) ((tools.run p ps w).2.files.fileAt? place)
  build : ∀ p w, R (w.files.fileAt? place) ((tools.build p w).2.files.fileAt? place)

/-- Writing a named file in a directory changes no file of another name. -/
theorem fileAt?_writeText_name {t u : FileTree} {name text : Text}
    (hdir : Path.isAbsolute dir = true) (hname : Path.IsName name)
    (h : t.writeText (Path.join dir name) text = .ok u) (hq : q.getLast? ≠ some name) :
    u.fileAt? q = t.fileAt? q := by
  refine FileTree.fileAt?_write h ?_
  rw [FileTree.placeOf_eq_of_isAbsolute (Path.isAbsolute_join hdir),
    Path.placeFrom_join_name hname]
  rintro rfl
  simp at hq

namespace Workspace

variable {σ : Type} {w w₁ w₂ : World σ}

theorem writeHelpers_fileAt? (hdir : Path.isAbsolute dir = true) (hq : q.HoldsNoSource) :
    (ws.writeHelpers dir w).2.files.fileAt? q = w.files.fileAt? q := by
  unfold writeHelpers
  split
  · rfl
  next files hfiles =>
    have hfirst := fileAt?_writeText_name hdir (by decide) hfiles (hq _ (by decide))
    split
    · exact hfirst
    next files' hfiles' =>
      rw [fileAt?_writeText_name hdir (by decide) hfiles' (hq _ (by decide))]
      exact hfirst

theorem isAbsolute_scratchPath (temp : Path) (w : World σ) :
    Path.isAbsolute (scratchPath temp w) = true :=
  Path.isAbsolute_join (Path.isAbsolute_join rfl)

/-- The helper files cost nothing that was there. -/
theorem writeHelpers_kindsKept (ws : Workspace) (dir : Path) (w : World σ) :
    w.files.KindsKept (ws.writeHelpers dir w).2.files := by
  unfold writeHelpers
  split
  · exact .refl _
  next files hfiles =>
    split
    · exact FileTree.kindsKept_write hfiles
    next files' hfiles' =>
      exact (FileTree.kindsKept_write hfiles).trans (FileTree.kindsKept_write hfiles')

/-- The helper files bring no directory. -/
theorem directory_of_writeHelpers
    (h : (ws.writeHelpers dir w).2.files.entryAt? q = some .directory) :
    w.files.entryAt? q = some .directory := by
  unfold writeHelpers at h
  split at h
  · exact h
  next files hfiles =>
    split at h
    · exact FileTree.directory_of_write hfiles h
    next files' hfiles' =>
      exact FileTree.directory_of_write hfiles (FileTree.directory_of_write hfiles' h)

/-- A scratch directory is made where nothing was, and costs no file outside it. -/
theorem scratch_spec (h : ws.scratch w = .ok (dir, w₁)) :
    Path.isAbsolute dir = true ∧
      (∀ q, Place.isBelow q (Path.placeFrom [] dir) = true → w.files.entryAt? q = none) ∧
      (∀ q : Place, q.HoldsNoSource → w₁.files.fileAt? q = w.files.fileAt? q) ∧
      w.files.KindsKept w₁.files := by
  unfold scratch at h
  split at h
  · cases h
  next temp _ =>
    have habsolute := isAbsolute_scratchPath temp w
    cases hcreate : w.files.createDirectory (scratchPath temp w) with
    | error e =>
      simp only [hcreate, bind, Except.bind] at h
      cases h
    | ok files =>
      simp only [hcreate, bind, Except.bind] at h
      split at h
      · cases h
      · cases h
        obtain ⟨hnone, rfl⟩ := FileTree.createDirectory_spec hcreate
        refine ⟨habsolute, ?_, ?_, ?_⟩
        · rw [FileTree.placeOf_eq_of_isAbsolute habsolute] at hnone
          intro q hq
          obtain ⟨r, rfl⟩ := Place.isBelow_iff.1 hq
          by_cases hr : r = []
          · rw [hr, List.append_nil, hnone]
          · exact FileTree.entryAt?_eq_none_of_below hr (by simp [hnone])
        · intro q hq
          rw [writeHelpers_fileAt? habsolute hq]
          exact FileTree.fileAt?_setEntry_directory hnone q
        · exact (FileTree.kindsKept_setEntry_of_none .directory hnone).trans
            (writeHelpers_kindsKept ws _ { w with
              files := w.files.setEntry (w.files.placeOf (scratchPath temp w)) .directory
              scratchCount := w.scratchCount + 1 })

/-- A scratch directory leaves nothing behind: once it is taken away, a file is as it was, as
far as what happened in between kept to the relation. -/
theorem dropScratch_respects {R : Option Bytes → Option Bytes → Prop} (hrefl : ∀ x, R x x)
    (hscratch : ws.scratch w = .ok (dir, w₁)) (hq : q.HoldsNoSource)
    (h : R (w₁.files.fileAt? q) (w₂.files.fileAt? q)) :
    R (w.files.fileAt? q) ((dropScratch dir w₂).files.fileAt? q) := by
  obtain ⟨habsolute, hempty, hsame, -⟩ := scratch_spec hscratch
  rw [hsame q hq] at h
  have hloses := w₂.files.losesBelow_removeDirectory dir q
  rw [FileTree.placeOf_eq_of_isAbsolute habsolute] at hloses
  rcases hloses with hkept | ⟨hbelow, hgone⟩
  · rwa [dropScratch, FileTree.fileAt?_congr hkept]
  · -- The file would lie in the scratch directory, where there was none before.
    rw [dropScratch, FileTree.fileAt?, hempty q hbelow, FileTree.fileAt?, hgone]
    exact hrefl none

end Workspace

/-! ### The stages of a turn -/

/-- A relation between trees that holds across what a turn itself does to files: a source file
that is written, and a scratch directory that is made and taken away again. -/
structure TurnFrame (Q : FileTree → FileTree → Prop) : Prop where
  refl : ∀ t, Q t t
  trans : ∀ {t u v}, Q t u → Q u v → Q t v
  writeSource : ∀ {t u : FileTree} {dir : Path} {name text : Text},
    Path.isAbsolute dir = true →
    name ∈ sourceNames → t.writeText (Path.join dir name) text = .ok u → Q t u
  dropScratch : ∀ {σ : Type} {ws : Workspace} {w w₁ w₂ : World σ} {dir : Path},
    ws.scratch w = .ok (dir, w₁) → Q w₁.files w₂.files →
      Q w.files (Workspace.dropScratch dir w₂).files

/-- Tools that keep to a relation between the trees before and after. -/
structure Toolchain.Keeps {σ : Type} (tools : Toolchain σ) (Q : FileTree → FileTree → Prop) :
    Prop where
  fixImports : ∀ p w, Q w.files (tools.fixImports p w).2.files
  run : ∀ p ps w, Q w.files (tools.run p ps w).2.files
  build : ∀ p w, Q w.files (tools.build p w).2.files

section Keeps

variable {σ : Type} {tools : Toolchain σ} {Q : FileTree → FileTree → Prop} (hQ : TurnFrame Q)
  (htools : tools.Keeps Q)

include htools

theorem run_keeps {path : Path} {others : List Path} {w w' : World σ}
    {reply : Except ToolError ToolOutput} (h : tools.run path others w = (reply, w')) :
    Q w.files w'.files := by
  have hrun := htools.run path others w
  rwa [h] at hrun

theorem build_keeps {w w' : World σ} {reply : Except ToolError ToolOutput}
    (h : tools.build dir w = (reply, w')) : Q w.files w'.files := by
  have hbuild := htools.build dir w
  rwa [h] at hbuild

include hQ

theorem runFile_keeps (config : Config) (path : Path) (w : World σ) :
    Q w.files (runFile tools config path w).2.files := by
  unfold runFile
  split
  · exact hQ.refl _
  · split
    next _ w₁ hrun => exact run_keeps htools hrun
    next _ w₁ hrun =>
      split
      · exact run_keeps htools hrun
      · exact run_keeps htools hrun

/-- Writing a program and completing its imports. -/
theorem fixImports_keeps {dir : Path} {program : Text} {w w' : World σ} {files : FileTree}
    {reply : Except ToolError ToolOutput} (hdir : Path.isAbsolute dir = true)
    (hwrite : w.files.writeText (Path.join dir programFileName) program = .ok files)
    (h : tools.fixImports (Path.join dir programFileName) { w with files := files } =
      (reply, w')) :
    Q w.files w'.files := by
  have hfix := htools.fixImports (Path.join dir programFileName) { w with files := files }
  rw [h] at hfix
  exact hQ.trans (hQ.writeSource hdir (by decide) hwrite) hfix

theorem runProbe_keeps (ws : Workspace) (program : Text) (w : World σ) :
    Q w.files (runProbe tools ws program w).2.files := by
  unfold runProbe
  split
  · exact hQ.refl _
  next dir w₁ hscratch =>
    have hdir := (Workspace.scratch_spec hscratch).1
    simp only
    split
    · exact hQ.dropScratch hscratch (hQ.refl _)
    next files hwrite =>
      split
      next _ w₂ hfix =>
        exact hQ.dropScratch hscratch (fixImports_keeps hQ htools hdir hwrite hfix)
      next _ w₂ hfix =>
        have hfixed := fixImports_keeps hQ htools hdir hwrite hfix
        split
        all_goals
          next _ w₃ hrun =>
            exact hQ.dropScratch hscratch (hQ.trans hfixed (run_keeps htools hrun))

theorem trialBuild_keeps (ws : Workspace) (program : Text) (w : World σ) :
    Q w.files (trialBuild tools ws program w).2.files := by
  unfold trialBuild
  split
  · exact hQ.refl _
  next dir w₁ hscratch =>
    have hdir := (Workspace.scratch_spec hscratch).1
    simp only
    split
    · exact hQ.dropScratch hscratch (hQ.refl _)
    next files hwrite =>
      split
      next _ w₂ hfix =>
        exact hQ.dropScratch hscratch (fixImports_keeps hQ htools hdir hwrite hfix)
      next _ w₂ hfix =>
        have hfixed := fixImports_keeps hQ htools hdir hwrite hfix
        -- Whatever the build says, the scratch directory is taken away behind it.
        have hdrop : ∀ {reply w₃}, tools.build dir w₂ = (reply, w₃) →
            Q w.files (Workspace.dropScratch dir w₃).files := fun hbuild =>
          hQ.dropScratch hscratch (hQ.trans hfixed (build_keeps htools hbuild))
        split
        next _ w₃ hbuild => exact hdrop hbuild
        next _ w₃ hbuild =>
          split
          · exact hdrop hbuild
          · split
            · exact hdrop hbuild
            · exact hdrop hbuild

theorem arityAnswer_keeps {mayProbe : Bool} {query : ArityQuery} {cache cache' : ArityCache}
    {answer : Option Nat} {w w' : World σ}
    (h : arityAnswer tools ws mayProbe query cache w = .ok (answer, cache', w')) :
    Q w.files w'.files := by
  obtain ⟨known, -, h⟩ := Checked.bind_eq_ok.1 h
  split at h
  · cases h
    exact hQ.refl _
  · split at h
    · obtain ⟨lasting, -, h⟩ := Checked.bind_eq_ok.1 h
      split at h
      · cases h
        exact hQ.refl _
      · obtain ⟨program, -, h⟩ := Checked.bind_eq_ok.1 h
        cases h
        exact runProbe_keeps hQ htools ws program w
    · cases h
      exact hQ.refl _

theorem Kernel.display_keeps {shown : Text} {cache : ArityCache} {w w' : World σ}
    (h : k.display tools program w = .ok (shown, cache, w')) : Q w.files w'.files := by
  obtain ⟨plan, -, h⟩ := Checked.bind_eq_ok.1 h
  split at h
  · cases h
    exact hQ.refl _
  · split at h
    · obtain ⟨_, -, h⟩ := Checked.bind_eq_ok.1 h
      cases h
      exact hQ.refl _
    · obtain ⟨⟨answer, cache', w₁⟩, hanswer, h⟩ := Checked.bind_eq_ok.1 h
      obtain ⟨_, -, h⟩ := Checked.bind_eq_ok.1 h
      cases h
      exact arityAnswer_keeps hQ htools hanswer

theorem resolve_keeps {resolved : Resolution} {w w' : World σ}
    (h : resolve tools ws program w = .ok (resolved, w')) : Q w.files w'.files := by
  rw [resolve_eq] at h
  split at h
  · cases h
    exact hQ.refl _
  · have htrial := trialBuild_keeps hQ htools ws program w
    obtain ⟨_, -, h⟩ := Checked.bind_eq_ok.1 h
    cases h
    exact htrial

/-- Making the program of a turn keeps to the relation. -/
theorem Kernel.turnProgram_keeps {input : Text} {t : TurnProgram} {cache : ArityCache}
    {w w' : World σ} (h : k.turnProgram tools input w = .ok (t, cache, w')) :
    Q w.files w'.files := by
  obtain ⟨made, -, h⟩ := Checked.bind_eq_ok.1 h
  obtain ⟨⟨shown, cache', w₁⟩, hshown, h⟩ := Checked.bind_eq_ok.1 h
  obtain ⟨⟨resolved, w₂⟩, hresolved, h⟩ := Checked.bind_eq_ok.1 h
  obtain ⟨plan, -, h⟩ := Checked.bind_eq_ok.1 h
  cases h
  exact hQ.trans (display_keeps hQ htools hshown) (resolve_keeps hQ htools hresolved)

/-- Running a program in an absolute directory keeps to the relation. -/
theorem runProgram_keeps (config : Config) (program : Text)
    (hdir : Path.isAbsolute dir = true) (w : World σ) :
    Q w.files (runProgram tools config program (Path.join dir programFileName)
      w).2.files := by
  unfold runProgram
  split
  · exact hQ.refl _
  next files hwrite =>
    split
    next _ w₁ hfix => exact fixImports_keeps hQ htools hdir hwrite hfix
    next _ w₁ hfix =>
      have hfixed := fixImports_keeps hQ htools hdir hwrite hfix
      split
      · exact hQ.trans hfixed (runFile_keeps hQ htools config _ w₁)
      · split
        · exact hfixed
        · exact hfixed

end Keeps

/-! ### Files that are no sources -/

/-- A relation between contents, at a place without sources, frames a turn. -/
theorem turnFrame_fileAt? {R : Option Bytes → Option Bytes → Prop} (hrefl : ∀ x, R x x)
    (htrans : ∀ x y z, R x y → R y z → R x z) (hq : q.HoldsNoSource) :
    TurnFrame fun t u => R (t.fileAt? q) (u.fileAt? q) where
  refl t := hrefl _
  trans := htrans _ _ _
  writeSource hdir hname hwrite := by
    rw [fileAt?_writeText_name hdir (isName_of_mem_sourceNames _ hname) hwrite (hq _ hname)]
    exact hrefl _
  dropScratch hscratch h := Workspace.dropScratch_respects hrefl hscratch hq h

theorem Toolchain.Respects.keeps {σ : Type} {tools : Toolchain σ}
    {R : Option Bytes → Option Bytes → Prop} (h : tools.Respects R q) :
    tools.Keeps fun t u => R (t.fileAt? q) (u.fileAt? q) :=
  ⟨h.fixImports, h.run, h.build⟩

end Notebook
