import Notebook.Unused
import Notebook.Workspace

/-!
# Trying a build

Before a program is run it is built once in a scratch directory, only to learn which variables
it does not use.  Whatever goes wrong here leaves the program as it is.
-/

namespace Notebook

/-- Why a program is left as it is. -/
inductive ResolutionError where
  | noEntryPoint
  /-- The trial build failed for other reasons. -/
  | trialBuild (report : Text)
  | tool (error : ToolError)
deriving DecidableEq, Repr

namespace ResolutionError

/-- The sentence shown for an error. -/
def message : ResolutionError → Text
  | noEntryPoint => "program has no `func main()`"
  | trialBuild report => "trial build failed:\n" ++ report
  | tool e => e.message

/-- The code of an error. -/
def code : ResolutionError → Text
  | noEntryPoint => "gocell::resolve::no_entry_point"
  | trialBuild _ => "gocell::resolve::trial_build"
  | tool e => e.code

/-- What one can do about an error. -/
def help? : ResolutionError → Option Text
  | tool e => some e.help
  | _ => none

end ResolutionError

/-- A program whose unused variables are used for nothing, the names of these, and why there
are none if the build did not simply succeed. -/
structure Resolution where
  program : Text
  unused : List Text
  error : Option ResolutionError
deriving DecidableEq, Repr

/-- Builds a program in a scratch directory: nothing to say if that succeeds, else the text
that was built and the report on it. -/
def trialBuild {σ : Type} (tools : Toolchain σ) (ws : Workspace) (program : Text)
    (w : World σ) :
    Except ResolutionError (Option (Text × Text)) × World σ :=
  match ws.scratch w with
  | .error _ => (.error (.trialBuild []), w)
  | .ok (dir, w) =>
    let main := Path.join dir programFileName
    match w.files.writeText main program with
    | .error _ => (.error (.trialBuild []), Workspace.dropScratch dir w)
    | .ok files =>
      match tools.fixImports main { w with files := files } with
      | (.error e, w) => (.error (.tool e), Workspace.dropScratch dir w)
      | (.ok _, w) =>
        match tools.build dir w with
        | (.error e, w) => (.error (.tool e), Workspace.dropScratch dir w)
        | (.ok output, w) =>
          let built := w.files.readText main
          let w := Workspace.dropScratch dir w
          if output.success then (.ok none, w)
          else
            match built with
            | .error _ => (.error (.trialBuild []), w)
            | .ok built => (.ok (some (built, output.stderr)), w)

/-- The resolution of a program from the outcome of its trial build. -/
def resolutionOf (program : Text) (entry : EntryPoint)
    (outcome : Except ResolutionError (Option (Text × Text))) : Checked Resolution :=
  match outcome with
  | .error e => .ok ⟨program, [], some e⟩
  | .ok none => .ok ⟨program, [], none⟩
  | .ok (some (built, report)) => do
    let unused ← unusedNames built (unusedReports report)
    if unused.isEmpty then return ⟨program, [], some (.trialBuild report)⟩
    else return ⟨← discardNames program entry unused, unused, none⟩

/-- Tries to build a program, and uses its unused variables for nothing. -/
def resolve {σ : Type} (tools : Toolchain σ) (ws : Workspace) (program : Text) (w : World σ) :
    Checked (Resolution × World σ) := do
  match ← (Source.ofText program).readEntryPoint with
  | none => return (⟨program, [], some .noEntryPoint⟩, w)
  | some entry =>
    let (outcome, w) := trialBuild tools ws program w
    return (← resolutionOf program entry outcome, w)

end Notebook
