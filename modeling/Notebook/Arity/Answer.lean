import Notebook.Arity.Probe
import Notebook.Run

/-!
# Answers to arity questions

The text of the program answers first.  What it leaves open is asked of a probe, if that is
allowed; the answers about functions of packages are remembered.
-/

namespace Notebook

/-- What probes have answered, by callee. -/
abbrev ArityCache := List (Text × Option Nat)

namespace ArityCache

/-- The remembered answer. -/
def find? (cache : ArityCache) (callee : Text) : Option (Option Nat) :=
  cache.lookup callee

/-- Remembers an answer. -/
def put (cache : ArityCache) (callee : Text) (answer : Option Nat) : ArityCache :=
  (callee, answer) :: cache.filter fun p => p.1 != callee

end ArityCache

/-- Runs a probe in a scratch directory; whatever goes wrong, the answer is that nothing is
known. -/
def runProbe {σ : Type} (tools : Toolchain σ) (ws : Workspace) (program : Text)
    (w : World σ) :
    Option Nat × World σ :=
  match ws.scratch w with
  | .error _ => (none, w)
  | .ok (dir, w) =>
    let main := Path.join dir programFileName
    match w.files.writeText main program with
    | .error _ => (none, Workspace.dropScratch dir w)
    | .ok files =>
      let others := (siblings files main).toOption.getD []
      match tools.fixImports main { w with files := files } with
      | (.error _, w) => (none, Workspace.dropScratch dir w)
      | (.ok _, w) =>
        match tools.run main others w with
        | (.error _, w) => (none, Workspace.dropScratch dir w)
        | (.ok output, w) => (probedCount? output.stdout, Workspace.dropScratch dir w)

/-- Asks a probe, unless the answer is remembered. -/
def probedAnswer {σ : Type} (tools : Toolchain σ) (ws : Workspace) (q : ArityQuery)
    (cache : ArityCache) (w : World σ) : Checked (Option Nat × ArityCache × World σ) := do
  let callee := q.callee.trim
  let lasting ← q.isPackageQualified
  match if lasting then cache.find? callee else none with
  | some answer => return (answer, cache, w)
  | none =>
    let program ← q.probeProgram
    let (answer, w) := runProbe tools ws program w
    return (answer, if lasting then cache.put callee answer else cache, w)

/-- How many results a function has, as far as it can be found out. -/
def arityAnswer {σ : Type} (tools : Toolchain σ) (ws : Workspace) (mayProbe : Bool)
    (q : ArityQuery) (cache : ArityCache) (w : World σ) :
    Checked (Option Nat × ArityCache × World σ) := do
  match ← q.staticCount with
  | some n => return (some n, cache, w)
  | none => if mayProbe then probedAnswer tools ws q cache w else return (none, cache, w)

end Notebook
