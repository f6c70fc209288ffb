import Notebook.Proofs.Plans
import Notebook.Proofs.Recovery
import Notebook.Proofs.TurnFiles
import Notebook.Proofs.TurnSafety

/-!
# What a turn does to its session

A turn ends in one of two ways.  If its program could not be run at all, the session is as it
was, and so is its snapshot.  If the program was run, the session keeps its state or takes
over that of the run as a whole, as the process ended badly or well; and of that state a
failure costs exactly the names that it implicates.
-/

namespace Notebook

namespace Session

/-- The state that a run leaves.  If the process ended well that is what the plan stores, or
the old variables if there is no plan, and the old declarations with those of the turn; else
it is the old state. -/
def afterRun (s : Session) (t : TurnProgram) (report : RunReport) : Session :=
  if report.exitedOk then
    ⟨t.plan.elim s.names (·.names), t.plan.elim s.literals (·.literals),
      Declaration.merge s.declarations t.declarations⟩
  else s

/-- Whether a report costs a session a name: it is a failure, not a benign one, and the name
is tracked and stands as an identifier on a line that a diagnostic of the failure leads to. -/
def Implicated (s : Session) (files : FileTree) (path : Path)
    (report : RunReport) (x : Text) :
    Prop :=
  ∃ failure, report.failure = some failure ∧ failure.benign = false ∧
    (x ∈ s.names ∨ x ∈ s.literals.map Prod.fst) ∧
    ∃ d ∈ diagnostics failure.text, ∃ line,
      sourceLine? files ⟨report.program, path⟩ d = some line ∧ x ∈ identifiers line

/-- The names that a report costs a session, read off the lines that its failure leads to. -/
def implicated (s : Session) (files : FileTree) (path : Path) (report : RunReport) :
    List Text :=
  match report.failure with
  | none => []
  | some failure =>
    if failure.benign then []
    else implicatedNames files ⟨report.program, path⟩ s.tracked failure.text

theorem mem_implicated {s : Session} {files : FileTree} {path : Path} {report : RunReport}
    {x : Text} : x ∈ s.implicated files path report ↔ s.Implicated files path report x := by
  unfold implicated Implicated
  cases report.failure with
  | none => simp
  | some failure =>
    cases hbenign : failure.benign with
    | true => simp [hbenign]
    | false => simp [hbenign, mem_implicatedNames, mem_tracked]

/-- A session less some names; what stays keeps its order. -/
def without (s : Session) (gone : List Text) : Session where
  names := s.names.filter (· ∉ gone)
  literals := s.literals.filter (·.1 ∉ gone)
  declarations := s.declarations

theorem without_nil (s : Session) : s.without [] = s := by
  simp [without]

theorem without_congr (s : Session) {gone gone' : List Text} (h : ∀ x, x ∈ gone ↔ x ∈ gone') :
    s.without gone = s.without gone' := by
  simp [without, h]

/-- Recovery costs a session exactly the implicated names. -/
theorem recover_eq_without (s : Session) (files : FileTree) (path : Path) {report : RunReport}
    {failure : RunFailure} (h : report.failure = some failure) :
    (recover files s ⟨report.program, path⟩ failure).1 =
      s.without (s.implicated files path report) := by
  cases hbenign : failure.benign with
  | true => simp [recover, implicated, h, hbenign, without_nil]
  | false => simp [recover, implicated, h, hbenign, evict, without]

/-- Taking over what a sound plan stores drops nothing. -/
theorem sessionAfterRun_eq (s : Session) {t : TurnProgram}
    (hplan : ∀ plan, t.plan = some plan → plan.Sound) (report : RunReport) :
    Kernel.sessionAfterRun s t report = s.afterRun t report := by
  unfold Kernel.sessionAfterRun afterRun
  split
  · cases hp : t.plan with
    | none => rfl
    | some plan =>
      have hkeys : plan.literals.filter (fun l => decide (l.1 ∈ plan.names)) =
          plan.literals := by
        rw [List.filter_eq_self]
        intro l hl
        exact decide_eq_true ((hplan plan hp).keys.subset (List.mem_map_of_mem hl))
      simp [commit, addDeclarations, hkeys]
  · rfl

end Session

/-- Where the snapshot of a session stands. -/
def Workspace.snapshotPlace (ws : Workspace) : Place :=
  Path.placeFrom [] (ws.store.blobPath Session.snapshotKey)

/-- The places of the snapshot and of its tag. -/
def Workspace.snapshotPlaces (ws : Workspace) : List Place :=
  [ws.snapshotPlace, Path.placeFrom [] (ws.store.tagPath Session.snapshotKey)]

theorem Workspace.isAbsolute_store (ws : Workspace) :
    Path.isAbsolute ws.store.dir = true := by
  unfold store
  simpa using Path.isAbsolute_join ws.absolute

theorem Workspace.snapshotPlace_eq (ws : Workspace) :
    ws.snapshotPlace = Path.placeFrom [] ws.store.dir ++ [Session.snapshotKey] :=
  Path.placeFrom_join_name (by decide)

theorem Workspace.holdsNoSource_of_snapshotPlaces {ws : Workspace} {place : Place}
    (h : place ∈ ws.snapshotPlaces) : place.HoldsNoSource := by
  have hlast : place.getLast? = some Session.snapshotKey ∨
      place.getLast? = some (Session.snapshotKey ++ ".type") := by
    rcases List.mem_pair.1 h with rfl | rfl
    · left
      simp [ws.snapshotPlace_eq]
    · right
      rw [ValueStore.tagPath, Path.placeFrom_join_name (by decide)]
      simp
  intro name hname
  rcases hlast with hlast | hlast
  all_goals
    rw [hlast]
    revert name
    decide

namespace Kernel

variable {σ : Type} (tools : Toolchain σ) (k : Kernel) (input : Text) (w : World σ)

theorem sound_of_turnProgram {t : TurnProgram} {cache : ArityCache} {w' : World σ}
    (h : k.turnProgram tools input w = .ok (t, cache, w')) (plan : PersistencePlan)
    (hplan : t.plan = some plan) : plan.Sound := by
  obtain ⟨made, -, h⟩ := Checked.bind_eq_ok.1 h
  obtain ⟨⟨shown, cache', w₁⟩, -, h⟩ := Checked.bind_eq_ok.1 h
  obtain ⟨⟨resolved, w₂⟩, -, h⟩ := Checked.bind_eq_ok.1 h
  obtain ⟨found, hfound, h⟩ := Checked.bind_eq_ok.1 h
  cases h
  cases hplan
  exact PersistencePlan.sound_of_plan hfound

/-- The end of a turn costs the session exactly the implicated names, and stores what is
left. -/
theorem finish_spec (report : RunReport) (path : Path) :
    ∃ result gone, finish k report path w =
      (result, { k with session := k.session.without gone },
        save { k with session := k.session.without gone } w) ∧
      (∀ e, result ≠ .error (.kernel e)) ∧
      ∀ x, x ∈ gone ↔ k.session.Implicated w.files path report x := by
  cases hfailure : report.failure with
  | none =>
    refine ⟨.ok report.stdout, [], ?_, by simp, by simp [Session.Implicated, hfailure]⟩
    simp [finish, hfailure, Session.without_nil]
  | some failure =>
    refine ⟨.error
      (.run report.stdout (showFailure w.files ⟨report.program, path⟩ failure.text)
        failure.benign), k.session.implicated w.files path report, ?_, by simp,
      fun _ => Session.mem_implicated⟩
    rw [finish, hfailure]
    simp only [Session.recover_eq_without k.session w.files path hfailure]
    rfl

section Run

variable {tools k input w} {t : TurnProgram} {cache : ArityCache} {w₁ w₂ : World σ}
  (ht : k.turnProgram tools input w = .ok (t, cache, w₁))

include ht

/-- A turn whose program could not be run ends with what stood in the way. -/
theorem turn_of_run_error {e : KernelError}
    (hrun : runProgram tools k.config t.program k.workspace.programPath w₁ = (.error e, w₂)) :
    k.turn tools input w = .ok (.error (.kernel e), { k with cache := cache }, w₂) := by
  simp only [turn, ht, hrun, bind, Except.bind]
  rfl

/-- A turn whose program was run leaves, and stores, the state of the run less the implicated
names. -/
theorem turn_of_run_ok {report : RunReport}
    (hrun : runProgram tools k.config t.program k.workspace.programPath w₁ =
      (.ok report, w₂)) :
    ∃ result gone k',
      k' = ⟨k.config, k.workspace, (k.session.afterRun t report).without gone, cache⟩ ∧
      k.turn tools input w = .ok (result, k', k'.save w₂) ∧
      (∀ e, result ≠ .error (.kernel e)) ∧
      ∀ x, x ∈ gone ↔
        (k.session.afterRun t report).Implicated w₂.files k.workspace.programPath
          report x := by
  have hsession :=
    Session.sessionAfterRun_eq k.session (sound_of_turnProgram tools k input w ht)
      report
  obtain ⟨result, gone, hfinish, hresult, hgone⟩ := finish_spec
    ⟨k.config, k.workspace, k.session.afterRun t report, cache⟩ w₂ report
      k.workspace.programPath
  refine ⟨result, gone, _, rfl, ?_, hresult, hgone⟩
  simp only [turn, ht, hrun, bind, Except.bind, hsession]
  exact congrArg Except.ok hfinish

/-- Until the session is stored, files change only as the tools change them. -/
theorem keeps_of_run {Q : FileTree → FileTree → Prop} {outcome : Except KernelError RunReport}
    (hQ : TurnFrame Q) (htools : tools.Keeps Q)
    (hrun : runProgram tools k.config t.program k.workspace.programPath w₁ = (outcome, w₂)) :
    Q w.files w₂.files := by
  have hran := runProgram_keeps hQ htools k.config t.program k.workspace.absolute w₁
  have hw₂ : (runProgram tools k.config t.program k.workspace.programPath w₁).2 = w₂ := by
    rw [hrun]
  rw [← hw₂]
  exact hQ.trans (turnProgram_keeps hQ htools ht) hran

/-- Until the session is stored, a file that is no source changes only as the tools change
it. -/
theorem respects_of_run {R : Option Bytes → Option Bytes → Prop} {q : Place}
    {outcome : Except KernelError RunReport} (hrefl : ∀ x, R x x)
    (htrans : ∀ x y z, R x y → R y z → R x z) (hq : q.HoldsNoSource)
    (htools : tools.Respects R q)
    (hrun : runProgram tools k.config t.program k.workspace.programPath w₁ = (outcome, w₂)) :
    R (w.files.fileAt? q) (w₂.files.fileAt? q) :=
  keeps_of_run ht (turnFrame_fileAt? hrefl htrans hq) htools.keeps hrun

end Run

/-- **A turn changes its session all or nothing.**  If `runProgram` could not run the program
of `turnProgram`, the session is as it was, and so is what stands at `snapshotPlaces` unless
the tools touched it.  If it ran the program, the session is `Session.afterRun` less exactly
the names that are `Session.Implicated` by the report. -/
theorem turn_all_or_nothing :
    ∃ t cache w₁, k.turnProgram tools input w = .ok (t, cache, w₁) ∧
      (∀ e w₂, runProgram tools k.config t.program k.workspace.programPath w₁ =
          (.error e, w₂) →
        k.turn tools input w = .ok (.error (.kernel e), { k with cache := cache }, w₂) ∧
        ∀ place ∈ k.workspace.snapshotPlaces, tools.Respects Eq place →
          w₂.files.fileAt? place = w.files.fileAt? place) ∧
      ∀ report w₂, runProgram tools k.config t.program k.workspace.programPath w₁ =
          (.ok report, w₂) →
        ∃ result gone w₃,
          k.turn tools input w = .ok (result, ⟨k.config, k.workspace,
            (k.session.afterRun t report).without gone, cache⟩, w₃) ∧
          (∀ e, result ≠ .error (.kernel e)) ∧
          ∀ x, x ∈ gone ↔ (k.session.afterRun t report).Implicated w₂.files
            k.workspace.programPath report x := by
  obtain ⟨⟨t, cache, w₁⟩, ht⟩ := turnProgram_ok tools k input w
  refine ⟨t, cache, w₁, ht, ?_, ?_⟩
  · intro e w₂ hrun
    refine ⟨turn_of_run_error ht hrun, ?_⟩
    intro place hplace htools
    exact (respects_of_run ht (fun _ => rfl) (fun _ _ _ => Eq.trans)
      (Workspace.holdsNoSource_of_snapshotPlaces hplace) htools hrun).symm
  · intro report w₂ hrun
    obtain ⟨result, gone, k', rfl, hturn, hresult, hgone⟩ := turn_of_run_ok ht hrun
    exact ⟨result, gone, _, hturn, hresult, hgone⟩

/-! ### Runs that end in different ways -/

/-- A configuration that names a session, an empty world, and the session in it. -/
def sampleConfig : Config :=
  { Config.default with workspaceRoot := "/", sessionId := some "s" }

@[inherit_doc sampleConfig]
def sampleWorld : World Unit := ⟨.empty, none, 0, 0, 1, ()⟩

@[inherit_doc sampleConfig]
def sampleKernel : Kernel := ⟨sampleConfig, ⟨"s", "/.gocell/s", rfl⟩, .empty, []⟩

/-- Tools that cannot be started. -/
def absentTools : Toolchain Unit where
  fixImports _ w := (.error ⟨"goimports"⟩, w)
  run _ _ w := (.error ⟨"go"⟩, w)
  build _ w := (.error ⟨"go"⟩, w)

theorem runProgram_absentTools (config : Config) (program : Text) (path : Path)
    (w : World Unit) :
    ∃ e w', runProgram absentTools config program path w = (.error e, w') := by
  unfold runProgram
  split
  · exact ⟨_, _, rfl⟩
  · exact ⟨_, _, rfl⟩

/-- Tools that find nothing wrong with a program, whose run ends with a given output. -/
def endingTools (output : ToolOutput) : Toolchain Unit where
  fixImports _ w := (.ok ⟨[], [], true⟩, w)
  run _ _ w := (.ok output, w)
  build _ w := (.ok ⟨[], [], true⟩, w)

/-- What the run of a turn leaves, and the names that it costs, if the program was run. -/
def leftByRun? (tools : Toolchain σ) (k : Kernel) (input : Text) (w : World σ) :
    Option (Session × List Text) :=
  (k.turnProgram tools input w).toOption.bind fun made =>
    let ran := runProgram tools k.config made.1.program k.workspace.programPath made.2.2
    ran.1.toOption.map fun report =>
      let left := k.session.afterRun made.1 report
      (left, left.implicated ran.2.files k.workspace.programPath report)

theorem exists_run_of_leftByRun? {tools : Toolchain σ} {k : Kernel} {input : Text}
    {w w₁ : World σ} {t : TurnProgram} {cache : ArityCache} {left : Session}
    {gone : List Text} (h : leftByRun? tools k input w = some (left, gone))
    (ht : k.turnProgram tools input w = .ok (t, cache, w₁)) :
    ∃ report w₂, runProgram tools k.config t.program k.workspace.programPath w₁ =
        (.ok report, w₂) ∧ k.session.afterRun t report = left ∧
      ∀ gone', (∀ x, x ∈ gone' ↔ left.Implicated w₂.files k.workspace.programPath report x) →
        left.without gone' = left.without gone := by
  unfold leftByRun? at h
  rw [ht] at h
  obtain ⟨report, hreport, h⟩ := Option.map_eq_some_iff.1 h
  obtain ⟨rfl, rfl⟩ := Prod.mk.inj h
  refine ⟨report, _, Prod.ext ?_ rfl, rfl, fun gone' hgone' =>
    Session.without_congr _ fun x => (hgone' x).trans Session.mem_implicated.symm⟩
  dsimp only at hreport ⊢
  generalize (runProgram tools k.config t.program k.workspace.programPath w₁).1 = outcome
    at hreport ⊢
  cases outcome with
  | error e => cases hreport
  | ok report' => exact congrArg Except.ok (Option.some.inj hreport)

/-- A session with a function literal, and with a variable whose value is lost. -/
def literalKernel : Kernel :=
  { sampleKernel with session := ⟨["f", "g"], [("f", "func() \x7b\x7d")], []⟩ }

/-- A run that fails where the literal is replayed. -/
def failingTools : Toolchain Unit :=
  endingTools ⟨[], "./main.go:6:7: undefined: h", false⟩

/-- Without tools a turn costs nothing, and the stored snapshot stays.  A run that ends well
brings its variable and its type.  A run that fails costs the literal to which it points, and
brings nothing. -/
theorem turn_all_or_nothing_samples :
    (∃ e cache w, sampleKernel.turn absentTools "x := 1" (sampleKernel.save sampleWorld) =
        .ok (.error (.kernel e), { sampleKernel with cache := cache }, w) ∧
      ∀ place ∈ sampleKernel.workspace.snapshotPlaces,
        w.files.fileAt? place = (sampleKernel.save sampleWorld).files.fileAt? place) ∧
    (∃ result cache w, sampleKernel.turn (endingTools ⟨"done", [], true⟩) "x := 1; type T int"
        (start sampleConfig sampleWorld).2 =
      .ok (result, ⟨sampleConfig, sampleKernel.workspace,
        ⟨["x"], [], [⟨.typeDecl, "T", "type T int"⟩]⟩, cache⟩, w)) ∧
    ∃ result cache w, literalKernel.turn failingTools "type T int"
        (start sampleConfig sampleWorld).2 =
      .ok (result, ⟨sampleConfig, sampleKernel.workspace, ⟨["g"], [], []⟩, cache⟩, w) := by
  refine ⟨?_, ?_, ?_⟩
  · obtain ⟨t, cache, w₁, -, hfail, -⟩ :=
      turn_all_or_nothing absentTools sampleKernel "x := 1" (sampleKernel.save sampleWorld)
    obtain ⟨e, w₂, hrun⟩ := runProgram_absentTools sampleKernel.config t.program
      sampleKernel.workspace.programPath w₁
    obtain ⟨hturn, hkept⟩ := hfail e w₂ hrun
    exact ⟨e, cache, w₂, hturn, fun place hplace =>
      hkept place hplace ⟨fun _ _ => rfl, fun _ _ _ => rfl, fun _ _ => rfl⟩⟩
  · obtain ⟨t, cache, w₁, ht, -, hran⟩ := turn_all_or_nothing (endingTools ⟨"done", [], true⟩)
      sampleKernel "x := 1; type T int" (start sampleConfig sampleWorld).2
    have heval : leftByRun? (endingTools ⟨"done", [], true⟩) sampleKernel "x := 1; type T int"
        (start sampleConfig sampleWorld).2 =
        some (⟨["x"], [], [⟨.typeDecl, "T", "type T int"⟩]⟩, []) := by
      decide +kernel
    obtain ⟨report, w₂, hrun, hleft, hcost⟩ := exists_run_of_leftByRun? heval ht
    obtain ⟨result, gone, w₃, hturn, -, hgone⟩ := hran report w₂ hrun
    rw [hleft] at hturn hgone
    rw [hcost gone hgone] at hturn
    exact ⟨result, cache, w₃, hturn⟩
  · obtain ⟨t, cache, w₁, ht, -, hran⟩ := turn_all_or_nothing failingTools literalKernel
      "type T int" (start sampleConfig sampleWorld).2
    have heval : leftByRun? failingTools literalKernel "type T int"
        (start sampleConfig sampleWorld).2 = some (literalKernel.session, ["f".toList]) := by
      decide +kernel
    obtain ⟨report, w₂, hrun, hleft, hcost⟩ := exists_run_of_leftByRun? heval ht
    obtain ⟨result, gone, w₃, hturn, -, hgone⟩ := hran report w₂ hrun
    rw [hleft] at hturn hgone
    rw [hcost gone hgone] at hturn
    exact ⟨result, cache, w₃, hturn⟩

end Kernel

end Notebook
