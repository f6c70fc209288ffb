import Notebook.Proofs.ReplayCaptures
import Notebook.Proofs.TurnEffect

/-!
# What a plain turn makes of its session

A turn keeps no variable as such.  It writes the session into a program, and what the plan
finds in that program is the session afterwards.  An input is plain if it is made of complete
statements that declare nothing at package level, store nothing by themselves and cannot be
taken for the mark.  On such an input the plan finds the session again, and behind it what the
input captures; the stages in between wrap, delete and add statements, but none that captures
a name.

## Main statements

* `Kernel.plan_of_plain`: the plan of a plain turn
* `Kernel.session_of_plain`: the session behind a plain turn that ends well
-/

namespace Notebook

open Lexer List

variable {config : Config} {files : FileTree} {k' : Kernel} {given : List Row}
  {session : Session} {out program : Text} {store : ValueStore}

/-- An input of complete statements, none of them a package-level declaration or a storing
call, that holds no part of the mark. -/
structure IsPlainInput (t : Text) : Prop where
  closed : LexicallyClosed t
  balanced : Balanced t
  terminated : Terminated t
  inner : ∀ st ∈ (Source.ofText t).statements, (Source.ofText t).isPackageLevel st = false
  calls : ∀ st ∈ (Source.ofText t).statements, (Source.ofText t).isPersistence st = false
  free : ¬markTail <:+: t

instance (t : Text) : Decidable (IsPlainInput t) :=
  decidable_of_iff
    (LexicallyClosed t ∧ Balanced t ∧ Terminated t ∧
      (∀ st ∈ (Source.ofText t).statements, (Source.ofText t).isPackageLevel st = false) ∧
      (∀ st ∈ (Source.ofText t).statements, (Source.ofText t).isPersistence st = false) ∧
      ¬markTail <:+: t)
    ⟨fun ⟨a, b, c, d, e, f⟩ => ⟨a, b, c, d, e, f⟩, fun ⟨a, b, c, d, e, f⟩ =>
      ⟨a, b, c, d, e, f⟩⟩

theorem IsPlainInput.exists_rowsOf {t : Text} (h : IsPlainInput t) : ∃ rows, RowsOf t rows :=
  Notebook.exists_rowsOf h.closed h.balanced h.terminated

/-- The names that the statements of a text capture, with their function literals. -/
def inputCaptures (t : Text) : List NamedLiteral :=
  ((Source.ofText t).statements.flatMap (Source.ofText t).bindings).filterMap fun b =>
    (PersistencePlan.captured (.ofText t) b).map Capture.named

namespace RowsOf

variable {t : Text} {rows : List Row}

theorem lexed_of_mem (h : RowsOf t rows) {b : List Piece} (hb : b ∈ Row.bodies rows) :
    Lexed b :=
  (h.laid.lexed_of_mem hb).1

/-- An input captures what its rows capture. -/
theorem flatMap_capturesOf (h : RowsOf t rows) :
    (Row.bodies rows).flatMap capturesOf = inputCaptures t :=
  (captures_of_spells (h.laid.statements h.closed) fun _ hb => h.lexed_of_mem hb).symm

/-- What is decided by the pieces of a statement holds of no statement if it holds of no
row. -/
theorem forall_statements_iff (h : RowsOf t rows) {f : Source → Statement → Bool}
    {g : List Piece → Bool} (hfg : ∀ {s st body}, st.Spells s body → f s st = g body) :
    (∀ st ∈ (Source.ofText t).statements, f (.ofText t) st = false) ↔
      ∀ b ∈ Row.bodies rows, g b = false := by
  rw [← Row.map_body_paired 0 .start, h.statements, forall_mem_map, forall_mem_map]
  refine forall₂_congr fun p hp => ?_
  rw [hfg (h.spells p hp)]

theorem storesValue_eq_false (h : RowsOf t rows)
    (hcalls : ∀ st ∈ (Source.ofText t).statements,
      (Source.ofText t).isPersistence st = false) :
    ∀ b ∈ Row.bodies rows, storesValue b = false :=
  (h.forall_statements_iff Statement.Spells.isPersistence_eq).1 hcalls

end RowsOf

namespace Session

/-- A session with captures behind its variables. -/
def extended (session : Session) (more : List NamedLiteral) : Session where
  names := (firstNamed (session.entries ++ more)).map Prod.fst
  literals := literalsOf (firstNamed (session.entries ++ more))
  declarations := session.declarations

/-- Without captures a session stays as it is. -/
theorem Replayable.extended_nil (h : session.Replayable store files) :
    session.extended [] = session := by
  rw [extended, append_nil, h.firstNamed_entries, map_fst_entries, h.literalsOf_entries]

/-- Declarations that can stand in front of an entry function: each is complete and holds no
mark, and together they declare no entry function. -/
structure Declarable (session : Session) : Prop where
  sources : ∀ d ∈ session.declarations,
    LexicallyClosed d.source ∧ Balanced d.source ∧ ¬inputMark <:+: d.source
  noMain : ¬DeclaresMain (Declaration.render session.declarations)

end Session

namespace Session.Replayable

/-- The statements that bring variables back stand alone, capture their names and hold no
mark. -/
theorem lines_stand (h : session.Replayable store files) : ∀ b ∈ session.lines store files,
    StandsAlone b ∧ capturesOf b ≠ [] ∧ ¬inputMark <:+: textOf b := by
  intro b hb
  obtain ⟨n, hn, rfl⟩ := mem_map.1 hb
  refine ⟨h.standsAlone_linePieces hn, ?_, h.mark_notInfix_linePieces hn⟩
  rw [h.capturesOf_linePieces hn]
  exact cons_ne_nil _ _

theorem sound_leadRows (h : session.Replayable store files) (hgiven : ∀ r ∈ given, r.Sound) :
    ∀ r ∈ leadRows (session.lines store files) ++ given, r.Sound :=
  forall_mem_append.2
    ⟨Notebook.sound_leadRows fun b hb => (h.lines_stand b hb).1, hgiven⟩

end Session.Replayable

/-- The plan of a program in which a session comes back, rows follow that store nothing, and
names are discarded: it finds the session, and behind it what the rows capture. -/
theorem planPersistence_of_lines {front : Text} (hfront : IsFront front)
    (hsession : session.Replayable store files) (hgiven : ∀ r ∈ given, r.Sound)
    (hcalls : ∀ b ∈ Row.bodies given, storesValue b = false) {unused : List Text}
    (hunused : ∀ n ∈ unused, IsIdentifier n) :
    ∃ plan, planPersistence (framed front (leadRows (session.lines store files) ++ given ++
        lineRows (unused.map discardPieces))) = .ok (some plan) ∧
      (∃ more, plan.program = front ++ entryOpening ++
        '\n' :: (((session.lines store files).map textOf).flatMap bodyLine ++ more)) ∧
      plan.names = (session.extended ((Row.bodies given).flatMap capturesOf)).names ∧
      plan.literals =
        (session.extended ((Row.bodies given).flatMap capturesOf)).literals := by
  have hdiscards : ∀ b ∈ unused.map discardPieces, StandsAlone b := by
    intro b hb
    obtain ⟨n, hn, rfl⟩ := mem_map.1 hb
    exact standsAlone_discardPieces (hunused n hn)
  have hbodies : Row.bodies (leadRows (session.lines store files) ++ given ++
        lineRows (unused.map discardPieces)) =
      session.lines store files ++ Row.bodies given ++ unused.map discardPieces := by
    rw [Row.bodies_append, Row.bodies_append, bodies_leadRows, bodies_lineRows]
    · exact fun b hb => (hdiscards b hb).isStatement.ne_nil
    · exact fun b hb => (hsession.lines_stand b hb).1.isStatement.ne_nil
  have hfound : (session.lines store files ++ Row.bodies given ++
        unused.map discardPieces).flatMap capturesOf =
      session.entries ++ (Row.bodies given).flatMap capturesOf := by
    have hnothing : (unused.map discardPieces).flatMap capturesOf = [] := by
      simp [flatMap_map, capturesOf_discardPieces]
    rw [flatMap_append, flatMap_append, hnothing, append_nil,
      hsession.flatMap_capturesOf_lines]
  have hsound : ∀ r ∈ leadRows (session.lines store files) ++ given ++
      lineRows (unused.map discardPieces), r.Sound :=
    forall_mem_append.2 ⟨hsession.sound_leadRows hgiven, sound_lineRows hdiscards⟩
  have hnone : ∀ b ∈ Row.bodies (leadRows (session.lines store files) ++ given ++
      lineRows (unused.map discardPieces)), storesValue b = false := by
    intro b hb
    rw [hbodies, mem_append, mem_append] at hb
    rcases hb with (hb | hb) | hb
    · obtain ⟨n, hn, rfl⟩ := mem_map.1 hb
      exact hsession.storesValue_linePieces hn
    · exact hcalls b hb
    · obtain ⟨n, -, rfl⟩ := mem_map.1 hb
      exact storesValue_discardPieces n
  obtain ⟨plan, hplan, ⟨calls, hprogram⟩, hnames, hliterals⟩ :=
    planPersistence_framed hfront hsound hnone
  rw [hbodies, hfound] at hnames hliterals
  refine ⟨plan, hplan, ⟨'\t' :: textOf (Row.flatten given) ++
    (textOf (Row.flatten (lineRows (unused.map discardPieces))) ++
      (calls ++ "\x7d\n".toList)), ?_⟩,
    hnames, hliterals⟩
  rw [hprogram, Row.flatten_append, Row.flatten_append, textOf_append, textOf_append,
    textOf_leadRows]
  simp only [append_assoc, cons_append, nil_append]

namespace Kernel

variable {σ : Type} {tools : Toolchain σ} {k : Kernel} {input : Text} {w : World σ}

/-- The program of a plain turn before its value is shown. -/
theorem assemble_of_plain (hsession : session.Replayable store files)
    (hinner : ∀ st ∈ (Source.ofText input).statements,
      (Source.ofText input).isPackageLevel st = false)
    (hagain : redeclarations session input = []) :
    assemble session store files input = .ok ⟨programText session.declarations
      (((session.lines store files).map textOf).flatMap bodyLine)
        (input.trim ++ " " ++ inputMark), []⟩ := by
  have hedits : Edit.applyAll input (demotions (redeclarations session input)) =
      .ok input := by
    rw [hagain]
    exact Edit.applyAll_nil input
  have hskipped : skippedNames (redeclarations session input) = [] := by
    rw [hagain]
    rfl
  simp only [assemble_eq, splitDeclarations_of_none hinner, hedits, bind, Except.bind]
  rw [hskipped, hsession.rehydrationLines_eq]
  rfl

section

variable (hsession : k.session.Replayable k.workspace.store w.files)
  (hdeclared : k.session.Declarable) (hinput : IsPlainInput input)
  (hagain : redeclarations k.session input = []) {t : TurnProgram} {cache : ArityCache}
  {w₁ : World σ} (ht : k.turnProgram tools input w = .ok (t, cache, w₁))
include hsession hdeclared hinput hagain ht

/-- The plan of a plain turn finds the session again, and behind it what the input
captures. -/
theorem plan_of_plain :
    t.declarations = [] ∧
      (∃ more, t.program = programFront k.session.declarations ++ entryOpening ++ '\n' ::
        (((k.session.lines k.workspace.store w.files).map textOf).flatMap bodyLine ++ more)) ∧
      ∃ plan, t.plan = some plan ∧
      plan.names = (k.session.extended (inputCaptures input)).names ∧
      plan.literals = (k.session.extended (inputCaptures input)).literals := by
  obtain ⟨rows, hrows⟩ := hinput.exists_rowsOf
  have hfront : IsFront (programFront k.session.declarations) :=
    isFront_programFront
      (fun d hd => ⟨(hdeclared.sources d hd).1, (hdeclared.sources d hd).2.1⟩)
      hdeclared.noMain
  -- One stage after the other: the program, the shown value, the trial build and the plan.
  obtain ⟨made, hmade, ht⟩ := Checked.bind_eq_ok.1 ht
  rw [assemble_of_plain hsession hinput.inner hagain] at hmade
  cases hmade
  obtain ⟨⟨shown, cache', w₂⟩, hshown, ht⟩ := Checked.bind_eq_ok.1 ht
  obtain ⟨given, hgiven, hstripped, hcaptures, hcalls⟩ := display_strips hfront
    (fun d hd => (hdeclared.sources d hd).2.2) hsession.lines_stand hrows hinput.free hshown
  obtain ⟨⟨resolved, w₃⟩, hresolved, ht⟩ := Checked.bind_eq_ok.1 ht
  rw [hstripped] at hresolved
  obtain ⟨unused, hunused, hprogram⟩ :=
    resolve_framed hfront (hsession.sound_leadRows hgiven) hresolved
  obtain ⟨plan, hplan, ht⟩ := Checked.bind_eq_ok.1 ht
  cases ht
  obtain ⟨plan', hplan', hlines, hnames, hliterals⟩ :=
    planPersistence_of_lines hfront hsession hgiven
      (hcalls (hrows.storesValue_eq_false hinput.calls)) hunused
  rw [hcaptures, hrows.flatMap_capturesOf] at hnames hliterals
  rw [hprogram, hplan'] at hplan
  cases hplan
  exact ⟨rfl, hlines, plan', rfl, hnames, hliterals⟩

/-- In the program of a plain turn every variable of the session comes back on lines of its
own. -/
theorem standsAtLine_of_plain {x : Text} (hx : x ∈ k.session.names) :
    ∃ statement first,
      k.workspace.store.rehydration w.files x (k.session.literal? x) = .ok statement ∧
      StandsAtLine t.program statement first := by
  obtain ⟨-, ⟨more, hprogram⟩, -⟩ := plan_of_plain hsession hdeclared hinput hagain ht
  have hmem : textOf (k.session.linePieces k.workspace.store w.files x) ∈
      (k.session.lines k.workspace.store w.files).map textOf :=
    mem_map_of_mem (mem_map_of_mem hx)
  have habove :
      Text.EndsLine (programFront k.session.declarations ++ entryOpening ++ ['\n']) :=
    .inr getLast?_concat
  obtain ⟨first, hstands⟩ := standsAtLine_of_mem habove hmem more
  refine ⟨_, first, hsession.rehydration_eq hx, ?_⟩
  rw [hprogram]
  simpa only [append_assoc, singleton_append] using hstands

end

/-! ### Turns that end well -/

theorem exitedOk_reportOf {output : ToolOutput}
    (h : (reportOf config output program).failure = none) : output.success = true := by
  cases hsuccess : output.success with
  | true => rfl
  | false =>
    unfold reportOf at h
    dsimp only at h
    rw [hsuccess] at h
    split at h
    · cases h
    · cases h

/-- A run without a failure ended well. -/
theorem exitedOk_of_failure {path : Path} {w w' : World σ} {report : RunReport}
    (hrun : runProgram tools config program path w = (.ok report, w'))
    (hfailure : report.failure = none) : report.exitedOk = true := by
  unfold runProgram at hrun
  split at hrun
  · cases hrun
  · split at hrun
    · cases hrun
    · split at hrun
      · unfold runFile at hrun
        split at hrun
        · cases hrun
        · split at hrun
          · cases hrun
          · split at hrun
            · cases hrun
            · cases hrun
              exact exitedOk_reportOf hfailure
      · split at hrun
        · cases hrun
        · cases hrun
          cases hfailure

/-- A turn ends well when its program was run without a failure. -/
theorem exists_run_of_turn_ok {w' : World σ}
    (h : k.turn tools input w = .ok (.ok out, k', w')) :
    ∃ t cache w₁ report, k.turnProgram tools input w = .ok (t, cache, w₁) ∧
      report.exitedOk = true ∧
      k' = ⟨k.config, k.workspace, sessionAfterRun k.session t report, cache⟩ := by
  obtain ⟨⟨t, cache, w₁⟩, ht, h⟩ := Checked.bind_eq_ok.1 h
  refine ⟨t, cache, w₁, ?_⟩
  cases hrun : runProgram tools k.config t.program k.workspace.programPath w₁ with
  | mk outcome w₂ =>
    simp only [hrun] at h
    cases outcome with
    | error e => cases h
    | ok report =>
      unfold finish at h
      dsimp only at h
      split at h
      next hfailure =>
        cases h
        exact ⟨report, ht, exitedOk_of_failure hrun hfailure, rfl⟩
      · cases h

/-- A turn whose program could not be run leaves the session as it was. -/
theorem session_of_kernel_error {e : KernelError} {w' : World σ}
    (h : k.turn tools input w = .ok (.error (.kernel e), k', w')) :
    k'.session = k.session := by
  obtain ⟨⟨t, cache, w₁⟩, ht, h⟩ := Checked.bind_eq_ok.1 h
  cases hrun : runProgram tools k.config t.program k.workspace.programPath w₁ with
  | mk outcome w₂ =>
    simp only [hrun] at h
    cases outcome with
    | error e =>
      cases h
      rfl
    | ok report =>
      unfold finish at h
      dsimp only at h
      split at h
      all_goals cases h

/-- A plain turn that ends well puts what its input captures behind the session. -/
theorem session_of_plain (hsession : k.session.Replayable k.workspace.store w.files)
    (hdeclared : k.session.Declarable) (hinput : IsPlainInput input)
    (hagain : redeclarations k.session input = []) {w' : World σ}
    (h : k.turn tools input w = .ok (.ok out, k', w')) :
    k'.session = k.session.extended (inputCaptures input) ∧ k'.workspace = k.workspace := by
  obtain ⟨t, cache, w₁, report, ht, hexited, rfl⟩ := exists_run_of_turn_ok h
  obtain ⟨hdeclarations, -, plan, hplan, hnames, hliterals⟩ :=
    plan_of_plain hsession hdeclared hinput hagain ht
  refine ⟨?_, rfl⟩
  rw [Session.sessionAfterRun_eq k.session (sound_of_turnProgram tools k input w ht) report,
    Session.afterRun, if_pos hexited, hplan, hdeclarations]
  show Session.mk plan.names plan.literals k.session.declarations = _
  rw [hnames, hliterals]
  rfl

end Kernel

end Notebook
