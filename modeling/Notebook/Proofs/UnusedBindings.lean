import Notebook.Proofs.ChangedRows
import Notebook.Proofs.DiscardRows

/-!
# Unused bindings of a program

The names that a trial build reports, as far as they count, are used for nothing at the end of
the program's entry function.  Nothing else changes: the text around the body and the
statements in it are as before.

## Main statements

* `BodyRows.discardNames_eq`: the text of a program with names used for nothing
* `BodyRows.texts_discarded`: its statements
* `resolve_discards`: what becomes of a program in a trial build
-/

namespace Notebook

open Lexer List

/-- The text of a program with names used for nothing: only the end of its body changes. -/
theorem BodyRows.discardNames_eq {program : Text} {entry : EntryPoint}
    {front back : List Piece} {rows : List Row} {rest : Row}
    (h : BodyRows program entry front rows rest back) (names : List Text) :
    discardNames program entry names = .ok (textOf front ++
      (textOf (Row.flatten (rows ++ [rest])) ++ names.flatMap discardLine) ++
        textOf back) := by
  have hstop : entry.bodyStop =
      Text.byteSize (textOf front ++ textOf (Row.flatten (rows ++ [rest]))) := by
    rw [h.entry_eq, enclosedEntry, textOf_append]
  rw [discardNames, discards, hstop]
  conv_lhs => rw [h.text_eq]
  rw [applyAll_insertion, append_assoc (textOf front)]

/-- The statements of a program with names used for nothing, if its last statement is
ended. -/
theorem BodyRows.texts_discarded {program : Text} {entry : EntryPoint}
    {front back : List Piece} {rows : List Row} {rest : Row}
    (h : BodyRows program entry front rows rest back)
    (hlast : ∀ st, ((Source.ofText program).bodyStatements entry).getLast? = some st →
      st.terminator ≠ none) {names : List Text} (hnames : ∀ n ∈ names, IsIdentifier n)
    {result : Text} (hresult : result = textOf front ++
      (textOf (Row.flatten (rows ++ [rest])) ++ names.flatMap discardLine) ++ textOf back) :
    ∃ entry' texts, (Source.ofText result).entryPoint = some entry' ∧
      entry'.bodyStart = Text.byteSize (textOf front) ∧
      entry'.bodyStop = Text.byteSize (textOf front ++
        (textOf (Row.flatten (rows ++ [rest])) ++ names.flatMap discardLine)) ∧
      (Source.ofText program).texts ((Source.ofText program).bodyStatements entry) =
        .ok texts ∧
      (Source.ofText result).texts ((Source.ofText result).bodyStatements entry') =
        .ok (texts ++ names.map fun n : Text => ("_ = " ++ n : Text)) := by
  have hflat := h.flatten_eq hlast
  let lines := lineRows (names.map discardPieces)
  have halone : ∀ b ∈ names.map discardPieces, StandsAlone b := by
    rw [forall_mem_map]
    exact fun n hn => standsAlone_discardPieces (hnames n hn)
  have hrows : ∀ r ∈ rows ++ lines, r.Ended := by
    intro r hr
    rcases mem_append.1 hr with hr | hr
    · exact h.ended r hr
    · exact (sound_lineRows halone r hr).ended
  have hinside : textOf (Row.flatten (rows ++ [rest])) ++ names.flatMap discardLine =
      textOf (Row.flatten (rows ++ lines)) := by
    rw [hflat, flatMap_discardLine, Row.flatten_append, textOf_append]
  have hsource : Source.ofText result =
      .ofText (textOf (front ++ (Row.flatten (rows ++ lines) ++ back))) := by
    rw [hresult, hinside, textOf_append, textOf_append, append_assoc]
  have hprogram : Source.ofText program =
      .ofText (textOf (front ++ (Row.flatten rows ++ back))) := by
    rw [← hflat, ← h.pieces, textOf_pieces]
  obtain ⟨hstatements, hspells⟩ := bodyStatements_rows h.opening h.closing h.ended hprogram
  obtain ⟨hstatements', hspells'⟩ := bodyStatements_rows h.opening h.closing hrows hsource
  have hbodies : Row.bodies (rows ++ lines) = Row.bodies rows ++ names.map discardPieces := by
    rw [Row.bodies_append, bodies_lineRows]
    exact fun b hb => (halone b hb).isStatement.ne_nil
  refine ⟨_, (Row.bodies rows).map textOf,
    entryPoint_rows h.opening h.closing hrows hsource, rfl, ?_, ?_, ?_⟩
  · rw [hinside, enclosedEntry, textOf_append]
  · rw [h.entry_eq, hflat, hstatements, Source.texts_of_spells hspells]
  · rw [hstatements', Source.texts_of_spells hspells', hbodies, map_append, map_map]
    congr 3
    exact funext textOf_discardPieces

/-- **Unused names are discarded.**  `resolve` leaves a program as it is, with no unused
names, if it has no `entryPoint`, or if `trialBuild` reports no name that a statement of the
built text binds on the reported line (`UnusedReport.PointsInto`).  Otherwise the unused names
are those that are reported so, each once and in the order of the reports; a `discardLine` for
each is put at the end of the body; and if the last statement was ended then the statements
are those of the program and these lines. -/
theorem resolve_discards {σ : Type} (tools : Toolchain σ) (ws : Workspace) (program : Text)
    (w : World σ) :
    ∃ resolved w', resolve tools ws program w = .ok (resolved, w') ∧
      ((resolved.program = program ∧ resolved.unused = [] ∧
          ∀ entry built report, (Source.ofText program).entryPoint = some entry →
            (trialBuild tools ws program w).1 = .ok (some (built, report)) →
            ∀ r ∈ unusedReports report, ¬r.PointsInto built) ∨
        ∃ entry built report, ∃ front inside back : Text,
          (Source.ofText program).entryPoint = some entry ∧
          trialBuild tools ws program w = (.ok (some (built, report)), w') ∧
          resolved.unused ≠ [] ∧ resolved.unused.Nodup ∧
          (∀ n, n ∈ resolved.unused ↔ ∃ r ∈ unusedReports report,
            r.PointsInto built ∧ r.name = n) ∧
          resolved.unused =
            (((unusedReports report).filter fun r => r.PointsInto built).map
              (·.name)).eraseDups ∧
          program = front ++ inside ++ back ∧
          entry.bodyStart = front.byteSize ∧ entry.bodyStop = (front ++ inside).byteSize ∧
          resolved.program =
            front ++ (inside ++ resolved.unused.flatMap discardLine) ++ back ∧
          ((∀ st, ((Source.ofText program).bodyStatements entry).getLast? = some st →
              st.terminator ≠ none) →
            ∃ entry' texts, (Source.ofText resolved.program).entryPoint = some entry' ∧
              entry'.bodyStart = front.byteSize ∧
              entry'.bodyStop =
                (front ++ (inside ++ resolved.unused.flatMap discardLine)).byteSize ∧
              (Source.ofText program).texts ((Source.ofText program).bodyStatements entry) =
                .ok texts ∧
              (Source.ofText resolved.program).texts
                  ((Source.ofText resolved.program).bodyStatements entry') =
                .ok (texts ++ resolved.unused.map fun n : Text =>
                  ("_ = " ++ n : Text)))) := by
  obtain ⟨⟨resolved, w'⟩, hresolved⟩ := resolve_ok tools ws program w
  refine ⟨resolved, w', hresolved, ?_⟩
  rcases resolve_cases hresolved with
    ⟨hsame, hnil, hnone⟩ | ⟨entry, built, report, hentry, hbuild, hne, hunused, hdiscarded⟩
  · refine .inl ⟨hsame, hnil, fun entry built report hentry hbuild r hr hpoints => ?_⟩
    have hnames := hnone entry built report hentry hbuild
    rw [unusedNames_eq, Except.ok.injEq] at hnames
    have hmem : r.name ∈
        (((unusedReports report).filter fun r => r.PointsInto built).map
          (·.name)).eraseDups :=
      mem_eraseDups.2
        (mem_map_of_mem (mem_filter.2 ⟨hr, by simpa using hpoints⟩))
    rw [hnames] at hmem
    cases hmem
  · obtain ⟨front, rows, rest, back, hrows⟩ := exists_bodyRows hentry
    have hidents := isIdentifier_of_mem_unusedNames hunused
    have hnodup := nodup_of_unusedNames hunused
    rw [unusedNames_eq, Except.ok.injEq] at hunused
    rw [hrows.discardNames_eq] at hdiscarded
    have hprogram := Except.ok.inj hdiscarded
    refine .inr ⟨entry, built, report, textOf front, textOf (Row.flatten (rows ++ [rest])),
      textOf back, hentry, hbuild, hne, hnodup, fun n => ?_, hunused.symm,
      hrows.text_eq, ?_, ?_,
      hprogram.symm, fun hlast => hrows.texts_discarded hlast hidents hprogram.symm⟩
    · rw [← hunused, mem_eraseDups, mem_map]
      simp [and_assoc]
    · rw [hrows.entry_eq]
      rfl
    · rw [hrows.entry_eq, enclosedEntry, textOf_append]

/-! ### Two variables that a program does not use -/

/-- Tools whose builds fail with a given report. -/
def refusingTools (report : Text) : Toolchain Unit where
  fixImports _ w := (.ok ⟨[], [], true⟩, w)
  run _ _ w := (.ok ⟨[], [], true⟩, w)
  build _ w := (.ok ⟨[], report, false⟩, w)

/-- A program with two variables that it does not use. -/
def unusedProgram : Text :=
  "package main\n\nfunc main() \x7b\n\tx := 1\n\ty := 2\n\x7d\n"

/-- A report on both, twice on one, and on a name that nothing binds. -/
def unusedReport : Text :=
  "./main.go:5:2: declared and not used: y\n./main.go:4:2: declared and not used: x\n" ++
    "./main.go:5:2: declared and not used: y\n./main.go:5:7: declared and not used: z"

/-- The variables are used for nothing behind the statements of the program, in the order of
the reports. -/
theorem resolve_discards_unused :
    ∃ resolved w' entry',
      resolve (refusingTools unusedReport) ⟨"s", "/s", rfl⟩ unusedProgram
        ⟨.empty, some "/", 0, 0, 1, ()⟩ = .ok (resolved, w') ∧
      resolved.unused = ["y".toList, "x".toList] ∧
      (Source.ofText resolved.program).entryPoint = some entry' ∧
      (Source.ofText resolved.program).texts
          ((Source.ofText resolved.program).bodyStatements entry') =
        .ok ["x := 1".toList, "y := 2".toList, "_ = y".toList, "_ = x".toList] := by
  obtain ⟨resolved, w', hresolved, h⟩ := resolve_discards (refusingTools unusedReport)
    ⟨"s", "/s", rfl⟩ unusedProgram ⟨.empty, some "/", 0, 0, 1, ()⟩
  have heval : (resolve (refusingTools unusedReport) ⟨"s", "/s", rfl⟩ unusedProgram
      ⟨.empty, some "/", 0, 0, 1, ()⟩).toOption.map (·.1.unused) =
      some ["y".toList, "x".toList] := by
    decide +kernel
  have hunused : resolved.unused = ["y".toList, "x".toList] := by
    rw [hresolved] at heval
    exact Option.some.inj heval
  rcases h with ⟨-, hnil, -⟩ | ⟨entry, built, report, front, inside, back, hentry,
    -, -, -, -, -, -, -, -, -, hstatements⟩
  · rw [hunused] at hnil
    cases hnil
  · have hended : ∀ entry, (Source.ofText unusedProgram).entryPoint = some entry →
        (Source.ofText unusedProgram).texts
            ((Source.ofText unusedProgram).bodyStatements entry) =
          .ok ["x := 1".toList, "y := 2".toList] ∧
        ∀ st, ((Source.ofText unusedProgram).bodyStatements entry).getLast? = some st →
          st.terminator ≠ none := by
      decide +kernel
    obtain ⟨htexts, hlast⟩ := hended entry hentry
    obtain ⟨entry', texts, hentry', -, -, htexts', hdiscarded⟩ := hstatements hlast
    cases htexts.symm.trans htexts'
    rw [hunused] at hdiscarded
    exact ⟨resolved, w', entry', hresolved, hunused, hentry', hdiscarded⟩

end Notebook
