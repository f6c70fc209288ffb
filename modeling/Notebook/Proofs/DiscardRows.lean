import Notebook.Proofs.MarkedProgram

/-!
# Unused names, row by row

A trial build may report names that nothing uses, and then they are used for nothing on lines
at the end of the entry function.  Whatever program the build was given in the end, the names
are identifiers that a statement of it binds, so the lines are rows, and rows that capture
nothing.

## Main statements

* `isIdentifier_of_mem_bindings`: bound names are identifiers
* `resolve_framed`: the rows of a program behind its trial build
-/

namespace Notebook

open Lexer List

/-! ### Bound names -/

/-- Bound names are identifiers. -/
theorem isIdentifier_of_mem_bindings {s : Source} {st : Statement} {b : Binding}
    (hb : b ∈ s.bindings st) : IsIdentifier b.name := by
  obtain ⟨t, ht, hkind, hname, -⟩ := (Source.namedIn_bindings s st).exists_token hb
  rw [s.tokens_eq] at ht
  rw [← hname]
  exact isIdentifier_of_mem_tokenize ht hkind

theorem isIdentifier_of_mem_unusedNames {built : Text} {reports : List UnusedReport}
    {names : List Text} (h : unusedNames built reports = .ok names) :
    ∀ n ∈ names, IsIdentifier n := by
  rw [unusedNames_eq] at h
  cases h
  intro n hn
  obtain ⟨r, hr, rfl⟩ := mem_map.1 (mem_eraseDups.1 hn)
  obtain ⟨-, -, st, -, hbinds, -⟩ := of_decide_eq_true (mem_filter.1 hr).2
  obtain ⟨b, hb, hname⟩ := mem_map.1 hbinds
  rw [← hname]
  exact isIdentifier_of_mem_bindings hb

/-! ### Lines that use a name for nothing -/

/-- The pieces of the line that uses a name for nothing. -/
def discardPieces (name : Text) : List Piece :=
  [⟨.token .ident, ['_']⟩, ⟨.blank, [' ']⟩, ⟨.token .assign, ['=']⟩, ⟨.blank, [' ']⟩,
    ⟨.token .ident, name⟩]

theorem textOf_discardPieces (name : Text) :
    textOf (discardPieces name) = "_ = " ++ name := by
  simp [discardPieces]

theorem standsAlone_discardPieces {name : Text} (h : IsIdentifier name) :
    StandsAlone (discardPieces name) := by
  have hname : Lexed [⟨.token .ident, name⟩] := by
    refine lexed_cons.2 ⟨h.reads ?_, lexed_nil⟩
    rintro d ⟨⟩
  have hfront : Lexed [⟨.token .ident, ['_']⟩, ⟨.blank, [' ']⟩, ⟨.token .assign, ['=']⟩,
      ⟨.blank, [' ']⟩] := by
    decide +kernel
  refine ⟨lexed_append hfront hname (by decide) ?_, ?_, ⟨rfl, ?_, ?_⟩, rfl⟩
  · rintro p ⟨⟩
    exact .inl rfl
  · intro p hp
    simp only [discardPieces, mem_cons, not_mem_nil, or_false] at hp
    rcases hp with rfl | rfl | rfl | rfl | rfl <;> rfl
  · rintro p ⟨⟩
    rfl
  · rintro p ⟨⟩
    rfl

/-- Using a name for nothing captures nothing. -/
theorem capturesOf_discardPieces (name : Text) : capturesOf (discardPieces name) = [] := by
  rfl

theorem storesValue_discardPieces (name : Text) :
    storesValue (discardPieces name) = false := by
  rfl

/-! ### The trial build -/

/-- The lines that use names for nothing are rows. -/
theorem flatMap_discardLine (names : List Text) :
    names.flatMap discardLine =
      textOf (Row.flatten (lineRows (names.map discardPieces))) := by
  rw [textOf_lineRows, map_map, flatMap_map]
  refine flatMap_congr fun n _ => ?_
  rw [Function.comp_apply, textOf_discardPieces, discardLine]

section Resolve

variable {σ : Type} {tools : Toolchain σ} {ws : Workspace} {w w' : World σ}

/-- A trial build leaves the program as it is, and then no name counts that it reports; or it
reports names that count, and these are used for nothing. -/
theorem resolve_cases {program : Text} {resolved : Resolution}
    (h : resolve tools ws program w = .ok (resolved, w')) :
    (resolved.program = program ∧ resolved.unused = [] ∧
        ∀ entry built report, (Source.ofText program).entryPoint = some entry →
          (trialBuild tools ws program w).1 = .ok (some (built, report)) →
          unusedNames built (unusedReports report) = .ok []) ∨
      ∃ entry built report, (Source.ofText program).entryPoint = some entry ∧
        trialBuild tools ws program w = (.ok (some (built, report)), w') ∧
          resolved.unused ≠ [] ∧
        unusedNames built (unusedReports report) = .ok resolved.unused ∧
        discardNames program entry resolved.unused = .ok resolved.program := by
  rw [resolve_eq] at h
  split at h
  next hnone =>
    cases h
    refine .inl ⟨rfl, rfl, fun entry _ _ hentry => ?_⟩
    rw [hnone] at hentry
    cases hentry
  next entry hentry =>
    cases hbuild : trialBuild tools ws program w with
    | mk outcome w₁ =>
      rw [hbuild] at h
      obtain ⟨resolved', hresolved, h⟩ := Checked.bind_eq_ok.1 h
      cases h
      cases outcome with
      | error e =>
        cases hresolved
        exact .inl ⟨rfl, rfl, fun _ _ _ _ hreport => by cases hreport⟩
      | ok found =>
        cases found with
        | none =>
          cases hresolved
          exact .inl ⟨rfl, rfl, fun _ _ _ _ hreport => by cases hreport⟩
        | some found =>
          obtain ⟨built, report⟩ := found
          obtain ⟨unused, hunused, hresolved⟩ := Checked.bind_eq_ok.1 hresolved
          split at hresolved
          next hnil =>
            cases hresolved
            rw [List.isEmpty_iff.1 hnil] at hunused
            refine .inl ⟨rfl, rfl, ?_⟩
            rintro _ _ _ - ⟨⟩
            exact hunused
          next hne =>
            obtain ⟨text, htext, hresolved⟩ := Checked.bind_eq_ok.1 hresolved
            cases hresolved
            refine .inr ⟨entry, built, report, hentry, rfl, ?_, hunused, htext⟩
            simpa using hne

/-- Behind a trial build, the rows of a program are its own and lines that use names for
nothing. -/
theorem resolve_framed {front : Text} (hfront : IsFront front) {rows : List Row}
    (hrows : ∀ r ∈ rows, r.Sound) {resolved : Resolution}
    (h : resolve tools ws (framed front rows) w = .ok (resolved, w')) :
    ∃ names : List Text, (∀ n ∈ names, IsIdentifier n) ∧
      resolved.program = framed front (rows ++ lineRows (names.map discardPieces)) := by
  rcases resolve_cases h with ⟨hsame, -, -⟩ | ⟨entry, built, report, hentry, -, -,
    hunused, htext⟩
  · exact ⟨[], by simp, by simp [hsame, lineRows]⟩
  · rw [entryPoint_framed hfront hrows] at hentry
    cases hentry
    refine ⟨resolved.unused, isIdentifier_of_mem_unusedNames hunused, ?_⟩
    have hdiscarded : discardNames (framed front rows) (framedEntry front rows)
      resolved.unused =
        .ok (front ++ entryOpening ++ textOf (Row.flatten rows) ++
          resolved.unused.flatMap discardLine ++ "\x7d\n") :=
      applyAll_insertion _
    rw [hdiscarded] at htext
    rw [← Except.ok.inj htext, framed, Row.flatten_append, textOf_append, flatMap_discardLine,
      ← append_assoc]

end Resolve

end Notebook
