import Notebook.Kernel
import Notebook.Proofs.Checked
import Notebook.Proofs.Identifiers

/-!
# Recovery makes progress

A failed run points at lines of its program.  A statement that brings a name back begins with
that name, so when a diagnostic points at the line where the statement begins, or at a later
line of it that has the name as well, the name is forgotten, and no later program brings it
back.

## Main statements

* `standsAtLine_assemble`: in an assembled program every brought back variable stands so
* `mem_implicatedNames`: which names a report implicates
* `recover_forgets`: what is forgotten after a failed run
-/

namespace Notebook

open List

variable {files : FileTree} {statements : List Text} {literal : Option Text} {s : Session}
  {a line statement u x : Text} {store : ValueStore}

/-! ### Lines -/

namespace Text

/-- A text behind which a new line begins. -/
def EndsLine (t : Text) : Prop :=
  t = [] ∨ t.getLast? = some '\n'

theorem EndsLine.tail {c : Char} {t : Text} (h : EndsLine (c :: t)) : EndsLine t := by
  cases t with
  | nil => exact .inl rfl
  | cons d t => simpa [EndsLine] using h

theorem EndsLine.append {b : Text} (ha : a.EndsLine) (hb : b.EndsLine) :
    EndsLine (a ++ b) := by
  rcases hb with rfl | hb
  · rwa [append_nil]
  · exact .inr (by rw [getLast?_append, hb]; rfl)

theorem lineFeedSegments_append (h : a.EndsLine) (b : Text) :
    lineFeedSegments (a ++ b) = lineFeedSegments a ++ lineFeedSegments b := by
  induction a with
  | nil => rfl
  | cons c a ih =>
    rw [cons_append, lineFeedSegments, lineFeedSegments, ih h.tail]
    split
    · rfl
    next hc =>
      -- The text does not end here, so it has another segment for the character to join.
      cases hsegs : lineFeedSegments a with
      | nil =>
        cases a with
        | nil => simp_all [EndsLine]
        | cons d a =>
          rw [lineFeedSegments] at hsegs
          split at hsegs
          · cases hsegs
          · split at hsegs <;> cases hsegs
      | cons l ls => rfl

/-- The lines of a text whose front part ends a line are the lines of both parts. -/
theorem lines_append (h : a.EndsLine) (b : Text) : lines (a ++ b) = lines a ++ lines b := by
  rw [lines, lineFeedSegments_append h, map_append, lines, lines]

/-- Behind its first line a text goes on with what stands before the line's end. -/
theorem lineFeedSegments_front (hne : u ≠ []) (hu : '\n' ∉ u) (rest : Text) :
    ∃ s ss, lineFeedSegments (u ++ rest) = (u ++ s) :: ss := by
  induction u with
  | nil => exact absurd rfl hne
  | cons c u ih =>
    have hc : c ≠ '\n' := fun h => hu (h ▸ mem_cons_self)
    rw [cons_append, lineFeedSegments, if_neg hc]
    cases u with
    | nil =>
      rw [nil_append]
      cases lineFeedSegments rest with
      | nil => exact ⟨[], [], rfl⟩
      | cons l ls => exact ⟨l, ls, rfl⟩
    | cons d u =>
      obtain ⟨s, ss, hs⟩ := ih (cons_ne_nil d u) fun h => hu (mem_cons_of_mem c h)
      rw [hs]
      exact ⟨s, ss, rfl⟩

/-- Dropping the end of a line drops at most a line feed and a carriage return. -/
theorem eq_dropLineEnd_append (t : Text) :
    ∃ e, t = dropLineEnd t ++ e ∧ ∀ c ∈ e, c = '\n' ∨ c = '\r' := by
  unfold dropLineEnd
  split
  next r hr => exact ⟨['\r', '\n'], by simpa using congrArg List.reverse hr, by simp⟩
  next r _ hr => exact ⟨['\n'], by simpa using congrArg List.reverse hr, by simp⟩
  · exact ⟨[], by simp, by simp⟩

/-- A front part without line ends stands in the first line. -/
theorem head?_lines_front {d : Char} (hu : '\n' ∉ u) (hlast : u.getLast? = some d)
    (hd : d ≠ '\r') (rest : Text) : ∃ r, (lines (u ++ rest)).head? = some (u ++ r) := by
  have hne : u ≠ [] := by
    rintro rfl
    cases hlast
  obtain ⟨s, ss, hs⟩ := lineFeedSegments_front hne hu rest
  obtain ⟨e, heq, he⟩ := eq_dropLineEnd_append (u ++ s)
  suffices h : ∃ r, dropLineEnd (u ++ s) = u ++ r by
    obtain ⟨r, hr⟩ := h
    exact ⟨r, by rw [lines, hs, map_cons, head?_cons, hr]⟩
  rcases append_eq_append_iff.1 heq with ⟨x, hx, -⟩ | ⟨x, hx, hend⟩
  · exact ⟨x, hx⟩
  · -- What is dropped would reach into the front part, whose last character is no line end.
    cases hxlast : x.getLast? with
    | none =>
      rw [getLast?_eq_none_iff.1 hxlast, append_nil] at hx
      exact ⟨[], by rw [append_nil]; exact hx.symm⟩
    | some c =>
      have hcd : c = d := by
        rw [hx, getLast?_append, hxlast] at hlast
        exact Option.some.inj hlast
      have hce : c ∈ e := hend ▸ mem_append_left s (mem_of_getLast? hxlast)
      have hcu : c ∈ u := hcd ▸ mem_of_getLast? hlast
      rcases he c hce with rfl | rfl
      · exact absurd hcu hu
      · exact absurd hcd.symm hd

end Text

theorem endsLine_bodyLine (statement : Text) : Text.EndsLine (bodyLine statement) :=
  .inr (by rw [bodyLine, getLast?_append]; rfl)

/-- A statement that stands in a program on lines of its own, the first of which has the
number `first`. -/
def StandsAtLine (program statement : Text) (first : Nat) : Prop :=
  ∃ above below, Text.EndsLine above ∧ program = above ++ bodyLine statement ++ below ∧
    first = above.lines.length + 1

/-- Each of some statements that stand on lines of their own, one behind the other. -/
theorem standsAtLine_of_mem {above : Text} (habove : above.EndsLine)
    (h : statement ∈ statements) (below : Text) :
    ∃ first, StandsAtLine (above ++ (statements.flatMap bodyLine ++ below))
      statement first := by
  obtain ⟨front, back, rfl⟩ := append_of_mem h
  have hfront : Text.EndsLine (above ++ front.flatMap bodyLine) := by
    refine habove.append ?_
    clear h
    induction front with
    | nil => exact .inl rfl
    | cons first front ih => exact (endsLine_bodyLine first).append ih
  refine ⟨_, above ++ front.flatMap bodyLine, back.flatMap bodyLine ++ below, hfront, ?_, rfl⟩
  rw [flatMap_append, flatMap_cons]
  simp only [append_assoc]

/-- The statements in front of the body of a program stand on lines of their own. -/
theorem standsAtLine_programText (ds : List Declaration) (h : statement ∈ statements)
    (body : Text) :
    ∃ first, StandsAtLine (programText ds (statements.flatMap bodyLine) body)
      statement first := by
  have hopening : List.getLast? "func main() \x7b\n".toList = some '\n' := by decide
  unfold programText
  generalize "func main() \x7b\n".toList = opening at hopening ⊢
  generalize "package main\n\n".toList = front
  have habove : Text.EndsLine (front ++ Declaration.render ds ++ opening) :=
    .inr (by rw [getLast?_append, hopening]; rfl)
  obtain ⟨first, hstands⟩ :=
    standsAtLine_of_mem habove h ("\t".toList ++ (body ++ "\n\x7d\n"))
  refine ⟨first, ?_⟩
  simp only [append_assoc] at hstands ⊢
  exact hstands

/-- The lines of a statement are lines of the program. -/
theorem StandsAtLine.lineOf? {program : Text} {first i : Nat}
    (h : StandsAtLine program statement first)
    (hi : Notebook.lineOf? (bodyLine statement) (i + 1) = some line) :
    Notebook.lineOf? program (first + i) = some line := by
  obtain ⟨above, below, habove, rfl, rfl⟩ := h
  have hlt : i < (bodyLine statement).lines.length := by
    simp only [Notebook.lineOf?, Nat.add_eq_zero_iff, Nat.one_ne_zero, and_false,
      if_false] at hi
    exact (List.getElem?_eq_some_iff.1 hi).1
  have hends : Text.EndsLine (bodyLine statement) := endsLine_bodyLine statement
  simp only [Notebook.lineOf?, Nat.add_eq_zero_iff, Nat.one_ne_zero, and_false, false_and,
    if_false] at hi ⊢
  -- The text above ends a line, so the lines of the statement are counted on from its own.
  rw [append_assoc, Text.lines_append habove, Text.lines_append hends,
    show above.lines.length + 1 + i - 1 = above.lines.length + i by omega,
    getElem?_append_right (Nat.le_add_right _ _), Nat.add_sub_cancel_left,
    getElem?_append_left hlt]
  exact hi

/-! ### The line where a statement begins -/

/-- A statement that brings a name back begins with the name, and a comma or a space follows
it. -/
theorem rehydration_front (h : store.rehydration files x literal = .ok statement) :
    ∃ d t, statement = x ++ d :: t ∧ (d = ',' ∨ d = ' ') := by
  unfold ValueStore.rehydration at h
  split at h
  next source =>
    cases h
    exact ⟨' ', ":= ".toList ++ source, by simp [replayStatement], .inr rfl⟩
  · split at h
    · cases h
    · cases h
    next type _ =>
      split at h
      · cases h
        exact ⟨',', " _ := _Deserialize[".toList ++ type ++ "](\"".toList ++ variableKey x ++
          "\")".toList, by simp [decodeStatement], .inl rfl⟩
      · cases h

theorem isIdentifierChar_ne_newline {c : Char} (h : isIdentifierChar c = true) :
    c ≠ '\n' := by
  rintro rfl
  revert h
  decide

theorem IsIdentifier.newline_notMem (h : IsIdentifier x) : '\n' ∉ x := by
  obtain ⟨c, r, rfl, hc, hr⟩ := h.spelled
  rintro (_ | ⟨_, hmem⟩)
  · revert hc
    decide
  · exact isIdentifierChar_ne_newline (hr _ hmem) rfl

/-- The line on which a name is brought back has the name as an identifier. -/
theorem mem_identifiers_first_line (hx : IsIdentifier x)
    (h : store.rehydration files x literal = .ok statement) :
    ∃ line, lineOf? (bodyLine statement) 1 = some line ∧ x ∈ identifiers line := by
  obtain ⟨d, t, rfl, hd⟩ := rehydration_front h
  let u : Text := '\t' :: (x ++ [d])
  have hu : '\n' ∉ u := by
    have := hx.newline_notMem
    rcases hd with rfl | rfl <;> simp [u, this]
  have hlast : u.getLast? = some d := by simp [u, getLast?_cons]
  obtain ⟨r, hr⟩ := Text.head?_lines_front hu hlast (by rcases hd with rfl | rfl <;> decide)
    (t ++ "\n".toList)
  refine ⟨u ++ r, ?_, ?_⟩
  · have hbody : bodyLine (x ++ d :: t) = u ++ (t ++ "\n".toList) := by simp [bodyLine, u]
    rw [lineOf?, if_neg Nat.one_ne_zero, hbody, Nat.sub_self, ← head?_eq_getElem?]
    exact hr
  · have hstop : isIdentifierChar d = false := by rcases hd with rfl | rfl <;> decide
    have := mem_identifiers_of_front (t := r) hx hstop
    simpa [u] using this

/-! ### What is forgotten -/

namespace Session

theorem mem_tracked : x ∈ s.tracked ↔ x ∈ s.names ∨ x ∈ s.literals.map Prod.fst :=
  mem_addNames

/-- A session in which a name is no longer live. -/
structure Forgot (s : Session) (x : Text) : Prop where
  names : x ∉ s.names
  literals : x ∉ s.literals.map Prod.fst

theorem Forgot.of_not_tracked (h : x ∉ s.tracked) : s.Forgot x := by
  rw [mem_tracked, not_or] at h
  exact ⟨h.1, h.2⟩

theorem forgot_evict {names : List Text} (h : x ∈ names ∨ s.Forgot x) :
    (s.evict names).Forgot x := by
  constructor
  · intro hmem
    obtain ⟨hs, hn⟩ := mem_filter.1 hmem
    rcases h with h | h
    · simp [h] at hn
    · exact h.names hs
  · intro hmem
    obtain ⟨p, hp, rfl⟩ := mem_map.1 hmem
    obtain ⟨hs, hn⟩ := mem_filter.1 hp
    rcases h with h | h
    · simp [h] at hn
    · exact h.literals (mem_map.2 ⟨p, hs, rfl⟩)

/-- A name that is forgotten is not brought back. -/
theorem Forgot.rehydrations {s : Session} {x : Text} (h : s.Forgot x) (store : ValueStore)
    (files : FileTree) (skipped : List Text) :
    x ∉ (rehydrations s store files skipped).map Prod.fst := by
  intro hmem
  obtain ⟨p, hp, rfl⟩ := mem_map.1 hmem
  obtain ⟨name, hname, hsome⟩ := mem_filterMap.1 hp
  obtain ⟨_, -, rfl⟩ := Option.map_eq_some_iff.1 hsome
  exact h.names (mem_filter.1 hname).1

end Session

/-- In an assembled program every name that comes back does so on lines of its own. -/
theorem standsAtLine_assemble {session : Session} {input : Text} {made : Assembled}
    (h : assemble session store files input = .ok made) :
    ∃ skipped, ∀ x statement, (x, statement) ∈ rehydrations session store files skipped →
      store.rehydration files x (session.literal? x) = .ok statement ∧
        ∃ first, StandsAtLine made.program statement first := by
  obtain ⟨⟨declarations, body⟩, -, h⟩ := Checked.bind_eq_ok.1 h
  obtain ⟨again, -, h⟩ := Checked.bind_eq_ok.1 h
  obtain ⟨body', -, h⟩ := Checked.bind_eq_ok.1 h
  cases h
  refine ⟨skippedNames again, fun x statement hmem => ⟨?_, ?_⟩⟩
  · obtain ⟨name, -, hname⟩ := mem_filterMap.1 hmem
    obtain ⟨st, hst, heq⟩ := Option.map_eq_some_iff.1 hname
    cases heq
    cases hback : store.rehydration files x (session.literal? x) with
    | error e =>
      rw [hback] at hst
      cases hst
    | ok st' =>
      rw [hback] at hst
      exact congrArg Except.ok (Option.some.inj hst)
  · have hline :
        statement ∈ (rehydrations session store files (skippedNames again)).map Prod.snd :=
      mem_map_of_mem hmem
    obtain ⟨first, hstands⟩ := standsAtLine_programText
      (Declaration.merge session.declarations declarations) hline
        (body'.trim ++ " " ++ inputMark)
    rw [flatMap_map] at hstands
    exact ⟨first, hstands⟩

/-- A report implicates the tracked names that are identifiers of a line it points at. -/
theorem mem_implicatedNames {program : ProgramFile} {tracked : List Text} {report : Text} :
    x ∈ implicatedNames files program tracked report ↔ x ∈ tracked ∧
      ∃ d ∈ diagnostics report, ∃ line, sourceLine? files program d = some line ∧
        x ∈ identifiers line := by
  simp only [implicatedNames, mem_filter, mem_flatMap, mem_filterMap,
    decide_eq_true_eq]
  constructor
  · rintro ⟨⟨line, ⟨d, hd, hline⟩, hx⟩, htracked⟩
    exact ⟨htracked, d, hd, line, hline, hx⟩
  · rintro ⟨htracked, d, hd, line, hline, hx⟩
    exact ⟨⟨line, ⟨d, hd, hline⟩, hx⟩, htracked⟩

/-- A diagnostic that names the program's file points at a line of the program, if it has the
line. -/
theorem sourceLine?_own {program : ProgramFile} {d : Diagnostic}
    (hfile : Path.fileName? d.location = Path.fileName? program.path)
    (hline : lineOf? program.text d.line = some line) :
    sourceLine? files program d = some line := by
  simp only [sourceLine?, hfile, if_true, hline]

/-- **Recovery makes progress.**  If a run fails, not benignly, and one of the `diagnostics`
of its report points into the program at a statement that `rehydration` gives for `x` and that
`StandsAtLine` there, then `recover` has `Forgot` `x`, and no later program has it among its
`rehydrations`.  The diagnostic points at the line where the statement begins, or at a later
line of it on which `x` stands as well. -/
theorem recover_forgets {files before : FileTree} {session : Session} {program : ProgramFile}
    {failure : RunFailure} {store : ValueStore} {x statement : Text} {literal : Option Text}
    {first : Nat} {d : Diagnostic} (hbenign : failure.benign = false)
    (hback : store.rehydration before x literal = .ok statement)
    (hstands : StandsAtLine program.text statement first) (hd : d ∈ diagnostics failure.text)
    (hfile : Path.fileName? d.location = Path.fileName? program.path)
    (hline : (IsIdentifier x ∧ d.line = first) ∨
      ∃ i line, d.line = first + i ∧ lineOf? (bodyLine statement) (i + 1) = some line ∧
        x ∈ identifiers line) :
    (recover files session program failure).1.Forgot x ∧
      ∀ store' files' skipped,
        x ∉ (rehydrations (recover files session program failure).1 store' files' skipped).map
          Prod.fst := by
  -- The line where the statement begins is one on which the name stands.
  obtain ⟨i, line, hnumber, hi, hmem⟩ : ∃ i line, d.line = first + i ∧
      lineOf? (bodyLine statement) (i + 1) = some line ∧ x ∈ identifiers line := by
    rcases hline with ⟨hx, hfirst⟩ | hlater
    · obtain ⟨line, hline, hmem⟩ := mem_identifiers_first_line hx hback
      exact ⟨0, line, hfirst, hline, hmem⟩
    · exact hlater
  have hown : sourceLine? files program d = some line :=
    sourceLine?_own hfile (hnumber ▸ hstands.lineOf? hi)
  have hforgot : (recover files session program failure).1.Forgot x := by
    simp only [recover, hbenign, Bool.false_eq_true, if_false]
    refine Session.forgot_evict ?_
    by_cases htracked : x ∈ session.tracked
    · exact .inl (mem_implicatedNames.2 ⟨htracked, d, hd, line, hown, hmem⟩)
    · exact .inr (.of_not_tracked htracked)
  exact ⟨hforgot, fun store' files' skipped => hforgot.rehydrations store' files' skipped⟩

/-! ### A literal over several lines -/

/-- A function literal whose body stands on a line of its own. -/
def replayedLiteral : Text := "func() \x7b\n\tg()\n\x7d"

/-- The program of a turn that replays the literal. -/
def replayingProgram : Text :=
  "package main\n\nfunc main() \x7b\n" ++ bodyLine (replayStatement "f" replayedLiteral) ++
    "\tfmt.Println(1)\n\t_Serialize(\"var-f\", f)\n\x7d\n"

theorem standsAtLine_replayingProgram :
    StandsAtLine replayingProgram (replayStatement "f" replayedLiteral) 4 :=
  ⟨"package main\n\nfunc main() \x7b\n",
    "\tfmt.Println(1)\n\t_Serialize(\"var-f\", f)\n\x7d\n", .inr (by decide), rfl, by decide⟩

/-- A diagnostic on the line where the literal begins costs the session the name. -/
theorem recover_forgets_literal :
    ⟨"./main.go", 4, some 7, "undefined: g"⟩ ∈ diagnostics "./main.go:4:7: undefined: g" ∧
      (recover .empty ⟨["f"], [("f", replayedLiteral)], []⟩ ⟨replayingProgram, "/s/main.go"⟩
        ⟨"./main.go:4:7: undefined: g", false⟩).1.Forgot "f" :=
  have hback : ValueStore.rehydration ⟨"/s/store"⟩ .empty "f" (some replayedLiteral) =
      .ok (replayStatement "f" replayedLiteral) := rfl
  have hname : IsIdentifier "f" := ⟨⟨'f', [], rfl, by decide, by simp⟩, by decide⟩
  have hd :
      ⟨"./main.go", 4, some 7, "undefined: g"⟩ ∈ diagnostics
        "./main.go:4:7: undefined: g" := by
    decide +kernel
  ⟨hd, (recover_forgets rfl hback standsAtLine_replayingProgram hd (by decide)
    (.inl ⟨hname, rfl⟩)).1⟩

/-- A diagnostic inside the literal does not: the name stands only where the literal
begins. -/
theorem not_forgets_at_every_line :
    ¬ ∀ (tools : Toolchain Unit) (k : Kernel) (input : Text) (w : World Unit)
      (files : FileTree)
        (program : Text) (failure : RunFailure) (x statement : Text) (first : Nat)
        (d : Diagnostic),
      (k.turnProgram tools input w).map (·.1.program) = .ok program → failure.benign = false →
      x ∈ k.session.names →
      k.workspace.store.rehydration w.files x (k.session.literal? x) = .ok statement →
      StandsAtLine program statement first → d ∈ diagnostics failure.text →
      Path.fileName? d.location = Path.fileName? k.workspace.programPath → first ≤ d.line →
      d.line < first + (bodyLine statement).lines.length →
      x ∉ (recover files k.session ⟨program, k.workspace.programPath⟩ failure).1.names := by
  intro h
  refine h ⟨fun _ w => (.error ⟨[]⟩, w), fun _ _ w => (.error ⟨[]⟩, w), fun _ w =>
    (.error ⟨[]⟩, w)⟩
    ⟨.default, ⟨"s", "/s", rfl⟩, ⟨["f"], [("f", replayedLiteral)], []⟩, []⟩ "1"
    ⟨.empty, none, 0, 0, 0, ()⟩ .empty replayingProgram
      ⟨"./main.go:5:2: undefined: g", false⟩ "f"
    (replayStatement "f" replayedLiteral) 4 ⟨"./main.go", 5, some 2, "undefined: g"⟩
    ?_ rfl ?_ rfl standsAtLine_replayingProgram ?_ ?_ ?_ ?_ ?_
  all_goals decide +kernel

end Notebook
