import Notebook.Proofs.MarkedProgram
import Notebook.Proofs.ShownPrograms
import Notebook.Proofs.StatementKinds

/-!
# The last value of an input

The statement that is shown is found by the place of a mark, far away from the input:
declarations have been taken out, statements have been put in front, white space is gone and a
`:=` may have become `=`.  What is found is nevertheless the last statement of the input, and
it is shown if it yields a value there.  Two things can come between them.  A comment or a
semicolon on a later line takes the mark with it, and then nothing is shown; and a sign behind
the `:=` of a redeclaration makes it a comparison.
-/

namespace Notebook

open Lexer List

variable {files : FileTree} {declarations : List Declaration} {init rows : List Row}
  {session : Session} {st z : Statement} {body edited input : Text} {store : ValueStore}

/-- The statements of an input that go into the entry function. -/
def givenStatements (input : Text) : List Statement :=
  (Source.ofText input).statements.filter fun st => !(Source.ofText input).isPackageLevel st

/-! ### The statement on the line of the mark -/

/-- The shorter of two beginnings of a text begins the longer one. -/
theorem Text.exists_append_of_le {a b c d : Text} (h : a ++ b = c ++ d)
    (hle : a.byteSize ≤ c.byteSize) : ∃ x, c = a ++ x ∧ b = x ++ d := by
  rcases append_eq_append_iff.1 h with ⟨x, rfl, rfl⟩ | ⟨x, rfl, rfl⟩
  · exact ⟨x, rfl, rfl⟩
  · obtain rfl : x = [] :=
      Text.byteSize_eq_zero.1 (by rw [Text.byteSize_append] at hle; omega)
    exact ⟨[], by simp, rfl⟩

section Mark

variable {program front line after : Text} {sts : List Statement}

/-- A statement is marked if no line end stands between it and the mark. -/
theorem isMarked_iff {mark : Text} (hprogram : program = mark ++ inputMark ++ after)
    (hlast : ∀ a b, program = a ++ inputMark ++ b → a.length ≤ mark.length) :
    IsMarked program sts st ↔ ∃ front line, mark = front ++ line ∧
      st.span.stop = front.byteSize ∧
      '\n' ∉ line ∧ ∃ xs ys, sts = xs ++ st :: ys ∧ ∀ x ∈ ys,
        mark.byteSize < x.span.stop := by
  constructor
  · rintro ⟨front, line, behind, heq, hall, hstop, hline, xs, ys, hsts, hys⟩
    -- Both are the last mark of the program.
    have hmark : front ++ line = mark := by
      have hlength : (front ++ line).length = mark.length :=
        Nat.le_antisymm (hlast _ _ heq) (hall _ _ hprogram)
      rw [append_assoc (front ++ line)] at heq
      rw [hprogram, append_assoc] at heq
      exact (append_inj heq hlength.symm).1.symm
    exact ⟨front, line, hmark.symm, hstop, hline, xs, ys, hsts, hmark ▸ hys⟩
  · rintro ⟨front, line, rfl, hstop, hline, xs, ys, hsts, hys⟩
    exact ⟨front, line, after, hprogram, hlast, hstop, hline, xs, ys, hsts, hys⟩

/-- The last statement is marked if no line end stands behind it, and no other one is. -/
theorem isMarked_concat_iff (hprogram : program = front ++ line ++ inputMark ++ after)
    (hlast : ∀ a b, program = a ++ inputMark ++ b → a.length ≤ (front ++ line).length)
    (hz : z.span.stop = front.byteSize) :
    IsMarked program (sts ++ [z]) st ↔ st = z ∧ '\n' ∉ line := by
  rw [isMarked_iff hprogram hlast]
  constructor
  · rintro ⟨front', line', heq, hstop, hline, xs, ys, hsts, hys⟩
    have hnil : ys = [] := by
      rcases eq_nil_or_concat ys with hnil | ⟨ys', y, rfl⟩
      · exact hnil
      · rw [concat_eq_append, ← cons_append, ← append_assoc] at hsts
        have hy := hys y (by simp)
        rw [← (append_inj' hsts rfl).2 |> singleton_inj.1, hz,
          Text.byteSize_append] at hy
        omega
    subst hnil
    obtain rfl : z = st := singleton_inj.1 (append_inj' hsts rfl).2
    obtain ⟨x, rfl, rfl⟩ := Text.exists_append_of_le heq (by omega)
    obtain rfl : x = [] :=
      Text.byteSize_eq_zero.1 (by rw [Text.byteSize_append] at hstop; omega)
    exact ⟨rfl, hline⟩
  · rintro ⟨rfl, hline⟩
    exact ⟨front, line, rfl, hz, hline, sts, [], rfl, by simp⟩

/-- A statement with a line end behind it is not marked. -/
theorem not_isMarked (hprogram : program = front ++ '\n' :: line ++ inputMark ++ after)
    (hlast : ∀ a b, program = a ++ inputMark ++ b → a.length ≤ (front ++ '\n' :: line).length)
    (hstop : st.span.stop ≤ front.byteSize) : ¬IsMarked program sts st := by
  rw [isMarked_iff hprogram hlast]
  rintro ⟨front', line', heq, hstop', hline, -⟩
  obtain ⟨x, -, rfl⟩ := Text.exists_append_of_le heq.symm (by omega)
  simp at hline

end Mark

/-! ### The rows of a program -/

theorem Row.bodies_last {rs : List Row} {r : Row} (hne : r.body ≠ [])
    (hnone : bodies rs = []) : bodies (init ++ r :: rs) = bodies init ++ [r.body] := by
  rw [bodies_append, bodies_cons, if_neg hne, hnone, append_nil]

/-- A statement stops in front of the last piece of rows. -/
theorem Row.stop_le_of_mem_placed (h : ∀ r ∈ rows, r.Ended) {i : Nat} {here : Position}
    (hst : st ∈ placed i here rows) {ps : List Piece} {p : Piece}
    (hflat : flatten rows = ps ++ [p]) :
    st.span.stop ≤ here.offset + Text.byteSize (textOf ps) := by
  rw [← map_fst_paired] at hst
  obtain ⟨q, hq, rfl⟩ := mem_map.1 hst
  obtain ⟨rs, qs, rfl, hmem⟩ := exists_of_mem_paired h hq
  have hbody := (of_mem_paired hq).2.1
  have hgap : q.2.gap ≠ [] := by
    rintro hnil
    rcases (h q.2 (by simp)).body with hbody' | ⟨-, hkinds⟩
    · exact hbody hbody'
    · rw [hnil] at hkinds
      exact hkinds rfl
  rw [statementAt, if_neg hbody, mem_singleton] at hmem
  have hstop : q.1.span.stop =
      here.offset + Text.byteSize (textOf (flatten rs ++ q.2.body)) := by
    rw [hmem]
    simp [Nat.add_assoc]
  obtain ⟨gap, p', hgap'⟩ := (eq_nil_or_concat (q.2.gap ++ flatten qs)).resolve_left
    (by simp [hgap])
  have hps : flatten rs ++ q.2.body ++ gap = ps := by
    rw [flatten_append, flatten_cons, pieces, append_assoc, hgap', concat_eq_append,
      ← append_assoc, ← append_assoc] at hflat
    exact (append_inj' hflat rfl).1
  rw [hstop, ← hps, textOf_append _ gap, Text.byteSize_append]
  omega

/-- What stands in front of the input in an entry function, as rows. -/
theorem exists_linesRows {lines : List Text}
    (h : ∀ l ∈ lines, LexicallyClosed l ∧ Balanced l ∧ Terminated l) :
    ∃ rows ps, (∀ r ∈ rows, r.Sound) ∧ Row.flatten rows = ps ++ [lineEnd] ∧
      textOf (Row.flatten rows) = '\n' :: lines.flatMap bodyLine := by
  induction lines using reverseRecOn with
  | nil =>
    refine ⟨[lineEndRow], [], ?_, rfl, rfl⟩
    intro r hr
    rw [mem_singleton.1 hr]
    exact sound_lineEndRow
  | append_singleton ls l ih =>
    obtain ⟨rows, ps, hrows, -, htext⟩ := ih fun m hm => h m (mem_append_left _ hm)
    obtain ⟨hclosed, hbalanced, hterminated⟩ := h l (by simp)
    obtain ⟨own, hown⟩ := exists_rowsOf hclosed hbalanced hterminated
    refine ⟨rows ++ tabRow :: own, Row.flatten rows ++ tabRow.pieces ++
      Lexer.pieces l, ?_, ?_, ?_⟩
    · exact forall_mem_append.2 ⟨hrows, forall_mem_cons.2 ⟨sound_tabRow, hown.sound⟩⟩
    · rw [Row.flatten_append, Row.flatten_cons, hown.flatten]
      simp only [append_assoc]
    · rw [Row.flatten_append, textOf_append, htext, Row.flatten_cons,
        textOf_append, hown.flatten, textOf_append, textOf_pieces, flatMap_append,
        flatMap_cons, flatMap_nil,
        append_nil]
      rfl

/-- A program around lines, each with a line end behind it, and the rows of an input.  The
last row holds the last statement of the input, and the mark. -/
structure ProgramRows (front : Text) (lines given : List Row) (last : Row) (behind : Text) :
    Prop where
  isFront : IsFront front
  sound : ∀ r ∈ (lines ++ [tabRow] ++ given) ++ [last], r.Sound
  linesEnd : ∃ ps, Row.flatten lines = ps ++ [lineEnd]
  mark : textOf last.gap = behind ++ " " ++ inputMark ++ "\n"
  given_eq_nil : last.body = [] → given = []

namespace ProgramRows

variable {front : Text} {lines given : List Row} {last : Row} {behind : Text}
  (h : ProgramRows front lines given last behind)

include h

/-- The last mark of the program is that behind the input. -/
theorem mark_spec : framed front ((lines ++ [tabRow] ++ given) ++ [last]) =
      front ++ entryOpening ++ textOf (Row.flatten (lines ++ [tabRow] ++ given)) ++
        textOf last.body ++ (behind ++ " ") ++ inputMark ++ "\n\x7d\n" ∧
    ∀ a b, framed front ((lines ++ [tabRow] ++ given) ++ [last]) = a ++ inputMark ++ b →
      a.length ≤ (front ++ entryOpening ++
        textOf (Row.flatten (lines ++ [tabRow] ++ given)) ++
        textOf last.body ++ (behind ++ " ")).length :=
  Text.cutLast?_spec (DisplayPlan.cutLast?_framed h.mark)

/-- The last statement of the program is marked if no line end stands behind it. -/
theorem isMarked_iff (hne : last.body ≠ []) {sts : List Statement}
    (hsts : sts =
      (Source.ofText (framed front ((lines ++ [tabRow] ++ given) ++ [last]))).bodyStatements
        (framedEntry front ((lines ++ [tabRow] ++ given) ++ [last]))) :
    IsMarked (framed front ((lines ++ [tabRow] ++ given) ++ [last])) sts st ↔
      sts.getLast? = some st ∧ '\n' ∉ behind := by
  obtain ⟨hprogram, hlast⟩ := h.mark_spec
  have hz := DisplayPlan.bodyStatements_concat h.isFront h.sound
  rw [Row.statementAt, if_neg hne] at hz
  rw [hsts, hz, isMarked_concat_iff hprogram hlast, getLast?_concat,
    Option.some.injEq, eq_comm]
  · simp
  · simp [DisplayPlan.placeBehind, bodyPlace, Position.start, Nat.add_assoc]

/-- The last statement of the program is that of the last row. -/
theorem exists_last (hne : last.body ≠ []) :
    ∃ z, ((Source.ofText
      (framed front ((lines ++ [tabRow] ++ given) ++ [last]))).bodyStatements
        (framedEntry front ((lines ++ [tabRow] ++ given) ++ [last]))).getLast? = some z ∧
      z.Spells (.ofText (framed front ((lines ++ [tabRow] ++ given) ++ [last])))
        last.body := by
  have hspells := rel_reverse (spells_framed h.isFront h.sound)
  rw [Row.bodies_last hne rfl, reverse_append, reverse_singleton,
    singleton_append] at hspells
  obtain ⟨z, zs, hz, -, hzs⟩ := forall₂_cons_right_iff.1 hspells
  refine ⟨z, ?_, hz⟩
  rw [getLast?_eq_head?_reverse, hzs]
  rfl

/-- Without a statement in the input nothing is marked. -/
theorem not_isMarked (hnil : last.body = []) :
    ¬IsMarked (framed front ((lines ++ [tabRow] ++ given) ++ [last]))
      ((Source.ofText (framed front ((lines ++ [tabRow] ++ given) ++ [last]))).bodyStatements
        (framedEntry front ((lines ++ [tabRow] ++ given) ++ [last]))) st := by
  intro hmarked
  obtain rfl := h.given_eq_nil hnil
  obtain ⟨ps, hps⟩ := h.linesEnd
  have hlines : ∀ r ∈ lines, r.Ended := fun r hr => (h.sound r (by simp [hr])).ended
  -- The statement is one of those that bring variables back, and a line end stands behind it.
  have hst : st ∈ Row.placed (frontCount front + 5) (bodyPlace front) lines := by
    obtain ⟨-, -, -, -, -, -, -, xs, ys, heq, -⟩ := hmarked
    have hmem : st ∈ xs ++ st :: ys := by simp
    rw [← heq, DisplayPlan.bodyStatements_concat h.isFront h.sound,
      Row.statementAt, if_pos hnil, append_nil, append_nil,
      Row.placed_append (Row.splitsOff_of_ended hlines)] at hmem
    simpa [Row.placed, Row.statementAt, tabRow] using hmem
  have hstop := Row.stop_le_of_mem_placed hlines hst hps
  obtain ⟨hprogram, hlast⟩ := h.mark_spec
  have hmark : front ++ entryOpening ++ textOf (Row.flatten (lines ++ [tabRow] ++ [])) ++
      textOf last.body ++ (behind ++ " ") =
        front ++ entryOpening ++ textOf ps ++ '\n' :: ('\t' :: (behind ++ " ")) := by
    simp [hps, hnil, tabRow, Row.pieces, lineEnd]
  rw [hmark] at hprogram hlast
  refine Notebook.not_isMarked hprogram hlast ?_ hmarked
  simpa [bodyPlace, Position.start, Nat.add_assoc] using hstop

end ProgramRows

/-! ### The last statement of an input -/

/-- Rows without a statement stay as they are. -/
theorem Row.remap_eq_self (h : bodies rows = []) (g : Statement → Row → Row) (i : Nat)
    (here : Position) : remap g i here rows = rows := by
  induction rows generalizing i here with
  | nil => rfl
  | cons r rs ih =>
    rw [bodies_cons, append_eq_nil_iff] at h
    have hbody : r.body = [] := by
      by_contra hne
      rw [if_neg hne] at h
      cases h.1
    rw [remap, statementAt, if_pos hbody, ih h.2]
    rfl

/-- The last row with a statement. -/
theorem Row.exists_last_body (h : bodies rows ≠ []) :
    ∃ init r rs, rows = init ++ r :: rs ∧ r.body ≠ [] ∧ bodies rs = [] := by
  induction rows with
  | nil => exact absurd rfl h
  | cons r rs ih =>
    by_cases hrs : bodies rs = []
    · refine ⟨[], r, rs, rfl, ?_, hrs⟩
      rintro hbody
      rw [bodies_cons, if_pos hbody, hrs] at h
      exact h rfl
    · obtain ⟨init, q, qs, rfl, hq⟩ := ih hrs
      exact ⟨r :: init, q, qs, rfl, hq⟩

/-- How a statement of an input stands in the program: as it is written, or demoted. -/
def IsGiven (session : Session) (body : Text) (b b' : List Piece) : Prop :=
  ∃ st r, r.Sound ∧ r.body = b ∧ st.Spells (.ofText body) b ∧
    b' = (demotedRow (demotion? (.ofText body) session st) r).body

/-- A statement that yields a value in the input stays as it is and yields it in the program.
No other one yields a value there, unless a sign stands behind its `:=`. -/
theorem IsGiven.hasValue {b b' : List Piece} (h : IsGiven session body b b') {s s' : Source}
    (hst : st.Spells s b) (hz : z.Spells s' b') {count : Text → Option Nat} :
    (s.HasValue count st → b' = b ∧ s'.HasValue count z) ∧
      (s'.HasValue count z → s.HasValue count st ∨ s.signFollows st = true) := by
  obtain ⟨own, r, hr, rfl, hown, rfl⟩ := h
  have hlexed : Lexed r.body := hr.lexed.left
  cases hd : demotion? (.ofText body) session own with
  | none =>
    rw [hd] at hz
    have hcongr : s'.HasValue count z ↔ s.HasValue count st := hz.hasValue_congr hst hlexed
    exact ⟨fun hvalue => ⟨rfl, hcongr.2 hvalue⟩, fun hvalue => .inl (hcongr.1 hvalue)⟩
  | some e =>
    rw [hd] at hz
    constructor
    · intro hvalue
      exact absurd ((hst.hasValue_congr hown hlexed).1 hvalue).isValue
        (not_isValue_of_demotion? hd)
    · intro hvalue
      obtain ⟨as, q, bs, hbody, has, hq⟩ :=
        exists_sign_of_isValue_demoted hr hown hd hz hvalue.isValue
      rw [hbody] at hst
      exact .inr (hst.signFollows_eq has hq)

/-- The statements of a text that is made of rows are closed and balanced. -/
theorem RowsOf.closed_of_mem {t : Text} (h : RowsOf t rows) {b : List Piece}
    (hb : b ∈ Row.bodies rows) : LexicallyClosed (textOf b) ∧ Balanced (textOf b) := by
  obtain ⟨hlexed, hclosed, hstatement⟩ := h.laid.lexed_of_mem hb
  refine ⟨?_, balanced_iff.2 ?_⟩
  · rw [LexicallyClosed, hlexed]
    exact hclosed
  · rw [hlexed]
    exact Mode.nest_of_walk hstatement.whole

/-- The last statement of a text, and what it becomes when redeclarations are demoted.  What
stands behind it stays. -/
theorem RowsOf.exists_last (h : RowsOf body rows) (hne : Row.bodies rows ≠ [])
    (session : Session) (hedited : RowsOf edited (demotedRows session body rows)) :
    ∃ bs b bs' b', Row.bodies rows = bs ++ [b] ∧
      Row.bodies (demotedRows session body rows) = bs' ++ [b'] ∧ IsGiven session body b b' ∧
      trailing edited = trailing body := by
  obtain ⟨init, r, rs, rfl, hbody, hnone⟩ := Row.exists_last_body hne
  have hr : r.Sound := h.sound r (by simp)
  have hrs : ∀ q ∈ rs, q.Sound := fun q hq => h.sound q (by simp [hq])
  have hinit : ∀ q ∈ init, q.Ended := fun q hq => (h.sound q (by simp [hq])).ended
  obtain ⟨st, hst⟩ : ∃ st, r.statementAt (0 + (kinds false (Row.flatten init)).length)
      (Position.start.advance (textOf (Row.flatten init))) = [st] := by
    rw [Row.statementAt, if_neg hbody]
    exact ⟨_, rfl⟩
  have hspells : st.Spells (.ofText body) r.body := by
    refine h.spells (st, r) ?_
    rw [Row.paired_append hinit, Row.paired, hst]
    simp
  have hdemoted : ∃ init', demotedRows session body (init ++ r :: rs) =
      init' ++ demotedRow (demotion? (.ofText body) session st) r :: rs := by
    rw [demotedRows, Row.remap_append _ hinit, Row.remap, hst, Row.remap_eq_self hnone]
    exact ⟨_, rfl⟩
  obtain ⟨init', hdemoted⟩ := hdemoted
  rw [hdemoted] at hedited ⊢
  have hne' : (demotedRow (demotion? (.ofText body) session st) r).body ≠ [] :=
    body_demotedRow_ne_nil hr hspells
  have hgap : (demotedRow (demotion? (.ofText body) session st) r).gap = r.gap := by
    cases demotion? (.ofText body) session st <;> rfl
  refine ⟨_, _, _, _, Row.bodies_last hbody hnone, Row.bodies_last hne' hnone,
    ⟨st, r, hr, rfl, hspells, rfl⟩, ?_⟩
  have hbehind := textOf_gap_eq hr hrs h.flatten hbody hnone
  have hbehind' := textOf_gap_eq (hedited.sound _ (by simp)) hrs hedited.flatten hne' hnone
  rw [hgap, hbehind] at hbehind'
  exact (append_cancel_right hbehind').symm

/-- The last statement of an input is the one in the last row of the program. -/
theorem last_given {kept : List Row} (hrows : RowsOf input rows) (hkept : RowsOf body kept)
    (hbodies : Row.bodies kept = ((Row.paired 0 .start rows).filter fun p =>
      !(Source.ofText input).isPackageLevel p.1).map (fun p => p.2.body))
    (hgiven : RowsOf edited (demotedRows session body kept)) {last : Row}
    (hlast : Row.bodies (init ++ [last]) = Row.bodies (demotedRows session body kept))
    (hempty : last.body = [] → init = []) :
    (givenStatements input = [] → last.body = []) ∧
      ∀ st, (givenStatements input).getLast? = some st → ∃ b, st.Spells (.ofText input) b ∧
        IsGiven session body b last.body ∧ last.body ≠ [] ∧
          trailing edited = trailing body := by
  have hgivens : givenStatements input = ((Row.paired 0 .start rows).filter fun p =>
      !(Source.ofText input).isPackageLevel p.1).map Prod.fst := by
    rw [givenStatements, hrows.statements, filter_map]
    rfl
  constructor
  · intro hnil
    by_contra hne
    rw [hgivens, map_eq_nil_iff] at hnil
    rw [hnil, ← Row.map_body_paired 0 .start, map_nil, map_eq_nil_iff] at hbodies
    rw [Row.bodies_last hne rfl, bodies_demotedRows session hkept, hbodies] at hlast
    simp at hlast
  · intro st hst
    rw [hgivens, getLast?_map] at hst
    obtain ⟨q, hq, rfl⟩ := Option.map_eq_some_iff.1 hst
    have hkeptLast : (Row.bodies kept).getLast? = some q.2.body := by
      rw [hbodies, getLast?_map, hq]
      rfl
    have hne : Row.bodies kept ≠ [] := by
      rintro hnil
      rw [hnil] at hkeptLast
      cases hkeptLast
    obtain ⟨bs, b, bs', b', hb, hb', hisGiven, htrailing⟩ :=
      hkept.exists_last hne session hgiven
    obtain rfl : b = q.2.body := by
      rw [hb, getLast?_concat] at hkeptLast
      exact Option.some.inj hkeptLast
    rw [hb'] at hlast
    have hlastNe : last.body ≠ [] := by
      intro hnil
      rw [hempty hnil, nil_append, Row.bodies_cons, if_pos hnil] at hlast
      simp [Row.bodies] at hlast
    obtain rfl : last.body = b' := by
      rw [Row.bodies_last hlastNe rfl] at hlast
      exact singleton_inj.1 (append_inj' hlast rfl).2
    exact ⟨q.2.body, hrows.spells q (mem_filter.1 (mem_of_getLast? hq)).1, hisGiven,
      hlastNe, htrailing⟩

/-- The declarations of a turn's program are closed and balanced. -/
theorem RowsOf.closed_of_mem_merge {input : Text} {rows : List Row} (h : RowsOf input rows)
    {declared declarations : List Declaration}
    (hdeclared : ∀ d ∈ declared, LexicallyClosed d.source ∧ Balanced d.source)
    (hsources : declarations.map (·.source) = ((Row.paired 0 .start rows).filter fun p =>
      (Source.ofText input).isPackageLevel p.1).map (fun p => textOf p.2.body)) :
    ∀ d ∈ Declaration.merge declared declarations, LexicallyClosed d.source ∧
      Balanced d.source := by
  intro d hd
  rcases Declaration.mem_merge hd with hd | hd
  · exact hdeclared d hd
  · have hsource : d.source ∈ declarations.map (·.source) := mem_map_of_mem hd
    rw [hsources] at hsource
    obtain ⟨p, hp, hsource⟩ := mem_map.1 hsource
    rw [← hsource]
    refine h.closed_of_mem ?_
    rw [← Row.map_body_paired 0 .start]
    exact mem_map_of_mem (mem_filter.1 hp).1

/-- The program of a turn, if the inside of its entry function is made of rows. -/
theorem assemble_eq_framed {session : Session} {store : ValueStore} {files : FileTree}
    {input body edited : Text} {declarations : List Declaration} {rows : List Row}
    (hsplit : splitDeclarations input = .ok (declarations, body))
    (hedited : Edit.applyAll body (demotions (redeclarations session body)) = .ok edited)
    (hrows : textOf (Row.flatten rows) = insideText ((rehydrations session store files
      (skippedNames (redeclarations session body))).map Prod.snd) edited) :
    assemble session store files input =
      .ok ⟨framed (programFront (Declaration.merge session.declarations declarations)) rows,
        declarations⟩ := by
  rw [← programText_eq hrows]
  simp only [assemble_eq, hsplit, hedited, bind, Except.bind, rehydrationLines,
    flatMap_map]
  rfl

/-- The rows of a turn's program. -/
theorem exists_programRows {session : Session} {store : ValueStore} {files : FileTree}
    {input body : Text} {declarations : List Declaration}
    (hclosed : LexicallyClosed input) (hbalanced : Balanced input)
    (hterminated : Terminated input)
    (hsplit : splitDeclarations input = .ok (declarations, body))
    (hdeclared : ∀ d ∈ session.declarations, LexicallyClosed d.source ∧ Balanced d.source)
    (hmain : ¬DeclaresMain
      (Declaration.render (Declaration.merge session.declarations declarations)))
    (hback : ∀ r ∈ rehydrations session store files
        (skippedNames (redeclarations session body)),
      LexicallyClosed r.2 ∧ Balanced r.2 ∧ Terminated r.2) :
    ∃ front lines given last behind, ProgramRows front lines given last behind ∧
      assemble session store files input =
        .ok ⟨framed front ((lines ++ [tabRow] ++ given) ++ [last]), declarations⟩ ∧
      (givenStatements input = [] → last.body = []) ∧
      ∀ st, (givenStatements input).getLast? = some st → ∃ b, st.Spells (.ofText input) b ∧
        IsGiven session body b last.body ∧ last.body ≠ [] ∧
        behind = Text.trimEnd (trailing body) := by
  obtain ⟨rows, hrows⟩ := exists_rowsOf hclosed hbalanced hterminated
  obtain ⟨ds, rest, kept, hsplit', hkept, hsources, hbodies⟩ := splitDeclarations_rows hrows
  obtain ⟨rfl, rfl⟩ : ds = declarations ∧ rest = body := by
    rw [hsplit] at hsplit'
    exact Prod.mk.inj (Except.ok.inj hsplit').symm
  obtain ⟨edited, hedited, hgiven⟩ := rowsOf_demotedRows session hkept
  let texts :=
    (rehydrations session store files (skippedNames (redeclarations session rest))).map
      Prod.snd
  have htexts : ∀ l ∈ texts, LexicallyClosed l ∧ Balanced l ∧ Terminated l := by
    intro l hl
    obtain ⟨r, hr, rfl⟩ := mem_map.1 hl
    exact hback r hr
  obtain ⟨lines, ps, hlines, hps, hlinesText⟩ := exists_linesRows htexts
  obtain ⟨init, last, ending, hinit, hlastBodies, htrim, htail, hends, hbehind⟩ :=
    exists_givenRows hgiven
  obtain ⟨marked, hmarked, hsound⟩ :=
    hends (" " ++ inputMark) (.inr ⟨" :INPUT", rfl, by decide⟩)
  have hempty : last.body = [] → init = [] := by
    intro hnil
    cases init with
    | nil => rfl
    | cons r init => exact absurd hnil (htail last (by simp))
  have hmerged := hrows.closed_of_mem_merge hdeclared hsources
  have hlast := last_given hrows hkept hbodies hgiven hlastBodies hempty
  refine ⟨programFront (Declaration.merge session.declarations ds), lines, init,
    ⟨last.body, last.gap ++ marked⟩, textOf last.gap ++ ending,
    ⟨isFront_programFront hmerged hmain, ?_, ⟨ps, hps⟩, ?_, hempty⟩, ?_, ?_, ?_⟩
  · intro r hr
    simp only [mem_append, mem_singleton] at hr
    rcases hr with ((hr | rfl) | hr) | rfl
    · exact hlines r hr
    · exact sound_tabRow
    · exact hinit r hr
    · exact hsound
  · exact textOf_markedGap hmarked
  · refine assemble_eq_framed hsplit hedited (textOf_markedRows ?_ htrim hmarked)
    rw [Row.flatten_append, textOf_append, hlinesText]
    rfl
  · exact hlast.1
  · intro st hst
    obtain ⟨b, hspells, hgivenBody, hne, htrailing⟩ := hlast.2 st hst
    exact ⟨b, hspells, hgivenBody, hne, by rw [hbehind hne, htrailing]⟩

/-- **The last value of an input is shown.**  Let `st` be the last of the `givenStatements` of
the input, and `z` the last statement of the entry function in the program of `assemble`.  If
`st` is an expression, or a call with results (`Source.HasValue`), then `z` has its text, and
`analyze` shows `z` exactly if what is `trailing` behind `st`, trimmed at its end, has no line
end: a comment or a semicolon on a later line takes `inputMark` away from `st`.  Nothing else
is shown, apart from a `:=` with a sign behind it (`Source.signFollows`). -/
theorem analyze_assemble {session : Session} {store : ValueStore} {files : FileTree}
    {input body : Text} {declarations : List Declaration}
    (hclosed : LexicallyClosed input) (hbalanced : Balanced input)
    (hterminated : Terminated input)
    (hsplit : splitDeclarations input = .ok (declarations, body))
    (hdeclared : ∀ d ∈ session.declarations, LexicallyClosed d.source ∧ Balanced d.source)
    (hmain : ¬DeclaresMain
      (Declaration.render (Declaration.merge session.declarations declarations)))
    (hback : ∀ r ∈ rehydrations session store files
        (skippedNames (redeclarations session body)),
      LexicallyClosed r.2 ∧ Balanced r.2 ∧ Terminated r.2)
    (resultCount : ArityQuery → Option Nat) :
    ∃ (program : Text) (entry : EntryPoint) (result : Text) (entry' : EntryPoint)
      (texts : List Text) (shown : Option Statement),
      assemble session store files input = .ok ⟨program, declarations⟩ ∧
      (Source.ofText program).entryPoint = some entry ∧
      analyze (fun q => .ok (resultCount q)) program = .ok result ∧
      (Source.ofText result).entryPoint = some entry' ∧
      (Source.ofText program).texts ((Source.ofText program).bodyStatements entry) =
        .ok texts ∧
      (Source.ofText result).texts ((Source.ofText result).bodyStatements entry') =
        .ok ((((Source.ofText program).bodyStatements entry).zip texts).filterMap fun q =>
          (Source.ofText program).shownText
            ((Source.ofText program).bodyStatements entry) shown q.1 q.2) ∧
      (∀ z, shown = some z →
        ((Source.ofText program).bodyStatements entry).getLast? = some z ∧
          givenStatements input ≠ []) ∧
      ∀ st, (givenStatements input).getLast? = some st →
        ∃ z, ((Source.ofText program).bodyStatements entry).getLast? = some z ∧
          ((Source.ofText input).HasValue
              (fun callee => resultCount ⟨callee, program, entry.bodyStart, z.span.start⟩)
                st →
            (shown = some z ↔ '\n' ∉ Text.trimEnd (trailing body)) ∧
            (Source.ofText program).statementText z =
            (Source.ofText input).statementText st) ∧
          (shown = some z →
            (Source.ofText input).HasValue
              (fun callee => resultCount ⟨callee, program, entry.bodyStart, z.span.start⟩)
                st ∨
            (Source.ofText input).signFollows st = true) := by
  obtain ⟨front, lines, given, last, behind, h, hassemble, hnone, hlast⟩ :=
    exists_programRows hclosed hbalanced hterminated hsplit hdeclared hmain hback
  have hentry := entryPoint_framed h.isFront h.sound
  obtain ⟨p, hplan, hp⟩ := DisplayPlan.exists_isFor hentry ⟨_, _, h.mark_spec.1.symm⟩
  obtain ⟨_, _, _, _, entry', texts, _, _, _, happly, hentry', _, _, htexts, htexts'⟩ :=
    hp.exists_result hentry (p.query?.bind resultCount)
  have hshown (z : Statement) : p.shownStatement (p.query?.bind resultCount) = some z ↔ _ :=
    hp.shownStatement_iff resultCount
  rw [hp.statements, hp.source] at hshown
  refine ⟨_, _, _, entry', texts, p.shownStatement (p.query?.bind resultCount),
    hassemble, hentry, (DisplayPlan.analyze_eq hplan resultCount).trans happly, hentry',
    htexts, htexts', ?_, ?_⟩
  · intro z hz
    have hmarked := ((hshown z).1 hz).1
    by_cases hbody : last.body = []
    · exact absurd hmarked (h.not_isMarked hbody)
    · exact ⟨((h.isMarked_iff hbody rfl).1 hmarked).1, fun hnil => hbody (hnone hnil)⟩
  · intro st hst
    obtain ⟨b, hspells, hgiven, hbody, rfl⟩ := hlast st hst
    obtain ⟨z, hzLast, hz⟩ := h.exists_last hbody
    refine ⟨z, hzLast, fun hvalue => ?_, fun hzShown => ?_⟩
    · obtain ⟨hsame, hvalue'⟩ := (hgiven.hasValue hspells hz).1 hvalue
      rw [hz.text, hsame, hspells.text, hshown, h.isMarked_iff hbody rfl]
      exact ⟨⟨fun hline => hline.1.2, fun hline => ⟨⟨hzLast, hline⟩, hvalue'⟩⟩, rfl⟩
    · exact (hgiven.hasValue hspells hz).2 ((hshown z).1 hzShown).2

/-- A call with a comment behind it is shown.  The declaration behind it is not there any
more. -/
theorem analyze_assemble_call :
    let session : Session := ⟨["f"], [("f", "func() int \x7b return 1 \x7d")], []⟩
    let input : Text := "f() // end\nfunc g() \x7b\x7d"
    ∃ program declarations result entry,
      assemble session ⟨"/s"⟩ numberStore input = .ok ⟨program, declarations⟩ ∧
      analyze (fun _ => .ok (some 1)) program = .ok result ∧
      (Source.ofText result).entryPoint = some entry ∧
      (Source.ofText result).texts ((Source.ofText result).bodyStatements entry) =
        .ok ["f := func() int \x7b return 1 \x7d", "fmt.Println(f())"] := by
  intro session input
  let body : Text := "f() // end\n"
  let declarations : List Declaration := [⟨.function, "g", "func g() \x7b\x7d"⟩]
  let text : Text := "package main\n\nfunc g() \x7b\x7d\n\nfunc main() \x7b\n" ++
    "\tf := func() int \x7b return 1 \x7d\n\tf() // end // :INPUT\n\x7d\n"
  let start : EntryPoint := ⟨14, 30, 40, 93⟩
  let call : Statement := ⟨0, 2, ⟨0, 3⟩, some 3⟩
  let call' : Statement := ⟨26, 28, ⟨72, 75⟩, some 29⟩
  have hinput : (LexicallyClosed input ∧ Balanced input ∧ Terminated input) ∧
      splitDeclarations input = .ok (declarations, body) := by decide +kernel
  have hback : ∀ r ∈ rehydrations session ⟨"/s"⟩ numberStore
      (skippedNames (redeclarations session body)),
      LexicallyClosed r.2 ∧ Balanced r.2 ∧ Terminated r.2 := by decide +kernel
  obtain ⟨program, entry, result, entry', texts, shown, hassemble, hentry, hanalyze,
      hentry', htexts, hresult, -, hlast⟩ :=
    analyze_assemble hinput.1.1 hinput.1.2.1 hinput.1.2.2 hinput.2 (by simp [session])
      (by decide +kernel) hback fun _ => some 1
  have hprogram : assemble session ⟨"/s"⟩ numberStore input = .ok ⟨text, declarations⟩ := by
    decide +kernel
  obtain rfl : text = program :=
    congrArg Assembled.program (Except.ok.inj (hprogram.symm.trans hassemble))
  have hread : (Source.ofText text).entryPoint = some start ∧
      (Source.ofText text).texts ((Source.ofText text).bodyStatements start) =
        .ok ["f := func() int \x7b return 1 \x7d", "f()"] ∧
      ((Source.ofText text).bodyStatements start).getLast? = some call' := by
    decide +kernel
  obtain rfl : start = entry := Option.some.inj (hread.1.symm.trans hentry)
  obtain rfl := Except.ok.inj (hread.2.1.symm.trans htexts)
  have hcall : (givenStatements input).getLast? = some call ∧
      '\n' ∉ Text.trimEnd (trailing body) := by decide +kernel
  obtain ⟨z, hz, hvalue, -⟩ := hlast call hcall.1
  obtain rfl : call' = z := Option.some.inj (hread.2.2.symm.trans hz)
  obtain ⟨hshown, -⟩ :=
    hvalue (.inr ⟨⟨0, 1⟩, "f", 1, by decide +kernel, by decide +kernel, rfl, Nat.one_pos⟩)
  obtain rfl := hshown.2 hcall.2
  refine ⟨text, declarations, result, entry', hassemble, hanalyze, hentry', hresult.trans ?_⟩
  decide +kernel

/-- A comment on a line of its own takes the mark away from a value, a statement without a
terminator leaves it with the one in front, and `:==` is a comparison once it is demoted.
What the session holds can hide the statement too. -/
theorem not_shown_iff_value :
    let shown (session : Session) (input : Text) : Checked Text := do
      analyze (fun _ => .ok none) (← assemble session ⟨"/s"⟩ numberStore input).program
    let value : Statement := ⟨0, 0, ⟨0, 1⟩, some 1⟩
    (∀ input ∈ (["x\n// c", "a; if x", "f :== f", "x"] : List Text),
      LexicallyClosed input ∧ Balanced input ∧ ¬inputMark <:+: input) ∧
    (givenStatements "x\n// c" = [value] ∧ (Source.ofText "x\n// c").classify value = .expr ∧
      shown ⟨[], [], []⟩ "x\n// c" =
        .ok "package main\n\nfunc main() \x7b\n\tx\n// c // :INPUT\n\x7d\n") ∧
    ((givenStatements "a; if x").map (Source.ofText "a; if x").classify = [.expr, .control] ∧
      shown ⟨[], [], []⟩ "a; if x" =
        .ok "package main\n\nfunc main() \x7b\n\tfmt.Println(a); if x // :INPUT\n\x7d\n") ∧
    ((givenStatements "f :== f").map (Source.ofText "f :== f").classify = [.assign] ∧
      shown ⟨["f"], [("f", "func() \x7b\x7d")], []⟩ "f :== f" =
        .ok ("package main\n\nfunc main() \x7b\n\tf := func() \x7b\x7d\n" ++
          "\tfmt.Println(f == f) // :INPUT\n\x7d\n")) ∧
    givenStatements "x" = [value] ∧ (Source.ofText "x").classify value = .expr ∧
      shown ⟨[], [], [⟨.function, "main", "func main() \x7b\x7d"⟩]⟩ "x" =
        .ok ("package main\n\nfunc main() \x7b\x7d\n\n" ++
          "func main() \x7b\n\tx // :INPUT\n\x7d\n") ∧
      shown ⟨[], [], [⟨.function, "g", "func g() \x7b"⟩]⟩ "x" =
        .ok "package main\n\nfunc g() \x7b\n\nfunc main() \x7b\n\tx // :INPUT\n\x7d\n" ∧
      shown ⟨["f"], [("f", "func() \x7b")], []⟩ "x" =
        .ok ("package main\n\nfunc main() \x7b\n\tf := func() \x7b\n" ++
          "\tx // :INPUT\n\x7d\n") := by
  decide +kernel

end Notebook
