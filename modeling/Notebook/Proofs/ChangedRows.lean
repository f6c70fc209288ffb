import Notebook.Proofs.BodyRows
import Notebook.Proofs.DisplayRows
import Notebook.Proofs.ReadBack

/-!
# Programs whose rows are changed

The body of an entry function falls into rows, one for each statement.  Edits that change the
rows one by one lead to rows again, whatever stands around them, and the program that is made
of them has the statements that the rows have.

## Main statements

* `Row.exists_changed`: rows that are changed one by one
* `BodyRows.exists_located`: where a row of a program stands
* `exists_rows_of_terminated`: a body whose last statement is ended is made of rows alone
* `Row.texts_enclosed`: the statements of a program that is made of rows
-/

namespace Notebook

open Lexer List

variable {entry : EntryPoint} {back front : List Piece} {rows : List Row} {rest : Row}
  {program : Text}

/-! ### Rows that are changed -/

namespace Row

/-- The text of the statement in a row. -/
def text? (r : Row) : Option Text :=
  if r.body = [] then none else some (textOf r.body)

theorem map_textOf_bodies (rows : List Row) :
    (bodies rows).map textOf = rows.filterMap text? := by
  induction rows with
  | nil => rfl
  | cons r rs ih =>
    rw [bodies_cons, map_append, ih, filterMap_cons, text?]
    by_cases hnil : r.body = [] <;> simp [hnil]

theorem filterMap_text?_remap (g : Statement → Row → Row) (i : Nat) (here : Position)
    (rows : List Row) :
    (remap g i here rows).filterMap text? =
      (paired i here rows).filterMap fun p => (g p.1 p.2).text? := by
  induction rows generalizing i here with
  | nil => rfl
  | cons r rs ih =>
    rw [remap, paired, filterMap_cons, filterMap_append, ih]
    rcases statementAt_cases i here r with ⟨hnil, hnone⟩ | ⟨st, -, hone, -⟩
    · simp [hnone, text?, hnil]
    · rw [hone]
      simp only [head?_cons, Option.map_some, Option.getD_some,
        map_cons, map_nil]
      cases htext : (g st r).text? <;> simp [htext]

/-- The statements of rows, with their texts. -/
theorem zip_placed (i : Nat) (here : Position) (rows : List Row) :
    (placed i here rows).zip ((bodies rows).map textOf) =
      (paired i here rows).map fun p => (p.1, textOf p.2.body) := by
  rw [← map_fst_paired, ← map_body_paired i here, map_map, zip_map',
    Function.comp_def]

/-- Edits that change the statements of rows one by one lead to rows again. -/
theorem exists_changed {rows : List Row} (hrows : ∀ r ∈ rows, r.Ended) {i : Nat}
    {here : Position} {E : Statement → List Edit} {F : Statement → Text → Option Text}
    (h : ∀ p ∈ paired i here rows, ∃ r' : Row, r'.Ended ∧ r'.text? = F p.1 (textOf p.2.body) ∧
      Patched p.1.span.start (E p.1) (textOf p.2.pieces) (textOf r'.pieces)) :
    ∃ rows' : List Row, (∀ r ∈ rows', r.Ended) ∧
      Patched here.offset ((placed i here rows).flatMap E) (textOf (flatten rows))
        (textOf (flatten rows')) ∧
      rows'.filterMap text? =
        ((placed i here rows).zip ((bodies rows).map textOf)).filterMap fun p =>
          F p.1 p.2 := by
  have : Nonempty Row := ⟨⟨[], []⟩⟩
  choose! g hg using h
  refine ⟨remap (fun st r => g (st, r)) i here rows, ?_, ?_, ?_⟩
  · exact forall_remap hrows fun p hp => (hg p hp).1
  · exact patched_remap fun p hp => (hg p hp).2.2
  · rw [filterMap_text?_remap, zip_placed, filterMap_map]
    exact filterMap_congr fun p hp => (hg p hp).2.1

end Row

/-! ### Where the rows of a program stand -/

/-- What stands behind the rows of a body is no blank. -/
theorem Row.Rest.exists_head (h : rest.Rest) (hback : IsClosing back) :
    ∃ c t, textOf (rest.pieces ++ back) = c :: t ∧ isBlank c = false := by
  rw [textOf_append]
  cases htext : textOf rest.pieces with
  | nil =>
    obtain ⟨c, t, hc, -, hblank⟩ := hback.exists_head
    exact ⟨c, t, hc, hblank⟩
  | cons c t => exact ⟨c, t ++ textOf back, rfl, h.head c (by rw [htext]; rfl)⟩

namespace BodyRows

/-- The text of a program around its rows. -/
theorem text_eq (h : BodyRows program entry front rows rest back) :
    program = textOf front ++ textOf (Row.flatten (rows ++ [rest])) ++ textOf back := by
  rw [← textOf_pieces program, h.pieces, textOf_append, textOf_append, append_assoc]

/-- The statements in the body: those of the rows, and what is left behind them. -/
theorem bodyStatements_eq (h : BodyRows program entry front rows rest back) :
    (Source.ofText program).bodyStatements entry =
      Row.placed (kinds false front).length (placeAfter front) rows ++
        Source.split ((kinds false front).length + (kinds false (Row.flatten rows)).length)
          .initial (scan ((placeAfter front).advance (textOf (Row.flatten rows))) false
            rest.pieces) := by
  have hlexed := lexed_pieces program
  rw [h.pieces] at hlexed
  have hstatements := bodyStatements_enclosed h.opening h.closing hlexed
  rw [← h.pieces, textOf_pieces, ← h.entry_eq] at hstatements
  rw [hstatements, Row.flatten_append, scan_append, Row.pendingAfter_flatten h.ended,
    Source.split_rows (Row.splitsOff_of_ended h.ended), Row.flatten_cons, Row.flatten_nil,
    append_nil]

/-- A row with a statement, in its place: its tokens, and what stands around it. -/
theorem exists_located (h : BodyRows program entry front rows rest back) {p : Statement × Row}
    (hp : p ∈ Row.paired (kinds false front).length (placeAfter front) rows) :
    ∃ j place us before behind, p.1 ∈ p.2.statementAt j place ∧
      (Source.ofText program).tokens.drop j = scan place false p.2.pieces ++ us ∧
      Text.byteSize (textOf before) = place.offset ∧
      Lexer.pieces program = before ++ (p.2.pieces ++ behind) ∧
      ∃ c t, textOf behind = c :: t ∧ isBlank c = false := by
  obtain ⟨rs, qs, rfl, hst⟩ := Row.exists_of_mem_paired h.ended hp
  have hrs : ∀ r ∈ rs, r.Ended := fun r hr => h.ended r (mem_append_left _ hr)
  have hr : p.2.Ended := h.ended p.2 (by simp)
  have hlexed := lexed_pieces program
  rw [h.pieces] at hlexed
  obtain ⟨us, htokens⟩ := tokens_body_enclosed h.opening h.closing hlexed
  rw [← h.pieces, textOf_pieces] at htokens
  refine ⟨_, _, scan (((placeAfter front).advance (textOf (Row.flatten rs))).advance
      (textOf p.2.pieces)) false (Row.flatten (qs ++ [rest])) ++ us, front ++ Row.flatten rs,
    Row.flatten qs ++ (rest.pieces ++ back), hst, ?_, ?_, ?_, ?_⟩
  · rw [← drop_drop, htokens, append_assoc, cons_append, Row.flatten_append,
      Row.flatten_cons, scan_append, Row.pendingAfter_flatten hrs, scan_append,
      hr.pendingAfter_eq,
      append_assoc, ← length_scan (placeAfter front), drop_left, append_assoc]
  · simp [placeAfter, Position.start]
  · rw [h.pieces]
    simp
  · cases qs with
    | nil =>
      rw [Row.flatten_nil, nil_append]
      exact h.isRest.exists_head h.closing
    | cons q qs =>
      -- The next row begins with a token.
      have hq : q ∈ (rs ++ p.2 :: q :: qs).tail := by
        cases rs <;> simp
      obtain ⟨c, t, hhead, hblank⟩ := (h.ended q (by simp)).head_eq (h.statements q hq)
      exact ⟨c, t ++ textOf (Row.flatten qs ++ (rest.pieces ++ back)), by simp [hhead],
        hblank⟩

end BodyRows

/-- A statement of a program that is spelled by pieces in their place. -/
structure Located (program : Text) (st : Statement) (before body behind : List Piece) :
    Prop where
  pieces : Lexer.pieces program = before ++ (body ++ behind)
  span : st.span = ⟨Text.byteSize (textOf before),
    Text.byteSize (textOf before) + Text.byteSize (textOf body)⟩

namespace Located

variable {st : Statement} {before body behind : List Piece}

theorem statementText_eq (h : Located program st before body behind) :
    (Source.ofText program).statementText st = .ok (textOf body) := by
  have htext : program = textOf before ++ textOf body ++ textOf behind := by
    rw [← textOf_pieces program, h.pieces, textOf_append, textOf_append, append_assoc]
  have hcut : st.span.cut program = .ok (textOf before, textOf body, textOf behind) := by
    rw [h.span]
    exact Span.cut_eq_ok_iff.2 ⟨htext, rfl, rfl⟩
  show st.span.slice program = _
  rw [Span.slice, hcut]
  rfl

end Located

/-- What is left behind the rows: no statement, or one that nothing ends. -/
theorem BodyRows.rest_cases (h : BodyRows program entry front rows rest back) (i : Nat) :
    (rest.body = [] ∧ Source.split i .initial
        (scan ((placeAfter front).advance (textOf (Row.flatten rows))) false rest.pieces) =
        []) ∨
      ∃ st, rest.body ≠ [] ∧ Source.split i .initial
          (scan ((placeAfter front).advance (textOf (Row.flatten rows))) false rest.pieces) =
          [st] ∧
        Located program st (front ++ Row.flatten rows) rest.body (rest.gap ++ back) ∧
        st.first = i ∧ st.terminator = none := by
  have hspans :=
    h.isRest.final.spans i ((placeAfter front).advance (textOf (Row.flatten rows)))
  have hunended :=
    h.isRest.unended i ((placeAfter front).advance (textOf (Row.flatten rows)))
  rw [Row.statementAt] at hspans
  split at hspans
  next hnil => exact .inl ⟨hnil, map_eq_nil_iff.1 hspans⟩
  next hne =>
    obtain ⟨st, hst, hspan⟩ := map_eq_singleton_iff.1 hspans
    refine .inr ⟨st, hne, hst, ⟨?_, ?_⟩, hunended st (by simp [hst])⟩
    · rw [h.pieces]
      simp [Row.pieces]
    · rw [hspan]
      simp [placeAfter, Position.start]

/-- Nothing is left behind the rows if the last statement is ended. -/
theorem BodyRows.flatten_eq {program : Text} {entry : EntryPoint} {front back : List Piece}
    {rows : List Row} {rest : Row} (h : BodyRows program entry front rows rest back)
    (hlast : ∀ st, ((Source.ofText program).bodyStatements entry).getLast? = some st →
      st.terminator ≠ none) : Row.flatten (rows ++ [rest]) = Row.flatten rows := by
  have hrest : rest.pieces = [] := by
    rcases h.rest_cases
      ((kinds false front).length + (kinds false (Row.flatten rows)).length) with
      ⟨hnil, -⟩ | ⟨st, -, hone, -, -, hterminator⟩
    · rw [Row.pieces, hnil, h.isRest.empty hnil]
      rfl
    · refine absurd hterminator (hlast st ?_)
      rw [h.bodyStatements_eq, hone, getLast?_concat]
  simp [hrest]

/-- A body whose last statement is ended is made of rows. -/
theorem exists_rows_of_terminated {program : Text} {entry : EntryPoint}
    (hentry : (Source.ofText program).entryPoint = some entry)
    (hlast : ∀ st, ((Source.ofText program).bodyStatements entry).getLast? = some st →
      st.terminator ≠ none) :
    ∃ front rows back, IsOpening front ∧ IsClosing back ∧ (∀ r ∈ rows, Row.Ended r) ∧
      program = textOf (front ++ (Row.flatten rows ++ back)) ∧
      entry = enclosedEntry front (Row.flatten rows) := by
  obtain ⟨front, rows, rest, back, h⟩ := exists_bodyRows hentry
  refine ⟨front, rows, back, h.opening, h.closing, h.ended, ?_, ?_⟩
  · rw [← h.flatten_eq hlast, ← h.pieces, textOf_pieces]
  · rw [h.entry_eq, h.flatten_eq hlast]

/-! ### Programs that are made of rows -/

namespace Row

variable {last : Row}

theorem entryPoint_enclosed (hfront : IsOpening front) (hback : IsClosing back)
    (hrows : ∀ r ∈ rows, r.Ended) (hlast : last.Final) :
    (Source.ofText (textOf (front ++ (flatten (rows ++ [last]) ++ back)))).entryPoint =
      some (enclosedEntry front (flatten (rows ++ [last]))) :=
  Notebook.entryPoint_enclosed hfront hback (lexed_enclosed hfront hback hrows hlast)
    (nest_enclosed hrows hlast)

/-- The statements in the body of a program that is made of rows. -/
theorem texts_enclosed (hfront : IsOpening front) (hback : IsClosing back)
    (hrows : ∀ r ∈ rows, r.Ended) (hlast : last.Final) {s : Source}
    (hs : s = .ofText (textOf (front ++ (flatten (rows ++ [last]) ++ back)))) :
    s.texts (s.bodyStatements (enclosedEntry front (flatten (rows ++ [last])))) =
      .ok ((rows ++ [last]).filterMap text?) := by
  subst hs
  rw [bodyStatements_enclosed hfront hback (lexed_enclosed hfront hback hrows hlast),
    ← map_textOf_bodies]
  refine Checked.mapM_of_forall₂ ?_
  have hslices := slices_placed (rows ++ [last]) (kinds false front).length
    (show Text.byteSize (textOf front) = (placeAfter front).offset by
      simp [placeAfter, Position.start]) (textOf back)
  have hspans := spans_split hrows hlast (kinds false front).length (placeAfter front)
  rw [← textOf_append, ← textOf_append, append_assoc] at hslices
  -- The text of a statement depends on its extent alone.
  have hextents : Forall₂ (fun (span : Span) body =>
      span.slice (textOf (front ++ (flatten (rows ++ [last]) ++ back))) = .ok (textOf body))
      ((placed (kinds false front).length (placeAfter front) (rows ++ [last])).map
        Statement.span)
      (bodies (rows ++ [last])) := forall₂_map_left_iff.2 hslices
  rw [← hspans] at hextents
  exact forall₂_map_left_iff.1 hextents

end Row

/-- The texts of the statements in the body of a program. -/
theorem BodyRows.texts_eq (h : BodyRows program entry front rows rest back) :
    (Source.ofText program).texts ((Source.ofText program).bodyStatements entry) =
      .ok ((rows ++ [rest]).filterMap Row.text?) := by
  rw [h.entry_eq]
  exact Row.texts_enclosed h.opening h.closing h.ended h.isRest.final
    (by rw [← h.pieces, textOf_pieces])

end Notebook
