import Notebook.Proofs.Enclosures

/-!
# The body of an entry function as rows

The body of any entry function falls into rows and a rest: the last statement need not be
ended, and literals may end with their line.  Whatever the rows are, the statements of the
program around them stand where the rows have them.  So a program whose rows are changed is
known statement by statement.

## Main statements

* `exists_bodyRows`: every program with an entry point has them
* `Row.spans_split`, `Row.slices_placed`: the statements of rows stand where the rows have
  them
-/

namespace Notebook

open Lexer List

/-- A closing bracket is a single delimiter, and no blank. -/
theorem Lexer.Spelled.text_of_closing {p : Piece} (h : Spelled p) {b : Bracket}
    (hk : p.kind = .token (.closing b)) :
    ∃ c, p.text = [c] ∧ isDelimiter c = true ∧ isBlank c = false := by
  have hmarks : ∀ e ∈ markKinds, e.2.closes = true →
      e.1.toList ∈ [[')'], [']'], ['\x7d']] := by
    decide
  obtain ⟨e, he, hkind, htext⟩ := h.exists_markKind hk (by cases b <;> decide)
  have hmem := hmarks e he (by rw [hkind]; rfl)
  rw [htext] at hmem
  simp only [mem_cons, not_mem_nil, or_false] at hmem
  rcases hmem with hmem | hmem | hmem
  all_goals exact ⟨_, hmem, by decide, by decide⟩

/-- What closes an entry function begins with a delimiter that is no blank. -/
theorem IsClosing.exists_head {back : List Piece} (h : IsClosing back) :
    ∃ c t, textOf back = c :: t ∧ isDelimiter c = true ∧ isBlank c = false := by
  obtain ⟨p, b, hp, hk⟩ := h.head
  obtain ⟨ps, rfl⟩ := head?_eq_some_iff.1 hp
  have hread := (lexed_cons.1 h.lexed).1
  have hclosed : p.isClosed = true := by simp [Piece.isClosed, hk]
  obtain ⟨c, hc, hdelimiter, hblank⟩ := (spelled_of_reads hread hclosed).text_of_closing hk
  exact ⟨c, textOf ps, by rw [textOf_cons, hc, singleton_append], hdelimiter, hblank⟩

namespace Row

/-- The last row of a body, whose statement need not be ended: it is split off and nothing
else is, and a bracket may stand behind the row. -/
structure Final (r : Row) : Prop where
  lexed : Lexed r.pieces
  last : ∀ p, r.pieces.getLast? = some p → p.isClosed = true ∧ p.isLine = false
  nest : nest 0 (kinds false r.pieces) = some 0
  spans : ∀ i here, (Source.split i .initial (scan here false r.pieces)).map Statement.span =
    (r.statementAt i here).map Statement.span

theorem Ended.final {r : Row} (h : r.Ended) : r.Final where
  lexed := h.lexed
  last := by
    intro p hp
    obtain ⟨hsolid, hclosed⟩ := h.getLast?_pieces hp
    refine ⟨hclosed, ?_⟩
    cases hline : p.isLine with
    | false => rfl
    | true =>
      have hcomment : p.kind = .comment := by
        simpa using (Bool.and_eq_true_iff.1 hline).1
      simp [Piece.isSolid, hcomment, hline] at hsolid
  nest := h.nest_eq
  spans := by
    intro i here
    have hsplit := Source.split_row h.splitsOff i here []
    rw [append_nil] at hsplit
    rw [hsplit]
    simp [Source.split, Source.SplitState.close, Source.SplitState.initial]

/-- A statement and fillers behind it, whether they end it or not. -/
theorem final_of_isStatement {r : Row} (hlexed : Lexed r.pieces)
    (hlast : ∀ p, r.pieces.getLast? = some p → p.isClosed = true ∧ p.isLine = false)
    (hbody : IsStatement r.body) (hgap : ∀ p ∈ r.gap, p.isFiller = true) : r.Final where
  lexed := hlexed
  last := hlast
  nest := by
    have hnest : Notebook.nest 0 (kinds false r.body) = some 0 :=
      Mode.nest_of_walk hbody.whole
    rw [pieces, kinds_append, nest_append, hnest]
    exact nest_fillers hgap _ _
  spans := by
    intro i here
    obtain ⟨a, ts, b, hscan, hb, hpos, hstop⟩ := hbody.scan_eq here
    have hrun : Mode.outside.run ((a :: ts).map Token.kind) = some .whole := by
      rw [← hscan, map_kind_scan]
      exact hbody.isSplitOff.whole
    have hsemis :=
      scan_fillers hgap (here.advance (textOf r.body)) (pendingAfter false r.body)
    rw [pieces, scan_append, hscan, statementAt, if_neg hbody.ne_nil]
    cases hgapscan :
      scan (here.advance (textOf r.body)) (pendingAfter false r.body) r.gap with
    | nil =>
      rw [append_nil, Source.split_unended hrun hb, hpos, hstop]
      rfl
    | cons semi semis =>
      rw [hgapscan] at hsemis
      have hnone := Source.split_semis (fun t ht => hsemis t (mem_cons_of_mem semi ht))
        (i + ts.length + 2) []
      rw [append_nil] at hnone
      rw [Source.split_statement hrun hb (hsemis semi mem_cons_self),
        hnone, hpos, hstop]
      rfl

/-- What is left of a body behind its rows: nothing, or a statement that no semicolon ends.
The statement reaches to its last token, which may be a semicolon in a header that a line end
implies. -/
structure Rest (r : Row) : Prop where
  final : r.Final
  gap : ∀ p ∈ r.gap, p.isToken = false
  head : ∀ c, (textOf r.pieces).head? = some c → isBlank c = false
  empty : r.body = [] → r.gap = []
  unended : ∀ i here, ∀ st ∈ Source.split i .initial (scan here false r.pieces),
    st.first = i ∧ st.terminator = none

variable {front back : List Piece} {rows : List Row} {last : Row}

/-- Rows between pieces that open and close an entry function are read back. -/
theorem lexed_enclosed (hfront : IsOpening front) (hback : IsClosing back)
    (hrows : ∀ r ∈ rows, r.Ended) (hlast : last.Final) :
    Lexed (front ++ (flatten (rows ++ [last]) ++ back)) := by
  have hbehind : Lexed (last.pieces ++ back) := by
    refine Lexed.append hlast.lexed hback.lexed (fun p hp => (hlast.last p hp).1) ?_
    intro p hp
    obtain ⟨c, t, htext, hdelimiter, -⟩ := hback.exists_head
    rw [htext]
    refine .inr ?_
    rintro d ⟨⟩
    refine ⟨hdelimiter, fun hline => ?_⟩
    rw [(hlast.last p hp).2] at hline
    cases hline
  refine hfront.lexed_append ?_
  rw [flatten_append, append_assoc, flatten_cons, flatten_nil, append_nil]
  exact lexed_flatten_append hrows hbehind

theorem nest_enclosed (hrows : ∀ r ∈ rows, r.Ended) (hlast : last.Final) :
    nest 0 (kinds false (flatten (rows ++ [last]))) = some 0 := by
  rw [flatten_append, kinds_append, pendingAfter_flatten hrows, nest_append,
    nest_flatten hrows, flatten_cons, flatten_nil, append_nil]
  exact hlast.nest

theorem placed_append (h : ∀ r ∈ rows, r.SplitsOff) (i : Nat) (here : Position)
    (more : List Row) :
    placed i here (rows ++ more) = placed i here rows ++
      placed (i + (kinds false (flatten rows)).length)
        (here.advance (textOf (flatten rows))) more := by
  induction rows generalizing i here with
  | nil => rfl
  | cons r rs ih =>
    obtain ⟨hr, hrs⟩ := forall_mem_cons.1 h
    rw [cons_append, placed, ih hrs, placed,
      append_assoc, flatten_cons, kinds_append, hr.pendingAfter_eq, length_append,
      textOf_append, Position.advance_append, Nat.add_assoc]

/-- The statements of rows stand where the rows have them. -/
theorem spans_split (hrows : ∀ r ∈ rows, r.Ended) (hlast : last.Final) (i : Nat)
    (here : Position) :
    (Source.split i .initial (scan here false (flatten (rows ++ [last])))).map
      Statement.span =
      (placed i here (rows ++ [last])).map Statement.span := by
  have hsplits := splitsOff_of_ended hrows
  rw [flatten_append, scan_append, pendingAfter_flatten hrows, Source.split_rows hsplits,
    placed_append hsplits, map_append, map_append, flatten_cons, flatten_nil,
    append_nil, hlast.spans, placed, placed, append_nil]

/-- The text of a statement is that of its row. -/
theorem slices_placed (rows : List Row) (i : Nat) {here : Position} {before : Text}
    (hsize : before.byteSize = here.offset) (after : Text) :
    Forall₂ (fun st body => st.span.slice (before ++ textOf (flatten rows) ++ after) =
      .ok (textOf body)) (placed i here rows) (bodies rows) := by
  induction rows generalizing i here before with
  | nil => exact .nil
  | cons r rs ih =>
    have hrest := @ih (i + (kinds false r.pieces).length) (here.advance (textOf r.pieces))
      (before ++ textOf r.pieces) (by simp [hsize])
    have htext : before ++ textOf (flatten (r :: rs)) ++ after =
        before ++ textOf r.pieces ++ textOf (flatten rs) ++ after := by simp
    rw [placed, bodies_cons, htext]
    refine rel_append ?_ hrest
    unfold statementAt
    split
    · exact .nil
    · refine .cons ?_ .nil
      have hcut : Span.cut ⟨here.offset, here.offset + Text.byteSize (textOf r.body)⟩
          (before ++ textOf r.pieces ++ textOf (flatten rs) ++ after) =
          .ok (before, textOf r.body, textOf r.gap ++ (textOf (flatten rs) ++ after)) :=
        Span.cut_eq_ok_iff.2 ⟨by simp [pieces], hsize.symm, by rw [hsize]⟩
      simp only [Span.slice, hcut]
      rfl

end Row

theorem Lexer.isToken_eq_false_of_kinds {ps : List Piece} {pending : Bool}
    (h : kinds pending ps = []) : ∀ p ∈ ps, p.isToken = false := by
  induction ps generalizing pending with
  | nil => exact fun p hp => by cases hp
  | cons p ps ih =>
    obtain ⟨hp, hps⟩ := append_eq_nil_iff.1 h
    intro q hq
    rcases mem_cons.1 hq with rfl | hq
    · cases hk : q.kind with
      | token k => simp [Piece.emittedKinds, hk] at hp
      | _ => simp [Piece.isToken, hk]
    · exact ih hps q hq

/-- The last token of pieces stops where pieces end, and no token stands behind. -/
theorem Lexer.exists_of_getLast?_scan {ps : List Piece} {here : Position}
    {pending : Bool} {t : Token} (h : (scan here pending ps).getLast? = some t) :
    ∃ body gap, ps = body ++ gap ∧ (∀ p ∈ gap, p.isToken = false) ∧
      (gap = [] → ∃ p, ps.getLast? = some p ∧ p.isToken = true) ∧
      t.stop = here.offset + Text.byteSize (textOf body) := by
  induction ps generalizing here pending with
  | nil => cases h
  | cons p ps ih =>
    rw [scan_cons, getLast?_append] at h
    cases hlast : (scan (here.advance p.text) (p.pendingBehind pending) ps).getLast? with
    | some u =>
      rw [hlast] at h
      cases h
      obtain ⟨body, gap, rfl, hgap, hend, hstop⟩ := ih hlast
      refine ⟨p :: body, gap, rfl, hgap, fun hnil => ?_, by rw [hstop]; simp [Nat.add_assoc]⟩
      obtain ⟨q, hq, htoken⟩ := hend hnil
      exact ⟨q, by rw [getLast?_cons, hq]; rfl, htoken⟩
    | none =>
      rw [hlast] at h
      have hnone : ∀ q ∈ ps, q.isToken = false := by
        refine @isToken_eq_false_of_kinds ps (p.pendingBehind pending) ?_
        rw [← map_kind_scan (here.advance p.text), getLast?_eq_none_iff.1 hlast]
        rfl
      rcases p.emitted_cases here pending with ⟨k, hk⟩ | ⟨hp, u, hu, -, hstop⟩ | ⟨-, hnil⟩
      · rw [Piece.emitted_of_kind hk] at h
        cases h
        refine ⟨[p], ps, rfl, hnone, ?_, by simp [Token.stop, Token.pos, Token.size]⟩
        rintro rfl
        exact ⟨p, rfl, Piece.isToken_iff.2 ⟨k, hk⟩⟩
      · rw [hu] at h
        cases h
        refine ⟨[], p :: ps, rfl, ?_, fun hnil => absurd hnil (cons_ne_nil p ps), hstop⟩
        exact forall_mem_cons.2 ⟨hp, hnone⟩
      · rw [hnil] at h
        cases h

/-- A statement that no semicolon ends, as a row.  It reaches to its last token, and neither
that nor what is behind it depends on the place. -/
theorem Row.exists_unended {rest : List Piece} {p : Piece} {m : Mode}
    (hp : rest.head? = some p) (hfiller : p.isFiller = false)
    (hrun : Mode.outside.run (kinds false rest) = some m) :
    ∃ r : Row, r.pieces = rest ∧ r.body ≠ [] ∧ (∀ q ∈ r.gap, q.isToken = false) ∧
      (r.gap = [] → ∃ q, rest.getLast? = some q ∧ q.isToken = true) ∧
      ∀ i here, ∃ st, Source.split i .initial (scan here false rest) = [st] ∧ st.first = i ∧
        st.terminator = none ∧
        st.span = ⟨here.offset, here.offset + Text.byteSize (textOf r.body)⟩ := by
  obtain ⟨-, -, -, -, -, b, hb, -⟩ := Source.split_dangling hp hfiller hrun 0 .start
  obtain ⟨body, gap, rfl, hgap, hend, hstop⟩ := exists_of_getLast?_scan hb
  refine ⟨⟨body, gap⟩, rfl, ?_, hgap, hend, fun i here => ?_⟩
  · rintro rfl
    have htoken := Piece.isToken_of_isFiller hfiller
    rw [hgap p (mem_of_mem_head? hp)] at htoken
    cases htoken
  · obtain ⟨st, hst, hfirst, hnone, hstart, c, hc, hstop'⟩ :=
      Source.split_dangling hp hfiller hrun i here
    have hmoved : c = b.move here := by
      rw [scan_eq_map, getLast?_map, hb] at hc
      exact (Option.some.inj hc).symm
    refine ⟨st, hst, hfirst, hnone, ?_⟩
    have hends : st.span = ⟨st.span.start, st.span.stop⟩ := rfl
    rw [hends, hstart, hstop', hmoved, Token.stop_move, hstop]
    simp [Position.start]

/-- What follows the rows of a body, up to the bracket that closes it. -/
theorem exists_rest {rest back : List Piece} (hlexed : Lexed (rest ++ back))
    (hback : IsClosing back) (hnest : nest 0 (kinds false rest) = some 0)
    (hrest : rest = [] ∨ (∃ p, rest.head? = some p ∧ p.isFiller = false) ∧
      ∃ m, Mode.outside.walk (kinds false rest) = some m) :
    ∃ r : Row, r.pieces = rest ∧ r.Rest := by
  rcases hrest with rfl | ⟨⟨p, hp, hfiller⟩, m, hwalk⟩
  · refine ⟨⟨[], []⟩, rfl, ⟨lexed_nil, by simp [Row.pieces], rfl, fun _ _ => rfl⟩,
      ?_, ?_, ?_, ?_⟩
    · exact fun p hp => by cases hp
    · exact fun c hc => by cases hc
    · exact fun _ => rfl
    · exact fun i here st hst => by cases hst
  · obtain ⟨r, rfl, hne, hgap, -, hsplit⟩ :=
      Row.exists_unended hp hfiller (Mode.run_of_walk hwalk)
    refine ⟨r, rfl, ⟨hlexed.left, ?_, hnest, ?_⟩, hgap, ?_, fun hnil => absurd hnil hne, ?_⟩
    · intro q hq
      obtain ⟨c, t, htext, -, hblank⟩ := hback.exists_head
      refine hlexed.closed_of_getLast? (by simp [htext]) ?_ hq
      rw [htext]
      rintro ⟨⟩
      cases hblank
    · intro i here
      obtain ⟨st, hst, -, -, hspan⟩ := hsplit i here
      rw [hst, Row.statementAt, if_neg hne, map_singleton, hspan]
      rfl
    · intro c hc
      obtain ⟨qs, hqs⟩ := head?_eq_some_iff.1 hp
      obtain ⟨k, hk⟩ := Piece.isToken_iff.1 (Piece.isToken_of_isFiller hfiller)
      have hmem : p ∈ Lexer.pieces (textOf r.pieces) := by
        rw [hlexed.left]
        exact mem_of_mem_head? hp
      obtain ⟨d, t, htext, hblank⟩ := pieces_token hmem hk
      rw [hqs, textOf_cons, htext] at hc
      cases hc
      exact hblank
    · intro i here st hst
      obtain ⟨st', hst', hfirst, hnone, -⟩ := hsplit i here
      rw [hst', mem_singleton] at hst
      rw [hst]
      exact ⟨hfirst, hnone⟩

/-- The rows in the body of a program, with the pieces in front of the body and behind it.
Each row but the first holds a statement. -/
structure BodyRows (program : Text) (entry : EntryPoint) (front : List Piece)
    (rows : List Row) (rest : Row) (back : List Piece) : Prop where
  opening : IsOpening front
  closing : IsClosing back
  ended : ∀ r ∈ rows, r.Ended
  statements : ∀ r ∈ rows.tail, r.body ≠ []
  isRest : rest.Rest
  pieces : Lexer.pieces program = front ++ (Row.flatten (rows ++ [rest]) ++ back)
  entry_eq : entry = enclosedEntry front (Row.flatten (rows ++ [rest]))

/-- The body of an entry function falls into rows and a rest. -/
theorem exists_bodyRows {program : Text} {entry : EntryPoint}
    (h : (Source.ofText program).entryPoint = some entry) :
    ∃ front rows rest back, BodyRows program entry front rows rest back := by
  obtain ⟨front, body, back, hfront, hback, hpieces, hnest, hentry⟩ := exists_enclosure h
  have hlexed : Lexed (body ++ back) := (hpieces ▸ lexed_pieces program).right
  have hlast : ∀ p, body.getLast? = some p → p.isFiller = true →
      p.isSolid = true ∧ p.isClosed = true := by
    intro p hp hfiller
    obtain ⟨q, b, hq, hk⟩ := hback.head
    obtain ⟨ps, rfl⟩ := getLast?_eq_some_iff.1 hp
    obtain ⟨qs, rfl⟩ := head?_eq_some_iff.1 hq
    rw [append_assoc, singleton_append] at hlexed
    exact Piece.isSolid_of_isFiller hlexed.right hfiller (by simp [Piece.isFiller, hk])
  obtain ⟨rows, tail, hrows, hstatements, rfl, htail⟩ :=
    exists_endedRows hlexed.left hlast hnest
  rw [kinds_append, Row.pendingAfter_flatten hrows, nest_append,
    Row.nest_flatten hrows] at hnest
  rw [append_assoc] at hlexed
  obtain ⟨rest, rfl, hrest⟩ := exists_rest hlexed.right hback hnest htail
  have hflat : Row.flatten (rows ++ [rest]) = Row.flatten rows ++ rest.pieces := by simp
  exact ⟨front, rows, rest, back, hfront, hback, hrows, hstatements,
    hrest, by rw [hpieces, hflat],
    by rw [hentry, hflat]⟩

end Notebook
