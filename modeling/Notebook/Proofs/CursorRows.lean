import Notebook.Proofs.StrippedPrograms

/-!
# The cursor in an input

A cursor is followed into a program by a word that is put in its place.  The word changes how
the input is read, but only around the cursor: no piece ends inside the word, so it lies in
one piece of the input, and the statement with that piece is a declaration or stays in the
body.  In both cases the identifier characters in front of the word are those in front of the
cursor, since a gap stands between two statements and ends in no identifier.

## Main statements

* `Lexer.Lexed.exists_cursor`: the word lies in one piece
* `inBody_or_inDeclaration`: the word stands behind the identifier in front of the cursor
-/

namespace Notebook

open Lexer List

variable {c : Char} {d : Declaration} {declarations : List Declaration} {rows : List Row}
  {p : Piece} {r : Row} {before behind body rest t : Text}

/-! ### Identifiers at the end -/

/-- A text that ends in no identifier. -/
def EndsOutside (t : Text) : Prop :=
  ∀ c, t.getLast? = some c → isIdentifierChar c = false

/-- The longest end of a text that consists of identifier characters. -/
structure IsIdentifierEnd (w t : Text) : Prop where
  suffix : w <:+ t
  chars : ∀ c ∈ w, isIdentifierChar c = true
  longest : ∀ v, v <:+ t → (∀ c ∈ v, isIdentifierChar c = true) → v <:+ w

theorem endsOutside_nil : EndsOutside [] := by
  intro c hc
  cases hc

theorem endsOutside_concat (hc : isIdentifierChar c = false) (t : Text) :
    EndsOutside (t ++ [c]) := by
  intro d hd
  rw [getLast?_concat] at hd
  cases hd
  exact hc

theorem isIdentifierChar_of_mem_identifierTail (h : c ∈ identifierTail t) :
    isIdentifierChar c = true :=
  mem_rtakeWhile_imp h

/-- In front of the identifier at its end a text ends in none. -/
theorem exists_identifierTail (t : Text) :
    ∃ a, t = a ++ identifierTail t ∧ EndsOutside a := by
  refine ⟨t.rdropWhile isIdentifierChar, rdropWhile_append_rtakeWhile.symm, ?_⟩
  intro c hc
  obtain ⟨a, ha⟩ := getLast?_eq_some_iff.1 hc
  have hlast := rdropWhile_last_not isIdentifierChar t (by rw [ha]; simp)
  simpa [ha] using hlast

theorem identifierTail_append_left {a : Text} (ha : EndsOutside a) (z : Text) :
    identifierTail (a ++ z) = identifierTail z := by
  by_cases hz : ∃ y ∈ z, isIdentifierChar y = false
  · exact rtakeWhile_append_left hz
  · have hall : ∀ y ∈ z, isIdentifierChar y = true := by simpa using hz
    have hself : identifierTail z = z := rtakeWhile_eq_self_iff.2 hall
    cases hlast : a.getLast? with
    | none => rw [getLast?_eq_none_iff.1 hlast, nil_append]
    | some c => exact (rtakeWhile_append_of_pos hlast (ha c hlast) hall).trans hself.symm

theorem isIdentifierEnd_identifierTail (t : Text) : IsIdentifierEnd (identifierTail t) t where
  suffix := rtakeWhile_suffix _ _
  chars := fun _ => isIdentifierChar_of_mem_identifierTail
  longest := by
    intro v hv hchars
    obtain ⟨a, rfl⟩ := hv
    obtain ⟨b, hb, hends⟩ := exists_identifierTail a
    have htail : identifierTail (a ++ v) = identifierTail a ++ v := by
      rw [hb, append_assoc, identifierTail_append_left hends]
      refine (rtakeWhile_eq_self_iff.2 fun c hc => ?_).trans ?_
      · rcases mem_append.1 hc with hc | hc
        · exact isIdentifierChar_of_mem_identifierTail (hb ▸ hc)
        · exact hchars c hc
      · rw [← hb]
    rw [htail]
    exact suffix_append _ _

/-! ### The cursor word -/

theorem isIdentifierChar_of_mem_cursorMark (h : c ∈ cursorMark) :
    isIdentifierChar c = true := by
  have hall : cursorMark.all isIdentifierChar = true := by decide
  exact all_eq_true.1 hall c h

theorem notMem_cursorMark (h : isIdentifierChar c = false) : c ∉ cursorMark := by
  intro hmem
  rw [isIdentifierChar_of_mem_cursorMark hmem] at h
  cases h

/-! ### The word in a piece -/

/-- No piece ends between two characters of the word. -/
theorem Lexer.Reads.not_inside (h : Reads p rest) {d : Char}
    (hlast : p.text.getLast? = some c) (hhead : rest.head? = some d) (hc : c ∈ cursorMark) :
    d ∉ cursorMark := by
  intro hd
  have hstarts : cursorMark.all isIdentifierStart = true := by decide
  have hnumbers : cursorMark.all (fun d => d.isAlphanum || d == '_') = true := by decide
  have hquotes : cursorMark.all (fun c => (quoteKind? c).isNone) = true := by decide
  have hoperators : ∀ o ∈ operators, o.toList.all (· ∉ cursorMark) = true := by decide
  have hident := isIdentifierChar_of_mem_cursorMark hc
  have hrest : rest ≠ [] := by
    rintro rfl
    cases hhead
  have hline : rest.head? ≠ some '\n' := by
    rw [hhead]
    rintro ⟨⟩
    exact absurd hd (by decide)
  obtain ⟨hclosed, hnoLine⟩ := h.closed_of_head hrest hline
  cases spelled_of_reads h hclosed with
  | @blank b hblank =>
    obtain rfl : b = c := Option.some.inj hlast
    rw [isBlank_eq_false_of_isIdentifierChar hident] at hblank
    cases hblank
  | line => cases hnoLine
  | block ht =>
    rw [getLast?_cons, getLast?_cons, isCommentClosed_getLast ht] at hlast
    cases hlast
    exact absurd hc (by decide)
  | @quoted q _ _ hq ht =>
    rw [getLast?_cons, isQuotedClosed_getLast ht] at hlast
    obtain rfl : q = c := Option.some.inj hlast
    have hnone := all_eq_true.1 hquotes q hc
    rw [hq] at hnone
    cases hnone
  | word hstart ht =>
    have hend := (reads_word hstart ht).1 h d hhead
    rw [isIdentifierChar_of_mem_cursorMark hd] at hend
    cases hend
  | number hstart ht =>
    have hend := (reads_number hstart ht).1 h d hhead
    have hgoes := all_eq_true.1 hnumbers d hd
    simp only [isNumberChar, Bool.or_eq_false_iff] at hend
    simp [hend.1.2, hend.2] at hgoes
  | @mark m _ hmark ht =>
    rcases ht with rfl | ⟨o, ho, htext⟩
    · obtain rfl : m = c := Option.some.inj hlast
      simp [isMarkChar, all_eq_true.1 hstarts m hc] at hmark
    · have hmem : c ∈ o.toList := htext ▸ mem_of_getLast? hlast
      have hnot := all_eq_true.1 (hoperators o ho) c hmem
      simp [hc] at hnot

/-- The word lies in one piece. -/
theorem Lexer.Lexed.exists_cursor {ps : List Piece} (h : Lexed ps)
    (htext : textOf ps = before ++ (cursorMark ++ behind)) :
    ∃ front p back u w, ps = front ++ p :: back ∧ p.text = u ++ (cursorMark ++ w) ∧
      before = textOf front ++ u ∧ behind = w ++ textOf back := by
  induction ps generalizing before with
  | nil =>
    rw [textOf_nil] at htext
    exact absurd (append_eq_nil_iff.1 (append_eq_nil_iff.1 htext.symm).2).1
      (by decide)
  | cons p ps ih =>
    obtain ⟨hread, hps⟩ := lexed_cons.1 h
    rw [textOf_cons] at htext
    have hlater (z : Text) (hz : before = p.text ++ z)
      (hrest : textOf ps = z ++ (cursorMark ++ behind)) :
        ∃ front q back u w, p :: ps = front ++ q :: back ∧ q.text = u ++ (cursorMark ++ w) ∧
          before = textOf front ++ u ∧ behind = w ++ textOf back := by
      obtain ⟨front, q, back, u, w, rfl, hq, rfl, hback⟩ := ih hps hrest
      exact ⟨p :: front, q, back, u, w, rfl,
        hq, by rw [hz, textOf_cons, append_assoc], hback⟩
    rcases append_eq_append_iff.1 htext with ⟨z, hz, hrest⟩ | ⟨z, hz, hrest⟩
    · exact hlater z hz hrest
    · by_cases hne : z = []
      · rw [hne, append_nil] at hz
        rw [hne, nil_append] at hrest
        exact hlater [] (by rw [hz, append_nil]) (by rw [nil_append, hrest])
      · rcases append_eq_append_iff.1 hrest with ⟨y, hy, hbehind⟩ | ⟨y, hy, hbehind⟩
        · exact ⟨[], p, ps, before, y, rfl, by rw [hz, hy], rfl, hbehind⟩
        · by_cases hynil : y = []
          · rw [hynil, append_nil] at hy
            rw [hynil, nil_append] at hbehind
            exact ⟨[], p, ps, before, [], rfl, by rw [hz, ← hy, append_nil],
              rfl, hbehind.symm⟩
          · -- The piece would end in the middle of the word.
            obtain ⟨d, v, rfl⟩ := exists_cons_of_ne_nil hynil
            obtain ⟨v', c, rfl⟩ := eq_nil_or_concat z |>.resolve_left hne
            have hlast : p.text.getLast? = some c := by rw [hz]; simp
            have hhead : (textOf ps).head? = some d := by rw [hbehind]; rfl
            exact absurd (by rw [hy]; simp) (hread.not_inside hlast hhead (by rw [hy]; simp))

/-- A piece of rows lies in one row. -/
theorem Row.exists_of_flatten {front back : List Piece}
    (h : flatten rows = front ++ p :: back) :
    ∃ init r rest left right, rows = init ++ r :: rest ∧ r.pieces = left ++ p :: right ∧
      front = flatten init ++ left ∧ back = right ++ flatten rest := by
  induction rows generalizing front with
  | nil => simp [flatten] at h
  | cons r rs ih =>
    rw [flatten_cons] at h
    rcases append_eq_append_iff.1 h with ⟨z, rfl, hrest⟩ | ⟨z, hz, hrest⟩
    · obtain ⟨init, q, rest, left, right, rfl, hq, rfl, rfl⟩ := ih hrest
      exact ⟨r :: init, q, rest, left, right, rfl, hq, by simp, rfl⟩
    · cases z with
      | nil =>
        rw [append_nil] at hz
        obtain ⟨init, q, rest, left, right, rfl, hq, hfront, rfl⟩ :=
          @ih [] (by rw [nil_append]; exact hrest.symm)
        refine ⟨r :: init, q, rest, left, right, rfl, hq, ?_, rfl⟩
        rw [flatten_cons, append_assoc, ← hfront, hz, append_nil]
      | cons q z =>
        obtain ⟨rfl, rfl⟩ := List.cons.inj hrest
        exact ⟨[], r, rs, front, z, rfl, hz, rfl, rfl⟩

/-! ### What stands in front of a statement -/

/-- A filler in front of a statement ends in no identifier. -/
theorem endsOutside_filler {q : Piece} (hp : Reads p (q.text ++ rest)) (hq : Reads q rest)
    (hpfiller : p.isFiller = true) (hqfiller : q.isFiller = false) : EndsOutside p.text := by
  obtain ⟨d, t, htext, hfirst⟩ := hq
  -- A line comment would end at a line end, and that is a filler.
  have hline : (q.text ++ rest).head? ≠ some '\n' := by
    rw [htext]
    intro hhead
    obtain rfl : d = '\n' := Option.some.inj hhead
    rw [firstPiece_blank (by decide)] at hfirst
    obtain rfl := congrArg Prod.fst hfirst
    cases hqfiller
  obtain ⟨hclosed, hnoLine⟩ := hp.closed_of_head (by rw [htext]; simp) hline
  intro c hc
  rcases Piece.filler_cases (spelled_of_reads hp hclosed) hpfiller with
    ⟨b, hb, rfl⟩ | hsemi | hisLine | ⟨u, hu⟩
  · obtain rfl : b = c := Option.some.inj hc
    exact isIdentifierChar_eq_false_of_isDelimiter (by simp [isDelimiter, hb])
  · rw [hsemi] at hc
    cases hc
    decide
  · rw [hnoLine] at hisLine
    cases hisLine
  · rw [← hu] at hc
    obtain rfl : '/' = c := by simpa using hc
    decide

theorem Row.undeclared_gap (r : Row) : r.undeclared.gap = r.gap := by
  unfold undeclared
  split <;> rfl

/-- Rows end in the same filler with their declarations and without them. -/
theorem Row.exists_last_filler (h : ∀ r ∈ rows, r.Removable) :
    (flatten rows = [] ∧ flatten (rows.map undeclared) = []) ∨
      ∃ a b p, flatten rows = a ++ [p] ∧ flatten (rows.map undeclared) = b ++ [p] ∧
        p.isFiller = true := by
  induction rows using reverseRecOn with
  | nil => exact .inl ⟨rfl, rfl⟩
  | append_singleton rows r ih =>
    have hr := h r (by simp)
    have hsingle (q : Row) : flatten [q] = q.body ++ q.gap := by
      simp [flatten, pieces]
    rw [map_append, map_singleton, flatten_append, flatten_append, hsingle, hsingle,
      undeclared_gap]
    rcases eq_nil_or_concat r.gap with hnil | ⟨gap, p, hconcat⟩
    · have hbody : r.body = [] := by
        by_contra hne
        exact hr.ends hne hnil
      rw [undeclared_of_nil hbody, hnil, hbody, append_nil, append_nil,
        append_nil]
      exact ih fun q hq => h q (mem_append_left _ hq)
    · rw [concat_eq_append] at hconcat
      rw [hconcat]
      refine .inr ⟨flatten rows ++ (r.body ++ gap),
        flatten (rows.map undeclared) ++ (r.undeclared.body ++ gap), p, ?_, ?_, ?_⟩
      · simp only [append_assoc]
      · simp only [append_assoc]
      · exact hr.fillers p (by rw [hconcat]; simp)

namespace Divided

variable {init rest : List Row} {last : Row}

/-- In front of a statement no identifier ends, with the declarations before it and without
them. -/
theorem endsOutside (h : Divided t rows last) (hrows : rows ++ [last] = init ++ r :: rest)
    (hbody : r.body ≠ []) :
    EndsOutside (textOf (Row.flatten init)) ∧
      EndsOutside (textOf (Row.flatten (init.map Row.undeclared))) := by
  have hremovable := h.removable
  rw [hrows] at hremovable
  obtain ⟨q, body, hq⟩ := exists_cons_of_ne_nil hbody
  have hqfiller : q.isFiller = false := (hremovable r (by simp)).front q (by rw [hq]; rfl)
  rcases Row.exists_last_filler (fun q hq => hremovable q (mem_append_left _ hq)) with
    ⟨hnil, hnil'⟩ | ⟨a, b, p, ha, hb, hfiller⟩
  · rw [hnil, hnil']
    exact ⟨endsOutside_nil, endsOutside_nil⟩
  · have hflatten := h.flatten
    rw [hrows, Row.flatten_append, Row.flatten_cons, ha, Row.pieces, hq] at hflatten
    -- The statement is not the line end behind the text, so both pieces are read from the
    -- text.
    have hpieces : ∃ back, Lexer.pieces t = a ++ p :: q :: back := by
      rcases eq_nil_or_concat
        (body ++ r.gap ++ Row.flatten rest) with hback | ⟨back, y, hback⟩
      · have hlast : a ++ [p] ++ [q] = Lexer.pieces t ++ [lineEnd] := by
          rw [← hflatten]
          simpa using hback
        obtain rfl : q = lineEnd := by simpa using (append_inj' hlast rfl).2
        cases hqfiller
      · rw [concat_eq_append] at hback
        refine ⟨back, (append_inj' (?_ : Lexer.pieces t ++ [lineEnd] = _ ++ [y]) rfl).1⟩
        rw [← hflatten, cons_append, cons_append, hback]
        simp
    obtain ⟨back, hback⟩ := hpieces
    have hlexed := lexed_pieces t
    rw [hback] at hlexed
    obtain ⟨hp, hlexed⟩ := lexed_cons.1 hlexed.right
    have hends := endsOutside_filler hp (lexed_cons.1 hlexed).1 hfiller hqfiller
    have hne : p.text ≠ [] := reads_text_ne_nil hp
    have hlift (front : List Piece) : EndsOutside (textOf (front ++ [p])) := by
      intro c hc
      rw [textOf_append, textOf_cons, textOf_nil, append_nil,
        getLast?_append_of_ne_nil _ hne] at hc
      exact hends c hc
    rw [ha, hb]
    exact ⟨hlift a, hlift b⟩

end Divided

/-! ### The word in a statement -/

theorem Row.infix_body (h : r ∈ rows) : textOf r.body <:+: textOf (flatten rows) := by
  refine List.IsInfix.trans ?_ (infix_flatten h)
  rw [pieces, textOf_append]
  exact infix_append_of_infix_left infix_rfl

/-- A filler begins with no identifier. -/
theorem Lexer.Reads.exists_filler_head (h : Reads p rest) (hfiller : p.isFiller = true) :
    ∃ c t, p.text = c :: t ∧ isIdentifierChar c = false := by
  rcases h.filler_cases hfiller with ⟨c, hc, rfl⟩ | hsemi | ⟨c, t, htext, -⟩
  · exact ⟨c, [], rfl, isIdentifierChar_eq_false_of_isDelimiter (by simp [isDelimiter, hc])⟩
  · exact ⟨';', [], hsemi, by decide⟩
  · exact ⟨'/', c :: t, htext, by decide⟩

/-- A gap that begins with no identifier begins in the inside of no cursor word. -/
theorem Row.parted_cursorMark (h : textOf r.gap = c :: t) (hc : isIdentifierChar c = false) :
    r.Parted cursorMark := by
  intro x y rest hxy _ hy
  rw [h, cons_append]
  exact Text.apart_cons (notMem_cursorMark hc) _ y ⟨x, hxy.symm⟩ hy

/-- The word in a filler is in a comment. -/
theorem exists_slash_of_filler {u w : Text} (h : Reads p rest) (hfiller : p.isFiller = true)
    (htext : p.text = u ++ (cursorMark ++ w)) : ∃ v, u = '/' :: v := by
  have hlong : (u ++ (cursorMark ++ w)).length ≠ 1 := by
    have hmark : cursorMark.length = 17 := by decide
    rw [length_append, length_append, hmark]
    omega
  rcases h.filler_cases hfiller with ⟨c, -, hc⟩ | hsemi | ⟨c, v, hcomment, -⟩
  · rw [← htext, hc] at hlong
    exact absurd rfl hlong
  · rw [← htext, hsemi] at hlong
    exact absurd rfl hlong
  · rw [htext] at hcomment
    cases u with
    | nil => exact absurd (List.cons.inj hcomment).1 (by decide)
    | cons d v => exact ⟨v, by rw [(List.cons.inj hcomment).1]⟩

/-- A row up to a place in a comment of its gap. -/
def Row.upTo (r : Row) (gap : List Piece) (comment : Text) : Row :=
  ⟨r.body, gap ++ [⟨.comment, comment⟩]⟩

theorem Row.textOf_upTo (r : Row) (gap : List Piece) (comment : Text) :
    textOf (r.upTo gap comment).pieces = textOf r.body ++ (textOf gap ++ comment) := by
  simp [upTo, pieces]

theorem Row.textOf_undeclared_upTo (r : Row) (gap : List Piece) (comment : Text) :
    textOf (r.upTo gap comment).undeclared.pieces =
      textOf r.undeclared.body ++ (textOf gap ++ comment) := by
  unfold undeclared
  cases hdeclares : declares r.body <;> simp [upTo, hdeclares, pieces]

namespace Divided

variable {last : Row}

/-- No cursor word arises where a declaration is taken out. -/
theorem parted_cursorMark (h : Divided t rows last) (hr : r ∈ rows ++ [last])
    (hdeclares : declares r.body = true) : r.Parted cursorMark := by
  have hremovable := h.removable r hr
  have hne : r.body ≠ [] := by
    rintro hnil
    rw [hnil] at hdeclares
    cases hdeclares
  obtain ⟨p, gap, hgap⟩ := exists_cons_of_ne_nil (hremovable.ends hne)
  have hp : p ∈ r.gap := by
    rw [hgap]
    exact mem_cons_self
  obtain ⟨rest, hread⟩ := h.reads hr (mem_append_right r.body hp)
  obtain ⟨c, u, htext, hc⟩ := hread.exists_filler_head (hremovable.fillers p hp)
  refine Row.parted_cursorMark (t := u ++ textOf gap) ?_ hc
  rw [hgap, textOf_cons, htext, cons_append]

/-- A declaration of an input is the statement of a row. -/
theorem exists_row_of_mem (h : Divided t rows last)
    (hsplit : Notebook.splitDeclarations t = .ok (declarations, body))
    (hd : d ∈ declarations) :
    ∃ r ∈ rows ++ [last], declares r.body = true ∧ d.source = textOf r.body := by
  obtain ⟨declarations', body', hsplit', hsources, -⟩ := h.splitDeclarations
  cases hsplit.symm.trans hsplit'
  have hmem : d.source ∈ ((Row.bodies (rows ++ [last])).filter declares).map textOf :=
    hsources ▸ mem_map_of_mem hd
  obtain ⟨b, hb, hsource⟩ := mem_map.1 hmem
  obtain ⟨hb, hdeclares⟩ := mem_filter.1 hb
  obtain ⟨r, hr, rfl⟩ := mem_map.1 (mem_filter.1 hb).1
  exact ⟨r, hr, hdeclares, hsource.symm⟩

/-- The statement of a row is a declaration of the input if it is one. -/
theorem exists_declaration (h : Divided t rows last)
    (hsplit : Notebook.splitDeclarations t = .ok (declarations, body))
    (hr : r ∈ rows ++ [last]) (hdeclares : declares r.body = true) :
    ∃ d ∈ declarations, d.source = textOf r.body := by
  obtain ⟨declarations', body', hsplit', hsources, -⟩ := h.splitDeclarations
  cases hsplit.symm.trans hsplit'
  have hne : r.body ≠ [] := by
    rintro hnil
    rw [hnil] at hdeclares
    cases hdeclares
  have hbody : r.body ∈ (Row.bodies (rows ++ [last])).filter declares :=
    mem_filter.2
      ⟨mem_filter.2 ⟨mem_map_of_mem hr, by simpa using hne⟩, hdeclares⟩
  have hmem : textOf r.body ∈ declarations.map (·.source) :=
    hsources ▸ mem_map_of_mem hbody
  exact mem_map.1 hmem

end Divided

/-- A line end behind a text is behind the word as well. -/
theorem exists_behind_cursor {body : Text} (front back : Text)
    (h : body ++ ['\n'] = front ++ (cursorMark ++ back)) :
    ∃ back', body = front ++ (cursorMark ++ back') := by
  rcases eq_nil_or_concat back with rfl | ⟨back', c, rfl⟩
  · have hlast := congrArg List.getLast? h
    rw [append_nil, getLast?_concat,
      getLast?_append_of_ne_nil _ (by decide)] at hlast
    exact absurd hlast (by decide)
  · rw [concat_eq_append, ← append_assoc, ← append_assoc] at h
    exact ⟨back', by rw [(append_inj' h rfl).1, append_assoc]⟩

/-- The word stands in the body of an input, behind the identifier in front of the cursor. -/
structure InBody (before behind : Text) (declarations : List Declaration) (body : Text) :
    Prop where
  place : ∃ front back, body = front ++ (cursorMark ++ back) ∧
    identifierTail front = identifierTail before ∧ ¬cursorMark <:+: front
  others : ∀ d ∈ declarations, d.source <:+: before ∨ d.source <:+: behind ++ ['\n']

/-- The word stands in a declaration of an input, behind the identifier in front of the
cursor. -/
structure InDeclaration (before behind : Text) (declarations : List Declaration)
    (d : Declaration) : Prop where
  mem : d ∈ declarations
  place : ∃ front back, d.source = front ++ (cursorMark ++ back) ∧
    identifierTail front = identifierTail before ∧ front <:+ before
  others : ∀ e ∈ declarations, e.source = d.source ∨ e.source <:+: before ∨
    e.source <:+: behind ++ ['\n']

/-- The rows of an input with the word, the one with the word apart. -/
structure CursorRows (before behind : Text) (rows : List Row) (last : Row)
    (init : List Row) (r : Row) (rest : List Row) (left right : List Piece) (p : Piece)
    (u w : Text) : Prop where
  divided : Divided (before ++ (cursorMark ++ behind)) rows last
  rows_eq : rows ++ [last] = init ++ r :: rest
  pieces_eq : r.pieces = left ++ p :: right
  text_eq : p.text = u ++ (cursorMark ++ w)
  before_eq : before = textOf (Row.flatten init) ++ (textOf left ++ u)
  behind_eq : behind ++ ['\n'] = w ++ (textOf right ++ textOf (Row.flatten rest))

/-- Every input with the word has such rows. -/
theorem exists_cursorRows (before behind : Text) :
    ∃ rows last init r rest left right p u w,
      CursorRows before behind rows last init r rest left right p u w := by
  obtain ⟨rows, last, h⟩ := exists_divided (before ++ (cursorMark ++ behind))
  obtain ⟨front, p, back, u, w, hpieces, htext, hbefore, hbehind⟩ :=
    (lexed_pieces (before ++ (cursorMark ++ behind))).exists_cursor (textOf_pieces _)
  have hflatten := h.flatten
  rw [hpieces, append_assoc, cons_append] at hflatten
  obtain ⟨init, r, rest, left, right, hrows, hr, rfl, hback⟩ := Row.exists_of_flatten hflatten
  refine ⟨rows, last, init, r, rest, left, right, p, u, w, h, hrows, hr, htext, ?_, ?_⟩
  · rw [hbefore, textOf_append, append_assoc]
  · have hline : textOf (back ++ [lineEnd]) = textOf back ++ ['\n'] := by
      rw [textOf_append]
      rfl
    rw [hbehind, append_assoc, ← hline, hback, textOf_append]

namespace CursorRows

variable {last : Row} {init rest : List Row} {left right : List Piece} {u w : Text}
  (h : CursorRows before behind rows last init r rest left right p u w)
include h

theorem mem : r ∈ rows ++ [last] := by
  rw [h.rows_eq]
  simp

theorem parted : ∀ q ∈ init, declares q.body = true → q.Parted cursorMark := by
  intro q hq
  refine h.divided.parted_cursorMark ?_
  rw [h.rows_eq]
  exact mem_append_left _ hq

/-- No word arises where the row with the word loses its declaration, if the word is in its
gap. -/
theorem parted_upTo {gap : List Piece} (hgap : r.gap = gap ++ p :: right) (v : Text) :
    (r.upTo gap ('/' :: v)).Parted cursorMark := by
  cases gap with
  | nil => exact Row.parted_cursorMark (c := '/') (t := v) (by simp [Row.upTo]) (by decide)
  | cons q gap =>
    have hq : q ∈ r.gap := by
      rw [hgap]
      simp
    obtain ⟨_, hread⟩ := h.divided.reads h.mem (mem_append_right r.body hq)
    obtain ⟨c, t, htext, hc⟩ :=
      hread.exists_filler_head ((h.divided.removable r h.mem).fillers q hq)
    refine Row.parted_cursorMark (c := c) (t := t ++ (textOf gap ++ '/' :: v)) ?_ hc
    simp [Row.upTo, htext]

variable
  (hsplit : splitDeclarations (before ++ (cursorMark ++ behind)) = .ok (declarations, body))
include hsplit

/-- A declaration in another row stands in front of the cursor or behind it. -/
theorem others (hd : d ∈ declarations) :
    (declares r.body = true ∧ d.source = textOf r.body) ∨ d.source <:+: before ∨
      d.source <:+: behind ++ ['\n'] := by
  obtain ⟨q, hq, hdeclares, hsource⟩ := h.divided.exists_row_of_mem hsplit hd
  rw [h.rows_eq] at hq
  rw [hsource]
  rcases mem_append.1 hq with hq | hq
  · rw [h.before_eq]
    exact .inr (.inl (infix_append_of_infix_left (Row.infix_body hq)))
  · rcases mem_cons.1 hq with rfl | hq
    · exact .inl ⟨hdeclares, rfl⟩
    · rw [h.behind_eq]
      exact .inr (.inr (infix_append_of_infix_right
        (infix_append_of_infix_right (Row.infix_body hq))))

/-- The text of the body around the row with the word. -/
theorem body_eq :
    body ++ ['\n'] = textOf (Row.flatten (init.map Row.undeclared)) ++
      (textOf r.undeclared.pieces ++ textOf (Row.flatten (rest.map Row.undeclared))) := by
  obtain ⟨declarations', body', hsplit', -, htext⟩ := h.divided.splitDeclarations
  cases hsplit.symm.trans hsplit'
  rw [htext, h.rows_eq, map_append, map_cons, Row.flatten_append, Row.flatten_cons,
    textOf_append, textOf_append]

/-- The word in a gap is in a comment, and the comment stays in the body. -/
theorem inBody_of_gap (hfree : ¬cursorMark <:+: before) (gap : List Piece)
    (hleft : left = r.body ++ gap) (hgap : r.gap = gap ++ p :: right) :
    InBody before behind declarations body := by
  have hp : p ∈ r.gap := by
    rw [hgap]
    simp
  obtain ⟨_, hread⟩ := h.divided.reads h.mem (mem_append_right r.body hp)
  obtain ⟨v, rfl⟩ :=
    exists_slash_of_filler hread ((h.divided.removable r h.mem).fillers p hp) h.text_eq
  have htail (x : Text) : identifierTail (x ++ '/' :: v) = identifierTail v := by
    have hslash : x ++ '/' :: v = x ++ ['/'] ++ v := by simp
    rw [hslash, identifierTail_append_left (endsOutside_concat (by decide) x)]
  have hsingle (init : List Row) (q : Row) :
      textOf (Row.flatten (init ++ [q])) = textOf (Row.flatten init) ++ textOf q.pieces := by
    simp [Row.flatten]
  have hbefore : before = textOf (Row.flatten (init ++ [r.upTo gap ('/' :: v)])) := by
    rw [hsingle, Row.textOf_upTo, h.before_eq, hleft, textOf_append, append_assoc]
  have hfront : textOf (Row.flatten ((init ++ [r.upTo gap ('/' :: v)]).map Row.undeclared)) =
      textOf (Row.flatten (init.map Row.undeclared)) ++
        (textOf r.undeclared.body ++ (textOf gap ++ '/' :: v)) := by
    rw [map_append, map_singleton, hsingle, Row.textOf_undeclared_upTo]
  refine ⟨⟨textOf (Row.flatten ((init ++ [r.upTo gap ('/' :: v)]).map Row.undeclared)), ?_⟩,
    fun d hd => ?_⟩
  · obtain ⟨back, hback⟩ := @exists_behind_cursor body
      (textOf (Row.flatten ((init ++ [r.upTo gap ('/' :: v)]).map Row.undeclared)))
      (w ++ (textOf right ++ textOf (Row.flatten (rest.map Row.undeclared)))) (by
        rw [h.body_eq hsplit, hfront, Row.pieces, Row.undeclared_gap, hgap, textOf_append,
          textOf_append, textOf_cons, h.text_eq]
        simp only [append_assoc, cons_append])
    refine ⟨back, hback, ?_, fun hocc => hfree ?_⟩
    · rw [hfront, h.before_eq, ← append_assoc, ← append_assoc, htail,
        ← append_assoc, htail]
    · have hparted : ∀ q ∈ init ++ [r.upTo gap ('/' :: v)], declares q.body = true →
          q.Parted cursorMark := by
        intro q hq hdeclares
        rcases mem_append.1 hq with hq | hq
        · exact h.parted q hq hdeclares
        · rw [mem_singleton.1 hq]
          exact h.parted_upTo hgap v
      rw [← nil_append (textOf _), ← append_nil (textOf _)] at hocc
      have hocc := Row.infix_undeclared hparted hocc
      rwa [nil_append, append_nil, ← hbefore] at hocc
  · rcases h.others hsplit hd with ⟨-, hsource⟩ | hother
    · rw [hsource, h.before_eq, hleft, textOf_append]
      exact .inl (infix_append_of_infix_right (infix_append_of_infix_left
        (infix_append_of_infix_left infix_rfl)))
    · exact hother

/-- The word in a statement that is no declaration is in the body. -/
theorem inBody_of_body (hfree : ¬cursorMark <:+: before) (hne : r.body ≠ [])
    (hdeclares : declares r.body = false) :
    InBody before behind declarations body := by
  obtain ⟨hends, hends'⟩ := h.divided.endsOutside h.rows_eq hne
  refine ⟨⟨textOf (Row.flatten (init.map Row.undeclared)) ++ (textOf left ++ u), ?_⟩,
    fun d hd => ?_⟩
  · obtain ⟨back, hback⟩ := @exists_behind_cursor body
      (textOf (Row.flatten (init.map Row.undeclared)) ++ (textOf left ++ u))
      (w ++ (textOf right ++ textOf (Row.flatten (rest.map Row.undeclared)))) (by
        rw [h.body_eq hsplit, Row.undeclared_eq hdeclares, h.pieces_eq,
          textOf_append, textOf_cons, h.text_eq]
        simp only [append_assoc])
    refine ⟨back, hback, ?_, fun hocc => hfree ?_⟩
    · rw [h.before_eq, identifierTail_append_left hends, identifierTail_append_left hends']
    · rw [← nil_append (textOf _ ++ _)] at hocc
      have hocc := Row.infix_undeclared h.parted hocc
      rwa [nil_append, ← h.before_eq] at hocc
  · rcases h.others hsplit hd with ⟨htrue, -⟩ | hother
    · rw [hdeclares] at htrue
      cases htrue
    · exact hother

/-- The word in a declaration. -/
theorem inDeclaration {behindWord : List Piece} (hbody : r.body = left ++ p :: behindWord)
    (hdeclares : declares r.body = true) :
    ∃ d, InDeclaration before behind declarations d := by
  have hne : r.body ≠ [] := by
    rw [hbody]
    simp
  obtain ⟨d, hd, hsource⟩ := h.divided.exists_declaration hsplit h.mem hdeclares
  refine ⟨d, hd, ⟨textOf left ++ u, w ++ textOf behindWord, ?_, ?_, ?_⟩, fun e he => ?_⟩
  · rw [hsource, hbody, textOf_append, textOf_cons, h.text_eq]
    simp only [append_assoc]
  · rw [h.before_eq, identifierTail_append_left (h.divided.endsOutside h.rows_eq hne).1]
  · rw [h.before_eq]
    exact suffix_append _ _
  · rcases h.others hsplit he with ⟨-, hsame⟩ | hother
    · exact .inl (hsame.trans hsource.symm)
    · exact .inr hother

end CursorRows

/-- The word stands in the body or in a declaration, behind the identifier in front of the
cursor. -/
theorem inBody_or_inDeclaration
    (hsplit : splitDeclarations (before ++ (cursorMark ++ behind)) = .ok (declarations, body))
    (hfree : ¬cursorMark <:+: before) :
    InBody before behind declarations body ∨ ∃ d,
      InDeclaration before behind declarations d := by
  obtain ⟨rows, last, init, r, rest, left, right, p, u, w, h⟩ :=
    exists_cursorRows before behind
  rcases append_eq_append_iff.1 h.pieces_eq with ⟨gap, hleft, hgap⟩ | ⟨z, hbody, hgap⟩
  · exact .inl (h.inBody_of_gap hsplit hfree gap hleft hgap)
  · cases z with
    | nil =>
      rw [append_nil] at hbody
      exact .inl (h.inBody_of_gap hsplit hfree [] (by rw [hbody, append_nil]) hgap.symm)
    | cons q z =>
      obtain ⟨rfl, -⟩ := List.cons.inj hgap
      cases hdeclares : declares r.body with
      | false => exact .inl (h.inBody_of_body hsplit hfree (by rw [hbody]; simp) hdeclares)
      | true => exact .inr (h.inDeclaration hsplit hbody hdeclares)

end Notebook
