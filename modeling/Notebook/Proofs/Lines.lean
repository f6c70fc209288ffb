import Notebook.Proofs.Frames
import Notebook.Store

/-!
# Statements on lines of their own

A statement may be put on a line of its own if a line end behind it ends it: then the line is
a row, and lines can be put below each other.  The statements that bring variables back are of
that form.  The one that replays a function literal is as complete as the literal, and the one
that decodes a value holds the recorded type in brackets, so that anything balanced may stand
there.

## Main statements

* `IsWhole.standsAlone`: the pieces of such a text
* `standsAlone_replay`, `standsAlone_decode`: the statements that bring variables back
-/

namespace Notebook

open Lexer List

variable {l name t x : Text}

/-- Pieces of a statement that a line end behind them ends. -/
structure StandsAlone (ps : List Piece) : Prop where
  lexed : Lexed ps
  closed : ∀ p ∈ ps, p.isClosed = true
  isStatement : IsStatement ps
  pending : pendingAfter false ps = true

namespace StandsAlone

variable {ps : List Piece}

theorem pieces_textOf (h : StandsAlone ps) : Lexer.pieces (textOf ps) = ps :=
  h.lexed

/-- With a line end behind it the statement is a row. -/
theorem sound (h : StandsAlone ps) : Row.Sound ⟨ps, [lineEnd]⟩ := by
  have hlexed : Lexed (ps ++ [lineEnd]) := by
    have hclosed : LexicallyClosed (textOf ps) := by
      intro p hp
      rw [h.pieces_textOf] at hp
      exact h.closed p hp
    have := pieces_append_lineFeed hclosed
    rw [h.pieces_textOf] at this
    rw [Lexed, textOf_append]
    exact this
  refine ⟨hlexed, ?_, ?_, ?_, .inr ⟨h.isStatement, ?_⟩⟩
  · exact forall_mem_append.2 ⟨h.closed, forall_mem_singleton.2 rfl⟩
  · intro p hp
    rw [mem_singleton.1 hp]
    rfl
  · rintro p ⟨⟩
    rfl
  · simp only [h.pending]
    decide

theorem laid (h : StandsAlone ps) : Laid (textOf ps ++ ['\n']) [ps] := by
  have hrows : ∀ r ∈ [(⟨ps, [lineEnd]⟩ : Row)], r.Sound := by
    intro r hr
    rw [mem_singleton.1 hr]
    exact h.sound
  have := Laid.of_rows hrows
  rw [Row.flatten_cons, Row.flatten_nil, append_nil, Row.pieces, textOf_append,
    Row.bodies_cons, if_neg h.isStatement.ne_nil] at this
  exact this

end StandsAlone

/-- The statements of a text that is made of rows are read on their own. -/
theorem Laid.lexed_of_mem {bs : List (List Piece)} (h : Laid t bs) {b : List Piece}
    (hb : b ∈ bs) : Lexed b ∧ (∀ p ∈ b, p.isClosed = true) ∧ IsStatement b := by
  obtain ⟨rows, hrows, -, rfl⟩ := h
  obtain ⟨hb, hne⟩ := mem_filter.1 hb
  obtain ⟨r, hr, rfl⟩ := mem_map.1 hb
  have hsound := hrows r hr
  have hclosed : ∀ p ∈ r.body, p.isClosed = true := fun p hp =>
    hsound.closed p (mem_append_left _ hp)
  refine ⟨hsound.lexed.left, hclosed, ?_⟩
  refine (hsound.body.resolve_left ?_).1
  simpa using hne

/-- The first piece of a statement is a token, and no semicolon. -/
theorem IsStatement.exists_head {ps : List Piece} (h : IsStatement ps) :
    ∃ p qs k, ps = p :: qs ∧ p.kind = .token k ∧ p.isFiller = false := by
  obtain ⟨p, qs, rfl⟩ := exists_cons_of_ne_nil h.ne_nil
  obtain ⟨k, hk⟩ := Piece.isToken_iff.1 (h.front p rfl)
  exact ⟨p, qs, k, rfl, hk, h.isSplitOff.isFiller_head rfl⟩

/-! ### Texts that are one statement -/

/-- A text that is one statement, from its first character to its last, and that a line end
behind it ends. -/
structure IsWhole (t : Text) : Prop where
  closed : LexicallyClosed t
  balanced : Balanced t
  whole : ∃ st, (Source.ofText t).statements = [st] ∧ st.span = ⟨0, t.byteSize⟩ ∧
    st.terminator ≠ none

theorem Source.statementText_of_span {st : Statement} (h : st.span = ⟨0, t.byteSize⟩) :
    (Source.ofText t).statementText st = .ok t := by
  have hcut : st.span.cut t = .ok ([], t, []) :=
    Span.cut_eq_ok_iff.2 ⟨by simp, by simp [h], by simp [h]⟩
  have hslice : (Source.ofText t).statementText st = (st.span.cut t).map fun p => p.2.1 := rfl
  rw [hslice, hcut]
  rfl

/-- The pieces of a text that is one statement. -/
theorem IsWhole.standsAlone (h : IsWhole t) : StandsAlone (Lexer.pieces t) := by
  obtain ⟨st, hst, hspan, hends⟩ := h.whole
  have hterminated : Terminated t := by
    intro st' hst'
    rw [hst] at hst'
    cases hst'
    exact hends
  obtain ⟨bodies, hlaid⟩ := exists_laid h.closed h.balanced hterminated
  have hspells := hlaid.statements h.closed
  rw [hst] at hspells
  cases hspells with
  | @cons _ b _ bs hb hbs =>
  cases hbs
  obtain ⟨hlexed, -, hstatement⟩ := hlaid.lexed_of_mem (mem_singleton_self b)
  have htext : textOf b = t := by
    have := hb.text
    rw [Source.statementText_of_span hspan] at this
    exact (Except.ok.inj this).symm
  have hpieces : Lexer.pieces t = b := by
    rw [← htext]
    exact hlexed
  refine ⟨lexed_pieces t, h.closed, hpieces ▸ hstatement, ?_⟩
  -- Without a line end that counts, the statement would reach the end of the text.
  cases hpending : pendingAfter false (Lexer.pieces t) with
  | true => rfl
  | false =>
    obtain ⟨p, qs, k, hp, -, hfiller⟩ := hstatement.exists_head
    have hhead : (Lexer.pieces t).head? = some p := by
      rw [hpieces, hp]
      rfl
    obtain ⟨st', hsplit, -, hnone, -⟩ := Source.split_dangling hhead hfiller
      (hpieces ▸ hstatement.isSplitOff.whole) 0 .start
    have hstatements := Source.statements_eq_split t
    rw [scan_append, hpending] at hstatements
    have hend : scan (Position.start.advance (textOf (Lexer.pieces t))) false
        [lineEnd] = [] := rfl
    rw [hend, append_nil, hsplit, hst] at hstatements
    cases hstatements
    exact absurd hnone hends

/-! ### Statements that bring variables back -/

/-- A function literal that is complete. -/
structure IsLiteral (l : Text) : Prop where
  whole : IsWhole l
  isFunction : isFunctionLiteral l = true

/-- A recorded type that can stand in brackets. -/
structure IsTypeText (t : Text) : Prop where
  closed : LexicallyClosed t
  balanced : Balanced t
  noComment : ∀ p ∈ Lexer.pieces t, p.kind ≠ .comment

instance (t : Text) : Decidable (IsTypeText t) :=
  decidable_of_iff (LexicallyClosed t ∧ Balanced t ∧ ∀ p ∈ Lexer.pieces t, p.kind ≠ .comment)
    ⟨fun ⟨a, b, c⟩ => ⟨a, b, c⟩, fun ⟨a, b, c⟩ => ⟨a, b, c⟩⟩

theorem IsIdentifier.reads {rest : Text} (hx : IsIdentifier x)
    (hrest : ∀ d, rest.head? = some d → isIdentifierChar d = false) :
    Reads ⟨.token .ident, x⟩ rest := by
  obtain ⟨c, t, rfl, hc, ht⟩ := hx.spelled
  have hkind : wordKind (c :: t) = .ident := by
    rw [wordKind, hx.free]
    rfl
  have hreads : Reads ⟨.token (wordKind (c :: t)), c :: t⟩ rest := (reads_word hc ht).2 hrest
  rwa [hkind] at hreads

/-- The pieces with which a replayed function literal begins. -/
def replayFront (name : Text) : List Piece :=
  [⟨.token .ident, name⟩, ⟨.blank, [' ']⟩, definePiece, ⟨.blank, [' ']⟩]

theorem textOf_replay (name l : Text) :
    textOf (replayFront name ++ Lexer.pieces l) = replayStatement name l := by
  rw [textOf_append, textOf_pieces]
  simp [replayFront, replayStatement, definePiece]

/-- The first token of a function literal. -/
theorem IsLiteral.head_kinds (h : IsLiteral l) :
    ∃ ks, kinds false (Lexer.pieces l) = .keyword .funcKw :: ks := by
  obtain ⟨p, qs, k, hp, hk, hfiller⟩ := h.whole.standsAlone.isStatement.exists_head
  have hne : k ≠ .eof := by
    have := (lexed_pieces l).kind_ne (p := p) (by rw [hp]; exact mem_cons_self)
    rw [hk] at this
    simpa using this
  have hsemi : k ≠ .semi := by
    simpa [Piece.isFiller, hk] using hfiller
  refine ⟨kinds (p.pendingBehind false) qs, ?_⟩
  have hfunction := h.isFunction
  unfold isFunctionLiteral at hfunction
  rw [tokenize_eq, hp, scan_cons, Piece.emitted_of_kind hk, cons_append,
    cons_append, filter_cons_of_pos
      (by simp [hne, hsemi, Token.isImpliedSemi])] at hfunction
  rw [hp, kinds_cons, Piece.emittedKinds, hk]
  dsimp only at hfunction
  split at hfunction
  next f l' rest heq =>
    obtain ⟨rfl, -⟩ := List.cons.inj heq
    simp only [Bool.and_eq_true, beq_iff_eq] at hfunction
    rw [hfunction.1.1]
    rfl
  · cases hfunction

/-- A statement that replays a function literal may stand on a line of its own. -/
theorem standsAlone_replay (hname : IsIdentifier name) (hl : IsLiteral l) :
    StandsAlone (replayFront name ++ Lexer.pieces l) := by
  have halone := hl.whole.standsAlone
  obtain ⟨ks, hks⟩ := hl.head_kinds
  have hblank : ∀ rest, Reads ⟨.blank, [' ']⟩ rest := reads_blank (by decide)
  have hfront : Lexed (replayFront name) := by
    refine lexed_cons.2 ⟨hname.reads ?_, by decide +kernel⟩
    rintro d ⟨⟩
    decide
  have hclosed : ∀ p ∈ replayFront name, p.isClosed = true := by
    intro p hp
    simp only [replayFront, mem_cons, not_mem_nil, or_false] at hp
    rcases hp with rfl | rfl | rfl | rfl <;> rfl
  refine ⟨lexed_append hfront halone.lexed hclosed ?_, ?_, ⟨?_, ?_, ?_⟩, ?_⟩
  · rintro p ⟨⟩
    exact .inl rfl
  · exact forall_mem_append.2 ⟨hclosed, halone.closed⟩
  · have hwhole := halone.isStatement.whole
    rw [hks, Mode.walk_cons] at hwhole
    rw [kinds_append]
    have hpending : pendingAfter false (replayFront name) = false := rfl
    have hkinds : kinds false (replayFront name) = [.ident, .define] := rfl
    rw [hpending, hkinds, hks, cons_append, cons_append, nil_append,
      Mode.walk_cons]
    exact hwhole
  · rintro p ⟨⟩
    rfl
  · intro p hp
    obtain ⟨q, hq⟩ : ∃ q, (Lexer.pieces l).getLast? = some q :=
      ⟨_, getLast?_eq_some_getLast halone.isStatement.ne_nil⟩
    rw [getLast?_append, hq] at hp
    cases hp
    exact halone.isStatement.back p hq
  · rw [pendingAfter_append]
    exact halone.pending

/-- The pieces of a statement that decodes a value, in front of the type. -/
def decodeFront (name : Text) : List Piece :=
  [⟨.token .ident, name⟩, ⟨.token .comma, [',']⟩, ⟨.blank, [' ']⟩, ⟨.token .ident, ['_']⟩,
    ⟨.blank, [' ']⟩, definePiece, ⟨.blank, [' ']⟩, ⟨.token .ident, "_Deserialize"⟩,
    ⟨.token (.opening .square), ['[']⟩]

/-- The pieces of a statement that decodes a value, behind the type. -/
def decodeBack (name : Text) : List Piece :=
  [⟨.token (.closing .square), [']']⟩, ⟨.token (.opening .paren), ['(']⟩,
    ⟨.token .str, "\"" ++ variableKey name ++ "\""⟩, ⟨.token (.closing .paren), [')']⟩]

theorem textOf_decode (name type : Text) :
    textOf (decodeFront name ++ (Lexer.pieces type ++ decodeBack name)) =
      decodeStatement name type := by
  rw [textOf_append, textOf_append, textOf_pieces]
  simp [decodeFront, decodeBack, decodeStatement, definePiece]

/-- Characters that mean nothing in quotes are passed over. -/
theorem isQuotedClosed_append {a : Text}
    (h : ∀ c ∈ a, c ≠ '\n' ∧ c ≠ '\\' ∧ c ≠ '"') (t : Text) :
    isQuotedClosed '"' (a ++ t) = isQuotedClosed '"' t := by
  induction a with
  | nil => rfl
  | cons c a ih =>
    obtain ⟨hline, hescape, hquote⟩ := h c mem_cons_self
    rw [cons_append, isQuotedClosed.eq_def]
    simp only [hline, hescape, hquote, false_and, if_false]
    exact ih fun d hd => h d (mem_cons_of_mem c hd)

theorem IsIdentifier.isIdentifierChar_of_mem (hx : IsIdentifier x) {c : Char} (hc : c ∈ x) :
    isIdentifierChar c = true := by
  obtain ⟨d, t, rfl, hd, ht⟩ := hx.spelled
  rcases mem_cons.1 hc with rfl | hc
  · rcases Bool.or_eq_true_iff.1 hd with h | h
    · simp [isIdentifierChar, isAlphanumeric, h]
    · simp [isIdentifierChar, h]
  · exact ht c hc

/-- The key of a variable may stand in quotes. -/
theorem IsIdentifier.isQuotedClosed_key (hx : IsIdentifier x) :
    isQuotedClosed '"' (variableKey x ++ ['"']) = true := by
  rw [isQuotedClosed_append]
  · rfl
  · intro c hc
    rcases mem_append.1 hc with hc | hc
    · have hvar : c ∈ ['v', 'a', 'r', '-'] := hc
      fin_cases hvar <;> decide
    · have hchar := hx.isIdentifierChar_of_mem hc
      have hne : ∀ d, isIdentifierChar d = false → c ≠ d := by
        rintro d hd rfl
        rw [hchar] at hd
        cases hd
      exact ⟨hne _ (by decide), hne _ (by decide), hne _ (by decide)⟩

theorem lexed_decodeBack (hname : IsIdentifier name) : Lexed (decodeBack name) := by
  have hkey : ∀ rest, Reads ⟨.token .str, "\"" ++ variableKey name ++ "\""⟩ rest :=
    reads_quoted rfl hname.isQuotedClosed_key
  have hsquare :
      Lexed [⟨.token (.closing .square), [']']⟩, ⟨.token (.opening .paren), ['(']⟩] := by
    decide +kernel
  have hparen : Lexed [⟨.token (.closing .paren), [')']⟩] := by
    decide +kernel
  refine lexed_append hsquare (lexed_cons.2 ⟨hkey _, hparen⟩) (by decide) ?_
  rintro p ⟨⟩
  exact .inl rfl

/-- A statement that decodes a value may stand on a line of its own. -/
theorem standsAlone_decode {type : Text} (hname : IsIdentifier name) (ht : IsTypeText type) :
    StandsAlone (decodeFront name ++ (Lexer.pieces type ++ decodeBack name)) := by
  have hfront : Lexed (decodeFront name) := by
    refine lexed_cons.2 ⟨hname.reads ?_, by decide +kernel⟩
    rintro d ⟨⟩
    decide
  have hclosed : ∀ p ∈ decodeFront name, p.isClosed = true := by
    intro p hp
    simp only [decodeFront, mem_cons, not_mem_nil, or_false] at hp
    rcases hp with rfl | rfl | rfl | rfl | rfl | rfl | rfl | rfl | rfl <;> rfl
  have hback : ∀ p ∈ decodeBack name, p.isClosed = true := by
    intro p hp
    simp only [decodeBack, mem_cons, not_mem_nil, or_false] at hp
    rcases hp with rfl | rfl | rfl | rfl
    · rfl
    · rfl
    · exact hname.isQuotedClosed_key
    · rfl
  have hlexed : Lexed (Lexer.pieces type ++ decodeBack name) := by
    refine lexed_append (lexed_pieces type) (lexed_decodeBack hname) ht.closed ?_
    -- A bracket ends every piece but a line comment, and there is none.
    intro p hp
    refine .inr ?_
    rintro d ⟨⟩
    refine ⟨by decide, fun hline => absurd ?_ (ht.noComment p (mem_of_getLast? hp))⟩
    simp only [Piece.isLine, Bool.and_eq_true, beq_iff_eq] at hline
    exact hline.1
  refine ⟨lexed_append hfront hlexed hclosed ?_, ?_, ⟨?_, ?_, ?_⟩, ?_⟩
  · rintro p ⟨⟩
    exact .inl rfl
  · exact forall_mem_append.2 ⟨hclosed, forall_mem_append.2 ⟨ht.closed, hback⟩⟩
  · have hpending : pendingAfter false (decodeFront name) = false := rfl
    have hkinds : Mode.outside.walk (kinds false (decodeFront name)) =
        some ⟨0 + 0 + 1, false, true⟩ :=
      rfl
    have htail : ∀ pending, kinds pending (decodeBack name) =
        [.closing .square, .opening .paren, .str, .closing .paren] := fun _ => rfl
    have htype := Mode.walk_of_nest (nest_pieces ht.balanced)
      (mem_kinds_ne_eof (lexed_pieces type) false) 0 false
    rw [kinds_append, hpending, kinds_append, Mode.walk_append, hkinds, Option.bind_some,
      Mode.walk_append, htype, Option.bind_some, htail]
    rfl
  · rintro p ⟨⟩
    rfl
  · intro p hp
    rw [getLast?_append, getLast?_append] at hp
    cases hp
    rfl
  · rw [pendingAfter_append, pendingAfter_append]
    rfl

end Notebook
