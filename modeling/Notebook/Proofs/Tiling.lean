import Mathlib.Data.List.Induction
import Notebook.Proofs.Rows

/-!
# Tokens tile their text

All stages edit a text at the spans of its tokens, so nothing may lie outside of them but what
can be passed over.  The text falls into gaps and spelled tokens by turns: a gap holds white
space and comments and nothing else, and only at the end of the text may a comment lack its
end.

## Main statements

* `Lexer.filter_isSpelled_tokenize`: the spelled tokens are the pieces that are tokens
* `tokenize_tilesText`: the tokens of a text tile it
-/

namespace Notebook

open Lexer List

variable {ps : List Piece} {p : Piece} {t : Text} {k : Token}

/-- Whether a token covers something.  Implied semicolons and the end of the text do not. -/
def Token.isSpelled (k : Token) : Bool :=
  !k.lexeme.isEmpty

theorem Token.isSpelled_iff : k.isSpelled = true ↔ k.lexeme ≠ [] := by
  simp [isSpelled]

/-- White space and comments.  Behind a line comment stands the line feed that ends it, and a
block comment ends with the first closing mark; only at the end of a text may either be
missing. -/
inductive IsGap : (atEnd : Bool) → Text → Prop where
  | nil {atEnd : Bool} : IsGap atEnd []
  | blank {atEnd : Bool} {c : Char} {t : Text} (hc : isBlank c = true) (ht : IsGap atEnd t) :
      IsGap atEnd (c :: t)
  | line {atEnd : Bool} {body t : Text} (hbody : '\n' ∉ body) (ht : IsGap atEnd ('\n' :: t)) :
      IsGap atEnd ("//" ++ body ++ '\n' :: t)
  | block {atEnd : Bool} {body t : Text} (hbody : ¬['*', '/'] <:+: body ++ ['*'])
      (ht : IsGap atEnd t) : IsGap atEnd ("/*" ++ body ++ "*/" ++ t)
  | lastLine {body : Text} (hbody : '\n' ∉ body) : IsGap true ("//" ++ body)
  | lastBlock {body : Text} (hbody : ¬['*', '/'] <:+: body) : IsGap true ("/*" ++ body)

/-- A text, from an offset on, that falls into gaps and tokens by turns. -/
inductive Tiles : (offset : Nat) → Text → List Token → Prop where
  | nil {offset : Nat} {t : Text} (ht : IsGap true t) : Tiles offset t []
  | cons {offset : Nat} {gap rest : Text} {k : Token} {ks : List Token}
    (hgap : IsGap false gap)
      (hk : k.lexeme ≠ []) (hpos : k.pos = offset + gap.byteSize)
        (hrest : Tiles k.stop rest ks) :
      Tiles offset (gap ++ k.lexeme ++ rest) (k :: ks)

/-- All that ties tokens to the text they were read from. -/
structure TilesText (t : Text) (ts : List Token) : Prop where
  /-- The last token and no other is the end, and it stands at the end of the text. -/
  ends : ∃ front last, ts = front ++ [last] ∧ last.kind = .eof ∧ last.pos = t.byteSize ∧
    last.size = 0 ∧ ∀ k ∈ front, k.kind ≠ .eof
  /-- The text of a spelled token is what stands at its span. -/
  slices : ∀ k ∈ ts, k.isSpelled = true → Span.slice ⟨k.pos, k.stop⟩ t = .ok k.text
  /-- No token begins before those in front of it end. -/
  ordered : ts.Pairwise fun a b => a.stop ≤ b.pos
  /-- Between spelled tokens stand white space and comments. -/
  gaps : Tiles 0 t (ts.filter Token.isSpelled)
  /-- Lines are counted from the beginning of the text, and columns from that of the line. -/
  places : ∀ k ∈ ts, k.isSpelled = true → ∃ before behind,
    t.cutAt? k.pos = some (before, behind) ∧
    k.start.line = 1 + before.count '\n' ∧
    k.start.column = 1 + (before.reverse.takeWhile (· != '\n')).length

/-! ### Lines and columns -/

namespace Position

theorem advance_concat (p : Position) (t : Text) (c : Char) :
    p.advance (t ++ [c]) = (p.advance t).next c := by
  rw [advance_append, advance_cons, advance_nil]

/-- The line and the column behind a text that begins a file. -/
theorem advance_start (t : Text) :
    (start.advance t).line = 1 + t.count '\n' ∧
      (start.advance t).column = 1 + (t.reverse.takeWhile (· != '\n')).length := by
  induction t using reverseRecOn with
  | nil => exact ⟨rfl, rfl⟩
  | append_singleton t c ih =>
    obtain ⟨hline, hcolumn⟩ := ih
    rw [advance_concat]
    unfold next
    split
    next hc =>
      subst hc
      simp [hline, Nat.add_assoc]
    next hc =>
      have hne : (c != '\n') = true := by simpa using hc
      simp [hline, hcolumn, hc, hne, Nat.add_assoc]

end Position

/-! ### Spelled tokens -/

namespace Lexer

/-- The pieces that are tokens, in their places. -/
def spelled (here : Position) : List Piece → List Token
  | [] => []
  | p :: ps =>
    match p.kind with
    | .token k => ⟨k, p.text, here⟩ :: spelled (here.advance p.text) ps
    | _ => spelled (here.advance p.text) ps

theorem spelled_token {k : TokenKind} (h : p.kind = .token k) (here : Position)
    (ps : List Piece) : spelled here (p :: ps) =
      ⟨k, p.text, here⟩ :: spelled (here.advance p.text) ps := by
  rw [spelled, h]

theorem spelled_append (here : Position) (ps qs : List Piece) :
    spelled here (ps ++ qs) = spelled here ps ++ spelled (here.advance (textOf ps)) qs := by
  induction ps generalizing here with
  | nil => rfl
  | cons p ps ih =>
    rw [cons_append, textOf_cons, Position.advance_append, spelled, spelled, ih]
    cases p.kind <;> rfl

theorem spelled_of_noTokens (h : ∀ p ∈ ps, p.isToken = false) (here : Position) :
    spelled here ps = [] := by
  induction ps generalizing here with
  | nil => rfl
  | cons p ps ih =>
    obtain ⟨hp, hs⟩ := forall_mem_cons.1 h
    have hps := ih hs (here.advance p.text)
    unfold Piece.isToken at hp
    rw [spelled]
    cases hk : p.kind with
    | token k =>
      rw [hk] at hp
      cases hp
    | _ => exact hps

theorem filter_isSpelled_emitted (hp : p.text ≠ []) (here : Position) (pending : Bool)
    (ps : List Piece) : (p.emitted here pending).filter Token.isSpelled ++
      spelled (here.advance p.text) ps = spelled here (p :: ps) := by
  rw [spelled]
  unfold Piece.emitted
  cases hk : p.kind with
  | token k =>
    dsimp only
    rw [filter_cons_of_pos (Token.isSpelled_iff.2 hp), filter_nil,
      singleton_append]
  | blank => dsimp only; split <;> rfl
  | comment => dsimp only; split <;> rfl

theorem Lexed.text_ne_nil (h : Lexed ps) (hp : p ∈ ps) : p.text ≠ [] := by
  induction ps with
  | nil => cases hp
  | cons q ps ih =>
    obtain ⟨hread, hlexed⟩ := lexed_cons.1 h
    rcases mem_cons.1 hp with rfl | hp
    · exact reads_text_ne_nil hread
    · exact ih hlexed hp

theorem filter_isSpelled_scan (h : ∀ p ∈ ps, p.text ≠ []) (here : Position) (pending : Bool) :
    (scan here pending ps).filter Token.isSpelled = spelled here ps := by
  induction ps generalizing here pending with
  | nil => rfl
  | cons p ps ih =>
    rw [scan_cons, filter_append, ih fun q hq => h q (mem_cons_of_mem p hq),
      filter_isSpelled_emitted (h p mem_cons_self)]

theorem filter_isSpelled_endTokens (here : Position) (pending : Bool) :
    (endTokens here pending).filter Token.isSpelled = [] := by
  cases pending <;> rfl

/-- The spelled tokens of a text are its pieces that are tokens. -/
theorem filter_isSpelled_tokenize (t : Text) :
    (tokenize t).filter Token.isSpelled = spelled .start (pieces t) := by
  rw [tokenize_eq, filter_append, filter_isSpelled_endTokens, append_nil,
    filter_isSpelled_scan fun p hp => (lexed_pieces t).text_ne_nil hp]

/-- A spelled token stands behind the pieces in front of its own. -/
theorem exists_of_mem_spelled {here : Position} (h : k ∈ spelled here ps) :
    ∃ front p back, ps = front ++ p :: back ∧
      p.kind = .token k.kind ∧ p.text = k.lexeme ∧ k.start = here.advance (textOf front) := by
  induction ps generalizing here with
  | nil => cases h
  | cons p ps ih =>
    have hrest (h : k ∈ spelled (here.advance p.text) ps) :
      ∃ front q back, p :: ps = front ++ q :: back ∧
        q.kind = .token k.kind ∧ q.text = k.lexeme ∧
          k.start = here.advance (textOf front) := by
      obtain ⟨front, q, back, rfl, hkind, htext, hstart⟩ := ih h
      refine ⟨p :: front, q, back, rfl, hkind, htext, ?_⟩
      rw [hstart, textOf_cons, Position.advance_append]
    rw [spelled] at h
    cases hk : p.kind with
    | token kind =>
      rw [hk] at h
      rcases mem_cons.1 h with rfl | h
      · exact ⟨[], p, ps, rfl, hk, rfl, rfl⟩
      · exact hrest h
    | blank =>
      rw [hk] at h
      exact hrest h
    | comment =>
      rw [hk] at h
      exact hrest h

/-! ### Gaps -/

/-- A closed comment ends with its first closing mark. -/
theorem exists_of_isCommentClosed (h : isCommentClosed t = true) :
    ∃ body, t = body ++ ['*', '/'] ∧ ¬['*', '/'] <:+: body ++ ['*'] := by
  fun_induction isCommentClosed t with
  | case1 => cases h
  | case2 t =>
    obtain rfl : t = [] := by simpa using h
    exact ⟨[], rfl, by decide⟩
  | case3 c t hne ih =>
    obtain ⟨body, rfl, hbody⟩ := ih h
    refine ⟨c :: body, rfl, fun hinfix => ?_⟩
    rw [cons_append, infix_cons_iff] at hinfix
    rcases hinfix with hprefix | hinfix
    · obtain ⟨rfl, htail⟩ := cons_prefix_cons.1 hprefix
      cases body with
      | nil => simp at htail
      | cons d body =>
        obtain ⟨rfl, -⟩ := cons_prefix_cons.1 htail
        exact hne _ rfl rfl
    · exact hbody hinfix

/-- A comment that goes on to the end of the text holds no closing mark. -/
theorem notInfix_of_not_closed (h : isCommentClosed t = false)
    (hread : blockComment t = (t, [])) : ¬['*', '/'] <:+: t := by
  fun_induction blockComment t with
  | case1 => simp
  | case2 t =>
    obtain ⟨hfst, rfl⟩ := Prod.mk.inj hread
    cases h
  | case3 c t hne ih =>
    rw [isCommentClosed] at h
    · obtain ⟨hfst, hsnd⟩ := Prod.mk.inj hread
      rw [infix_cons_iff, not_or]
      refine ⟨fun hprefix => ?_, ih h (Prod.ext (List.cons.inj hfst).2 hsnd)⟩
      obtain ⟨rfl, htail⟩ := cons_prefix_cons.1 hprefix
      obtain ⟨u, hu⟩ := htail
      exact hne u rfl hu.symm
    · exact hne

/-- A line feed begins no token. -/
theorem Reads.head_ne_lineFeed {rest : Text} (h : Reads p rest) (hp : p.isToken = true) :
    p.text.head? ≠ some '\n' := by
  obtain ⟨c, t, htext, hread⟩ := h
  obtain ⟨k, hk⟩ := Piece.isToken_iff.1 hp
  have hblank := (firstPiece_token (c := c) (t := t ++ rest) (by rw [hread]; exact hk)).1
  rw [htext]
  rintro ⟨⟩
  cases hblank

/-- Pieces in front of a token, or of the end of the text, are a gap. -/
theorem isGap_textOf {fs : List Piece} (h : Lexed (fs ++ ps))
    (hfs : ∀ p ∈ fs, p.isToken = false) (hps : ∀ p, ps.head? = some p → p.isToken = true) :
    IsGap ps.isEmpty (textOf fs) := by
  induction fs with
  | nil => exact .nil
  | cons p fs ih =>
    obtain ⟨hread, hlexed⟩ := lexed_cons.1 h
    have hgap := ih hlexed fun q hq => hfs q (mem_cons_of_mem p hq)
    have hp := hfs p mem_cons_self
    rw [textOf_cons]
    rcases spelled_or_unclosed hread with hspelled | hunclosed
    · cases hspelled with
      | blank hc => exact .blank hc hgap
      | @line body ht =>
        have hnext := (reads_line ht).1 hread
        cases fs with
        | nil =>
          -- A token would begin with the line feed that ends the comment.
          cases ps with
          | nil => exact (append_nil ('/' :: '/' :: body)).symm ▸ .lastLine ht
          | cons q ps =>
            obtain ⟨hq, -⟩ := lexed_cons.1 hlexed
            obtain ⟨d, u, hdu⟩ := exists_cons_of_ne_nil (reads_text_ne_nil hq)
            have hne := hq.head_ne_lineFeed (hps q rfl)
            rw [hdu] at hne
            exact absurd (congrArg some (hnext d (by simp [hdu]))) hne
        | cons q fs =>
          obtain ⟨hq, -⟩ := lexed_cons.1 hlexed
          obtain ⟨d, u, hdu⟩ := exists_cons_of_ne_nil (reads_text_ne_nil hq)
          obtain rfl : d = '\n' := hnext d (by simp [hdu])
          rw [textOf_cons, hdu] at hgap ⊢
          exact .line ht hgap
      | block ht =>
        obtain ⟨body, rfl, hbody⟩ := exists_of_isCommentClosed ht
        exact .block hbody hgap
      | quoted => cases hp
      | word => cases hp
      | number => cases hp
      | mark => cases hp
    · generalize hrest : textOf (fs ++ ps) = rest at hunclosed
      cases hunclosed with
      | block ht hopen =>
        -- Nothing follows a comment that is not closed.
        obtain ⟨rfl, rfl⟩ := append_eq_nil_iff.1 (hlexed.textOf_eq_nil hrest)
        rw [textOf_nil, append_nil]
        exact .lastBlock (notInfix_of_not_closed ht hopen)
      | quoted => cases hp

/-- Pieces are blanks and comments, with a token among them or not.  What holds of a gap
alone, and of a gap and a token in front of other pieces, holds of all pieces. -/
theorem gap_induction {motive : List Piece → Prop}
    (gap : ∀ fs, (∀ p ∈ fs, p.isToken = false) → motive fs)
    (token : ∀ fs p k ps, (∀ q ∈ fs, q.isToken = false) → p.kind = .token k → motive ps →
      motive (fs ++ p :: ps)) (ps : List Piece) : motive ps := by
  have hbehind : ∀ fs, (∀ p ∈ fs, p.isToken = false) → motive (fs ++ ps) := by
    induction ps with
    | nil =>
      intro fs hfs
      rw [append_nil]
      exact gap fs hfs
    | cons p ps ih =>
      intro fs hfs
      cases hp : p.isToken with
      | true =>
        obtain ⟨k, hk⟩ := Piece.isToken_iff.1 hp
        exact token fs p k ps hfs hk (ih [] (by simp))
      | false =>
        rw [← singleton_append, ← append_assoc]
        refine ih (fs ++ [p]) fun q hq => ?_
        rcases mem_append.1 hq with hq | hq
        · exact hfs q hq
        · rw [mem_singleton.1 hq]
          exact hp
  exact hbehind [] (by simp)

/-- Pieces that are read back tile their text. -/
theorem tiles_spelled (h : Lexed ps) (here : Position) :
    Tiles here.offset (textOf ps) (spelled here ps) := by
  induction ps using gap_induction generalizing here with
  | gap fs hfs =>
    rw [spelled_of_noTokens hfs]
    have hlexed : Lexed (fs ++ []) := by rwa [append_nil]
    exact .nil (isGap_textOf hlexed hfs (by simp))
  | token fs p k ps hfs hk ih =>
    have htoken : p.isToken = true := Piece.isToken_iff.2 ⟨k, hk⟩
    have hgap : IsGap false (textOf fs) :=
      isGap_textOf h hfs (by rintro q ⟨⟩; exact htoken)
    have hrest := ih (lexed_cons.1 h.right).2 ((here.advance (textOf fs)).advance p.text)
    rw [spelled_append, spelled_of_noTokens hfs, nil_append, spelled_token hk,
      textOf_append, textOf_cons, ← append_assoc]
    refine .cons (k := ⟨k, p.text, here.advance (textOf fs)⟩) hgap
      (reads_text_ne_nil (lexed_cons.1 h.right).1) ?_ ?_
    · exact Position.offset_advance here (textOf fs)
    · rwa [Position.offset_advance] at hrest

end Lexer

/-! ### Tokens of a text -/

theorem exists_eof_tokenize (t : Text) : ∃ front last, tokenize t = front ++ [last] ∧
    last.kind = .eof ∧ last.pos = t.byteSize ∧ last.size = 0 ∧ ∀ k ∈ front,
      k.kind ≠ .eof := by
  let here := Position.start.advance t
  let implied := if pendingAfter false (Lexer.pieces t) then [Token.impliedSemi here] else []
  have hends : endTokens here (pendingAfter false (Lexer.pieces t)) = implied ++
      [Token.eof here] := by
    simp only [endTokens, implied]
    split <;> rfl
  refine ⟨scan .start false (Lexer.pieces t) ++ implied, Token.eof here, ?_, rfl, ?_, rfl, ?_⟩
  · rw [tokenize_eq, hends, append_assoc]
  · show here.offset = _
    rw [Position.offset_advance, Position.start, Nat.zero_add]
  · intro k hk
    rcases mem_append.1 hk with hk | hk
    · intro heof
      refine mem_kinds_ne_eof (lexed_pieces t) false ?_
      rw [← map_kind_scan .start, ← heof]
      exact mem_map_of_mem hk
    · have hsemi : k = Token.impliedSemi here := by
        simp only [implied] at hk
        split at hk
        · exact mem_singleton.1 hk
        · cases hk
      rw [hsemi]
      simp [Token.impliedSemi]

/-- The text of a spelled token is what it covers. -/
theorem Token.text_of_isSpelled (h : k.isSpelled = true) : k.text = k.lexeme := by
  have hne : k.isImpliedSemi = false := by
    simp only [isSpelled, Bool.not_eq_true'] at h
    simp [isImpliedSemi, h]
  simp [text, hne]

theorem Token.StandsIn.slice (h : k.StandsIn t) :
    Span.slice ⟨k.pos, k.stop⟩ t = .ok k.lexeme := by
  obtain ⟨a, b, ht, ha⟩ := h
  have hcut : Span.cut ⟨k.pos, k.stop⟩ t = .ok (a, k.lexeme, b) :=
    Span.cut_eq_ok_iff.2 ⟨ht, ha.symm, by rw [ha]; rfl⟩
  rw [Span.slice, hcut]
  rfl

/-- A spelled token stands where the text in front of it ends. -/
theorem exists_before_of_isSpelled (hk : k ∈ tokenize t) (hspelled : k.isSpelled = true) :
    ∃ before behind, t.cutAt? k.pos = some (before, behind) ∧
      k.start = Position.start.advance before := by
  have hmem : k ∈ spelled .start (Lexer.pieces t) := by
    rw [← filter_isSpelled_tokenize]
    exact mem_filter.2 ⟨hk, hspelled⟩
  obtain ⟨front, p, back, hps, -, -, hstart⟩ := exists_of_mem_spelled hmem
  refine ⟨textOf front, textOf (p :: back), Text.cutAt?_eq_some_iff.2 ⟨?_, ?_⟩, hstart⟩
  · rw [← textOf_append, ← hps, textOf_pieces]
  · rw [Token.pos, hstart, Position.offset_advance, Position.start, Nat.zero_add]

/-- **The tokens of a text tile it.** -/
theorem tokenize_tilesText (t : Text) : TilesText t (tokenize t) where
  ends := exists_eof_tokenize t
  slices k hk hspelled := by
    rw [Token.text_of_isSpelled hspelled]
    exact ((tokenize_placed t).standsIn k hk).slice
  ordered := (tokenize_placed t).ordered
  gaps := by
    have h := tiles_spelled (lexed_pieces t) .start
    rwa [textOf_pieces, ← filter_isSpelled_tokenize] at h
  places k hk hspelled := by
    obtain ⟨before, behind, hcut, hstart⟩ := exists_before_of_isSpelled hk hspelled
    obtain ⟨hline, hcolumn⟩ := Position.advance_start before
    exact ⟨before, behind, hcut, by rw [hstart, hline], by rw [hstart, hcolumn]⟩

end Notebook
