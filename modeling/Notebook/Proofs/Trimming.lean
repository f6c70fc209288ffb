import Mathlib.Data.List.DropRight
import Notebook.Proofs.RowCut

/-!
# The ends of a text

White space around a text belongs to no statement, and neither does a comment behind it.  A
text can therefore be trimmed and given another end, and it is made of the same statements.
Trimming may cut into a comment at the end of the text, but into nothing else.

## Main statements

* `Laid.trimStart`, `Laid.trimEnd_append`: a text without the white space around it
* `Laid.trim_append`: both, with another end
* `lexicallyClosed_of_lineFeed`: a text is closed if it is closed with a line end behind it
* `textOf_gap_eq`: the rows behind the last statement are what stands behind it
-/

namespace Notebook

open Lexer List

variable {hex : Bool} {c prev : Char} {ps qs rest : List Piece} {rows : List Row} {p : Piece}
  {a t w : Text}

/-! ### The last character of a piece -/

theorem isCommentClosed_getLast (h : isCommentClosed t = true) : t.getLast? = some '/' := by
  fun_induction isCommentClosed t with
  | case1 => cases h
  | case2 t =>
    obtain rfl : t = [] := by simpa using h
    rfl
  | case3 c t hne ih =>
    rw [getLast?_cons, ih h]
    rfl

theorem isQuotedClosed_getLast {quote : Char} (h : isQuotedClosed quote t = true) :
    t.getLast? = some quote := by
  fun_induction isQuotedClosed quote t with
  | case1 => cases h
  | case2 => cases h
  | case3 => cases h
  | case4 c hnewline hescape d t ih =>
    rw [getLast?_cons, getLast?_cons, ih h]
    rfl
  | case5 t hnewline hescape =>
    obtain rfl : t = [] := by simpa using h
    rfl
  | case6 c t hnewline hescape hquote ih =>
    rw [getLast?_cons, ih h]
    rfl

theorem isBlank_eq_false_of_isIdentifierChar (h : isIdentifierChar c = true) :
    isBlank c = false := by
  cases hb : isBlank c with
  | false => rfl
  | true =>
    rw [isIdentifierChar_eq_false_of_isDelimiter (by simp [isDelimiter, hb])] at h
    cases h

theorem isBlank_eq_false_of_isNumberChar (h : isNumberChar hex prev c = true) :
    isBlank c = false := by
  cases hb : isBlank c with
  | false => rfl
  | true =>
    rw [isNumberChar_eq_false_of_isDelimiter (by simp [isDelimiter, hb])] at h
    cases h

theorem numberRun_chars (h : numberRun hex prev t = (t, [])) :
    ∀ c ∈ t, isBlank c = false := by
  induction t generalizing prev with
  | nil => exact fun c hc => by cases hc
  | cons d t ih =>
    rw [numberRun_cons] at h
    split at h
    next hd =>
      simp only [Prod.mk.injEq, List.cons.injEq, true_and] at h
      exact forall_mem_cons.2 ⟨isBlank_eq_false_of_isNumberChar hd, ih (Prod.ext h.1 h.2)⟩
    · cases congrArg Prod.fst h

theorem isBlank_quote {q : Char} {k : TokenKind} (h : quoteKind? q = some k) :
    isBlank q = false := by
  unfold quoteKind? at h
  split at h
  next hq =>
    rw [hq]
    decide
  · split at h
    next hq =>
      rw [hq]
      decide
    · split at h
      next hq =>
        rw [hq]
        decide
      · cases h

/-- A piece that is no blank and no line comment does not end in white space. -/
theorem Piece.last_nonblank (h : Spelled p) (hblank : p.kind ≠ .blank)
    (hline : p.isLine = false) : ∀ c, p.text.getLast? = some c → isBlank c = false := by
  intro c hc
  cases h with
  | blank => exact absurd rfl hblank
  | line => cases hline
  | block ht =>
    rw [getLast?_cons, getLast?_cons, isCommentClosed_getLast ht] at hc
    cases hc
    decide
  | quoted hq ht =>
    rw [getLast?_cons, isQuotedClosed_getLast ht] at hc
    cases hc
    exact isBlank_quote hq
  | @word d t hd ht =>
    rcases mem_cons.1 (mem_of_getLast? hc) with rfl | hc
    · refine isBlank_eq_false_of_isIdentifierChar ?_
      revert hd
      simp only [isIdentifierStart, isIdentifierChar, isAlphanumeric, Bool.or_eq_true]
      tauto
    · exact isBlank_eq_false_of_isIdentifierChar (ht c hc)
  | @number d t hd ht =>
    rcases mem_cons.1 (mem_of_getLast? hc) with rfl | hc
    · unfold startsNumber at hd
      cases hb : isBlank c with
      | false => rfl
      | true =>
        have halnum := isAlphanum_eq_false_of_isDelimiter (c := c) (by simp [isDelimiter, hb])
        have hpoint : c ≠ '.' := by
          rintro rfl
          revert hb
          decide
        rw [Char.isAlphanum, Bool.or_eq_false_iff] at halnum
        simp [halnum.2, hpoint] at hd
    · exact numberRun_chars ht c hc
  | @mark d t hd ht =>
    have hchars : ∀ o ∈ operators, ∀ c ∈ o.toList, isBlank c = false := by
      intro o ho c hc
      have := operators_chars o ho c hc
      rw [isDelimiter, Bool.or_eq_false_iff] at this
      exact this.1
    rcases ht with rfl | ⟨o, ho, heq⟩
    · obtain rfl := mem_singleton.1 (mem_of_getLast? hc)
      simp only [isMarkChar, Bool.and_eq_true, Bool.not_eq_true'] at hd
      exact hd.1.1.1
    · exact hchars o ho c (heq ▸ mem_of_getLast? hc)

/-- A closed piece ends in a line feed only if it is one. -/
theorem Piece.eq_lineEnd (h : Spelled p) (hlast : p.text.getLast? = some '\n') :
    p = lineEnd := by
  by_cases hblank : p.kind = .blank
  · cases h with
    | blank => cases hlast; rfl
    | _ => cases hblank
  · by_cases hline : p.isLine = true
    · cases h with
      | blank => exact absurd rfl hblank
      | line ht =>
        rcases mem_cons.1 (mem_of_getLast? hlast) with h | h
        · cases h
        · rcases mem_cons.1 h with h | h
          · cases h
          · exact absurd h ht
      | _ => cases hline
    · have := Piece.last_nonblank h hblank (by simpa using hline) _ hlast
      cases this

/-- A text that is closed with a line end behind it is closed. -/
theorem lexicallyClosed_of_lineFeed (h : LexicallyClosed (t ++ ['\n'])) :
    LexicallyClosed t := by
  have htext : textOf (Lexer.pieces (t ++ ['\n'])) = t ++ ['\n'] := textOf_pieces _
  have hne : Lexer.pieces (t ++ ['\n']) ≠ [] := by
    intro hnil
    rw [hnil] at htext
    simp at htext
  obtain ⟨qs, p, hqs⟩ := (eq_nil_or_concat _).resolve_left hne
  rw [concat_eq_append] at hqs
  have hlexed : Lexed (qs ++ [p]) := hqs ▸ lexed_pieces _
  have hread := (lexed_cons.1 (Lexed.right hlexed)).1
  have hclosed : ∀ q ∈ qs ++ [p], q.isClosed = true := hqs ▸ h
  have hp : p = lineEnd := by
    refine Piece.eq_lineEnd (spelled_of_reads hread (hclosed p (by simp))) ?_
    have hlast := congrArg List.getLast? htext
    rw [hqs, textOf_append, getLast?_append, getLast?_concat] at hlast
    obtain ⟨c, u, hcu⟩ := exists_cons_of_ne_nil (reads_text_ne_nil hread)
    have hsome : (textOf [p]).getLast? = p.text.getLast? := by simp
    rw [hsome] at hlast
    cases hcase : p.text.getLast? with
    | none => simp [hcu] at hcase
    | some d =>
      rw [hcase] at hlast
      exact hlast
  subst hp
  rw [hqs, textOf_append] at htext
  have hqstext : textOf qs = t := append_cancel_right htext
  have hqsclosed : ∀ q ∈ qs, q.isClosed = true := fun q hq =>
    hclosed q (mem_append_left _ hq)
  intro q hq
  rw [← hqstext, hlexed.left] at hq
  exact hqsclosed q hq

/-! ### Trimmed texts -/

namespace Text

theorem trimEnd_append_blank (h : isBlank c = true) (t : Text) :
    trimEnd (t ++ [c]) = trimEnd t := by
  simp [trimEnd, h]

/-- Trimming stops at the first character that is no white space. -/
theorem trimStart_append_cons (hc : isBlank c = false) (a b : Text) :
    trimStart (a ++ c :: b) = trimStart a ++ c :: b := by
  induction a with
  | nil => rw [nil_append, trimStart, dropWhile_cons_of_neg (by simp [hc])]; rfl
  | cons d a ih =>
    cases hd : isBlank d with
    | false => simp [trimStart, hd]
    | true => simpa [trimStart, hd] using ih

/-- What ends in no white space is kept, and trimming goes on behind it. -/
theorem trimEnd_append (ha : a.getLast? = some c) (hc : isBlank c = false) (t : Text) :
    trimEnd (a ++ t) = a ++ trimEnd t := by
  obtain ⟨b, rfl⟩ := getLast?_eq_some_iff.1 ha
  simp only [trimEnd, reverse_append, dropWhile_append]
  cases hnil : (t.reverse.dropWhile isBlank).isEmpty with
  | true =>
    have : t.reverse.dropWhile isBlank = [] := by simpa using hnil
    simp [hc, this]
  | false => simp

end Text

/-- What a trimmed text ends in behind its last pieces: nothing, or what is left of a line
comment. -/
def EndsIn (ps : List Piece) (ending : Text) : Prop :=
  (ending = [] ∧ ∀ p, ps.getLast? = some p → p.isLine = false) ∨
    ∃ c, ending = '/' :: '/' :: c ∧ '\n' ∉ c ∧ Lexed (ps ++ [⟨.comment, ending⟩])

/-- Pieces may stand in front of others if they may stand in front of some that begin
alike. -/
theorem lexed_swap {ps' : List Piece} {x b : Text} (h : Lexed (qs ++ ps)) (hps' : Lexed ps')
    (ha : textOf ps = x ++ a) (hb : textOf ps' = x ++ b) (hx : x ≠ [])
    (hpoint : x = ['.'] → b.head? ≠ some '.') : Lexed (qs ++ ps') := by
  induction qs with
  | nil => exact hps'
  | cons q qs ih =>
    rw [cons_append, lexed_cons, textOf_append, ha, ← append_assoc] at h
    rw [cons_append, lexed_cons, textOf_append, hb, ← append_assoc]
    refine ⟨h.1.of_longer.append (by simp [hx]) ?_, ih h.2⟩
    intro _ heq
    rcases append_eq_singleton_iff.1 heq with ⟨-, hone⟩ | ⟨-, hnil⟩
    · exact hpoint hone
    · exact absurd hnil hx

/-- The pieces of a trimmed text: white space at the end is gone, and of a line comment what
stood before it is left. -/
theorem exists_trimmed (h : Lexed ps) (hclosed : ∀ p ∈ ps, p.isClosed = true) :
    ∃ qs rest ending, ps = qs ++ rest ∧ (∀ p ∈ rest, p.isToken = false) ∧
      Text.trimEnd (textOf ps) = textOf qs ++ ending ∧ EndsIn qs ending := by
  induction ps using reverseRecOn with
  | nil => exact ⟨[], [], [], rfl, by simp, rfl, .inl ⟨rfl, by simp⟩⟩
  | append_singleton ps p ih =>
    have hps : ∀ q ∈ ps, q.isClosed = true :=
      fun q hq => hclosed q (mem_append_left _ hq)
    have hread := (lexed_cons.1 (Lexed.right h)).1
    have hspelled := spelled_of_reads hread (hclosed p (by simp))
    by_cases hblank : p.kind = .blank
    · -- White space goes, and trimming goes on in front of it.
      obtain ⟨c, hc, rfl⟩ : ∃ c, isBlank c = true ∧ p = ⟨.blank, [c]⟩ := by
        cases hspelled with
        | blank hc => exact ⟨_, hc, rfl⟩
        | _ => cases hblank
      obtain ⟨qs, rest, ending, rfl, hrest, htrim, hend⟩ := ih h.left hps
      refine ⟨qs, rest ++ [⟨.blank, [c]⟩], ending, by simp, ?_, ?_, hend⟩
      · exact forall_mem_append.2 ⟨hrest, forall_mem_singleton.2 rfl⟩
      · rw [textOf_append, textOf_cons, textOf_nil, append_nil,
          Text.trimEnd_append_blank hc, htrim]
    · by_cases hline : p.isLine = true
      · -- Of a line comment the beginning stays.
        obtain ⟨c, hc, rfl⟩ : ∃ c, '\n' ∉ c ∧ p = ⟨.comment, '/' :: '/' :: c⟩ := by
          cases hspelled with
          | line hc => exact ⟨_, hc, rfl⟩
          | blank => exact absurd rfl hblank
          | _ => cases hline
        have hc' : '\n' ∉ Text.trimEnd c := by
          intro hmem
          have hsub := (dropWhile_sublist isBlank (l := c.reverse)).reverse.subset hmem
          rw [reverse_reverse] at hsub
          exact hc hsub
        have hpiece : Lexed [⟨.comment, '/' :: '/' :: Text.trimEnd c⟩] :=
          lexed_cons.2 ⟨(reads_line hc').2 (by simp), lexed_nil⟩
        refine ⟨ps, [_], '/' :: '/' :: Text.trimEnd c, rfl, by simp [Piece.isToken], ?_,
          .inr ⟨_, rfl, hc', lexed_swap (x := ['/', '/']) (a := c)
            (b := Text.trimEnd c) h hpiece
            (by simp) (by simp) (by simp) (by simp)⟩⟩
        have := Text.trimEnd_append (a := textOf ps ++ ['/', '/']) (c := '/')
          (by simp) (by decide) c
        rw [append_assoc, append_assoc] at this
        simpa using this
      · -- Any other piece ends in a character that stays.
        refine ⟨ps ++ [p], [], [], by simp, by simp, ?_, .inl ⟨rfl, ?_⟩⟩
        · have hne := reads_text_ne_nil hread
          obtain ⟨c, hc⟩ : ∃ c, p.text.getLast? = some c := by
            cases hlast : p.text.getLast? with
            | none => exact absurd (getLast?_eq_none_iff.1 hlast) hne
            | some c => exact ⟨c, rfl⟩
          have := Text.trimEnd_append (a := textOf (ps ++ [p])) (c := c)
            (by rw [textOf_append, getLast?_append]; simp [hc])
            (Piece.last_nonblank hspelled hblank (by simpa using hline) c hc) []
          simpa [Text.trimEnd] using this
        · intro q hq
          rw [getLast?_concat] at hq
          cases hq
          simpa using hline

/-! ### Other ends -/

theorem kinds_no_tokens (h : ∀ p ∈ ps, p.isToken = false) : kinds false ps = [] := by
  induction ps with
  | nil => rfl
  | cons p ps ih =>
    obtain ⟨hp, hs⟩ := forall_mem_cons.1 h
    have hps := ih hs
    unfold Piece.isToken at hp
    rw [kinds_cons]
    unfold Piece.emittedKinds Piece.pendingBehind
    cases hk : p.kind with
    | token k =>
      rw [hk] at hp
      cases hp
    | _ => simpa using hps

/-- A line end behind a token that can end a statement implies a semicolon. -/
theorem kinds_endsLine (h : ∀ p ∈ ps, p.isToken = false)
    (hline : ∃ p ∈ ps, Lexer.Piece.endsLine p = true) : kinds true ps ≠ [] := by
  induction ps with
  | nil =>
    obtain ⟨p, hp, -⟩ := hline
    cases hp
  | cons p ps ih =>
    obtain ⟨hp, hps⟩ := forall_mem_cons.1 h
    unfold Piece.isToken at hp
    rw [kinds_cons]
    unfold Piece.emittedKinds Piece.pendingBehind
    cases hends : Lexer.Piece.endsLine p with
    | true =>
      cases hk : p.kind with
      | token k =>
        rw [hk] at hp
        cases hp
      | _ => simp
    | false =>
      have hrest : ∃ q ∈ ps, Lexer.Piece.endsLine q = true := by
        obtain ⟨q, hq, hqline⟩ := hline
        rcases mem_cons.1 hq with rfl | hq
        · rw [hends] at hqline
          cases hqline
        · exact ⟨q, hq, hqline⟩
      have := ih hps hrest
      cases hk : p.kind with
      | token k =>
        rw [hk] at hp
        cases hp
      | _ => simpa using this

/-- Pieces that can end a text: blanks and comments with a line end among them, and a solid
piece last. -/
structure IsEnding (ps : List Piece) : Prop where
  noTokens : ∀ p ∈ ps, p.isToken = false
  closed : ∀ p ∈ ps, p.isClosed = true
  endsLine : ∃ p ∈ ps, Lexer.Piece.endsLine p = true
  solid : ∀ p, ps.getLast? = some p → p.isSolid = true

theorem IsEnding.ne_nil (h : IsEnding ps) : ps ≠ [] := by
  rintro rfl
  obtain ⟨p, hp, -⟩ := h.endsLine
  cases hp

theorem Row.bodies_eq_nil (h : ∀ r ∈ rows, r.Sound)
    (hflat : ∀ p ∈ flatten rows, p.isToken = false) : bodies rows = [] := by
  induction rows with
  | nil => rfl
  | cons r rs ih =>
    obtain ⟨hr, hs⟩ := forall_mem_cons.1 h
    have hrs := ih hs fun p hp =>
      hflat p (mem_append_right _ hp)
    rw [bodies_cons, hrs, append_nil, if_pos]
    rcases hr.body with hnil | ⟨hstatement, -⟩
    · exact hnil
    · obtain ⟨p, qs, hbody⟩ := exists_cons_of_ne_nil hstatement.ne_nil
      have hmem : p ∈ flatten (r :: rs) := by simp [pieces, hbody]
      have htoken := hstatement.front p (by rw [hbody]; rfl)
      rw [hflat p hmem] at htoken
      cases htoken

/-- Rows whose last pieces are no tokens: those pieces begin in the gap of a row, and no
statement stands behind it. -/
theorem Row.exists_cut (h : ∀ r ∈ rows, r.Sound) (hflat : flatten rows = qs ++ rest)
    (hrest : ∀ p ∈ rest, p.isToken = false) (hne : rest ≠ []) :
    ∃ init r gap gap' rs, rows = init ++ r :: rs ∧ qs = flatten init ++ (r.body ++ gap) ∧
      r.gap = gap ++ gap' ∧ (∀ p ∈ gap', p.isToken = false) ∧ bodies rs = [] := by
  induction rows generalizing qs with
  | nil => exact absurd (append_eq_nil_iff.1 hflat.symm).2 hne
  | cons r rs ih =>
    obtain ⟨hr, hrs⟩ := forall_mem_cons.1 h
    rw [flatten_cons] at hflat
    rcases append_eq_append_iff.1 hflat with ⟨qs', rfl, hqs'⟩ | ⟨gap', hrow, rfl⟩
    · -- The end begins behind this row.
      obtain ⟨init, r', gap, gap', rs', rfl, rfl, hgap, hgap', hnone⟩ := ih hrs hqs'
      exact ⟨r :: init, r', gap, gap', rs', rfl, by simp, hgap, hgap', hnone⟩
    · -- The end begins in the gap of this row.
      have hgap' : ∀ p ∈ gap', p.isToken = false :=
        fun p hp => hrest p (mem_append_left _ hp)
      have hnone : bodies rs = [] :=
        bodies_eq_nil hrs fun p hp => hrest p (mem_append_right _ hp)
      rcases append_eq_append_iff.1 hrow with ⟨gap, hqs, hgap⟩ | ⟨more, hbody, hmore⟩
      · exact ⟨[], r, gap, gap', rs, rfl, hqs, hgap, hgap', hnone⟩
      · cases hlast : more.getLast? with
        | none =>
          rw [getLast?_eq_none_iff] at hlast
          subst hlast
          exact ⟨[], r, [], gap', rs,
            rfl, by simpa using hbody.symm, by simpa using hmore.symm, hgap', hnone⟩
        | some p =>
          have htoken : p.isToken = true := by
            rcases hr.body with hnil | ⟨hstatement, -⟩
            · rw [hnil] at hbody
              rw [(append_eq_nil_iff.1 hbody.symm).2] at hlast
              cases hlast
            · exact hstatement.back p (by rw [hbody, getLast?_append, hlast]; rfl)
          have hmem : p ∈ gap' := hmore ▸ mem_append_left _ (mem_of_getLast? hlast)
          rw [hgap' p hmem] at htoken
          cases htoken

/-- A row can be given another end. -/
theorem Row.Sound.reended {r : Row} (h : r.Sound) {gap gap' : List Piece}
    (hgap : r.gap = gap ++ gap') (hgap' : ∀ p ∈ gap', p.isToken = false)
    (hrest : IsEnding rest) (hlexed : Lexed (r.body ++ (gap ++ rest))) :
    Row.Sound ⟨r.body, gap ++ rest⟩ := by
  have hgapmem : ∀ p ∈ gap, p ∈ r.gap := fun p hp => hgap ▸ mem_append_left _ hp
  refine ⟨hlexed, ?_, ?_, ?_, h.body.imp_right ?_⟩
  · intro p hp
    simp only [pieces, mem_append] at hp
    rcases hp with hp | hp | hp
    · exact h.closed p (mem_append_left _ hp)
    · exact h.closed p (mem_append_right _ (hgapmem p hp))
    · exact hrest.closed p hp
  · intro p hp
    rcases mem_append.1 hp with hp | hp
    · exact h.fillers p (hgapmem p hp)
    · exact Piece.isFiller_of_isToken (hrest.noTokens p hp)
  · intro p hp
    obtain ⟨q, hq⟩ : ∃ q, rest.getLast? = some q := by
      cases hlast : rest.getLast? with
      | none => exact absurd (getLast?_eq_none_iff.1 hlast) hrest.ne_nil
      | some q => exact ⟨q, rfl⟩
    simp only [getLast?_append, hq, Option.some_or, Option.some.injEq] at hp
    exact hp ▸ hrest.solid q hq
  · rintro ⟨hstatement, hkinds⟩
    refine ⟨hstatement, ?_⟩
    -- What is left of the gap ends the statement, or the line end behind it does.
    simp only [hgap, kinds_append] at hkinds ⊢
    intro hnil
    obtain ⟨hleft, hright⟩ := append_eq_nil_iff.1 hnil
    rw [hleft, nil_append] at hkinds
    cases hpending : pendingAfter (pendingAfter false r.body) gap with
    | false =>
      rw [hpending] at hkinds
      exact hkinds (kinds_no_tokens hgap')
    | true =>
      rw [hpending] at hright
      exact kinds_endsLine hrest.noTokens hrest.endsLine hright

/-- The text of a remark behind a statement: nothing, or a blank and a line comment. -/
def IsRemark (w : Text) : Prop :=
  w = [] ∨ ∃ m, w = ' ' :: '/' :: '/' :: m ∧ '\n' ∉ m

/-- Behind the pieces of a trimmed text a remark may stand: it is a comment of its own, or
goes into the comment that is there. -/
theorem EndsIn.exists_ending {ending : Text} (h : EndsIn qs ending) (hlexed : Lexed qs)
    (hclosed : ∀ p ∈ qs, p.isClosed = true) (hw : IsRemark w) :
    ∃ rest, IsEnding rest ∧ Lexed (qs ++ rest) ∧ textOf rest = ending ++ w ++ ['\n'] := by
  have hline : Lexed [lineEnd] := lexed_cons.2 ⟨reads_blank isBlank_lineFeed _, lexed_nil⟩
  have hseam : ∀ (ps : List Piece), Seam ps [lineEnd] := fun ps p hp =>
    .inr fun d hd => by cases hd; exact ⟨by decide, fun _ => rfl⟩
  have hcomment : ∀ m, '\n' ∉ m → Lexed [⟨.comment, '/' :: '/' :: m⟩, lineEnd] := fun m hm =>
    lexed_cons.2 ⟨(reads_line hm).2 (by simp [lineEnd]), hline⟩
  have hisEnding : ∀ front : List Piece,
    (∀ p ∈ front, p.isToken = false ∧ p.isClosed = true) →
      IsEnding (front ++ [lineEnd]) := by
    intro front hfront
    refine ⟨?_, ?_, ⟨lineEnd, by simp, by decide⟩, ?_⟩
    · intro p hp
      rcases mem_append.1 hp with hp | hp
      · exact (hfront p hp).1
      · rw [mem_singleton.1 hp]
        rfl
    · intro p hp
      rcases mem_append.1 hp with hp | hp
      · exact (hfront p hp).2
      · rw [mem_singleton.1 hp]
        rfl
    · intro p hp
      rw [getLast?_concat] at hp
      cases hp
      rfl
  rcases h with ⟨rfl, hnoline⟩ | ⟨c, rfl, hc, hcommented⟩
  · rcases hw with rfl | ⟨m, rfl, hm⟩
    · exact ⟨[lineEnd], hisEnding [] (by simp),
        lexed_append hlexed hline hclosed (hseam qs), rfl⟩
    · refine ⟨[⟨.blank, [' ']⟩, ⟨.comment, '/' :: '/' :: m⟩, lineEnd],
        hisEnding [_, _] (by simp [Piece.isToken, Piece.isClosed]), ?_, by simp [lineEnd]⟩
      refine lexed_append hlexed
        (lexed_cons.2 ⟨reads_blank (by decide) _, hcomment m hm⟩) hclosed ?_
      intro p hp
      refine .inr fun d hd => ?_
      cases hd
      exact ⟨by decide, fun hl => by rw [hnoline p hp] at hl; cases hl⟩
  · have hw' : '\n' ∉ c ++ w := by
      rcases hw with rfl | ⟨m, rfl, hm⟩
      · simpa using hc
      · simp [hc, hm]
    refine ⟨[⟨.comment, '/' :: '/' :: (c ++ w)⟩, lineEnd],
      hisEnding [_] (by simp [Piece.isToken, Piece.isClosed]), ?_, by simp [lineEnd]⟩
    exact lexed_swap (x := ['/', '/']) (a := c) (b := c ++ w ++ ['\n']) hcommented
      (hcomment _ hw')
      (by simp) (by simp [lineEnd]) (by simp) (by simp)

/-- The rows of a text without the white space at its end: some of them as they are, and then
one that ends as the text does, in a comment or not, and in any remark. -/
theorem Row.exists_ended (h : ∀ r ∈ rows, r.Sound)
    (hflat : flatten rows = Lexer.pieces t ++ [lineEnd]) (hclosed : LexicallyClosed t) :
    ∃ init r gap rs ending, rows = init ++ r :: rs ∧ bodies rs = [] ∧
      Text.trimEnd t = textOf (flatten init) ++ textOf (r.body ++ gap) ++ ending ∧
      ∀ w, IsRemark w → ∃ rest, textOf rest = ending ++ w ++ ['\n'] ∧
        Row.Sound ⟨r.body, gap ++ rest⟩ := by
  obtain ⟨qs, rest, ending, hps, hrest, htrim, hends⟩ :=
    exists_trimmed (lexed_pieces t) hclosed
  rw [textOf_pieces] at htrim
  have hqs : ∀ p ∈ qs, p.isClosed = true := fun p hp =>
    hclosed p (hps ▸ mem_append_left _ hp)
  have hqslexed : Lexed qs := by
    have := lexed_pieces t
    rw [hps] at this
    exact this.left
  have hsplit : flatten rows = qs ++ (rest ++ [lineEnd]) := by
    rw [hflat, hps, append_assoc]
  have hnoTokens : ∀ p ∈ rest ++ [lineEnd], p.isToken = false := by
    exact forall_mem_append.2 ⟨hrest, forall_mem_singleton.2 rfl⟩
  obtain ⟨init, r, gap, gap', rs, rfl, rfl, hgap, hgap', hnone⟩ :=
    exists_cut h hsplit hnoTokens (by simp)
  refine ⟨init, r, gap, rs, ending, rfl, hnone, by rw [htrim, textOf_append], ?_⟩
  intro w hw
  obtain ⟨rest', hending, hlexed, htext⟩ := hends.exists_ending hqslexed hqs hw
  refine ⟨rest', htext, (h r (by simp)).reended hgap hgap' hending ?_⟩
  rw [append_assoc, append_assoc] at hlexed
  exact hlexed.right

/-! ### Texts without the white space around them -/

namespace Laid

variable {bs : List (List Piece)}

/-- A blank piece stands for itself. -/
theorem blank (h : isBlank c = true) : Laid [c] [] := by
  refine ⟨[⟨[], [⟨.blank, [c]⟩]⟩], ?_, ?_, rfl⟩
  · intro r hr
    rw [mem_singleton.1 hr]
    refine ⟨lexed_cons.2 ⟨reads_blank h _, lexed_nil⟩, ?_, ?_, ?_, .inl rfl⟩
    · intro p hp
      rw [mem_singleton.1 hp]
      rfl
    · intro p hp
      rw [mem_singleton.1 hp]
      rfl
    · rintro p ⟨⟩
      rfl
  · rw [pieces_cons, firstPiece_blank h, pieces_nil]
    rfl

theorem of_blank_cons (hc : isBlank c = true) (h : Laid (c :: t) bs) : Laid t bs := by
  obtain ⟨rows, hrows, hflat, rfl⟩ := h
  rw [pieces_cons, firstPiece_blank hc] at hflat
  induction rows with
  | nil => cases hflat
  | cons r rs ih =>
    obtain ⟨hr, hrs⟩ := forall_mem_cons.1 hrows
    rw [Row.flatten_cons] at hflat
    cases hbody : r.body with
    | cons p ps =>
      -- A statement does not begin with a blank.
      rcases hr.body with hnil | ⟨hstatement, -⟩
      · rw [hnil] at hbody
        cases hbody
      · have htoken := hstatement.front p (by rw [hbody]; rfl)
        rw [Row.pieces, hbody] at hflat
        rw [(List.cons.inj hflat).1] at htoken
        cases htoken
    | nil =>
      cases hgap : r.gap with
      | nil =>
        rw [Row.pieces, hbody, hgap] at hflat
        have := ih hrs hflat
        rwa [Row.bodies_cons, if_pos hbody]
      | cons p gap =>
        rw [Row.pieces, hbody, hgap] at hflat
        have hflat' : gap ++ Row.flatten rs = Lexer.pieces t := (List.cons.inj hflat).2
        have hlexed := hr.lexed
        rw [Row.pieces, hbody, hgap] at hlexed
        refine ⟨⟨[], gap⟩ :: rs, ?_,
          hflat', by rw [Row.bodies_cons, Row.bodies_cons, if_pos hbody]; rfl⟩
        intro q hq
        rcases mem_cons.1 hq with rfl | hq
        · refine ⟨(lexed_cons.1 hlexed).2, ?_, ?_, ?_, .inl rfl⟩
          · intro q hq
            exact hr.closed q
              (by rw [Row.pieces, hbody, hgap]; exact mem_cons_of_mem p hq)
          · exact fun q hq => hr.fillers q (hgap ▸ mem_cons_of_mem p hq)
          · intro q hq
            refine hr.solid q ?_
            rw [hgap, getLast?_cons, hq]
            rfl
        · exact hrs q hq

theorem trimStart (h : Laid (t ++ ['\n']) bs) : Laid (Text.trimStart t ++ ['\n']) bs := by
  induction t with
  | nil => exact h
  | cons c t ih =>
    cases hc : isBlank c with
    | false => simpa [Text.trimStart, hc] using h
    | true =>
      rw [Text.trimStart, dropWhile_cons_of_pos hc]
      exact ih (of_blank_cons hc h)

/-- White space at the end of a text can make way for a remark. -/
theorem trimEnd_append (h : Laid (t ++ ['\n']) bs) (hw : IsRemark w) :
    Laid (Text.trimEnd t ++ w ++ ['\n']) bs := by
  have hclosed := lexicallyClosed_of_lineFeed h.lexicallyClosed
  obtain ⟨rows, hrows, hflat, rfl⟩ := h
  rw [pieces_append_lineFeed hclosed] at hflat
  obtain ⟨init, r, gap, rs, ending, rfl, hnone, htrim, hends⟩ :=
    Row.exists_ended hrows hflat hclosed
  obtain ⟨rest, htext, hsound⟩ := hends w hw
  have hall : ∀ q ∈ init ++ [⟨r.body, gap ++ rest⟩], Row.Sound q := by
    intro q hq
    rcases mem_append.1 hq with hq | hq
    · exact hrows q (mem_append_left _ hq)
    · rw [mem_singleton.1 hq]
      exact hsound
  have hlaid := of_rows hall
  have hbodies : Row.bodies (init ++ r :: rs) =
      Row.bodies (init ++ [⟨r.body, gap ++ rest⟩]) := by
    rw [Row.bodies_append, Row.bodies_append, Row.bodies_cons, Row.bodies_cons, hnone]
    rfl
  rw [htrim, hbodies]
  simpa [Row.pieces, htext] using hlaid

/-- The text without the white space around it, with a remark behind it. -/
theorem trim_append (h : Laid (t ++ ['\n']) bs) (hw : IsRemark w) :
    Laid (Text.trim t ++ w ++ ['\n']) bs :=
  h.trimStart.trimEnd_append hw

end Laid

/-! ### What stands behind the last statement -/

/-- The last piece of a statement is no filler. -/
theorem IsStatement.isFiller_getLast (h : IsStatement ps) (hp : ps.getLast? = some p) :
    p.isFiller = false := by
  obtain ⟨qs, rfl⟩ := getLast?_eq_some_iff.1 hp
  obtain ⟨k, hk⟩ := Piece.isToken_iff.1 (h.back p hp)
  have hwhole := h.whole
  rw [kinds_append, kinds_cons, kinds_nil, Piece.emittedKinds, hk, Mode.walk_append] at hwhole
  obtain ⟨m, -, hstep⟩ := Option.bind_eq_some_iff.1 hwhole
  have hsemi : k ≠ .semi := by
    -- A semicolon stays in a statement only inside brackets or in a header, and leaves both
    -- open.
    rintro rfl
    have hstep : m.step .semi = some .whole := by
      simpa [Mode.walk_cons] using hstep
    obtain ⟨-, hin, hdepth, hheader, -⟩ := Mode.step_eq_some hstep
    exact hin ⟨rfl, Option.some.inj hdepth, hheader.symm⟩
  simp [Piece.isFiller, hk, hsemi]

/-- What stands behind the last statement of a text: white space, comments and semicolons. -/
def trailing (t : Text) : Text :=
  textOf ((Lexer.pieces t).rtakeWhile Piece.isFiller)

theorem rtakeWhile_append_of_pos {α : Type} {p : α → Bool} {xs ys : List α} {x : α}
    (hx : xs.getLast? = some x) (hpx : p x = false) (hys : ∀ y ∈ ys, p y = true) :
    (xs ++ ys).rtakeWhile p = ys := by
  obtain ⟨zs, rfl⟩ := getLast?_eq_some_iff.1 hx
  rw [List.rtakeWhile, reverse_append, takeWhile_append_of_pos (by simpa using hys)]
  simp [hpx]

theorem rtakeWhile_append_left {α : Type} {p : α → Bool} {xs ys : List α}
    (h : ∃ y ∈ ys, p y = false) : (xs ++ ys).rtakeWhile p = ys.rtakeWhile p := by
  rw [List.rtakeWhile, reverse_append, takeWhile_append, if_neg, List.rtakeWhile]
  intro hlength
  obtain ⟨y, hy, hpy⟩ := h
  have hself := (List.takeWhile_prefix p).eq_of_length hlength
  have hall := takeWhile_eq_self_iff.1 hself y (mem_reverse.2 hy)
  rw [hpy] at hall
  cases hall

/-- Rows without a statement are fillers. -/
theorem Row.isFiller_of_bodies_eq_nil (h : ∀ r ∈ rows, r.Sound) (hnone : bodies rows = []) :
    ∀ p ∈ flatten rows, p.isFiller = true := by
  induction rows with
  | nil => exact fun p hp => by cases hp
  | cons r rs ih =>
    rw [bodies_cons, append_eq_nil_iff] at hnone
    have hbody : r.body = [] := by
      by_contra hne
      rw [if_neg hne] at hnone
      cases hnone.1
    intro p hp
    rcases mem_append.1 hp with hp | hp
    · rw [pieces, hbody] at hp
      exact (h r mem_cons_self).fillers p hp
    · exact ih (fun q hq => h q (mem_cons_of_mem r hq)) hnone.2 p hp

/-- The pieces of a text behind its last statement. -/
theorem textOf_gap_eq {init rs : List Row} {r : Row} (hr : r.Sound) (hrs : ∀ q ∈ rs, q.Sound)
    (hflat : Row.flatten (init ++ r :: rs) = Lexer.pieces t ++ [lineEnd]) (hne : r.body ≠ [])
    (hnone : Row.bodies rs = []) :
    textOf (r.gap ++ Row.flatten rs) = trailing t ++ ['\n'] := by
  have hfillers : ∀ p ∈ r.gap ++ Row.flatten rs, p.isFiller = true := by
    exact forall_mem_append.2 ⟨hr.fillers, Row.isFiller_of_bodies_eq_nil hrs hnone⟩
  have hstatement := (hr.body.resolve_left hne).1
  obtain ⟨q, hq⟩ := getLast?_isSome.2 hne |> Option.isSome_iff_exists.1
  have hlast : (Row.flatten init ++ r.body).getLast? = some q := by
    rw [getLast?_append, hq]
    rfl
  have hpieces : (Row.flatten init ++ r.body) ++ (r.gap ++ Row.flatten rs) =
      Lexer.pieces t ++ [lineEnd] := by
    rw [← hflat, Row.flatten_append, Row.flatten_cons, Row.pieces]
    simp only [append_assoc]
  have hgap := rtakeWhile_append_of_pos hlast (hstatement.isFiller_getLast hq) hfillers
  rw [hpieces, rtakeWhile_concat_pos _ _ _ (by rfl)] at hgap
  rw [← hgap, textOf_append]
  rfl

/-- White space at the front of a text is made of pieces of its own. -/
theorem exists_pieces_trimStart (t : Text) :
    ∃ front, Lexer.pieces t = front ++ Lexer.pieces (Text.trimStart t) := by
  induction t with
  | nil => exact ⟨[], rfl⟩
  | cons c t ih =>
    cases hc : isBlank c with
    | false => exact ⟨[], by simp [Text.trimStart, hc]⟩
    | true =>
      obtain ⟨front, hfront⟩ := ih
      refine ⟨⟨.blank, [c]⟩ :: front, ?_⟩
      rw [pieces_cons, firstPiece_blank hc, hfront, Text.trimStart, Text.trimStart,
        dropWhile_cons_of_pos hc]
      rfl

/-- White space at the front plays no part in what stands behind the last statement. -/
theorem trailing_trimStart (h : ∃ p ∈ Lexer.pieces (Text.trimStart t), p.isFiller = false) :
    trailing (Text.trimStart t) = trailing t := by
  obtain ⟨front, hfront⟩ := exists_pieces_trimStart t
  rw [trailing, trailing, hfront, rtakeWhile_append_left h]

end Notebook
