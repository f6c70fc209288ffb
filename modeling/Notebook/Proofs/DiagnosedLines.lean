import Mathlib.Data.List.Infix
import Notebook.Proofs.Recovery
import Notebook.Proofs.Tiling

/-!
# Names on the lines of a report

After a failed run the names on the lines that the report points at are forgotten, and for
this each line is read on its own.  A line that ends inside a comment or a literal is still
read as it stands in the program: whatever is cut off at a line end, no identifier begins or
ends there.  A line that begins inside a comment or a literal is not, because nothing in it
tells; its words then count as names, and names behind the closing quote can be lost.

## Main statements

* `Lexer.exists_cut`: what a text is read as, up to a line end in it
* `BeginsOutside.identifiersOn_eq`: such a line has the same identifiers when it is read alone
* `recover_removes_iff`: which names a failed run removes
-/

namespace Notebook

open Lexer List

variable {d : Char} {ps : List Piece} {line : Nat} {p : Piece} {here : Position} {s : Session}
  {l more n rest t u : Text}

/-! ### Lines -/

namespace Text

instance (t : Text) : Decidable t.EndsLine :=
  inferInstanceAs (Decidable (_ ∨ _))

theorem EndsLine.mem (h : t.EndsLine) (hne : t ≠ []) : '\n' ∈ t :=
  mem_of_getLast? (h.resolve_left hne)

theorem EndsLine.right {a b : Text} (h : EndsLine (a ++ b)) : b.EndsLine := by
  by_cases hb : b = []
  · exact .inl hb
  · have hlast := h.resolve_left (by simp [hb])
    rw [getLast?_append_of_ne_nil a hb] at hlast
    exact .inr hlast

/-- A text whose last line has an end has as many lines as line feeds. -/
theorem EndsLine.length_lines (h : t.EndsLine) : t.lines.length = t.count '\n' := by
  rw [lines, length_map]
  induction t with
  | nil => rfl
  | cons c t ih =>
    rw [lineFeedSegments]
    split
    next hc => simp [ih h.tail, hc]
    next hc =>
      rw [count_cons_of_ne (Ne.symm fun h => hc h.symm), ← ih h.tail]
      cases hsegs : lineFeedSegments t with
      | nil =>
        -- The line would have no end.
        have hcount := ih h.tail
        rw [hsegs, length_nil] at hcount
        rcases h with h | h
        · cases h
        · have hmem := mem_of_getLast? h
          rcases mem_cons.1 hmem with rfl | hmem
          · exact absurd rfl hc
          · exact absurd (count_pos_iff.2 hmem) (by omega)
      | cons l ls => rfl

/-- The first segment of a text goes up to its first line feed, or to its end. -/
theorem exists_of_lineFeedSegments_cons {s : Text} {ss : List Text}
    (h : lineFeedSegments t = s :: ss) : ∃ u, '\n' ∉ u ∧
      (s = u ∧ t = u ∨ s = u ++ ['\n'] ∧ ∃ rest, t = u ++ '\n' :: rest) := by
  induction t generalizing s ss with
  | nil => cases h
  | cons c t ih =>
    rw [lineFeedSegments] at h
    split at h
    next hc =>
      subst hc
      obtain ⟨rfl, -⟩ := List.cons.inj h
      exact ⟨[], by simp, .inr ⟨rfl, t, rfl⟩⟩
    next hc =>
      have hne : '\n' ≠ c := fun h => hc h.symm
      split at h
      next hnil =>
        cases h
        cases t with
        | nil => exact ⟨[c], by simpa using hne, .inl ⟨rfl, rfl⟩⟩
        | cons d t =>
          rw [lineFeedSegments] at hnil
          split at hnil
          · cases hnil
          · split at hnil <;> cases hnil
      next l ls hsegs =>
        cases h
        obtain ⟨u, hu, hcases⟩ := ih hsegs
        refine ⟨c :: u, by simp [hne, hu], ?_⟩
        rcases hcases with ⟨rfl, rfl⟩ | ⟨rfl, rest, rfl⟩
        · exact .inl ⟨rfl, rfl⟩
        · exact .inr ⟨rfl, rest, rfl⟩

theorem dropLineEnd_of_notMem (h : '\n' ∉ u) : dropLineEnd u = u := by
  obtain ⟨e, heq, he⟩ := eq_dropLineEnd_append u
  unfold dropLineEnd
  split
  next r hr => exact absurd (mem_reverse.1 (hr ▸ mem_cons_self)) h
  next r _ hr => exact absurd (mem_reverse.1 (hr ▸ mem_cons_self)) h
  · rfl

/-- What is left of a line without its line feed: at most a carriage return is missing. -/
theorem dropLineEnd_concat (u : Text) :
    dropLineEnd (u ++ ['\n']) = u ∨ u = dropLineEnd (u ++ ['\n']) ++ ['\r'] := by
  unfold dropLineEnd
  rw [reverse_append, reverse_singleton, singleton_append]
  split
  next r hr =>
    right
    simpa using congrArg List.reverse (List.cons.inj hr).2
  next r _ hr =>
    left
    simpa using congrArg List.reverse (List.cons.inj hr).2.symm
  next _ hne => exact absurd rfl (hne u.reverse)

/-- The first line of a text, a carriage return at its end apart. -/
theorem exists_of_head?_lines (h : t.lines.head? = some l) : ∃ u, '\n' ∉ u ∧
    (t = u ∨ ∃ rest, t = u ++ '\n' :: rest) ∧ (l = u ∨ u = l ++ ['\r']) := by
  rw [lines, head?_map, Option.map_eq_some_iff] at h
  obtain ⟨s, hs, rfl⟩ := h
  obtain ⟨ss, hss⟩ := head?_eq_some_iff.1 hs
  obtain ⟨u, hu, ⟨rfl, rfl⟩ | ⟨rfl, rest, rfl⟩⟩ := exists_of_lineFeedSegments_cons hss
  · exact ⟨_, hu, .inl rfl, .inl (dropLineEnd_of_notMem hu)⟩
  · exact ⟨u, hu, .inr ⟨rest, rfl⟩, dropLineEnd_concat u⟩

end Text

theorem Position.line_advance (p : Position) (t : Text) :
    (p.advance t).line = p.line + t.count '\n' := by
  induction t generalizing p with
  | nil => rfl
  | cons c t ih =>
    rw [advance_cons, ih]
    unfold next
    split
    next hc =>
      rw [hc, count_cons_self]
      dsimp only
      omega
    next hc => rw [count_cons_of_ne (Ne.symm fun h => hc h.symm)]

/-! ### Texts cut at a line end -/

namespace Lexer

theorem pieces_of_reads (h : Reads p rest) : pieces (p.text ++ rest) = p :: pieces rest := by
  have hlexed : Lexed (p :: pieces rest) :=
    lexed_cons.2 ⟨by rwa [textOf_pieces], lexed_pieces rest⟩
  rwa [Lexed, textOf_cons, textOf_pieces] at hlexed

/-- A text is read as a piece and what follows it. -/
theorem exists_reads (h : t ≠ []) : ∃ p rest, Reads p rest ∧ t = p.text ++ rest := by
  cases hps : pieces t with
  | nil => exact absurd ((textOf_pieces t).symm.trans (by rw [hps, textOf_nil])) h
  | cons p ps =>
    have hlexed := lexed_pieces t
    rw [hps] at hlexed
    refine ⟨p, textOf ps, (lexed_cons.1 hlexed).1, ?_⟩
    rw [← textOf_pieces t, hps, textOf_cons]

/-- An identifier begins with a character that begins words. -/
theorem Reads.startsWord (h : Reads p rest) (hp : p.kind = .token .ident) :
    ∃ c t, p.text = c :: t ∧ isIdentifierStart c = true := by
  obtain ⟨c, t, -, hread⟩ := h
  have hname := firstPiece_ident (c := c) (t := t ++ rest) (by rw [hread]; exact hp)
  rw [hread] at hname
  obtain ⟨c, t, htext, hc, -⟩ := hname.spelled
  exact ⟨c, t, htext, hc⟩

/-- A word is read in front of a delimiter. -/
theorem Reads.of_word {c : Char} (h : Reads p rest) (htext : p.text = c :: t)
    (hc : isIdentifierStart c = true) (hd : isDelimiter d = true) (more : Text) :
    Reads p (d :: more) := by
  have hword : ∃ k, p.kind = .token k ∧ p.isClosed = true := by
    obtain ⟨c', t', htext', hread⟩ := h
    rw [htext] at htext'
    obtain ⟨rfl, rfl⟩ := List.cons.inj htext'
    rw [firstPiece_identifier hc] at hread
    have hp := congrArg Prod.fst hread
    dsimp only at hp
    have hspelled : Spelled p := hp ▸ .word hc fun d hd => mem_takeWhile_imp hd
    exact ⟨_, (congrArg Piece.kind hp).symm, hspelled.isClosed_eq⟩
  obtain ⟨k, hk, hclosed⟩ := hword
  exact h.of_delimiter hclosed hd (fun hline => by simp [Piece.isLine, hk] at hline) more

/-- A piece that does not end in front of a text ends behind its beginning. -/
theorem length_lt_of_not_reads {q : Piece} (hp : Reads p []) (hnot : ¬Reads p more)
    (hq : Reads q rest) (h : p.text ++ more = q.text ++ rest) :
    p.text.length < q.text.length := by
  by_contra hle
  obtain ⟨x, hx⟩ : q.text <+: p.text :=
    prefix_of_prefix_length_le (h ▸ prefix_append q.text rest)
      (prefix_append p.text more) (Nat.le_of_not_lt hle)
  rw [← hx, append_assoc] at h
  obtain rfl := append_cancel_left h
  -- Where it ends it would be read without the text as well, so nothing lies between.
  have hone : pieces p.text = [p] := by simpa using pieces_of_reads hp
  rw [← hx, pieces_of_reads hq.of_longer] at hone
  obtain ⟨rfl, hnil⟩ := List.cons.inj hone
  have hx : x = [] := by simpa [hnil] using (textOf_pieces x).symm
  exact hnot (by simpa [hx] using hq)

/-- A piece that takes in a delimiter behind it is no word, and neither is what is read with
the delimiter. -/
theorem exists_longer (hd : isDelimiter d = true) (hp : Reads p [])
    (hnot : ¬Reads p (d :: more)) : p.kind ≠ .token .ident ∧
      ∃ q rest, Reads q rest ∧ p.text ++ d :: more = q.text ++ rest ∧ q.kind ≠ .token .ident ∧
        p.text.length < q.text.length := by
  have hstart : ∀ c t, p.text = c :: t → isIdentifierStart c = false := by
    intro c t htext
    by_contra hc
    exact hnot (hp.of_word htext (by simpa using hc) hd more)
  obtain ⟨q, rest, hq, heq⟩ := exists_reads (t := p.text ++ d :: more) (by simp)
  refine ⟨fun hident => ?_, q, rest, hq, heq, fun hident => ?_,
    length_lt_of_not_reads hp hnot hq heq⟩
  · obtain ⟨c, t, htext, hc⟩ := hp.startsWord hident
    rw [hstart c t htext] at hc
    cases hc
  · obtain ⟨c, t, htext, hc⟩ := hq.startsWord hident
    obtain ⟨e, u, hu⟩ := exists_cons_of_ne_nil (reads_text_ne_nil hp)
    -- Both pieces begin with the same character.
    have hce : e = c := by
      rw [hu, htext] at heq
      exact (List.cons.inj heq).1
    rw [← hce, hstart e u hu] at hc
    cases hc

/-- The pieces that are identifiers. -/
def names (ps : List Piece) : List Text :=
  (ps.filter fun p => p.kind == .token .ident).map Piece.text

theorem names_append (ps qs : List Piece) : names (ps ++ qs) = names ps ++ names qs := by
  rw [names, filter_append, map_append, names, names]

theorem names_cons_of_ne (h : p.kind ≠ .token .ident) (ps : List Piece) :
    names (p :: ps) = names ps := by
  rw [names, filter_cons_of_neg (by simpa using h), names]

/-- **Cutting at a line end.**  In front of a line end, a text is read with the same
identifiers whether or not something follows; the line end itself lies in a piece that is no
identifier. -/
theorem exists_cut (l : Text) (hd : d = '\n' ∨ d = '\r') (more : Text) :
    ∃ a q b, pieces (l ++ d :: more) = a ++ q :: b ∧ textOf a <+: l ∧
      names a = names (pieces l) ∧ q.kind ≠ .token .ident ∧
      l.length < (textOf (a ++ [q])).length := by
  have hblank : isBlank d = true := by rcases hd with rfl | rfl <;> decide
  have hend : pieces (d :: more) = ⟨.blank, [d]⟩ :: pieces more :=
    pieces_of_reads (reads_blank hblank more)
  -- Piece by piece: only the last piece in front of the line end can be read differently.
  induction hn : l.length using Nat.strong_induction_on generalizing l with
  | _ n ih =>
    subst hn
    by_cases hl : l = []
    · subst hl
      exact ⟨[], _, _, hend, prefix_rfl, by simp, by simp, by simp⟩
    obtain ⟨p, rest, hread, rfl⟩ := exists_reads hl
    have hpos := length_pos_iff.2 (reads_text_ne_nil hread)
    by_cases hrest : rest = []
    · subst hrest
      have hone : pieces (p.text ++ []) = [p] := by rw [pieces_of_reads hread, pieces_nil]
      rw [append_nil] at hone ⊢
      by_cases hends : Reads p (d :: more)
      · have hmore : pieces (p.text ++ d :: more) = [p] ++ ⟨.blank, [d]⟩ :: pieces more := by
          rw [pieces_of_reads hends, hend]
          rfl
        exact ⟨[p], _, _, hmore, by simp, by rw [hone], by simp, by simp⟩
      · obtain ⟨hp, q, rest, hq, heq, hqkind, hlength⟩ :=
          exists_longer (by rw [isDelimiter, hblank, Bool.true_or]) hread hends
        refine ⟨[], q, pieces rest, ?_, List.nil_prefix, ?_, hqkind, by simpa using hlength⟩
        · rw [heq, pieces_of_reads hq, nil_append]
        · rw [hone, names_cons_of_ne hp]
    · have hreads : Reads p (rest ++ d :: more) := by
        refine hread.append hrest fun _ _ hpoint => ?_
        rcases hd with rfl | rfl <;> cases hpoint
      obtain ⟨a, q, b, hcut, hfront, hnames, hq, hlength⟩ :=
        ih rest.length (by rw [length_append]; omega) rest rfl
      refine ⟨p :: a, q, b, ?_, ?_, ?_, hq, ?_⟩
      · rw [append_assoc, pieces_of_reads hreads, hcut]
        rfl
      · exact (prefix_append_right_inj p.text).2 hfront
      · rw [pieces_of_reads hread, ← singleton_append, names_append, hnames,
          ← names_append]
        rfl
      · rw [cons_append, textOf_cons, length_append, length_append]
        omega

end Lexer

/-! ### The names on a line -/

/-- Whether a token is an identifier that begins on a line. -/
def Token.isNameOn (line : Nat) (k : Token) : Bool :=
  k.kind == .ident && k.start.line == line

/-- The identifiers of a text that begin on one of its lines. -/
def identifiersOn (t : Text) (line : Nat) : List Text :=
  ((tokenize t).filter (Token.isNameOn line)).map Token.lexeme

theorem mem_identifiersOn : n ∈ identifiersOn t line ↔
    ∃ k ∈ tokenize t, k.kind = .ident ∧ k.lexeme = n ∧ k.start.line = line := by
  simp only [identifiersOn, mem_map, mem_filter, Token.isNameOn, Bool.and_eq_true,
    beq_iff_eq]
  constructor
  · rintro ⟨k, ⟨hk, hkind, hline⟩, hn⟩
    exact ⟨k, hk, hkind, hn, hline⟩
  · rintro ⟨k, hk, hkind, hn, hline⟩
    exact ⟨k, ⟨hk, hkind, hline⟩, hn⟩

namespace Lexer

/-- Identifiers cover something, so it is enough to look at the tokens that do. -/
theorem filter_filter_isSpelled {f : Token → Bool} (hf : ∀ k, f k = true → k.kind = .ident)
    {ts : List Token} (hts : ts ⊆ tokenize t) :
    (ts.filter Token.isSpelled).filter f = ts.filter f := by
  rw [filter_filter]
  refine filter_congr fun k hk => ?_
  cases hfk : f k with
  | false => rfl
  | true =>
    have hspelled : k.isSpelled = true := by
      rcases tokenize_lexeme (hts hk) with ⟨-, hsemi | heof⟩ | ⟨c, r, hlexeme, -⟩
      · rw [hf k hfk] at hsemi
        cases hsemi
      · rw [hf k hfk] at heof
        cases heof
      · simp [Token.isSpelled, hlexeme]
    rw [hspelled]
    rfl

theorem filter_tokenize {f : Token → Bool}
    (hf : ∀ k, f k = true → k.kind = .ident) (t : Text) :
    (tokenize t).filter f = (spelled .start (pieces t)).filter f := by
  rw [← filter_isSpelled_tokenize, filter_filter_isSpelled hf (List.Subset.refl _)]

theorem identifiers_eq (t : Text) : identifiers t = names (pieces t) := by
  rw [identifiers, filter_tokenize fun k hk => by simpa using hk]
  generalize Position.start = here
  induction pieces t generalizing here with
  | nil => rfl
  | cons p ps ih =>
    rw [spelled, names]
    cases hk : p.kind with
    | token k =>
      by_cases hident : k = .ident
      · simp [hk, hident, ih, names]
      · simp [hk, hident, ih, names]
    | blank => simp [hk, ih, names]
    | comment => simp [hk, ih, names]

/-- The identifiers among pieces that begin on a line. -/
def namesOn (line : Nat) (here : Position) (ps : List Piece) : List Text :=
  ((spelled here ps).filter (Token.isNameOn line)).map Token.lexeme

theorem identifiersOn_eq_namesOn (t : Text) (line : Nat) :
    identifiersOn t line = namesOn line .start (pieces t) := by
  rw [identifiersOn, filter_tokenize fun k hk => by
    simpa using (Bool.and_eq_true_iff.1 hk).1, namesOn]

theorem namesOn_append (line : Nat) (here : Position) (ps qs : List Piece) :
    namesOn line here (ps ++ qs) =
      namesOn line here ps ++ namesOn line (here.advance (textOf ps)) qs := by
  rw [namesOn, spelled_append, filter_append, map_append, namesOn, namesOn]

/-- One piece has a name on a line if it is an identifier that begins there. -/
theorem namesOn_cons (line : Nat) (here : Position) (p : Piece) (ps : List Piece) :
    namesOn line here (p :: ps) =
      (if p.kind = .token .ident ∧ here.line = line then [p.text] else []) ++
        namesOn line (here.advance p.text) ps := by
  rw [namesOn, namesOn, spelled]
  cases hk : p.kind with
  | token k =>
    by_cases hident : k = .ident <;> by_cases hline : here.line = line <;>
      simp [Token.isNameOn, hident, hline]
  | blank => simp
  | comment => simp

theorem namesOn_eq_nil (h : line < here.line) : namesOn line here ps = [] := by
  induction ps generalizing here with
  | nil => rfl
  | cons p ps ih =>
    rw [namesOn_cons, if_neg (by omega), ih (by rw [Position.line_advance]; omega)]
    rfl

theorem namesOn_eq_names (h : '\n' ∉ textOf ps) : namesOn here.line here ps = names ps := by
  induction ps generalizing here with
  | nil => rfl
  | cons p ps ih =>
    rw [textOf_cons, mem_append, not_or] at h
    have hline : (here.advance p.text).line = here.line := by
      rw [Position.line_advance, count_eq_zero.2 h.1, Nat.add_zero]
    have htail := @ih (here.advance p.text) h.2
    rw [hline] at htail
    rw [namesOn_cons, htail]
    by_cases hp : p.kind = .token .ident
    · simp [hp, names]
    · simp [hp, names]

/-- On the line behind a text that ends a line, nothing of the text begins. -/
theorem namesOn_above (hps : ∀ p ∈ ps, p.text ≠ []) (h : (textOf ps).EndsLine) :
    namesOn (here.advance (textOf ps)).line here ps = [] := by
  induction ps generalizing here with
  | nil => rfl
  | cons p ps ih =>
    rw [textOf_cons] at h ⊢
    have hlater : here.line < (here.advance (p.text ++ textOf ps)).line := by
      rw [Position.line_advance]
      exact Nat.lt_add_of_pos_right (count_pos_iff.2 (h.mem (by simp [hps p])))
    rw [namesOn_cons, if_neg (by omega), Position.advance_append,
      ih (fun q hq => hps q (mem_cons_of_mem p hq)) h.right]
    rfl

end Lexer

/-- A line that begins between two pieces of its text, and not inside a comment or a
literal. -/
def BeginsOutside (t : Text) (line : Nat) : Prop :=
  ∃ above ∈ (pieces t).inits, (textOf above).EndsLine ∧ (textOf above).count '\n' + 1 = line

instance (t : Text) (line : Nat) : Decidable (BeginsOutside t line) :=
  inferInstanceAs (Decidable (∃ _ ∈ _, _))

/-- A carriage return at the end of a text changes none of its identifiers. -/
theorem identifiers_concat_return (l : Text) : identifiers (l ++ ['\r']) = identifiers l := by
  obtain ⟨a, q, b, hcut, hfront, hnames, hq, hlength⟩ :=
    exists_cut l (d := '\r') (.inr rfl) []
  -- Behind the piece with the carriage return nothing is left.
  have hb : b = [] := by
    have hlexed := lexed_pieces (l ++ ['\r'])
    have htext := congrArg List.length (textOf_pieces (l ++ ['\r']))
    rw [hcut, append_cons, textOf_append, length_append, length_append,
      length_singleton] at htext
    rw [hcut, append_cons] at hlexed
    exact hlexed.right.textOf_eq_nil (length_eq_zero_iff.1 (by omega))
  rw [identifiers_eq, identifiers_eq, hcut, hb, names_append, names_cons_of_ne hq, hnames]
  exact append_nil _

/-- The names on the first line of pieces are the identifiers of the line. -/
theorem namesOn_first (hps : Lexed ps) (hu : '\n' ∉ u)
    (h : textOf ps = u ∨ ∃ rest, textOf ps = u ++ '\n' :: rest) :
    namesOn here.line here ps = identifiers u := by
  rcases h with h | ⟨rest, h⟩
  · rw [namesOn_eq_names (h ▸ hu), identifiers_eq, ← h, hps]
  · obtain ⟨a, q, b, hcut, hfront, hnames, hq, hlength⟩ :=
      exists_cut u (d := '\n') (.inl rfl) rest
    rw [← h, hps] at hcut
    subst hcut
    have ha : '\n' ∉ textOf a := fun hmem => hu (hfront.subset hmem)
    have hline : (here.advance (textOf a)).line = here.line := by
      rw [Position.line_advance, count_eq_zero.2 ha, Nat.add_zero]
    -- The piece at the line end takes in the line feed, so all that follows stands further
    -- down.
    have hfeed : '\n' ∈ q.text := by
      have hpre : u ++ ['\n'] <+: textOf (a ++ [q]) := by
        have htext : textOf (a ++ [q]) ++ textOf b = u ++ ['\n'] ++ rest := by
          rw [← textOf_append, ← append_cons, h, append_cons]
        refine prefix_of_prefix_length_le (prefix_append _ rest)
          (htext ▸ prefix_append _ _) ?_
        rw [length_append]
        exact hlength
      have hmem : '\n' ∈ textOf (a ++ [q]) := hpre.subset (by simp)
      simpa [ha] using hmem
    rw [namesOn_append, namesOn_eq_names ha, namesOn_cons, if_neg fun hident => hq hident.1,
      namesOn_eq_nil, hnames, identifiers_eq]
    · simp
    · rw [Position.line_advance, hline]
      exact Nat.lt_add_of_pos_right (count_pos_iff.2 hfeed)

/-- A line that begins outside of comments and literals has the same identifiers when it is
read alone, also if it ends inside of one. -/
theorem BeginsOutside.identifiersOn_eq (h : BeginsOutside t line)
    (hl : lineOf? t line = some l) : identifiersOn t line = identifiers l := by
  obtain ⟨above, hmem, hends, rfl⟩ := h
  obtain ⟨below, hcut⟩ := (mem_inits _ _).1 hmem
  have hlexed : Lexed (above ++ below) := hcut ▸ lexed_pieces t
  have ht : t = textOf above ++ textOf below := by
    rw [← textOf_append, hcut, textOf_pieces]
  -- The line is the first one behind the pieces above it.
  have hfirst : (textOf below).lines.head? = some l := by
    rw [lineOf?, if_neg (by omega), Nat.add_sub_cancel, ht, Text.lines_append hends,
      getElem?_append_right (by rw [hends.length_lines]), hends.length_lines,
      Nat.sub_self] at hl
    rw [head?_eq_getElem?, hl]
  obtain ⟨u, hu, hbelow, hlu⟩ := Text.exists_of_head?_lines hfirst
  have hsame : identifiers u = identifiers l := by
    rcases hlu with rfl | rfl
    · rfl
    · exact identifiers_concat_return l
  have hhere : (Position.start.advance (textOf above)).line = (textOf above).count
      '\n' + 1 := by
    rw [Position.line_advance, Nat.add_comm]
    rfl
  rw [identifiersOn_eq_namesOn, ← hcut, namesOn_append, ← hhere,
    namesOn_above (fun p hp => hlexed.left.text_ne_nil hp) hends, nil_append,
    namesOn_first hlexed.right hu hbelow, hsame]

/-! ### What is removed -/

/-- The tracked names of a session that are no longer tracked in a later one. -/
def Session.removed (before after : Session) : List Text :=
  before.tracked.filter (· ∉ after.tracked)

theorem Session.mem_removed_evict {names : List Text} :
    n ∈ s.removed (s.evict names) ↔ n ∈ s.tracked ∧ n ∈ names := by
  simp only [Session.removed, mem_filter, decide_eq_true_eq, Session.mem_tracked]
  refine and_congr_right fun htracked => ⟨fun h => ?_, fun h => ?_⟩
  · by_contra hn
    refine h (htracked.imp (fun hmem => mem_filter.2 ⟨hmem, by simpa using hn⟩)
      fun hmem => ?_)
    obtain ⟨p, hp, rfl⟩ := mem_map.1 hmem
    exact mem_map.2 ⟨p, mem_filter.2 ⟨hp, by simpa using hn⟩, rfl⟩
  · have hforgot := forgot_evict (s := s) (.inl h)
    exact not_or.2 ⟨hforgot.names, hforgot.literals⟩

/-- Forgetting depends only on which of the tracked names are given. -/
theorem Session.evict_congr {names others : List Text}
    (h : ∀ n ∈ s.tracked, n ∈ names ↔ n ∈ others) : s.evict names = s.evict others := by
  unfold Session.evict
  congr 1
  · refine filter_congr fun n hn => ?_
    exact decide_eq_decide.2 (not_congr (h n (Session.mem_tracked.2 (.inl hn))))
  · refine filter_congr fun p hp => ?_
    have htracked := Session.mem_tracked.2 (.inr (mem_map_of_mem hp))
    exact decide_eq_decide.2 (not_congr (h p.1 htracked))

/-- The names on a line, in whichever way the line is read. -/
theorem lineOf?_names (hl : lineOf? t line = some l) :
    (if BeginsOutside t line then identifiersOn t line
      else (lineOf? t line).elim [] identifiers) = identifiers l := by
  split
  next houtside => exact houtside.identifiersOn_eq hl
  · rw [hl, Option.elim_some]

/-- **What a failed run removes.**  If a report that is not benign points at lines of the
program and nowhere else, `recover` evicts the tracked names on these lines and changes
nothing else.  On a line that `BeginsOutside` of comments and literals these are the
`identifiersOn` it; a line that begins inside of one is read as if it did not. -/
theorem recover_removes_iff {files : FileTree} {session : Session} {program : ProgramFile}
    {failure : RunFailure} (hbenign : failure.benign = false)
    (hinside : ∀ d ∈ diagnostics failure.text,
      Path.fileName? d.location = Path.fileName? program.path ∧
        (lineOf? program.text d.line).isSome = true) :
    let after := (recover files session program failure).1
    after = session.evict (session.removed after) ∧
      (∀ n, n ∈ session.removed after ↔ n ∈ session.tracked ∧
        ∃ d ∈ diagnostics failure.text,
          n ∈ if BeginsOutside program.text d.line then identifiersOn program.text d.line
            else (lineOf? program.text d.line).elim [] identifiers) ∧
      ((∀ d ∈ diagnostics failure.text, BeginsOutside program.text d.line) →
        ∀ n, n ∈ session.removed after ↔ n ∈ session.tracked ∧
          ∃ d ∈ diagnostics failure.text, ∃ k ∈ tokenize program.text,
            k.kind = .ident ∧ k.lexeme = n ∧ k.start.line = d.line) := by
  intro after
  have hafter : after =
      session.evict (implicatedNames files program session.tracked failure.text) := by
    simp only [after, recover, hbenign, Bool.false_eq_true, if_false]
  have hremoved : ∀ n, n ∈ session.removed after ↔ n ∈ session.tracked ∧
      n ∈ implicatedNames files program session.tracked failure.text := by
    intro n
    rw [hafter, Session.mem_removed_evict]
  have hiff : ∀ n, n ∈ session.removed after ↔ n ∈ session.tracked ∧
      ∃ d ∈ diagnostics failure.text,
        n ∈ if BeginsOutside program.text d.line then identifiersOn program.text d.line
          else (lineOf? program.text d.line).elim [] identifiers := by
    intro n
    rw [hremoved, mem_implicatedNames, ← and_assoc, and_self]
    refine and_congr_right fun _ => exists_congr fun d => and_congr_right fun hd => ?_
    obtain ⟨hfile, hline⟩ := hinside d hd
    obtain ⟨l, hl⟩ := Option.isSome_iff_exists.1 hline
    rw [sourceLine?_own hfile hl, lineOf?_names hl]
    simp
  refine ⟨?_, hiff, fun houtside n => ?_⟩
  · rw [hafter]
    refine Session.evict_congr fun n hn => ?_
    rw [Session.mem_removed_evict, and_iff_right hn]
  · rw [hiff]
    refine and_congr_right fun _ => exists_congr fun d => and_congr_right fun hd => ?_
    rw [if_pos (houtside d hd), mem_identifiersOn]

/-! ### A literal over two lines -/

/-- A program with a raw literal that goes on over the end of its fourth line. -/
def quotingProgram : Text :=
  "package main\n\nfunc main() \x7b\n\ts := \x60a\nold\x60 + y\n\tuse(s, y)\n\x7d\n"

/-- A session with a name that the literal quotes and two that the program uses. -/
def quotingSession : Session := ⟨["old", "s", "y"], [], []⟩

/-- Where the literal begins, and behind it, names are found where they are code. -/
theorem recover_removes_code :
    let failure : RunFailure := ⟨"./main.go:4:2: bad\n./main.go:6:5: bad", false⟩
    let after := (recover .empty quotingSession ⟨quotingProgram, "/w/main.go"⟩ failure).1
    quotingSession.removed after = ["s", "y"] ∧
      ∀ n, n ∈ quotingSession.removed after ↔ n ∈ quotingSession.tracked ∧
        ∃ d ∈ diagnostics failure.text, ∃ k ∈ tokenize quotingProgram,
          k.kind = .ident ∧ k.lexeme = n ∧ k.start.line = d.line :=
  ⟨by decide +kernel, (recover_removes_iff rfl (by decide +kernel)).2.2 (by decide +kernel)⟩

/-- On the line where the literal ends, its last word is taken for a name, and the name behind
it is missed. -/
theorem not_removes_code_everywhere :
    ¬ ∀ (files : FileTree) (session : Session) (program : ProgramFile) (failure : RunFailure),
      failure.benign = false →
      (∀ d ∈ diagnostics failure.text, Path.fileName? d.location =
        Path.fileName? program.path ∧
        (lineOf? program.text d.line).isSome = true) →
      ∀ n, n ∈ session.removed (recover files session program failure).1 ↔
        n ∈ session.tracked ∧
        ∃ d ∈ diagnostics failure.text, ∃ k ∈ tokenize program.text,
          k.kind = .ident ∧ k.lexeme = n ∧ k.start.line = d.line := by
  intro h
  have hfacts :
    quotingSession.removed (recover .empty quotingSession ⟨quotingProgram, "/w/main.go"⟩
        ⟨"./main.go:5:8: bad", false⟩).1 = ["old"] ∧ identifiersOn quotingProgram 5 = ["y"] ∧
      ∀ d ∈ diagnostics "./main.go:5:8: bad", d.line = 5 := by
    decide +kernel
  obtain ⟨hremoved, hon, hline⟩ := hfacts
  obtain ⟨-, d, hd, hk⟩ := (h .empty quotingSession ⟨quotingProgram, "/w/main.go"⟩
    ⟨"./main.go:5:8: bad", false⟩ rfl (by decide +kernel) "old").1
      (by rw [hremoved]; exact mem_singleton_self _)
  rw [← mem_identifiersOn, hline d hd, hon] at hk
  exact absurd hk (by decide)

end Notebook
