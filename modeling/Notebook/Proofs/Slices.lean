import Notebook.Proofs.Tiling

/-!
# Tokens of a slice

Several stages cut a part out of a text, from the start of one token to the end of another,
and read it again.  What was read there before depended on what stood in front of the part and
behind it, if only through a memory of one bit and a few characters of look-ahead.  A part
that begins and ends with a token does not show it: its tokens come back one by one, moved to
the beginning of the text.

## Main statements

* `Lexer.exists_of_getElem?_scan`: a spelled token by its number, and the piece it was made
  from
* `Lexer.exists_slice`: the pieces of tokens from a spelled one to a spelled one
* `exists_text_of_extent`: the text of any run of tokens
* `tokenize_slice`: the tokens of a slice are a slice of the tokens
-/

namespace Notebook

open Lexer List

variable {pending : Bool} {ps : List Piece} {ts xs ys : List Token} {p : Piece}
  {here : Position} {span : Span} {t : Text} {a : Token}

namespace Lexer

/-- A spelled token is all that its piece makes. -/
theorem emitted_eq_of_isSpelled (h : a ∈ p.emitted here pending) (ha : a.isSpelled = true) :
    p.emitted here pending = [a] ∧ p.kind = .token a.kind ∧ p.text = a.lexeme ∧
      a.start = here := by
  have himplied : ∀ {place : Position} {b : Bool},
      a ∉ if b then [Token.impliedSemi place] else [] := by
    intro place b hmem
    cases b with
    | false => cases hmem
    | true =>
      rw [mem_singleton.1 hmem] at ha
      cases ha
  unfold Piece.emitted at h ⊢
  cases hk : p.kind with
  | token k =>
    rw [hk] at h
    obtain rfl := mem_singleton.1 h
    exact ⟨rfl, rfl, rfl, rfl⟩
  | blank =>
    rw [hk] at h
    exact absurd h himplied
  | comment =>
    rw [hk] at h
    exact absurd h himplied

/-- A spelled token of pieces, by its number: the piece that it was made from, and those in
front, which made the tokens in front. -/
theorem exists_of_getElem?_scan {i : Nat} (h : (scan here pending ps)[i]? = some a)
    (ha : a.isSpelled = true) :
    ∃ front p back, ps = front ++ p :: back ∧ p.kind = .token a.kind ∧ p.text = a.lexeme ∧
      a.start = here.advance (textOf front) ∧ i = (scan here pending front).length := by
  induction ps generalizing here pending i with
  | nil => cases h
  | cons p ps ih =>
    rw [scan_cons] at h
    by_cases hi : i < (p.emitted here pending).length
    · rw [getElem?_append_left hi] at h
      obtain ⟨hemitted, hkind, htext, hstart⟩ :=
        emitted_eq_of_isSpelled (mem_of_getElem? h) ha
      refine ⟨[], p, ps, rfl, hkind, htext, hstart, ?_⟩
      rw [hemitted, length_singleton] at hi
      exact Nat.lt_one_iff.1 hi
    · rw [getElem?_append_right (Nat.le_of_not_lt hi)] at h
      obtain ⟨front, q, back, rfl, hkind, htext, hstart, hlength⟩ := ih h
      refine ⟨p :: front, q, back, rfl, hkind, htext, ?_, ?_⟩
      · rw [hstart, textOf_cons, Position.advance_append]
      · rw [scan_cons, length_append, ← hlength]
        omega

/-- Where a token begins it does not matter whether a semicolon was due. -/
theorem scan_of_token {k : TokenKind} (h : p.kind = .token k) (here : Position)
    (pending : Bool) (ps : List Piece) :
    scan here pending (p :: ps) = scan here false (p :: ps) := by
  rw [scan_cons, scan_cons, Piece.emitted_of_kind h, Piece.emitted_of_kind h]
  unfold Piece.pendingBehind
  rw [h]

theorem map_move_endTokens (here : Position) (t : Text) (pending : Bool) :
    (endTokens (Position.start.advance t) pending).map (Token.move here) =
      endTokens (here.advance t) pending := by
  have hmove : here.move (Position.start.advance t) = here.advance t := by
    rw [Position.move_advance here Position.counts_start, Position.move_start]
  cases pending <;> simp [endTokens, Token.move, Token.impliedSemi, Token.eof, hmove]

/-- The tokens of pieces that begin and end with a token, read on their own. -/
theorem tokenize_textOf {q : Piece} {k l : TokenKind} (h : Lexed ps) (hp : ps.head? = some p)
    (hk : p.kind = .token k) (hq : ps.getLast? = some q) (hl : q.kind = .token l)
    (here : Position) (pending : Bool) :
    (tokenize (textOf ps)).map (Token.move here) =
      scan here pending ps ++ endTokens (here.advance (textOf ps)) l.endsStatement := by
  obtain ⟨front, rfl⟩ := getLast?_eq_some_iff.1 hq
  have hpending : pendingAfter false (front ++ [q]) = l.endsStatement := by
    rw [pendingAfter_append, pendingAfter_cons, pendingAfter_nil]
    unfold Piece.pendingBehind
    rw [hl]
  have hscan : scan here pending (front ++ [q]) = scan here false (front ++ [q]) := by
    obtain ⟨rest, hrest⟩ := head?_eq_some_iff.1 hp
    rw [hrest]
    exact scan_of_token hk here pending rest
  rw [tokenize_eq, h, hpending, map_append, ← scan_eq_map here,
    map_move_endTokens, hscan]

/-- Tokens from a spelled one to a spelled one are made by pieces from a token to a token. -/
theorem exists_slice {us : List Token} {b : Token} (h : scan here pending ps = xs ++ us ++ ys)
    (ha : us.head? = some a) (hb : us.getLast? = some b) (haspelled : a.isSpelled = true)
    (hbspelled : b.isSpelled = true) :
    ∃ front mid back, ps = front ++ mid ++ back ∧ a.start = here.advance (textOf front) ∧
      scan a.start (pendingAfter pending front) mid = us ∧
      (∃ p, mid.head? = some p ∧ p.kind = .token a.kind) ∧
      (∃ q, mid.getLast? = some q ∧ q.kind = .token b.kind) ∧
      b.stop = a.pos + (textOf mid).byteSize := by
  obtain ⟨vs, hvs⟩ := getLast?_eq_some_iff.1 hb
  have hfirst : (scan here pending ps)[xs.length]? = some a := by
    rw [h, append_assoc, getElem?_append_right (Nat.le_refl _), Nat.sub_self,
      ← head?_eq_getElem?, head?_append, ha]
    rfl
  obtain ⟨front, p, back, hps, hpkind, -, hastart, hlength⟩ :=
    exists_of_getElem?_scan hfirst haspelled
  -- The later token is looked for among the pieces from the first one on.
  rw [hps, scan_append, ← hastart, append_assoc] at h
  obtain ⟨-, hrest⟩ := append_inj h hlength.symm
  have hlast :
      (scan a.start (pendingAfter pending front) (p :: back))[vs.length]? = some b := by
    rw [hrest, hvs]
    simp
  obtain ⟨mid, q, rest, hback, hqkind, hqtext, hbstart, hlength'⟩ :=
    exists_of_getElem?_scan hlast hbspelled
  refine ⟨front, mid ++ [q], rest, by rw [hps, hback]; simp, hastart, ?_, ⟨p, ?_, hpkind⟩,
    ⟨q, getLast?_concat .., hqkind⟩, ?_⟩
  · have hsplit : scan a.start (pendingAfter pending front) (mid ++ [q]) ++
        scan (a.start.advance (textOf (mid ++ [q])))
          (pendingAfter (pendingAfter pending front) (mid ++ [q])) rest = us ++ ys := by
      rw [← hrest, hback, ← scan_append]
      simp
    refine (append_inj hsplit ?_).1
    rw [scan_append, length_append, ← hlength', scan_cons,
      Piece.emitted_of_kind hqkind, hvs]
    simp
  · have hhead := congrArg List.head? hback
    cases mid with
    | nil => simpa using hhead.symm
    | cons r mid => simpa using hhead.symm
  · rw [Token.stop, Token.size, Token.pos, hbstart, Position.offset_advance,
      ← Token.pos, ← hqtext]
    simp [Nat.add_assoc]

/-- A place where a token `a` stands in pieces that start at `here`: the pieces in front,
which made `xs`, the piece of the token if it is spelled, and those behind, which make
`ys`. -/
structure CutAt (here : Position) (ps : List Piece) (xs : List Token) (a : Token)
    (ys : List Token) (front mid back : List Piece) : Prop where
  pieces : ps = front ++ (mid ++ back)
  pos : a.pos = here.offset + (textOf front).byteSize
  stop : a.stop = a.pos + (textOf mid).byteSize
  before : xs.filter Token.isSpelled = spelled here front
  made : [a].filter Token.isSpelled = spelled (here.advance (textOf front)) mid
  behind : ∃ pending due, a :: ys = scan (here.advance (textOf front)) pending
    (mid ++ back) ++
    endTokens ((here.advance (textOf front)).advance (textOf (mid ++ back))) due

theorem CutAt.cons {front mid back : List Piece} (hp : p.text ≠ [])
    (h : CutAt (here.advance p.text) ps xs a ys front mid back) (pending : Bool) :
    CutAt here (p :: ps) (p.emitted here pending ++ xs) a ys (p :: front) mid back where
  pieces := by rw [h.pieces, cons_append]
  pos := by
    rw [h.pos, textOf_cons, Position.offset_advance]
    simp [Nat.add_assoc]
  stop := h.stop
  before := by rw [filter_append, h.before, filter_isSpelled_emitted hp]
  made := by rw [h.made, textOf_cons, Position.advance_append]
  behind := by
    rw [textOf_cons, Position.advance_append]
    exact h.behind

/-- Each token of pieces, those at the end of the text included, stands at a place of its
own. -/
theorem exists_cutAt (hps : ∀ p ∈ ps, p.text ≠ []) {due : Bool}
    (h : xs ++ a :: ys = scan here pending ps ++ endTokens (here.advance (textOf ps)) due) :
    ∃ front mid back, CutAt here ps xs a ys front mid back := by
  induction ps generalizing here pending xs with
  | nil =>
    -- The tokens at the end of a text cover nothing.
    refine ⟨[], [], [], ?_⟩
    cases due with
    | false =>
      rcases append_eq_cons_iff.1 h with ⟨rfl, hys⟩ | ⟨xs', rfl, hnil⟩
      · cases hys
        exact ⟨rfl, rfl, rfl, rfl, rfl, false, false, rfl⟩
      · simp at hnil
    | true =>
      rcases append_eq_cons_iff.1 h with ⟨rfl, hys⟩ | ⟨xs', rfl, hxs⟩
      · cases hys
        exact ⟨rfl, rfl, rfl, rfl, rfl, false, true, rfl⟩
      · rcases append_eq_cons_iff.1 hxs.symm with ⟨rfl, hys⟩ | ⟨xs'', rfl, hnil⟩
        · cases hys
          exact ⟨rfl, rfl, rfl, rfl, rfl, false, false, rfl⟩
        · simp at hnil
  | cons p ps ih =>
    obtain ⟨hp, hpss⟩ := forall_mem_cons.1 hps
    have hall := h
    rw [scan_cons, textOf_cons, Position.advance_append, append_assoc] at h
    -- Tokens behind those of the first piece are tokens of the others.
    have hbehind : ∀ xs', p.emitted here pending ++ xs' = xs →
        ∃ front mid back, CutAt here (p :: ps) xs a ys front mid back := by
      rintro xs' rfl
      rw [append_assoc] at h
      obtain ⟨front, mid, back, hcut⟩ := ih hpss (append_cancel_left h)
      exact ⟨p :: front, mid, back, hcut.cons hp pending⟩
    have hfirst : ∀ {t}, p.emitted here pending = [t] → xs ≠ [] →
        ∃ xs', p.emitted here pending ++ xs' = xs := by
      intro t ht hne
      rw [ht] at h ⊢
      rcases append_eq_cons_iff.1 h with ⟨rfl, -⟩ | ⟨xs', rfl, -⟩
      · exact absurd rfl hne
      · exact ⟨xs', rfl⟩
    rcases p.emitted_cases here pending with
      ⟨k, hk⟩ | ⟨-, t, ht, himplied, hstop⟩ | ⟨-, hnone⟩
    · have ht := Piece.emitted_of_kind hk here pending
      by_cases hxs : xs = []
      · subst hxs
        rw [ht] at h
        obtain ⟨rfl, -⟩ := List.cons.inj h
        refine ⟨[], [p], ps, rfl, rfl, by simp [Token.stop, Token.size], rfl, ?_,
          pending, due, hall⟩
        rw [spelled_token hk, spelled, filter_singleton, Token.isSpelled_iff.2 hp]
        rfl
      · obtain ⟨xs', hxs'⟩ := hfirst ht hxs
        exact hbehind xs' hxs'
    · by_cases hxs : xs = []
      · subst hxs
        rw [ht] at h
        obtain ⟨rfl, -⟩ := List.cons.inj h
        have hlexeme : a.lexeme = [] := by simpa using (Bool.and_eq_true_iff.1 himplied).2
        have hpos : a.stop = a.pos := by simp [Token.stop, Token.size, hlexeme]
        refine ⟨[], [], p :: ps, rfl, hpos ▸ hstop, hpos, rfl, ?_, pending, due, hall⟩
        simp [Token.isSpelled, hlexeme, spelled]
      · obtain ⟨xs', hxs'⟩ := hfirst ht hxs
        exact hbehind xs' hxs'
    · exact hbehind xs (by rw [hnone, nil_append])

end Lexer

/-- A spelled token of a text, by its number, is among those of its pieces. -/
theorem getElem?_scan_of_tokenize {i : Nat} (h : (tokenize t)[i]? = some a)
    (ha : a.isSpelled = true) : (scan .start false (Lexer.pieces t))[i]? = some a := by
  rw [tokenize_eq] at h
  by_cases hi : i < (scan .start false (Lexer.pieces t)).length
  · rwa [getElem?_append_left hi] at h
  · rw [getElem?_append_right (Nat.le_of_not_lt hi)] at h
    have hmem : a ∈ (endTokens (Position.start.advance t)
        (pendingAfter false (Lexer.pieces t))).filter Token.isSpelled :=
      mem_filter.2 ⟨mem_of_getElem? h, ha⟩
    rw [filter_isSpelled_endTokens] at hmem
    cases hmem

/-- **The text of a run of tokens.**  From the start of its first token to the end of its
last one a text consists of whole pieces, and the spelled tokens among them are those of the
run. -/
theorem exists_pieces_of_extent (h : ts <:+: tokenize t)
    (hspan : Source.extent ts = some span) :
    ∃ mid here, Lexed mid ∧ span.slice t = .ok (textOf mid) ∧
      ts.filter Token.isSpelled = spelled here mid := by
  obtain ⟨xs, ys, h⟩ := h
  simp only [Source.extent, Option.bind_eq_bind, Option.bind_eq_some_iff] at hspan
  obtain ⟨a, ha, b, hb, hspan⟩ := hspan
  obtain ⟨us, rfl⟩ := head?_eq_some_iff.1 ha
  obtain ⟨vs, hvs⟩ := getLast?_eq_some_iff.1 hb
  have htexts : ∀ p ∈ Lexer.pieces t, p.text ≠ [] :=
    fun p hp => (lexed_pieces t).text_ne_nil hp
  have hfirst : xs ++ a :: (us ++ ys) = scan .start false (Lexer.pieces t) ++
      endTokens (Position.start.advance (textOf (Lexer.pieces t)))
        (pendingAfter false (Lexer.pieces t)) := by
    rw [textOf_pieces, ← tokenize_eq, ← h, append_assoc, cons_append]
  obtain ⟨front, _, _, hcut⟩ := exists_cutAt htexts hfirst
  -- The last token is looked for among the pieces from the first one on.
  obtain ⟨pending, due, hbehind⟩ := hcut.behind
  rw [← cons_append, hvs, append_assoc, singleton_append] at hbehind
  have hpieces := hcut.pieces
  obtain ⟨mid, last, back, hcut'⟩ := exists_cutAt
    (fun p hp => htexts p (hpieces ▸ mem_append_right front hp)) hbehind
  rw [hcut'.pieces, ← append_assoc mid, ← append_assoc front] at hpieces
  refine ⟨mid ++ last, Position.start.advance (textOf front), ?_, ?_, ?_⟩
  · have hlexed := lexed_pieces t
    rw [hpieces] at hlexed
    exact hlexed.left.right
  · have htext : t = textOf front ++ textOf (mid ++ last) ++ textOf back := by
      rw [← textOf_append, ← textOf_append, ← hpieces, textOf_pieces]
    have hpos : a.pos = (textOf front).byteSize := by
      rw [hcut.pos, Position.start, Nat.zero_add]
    have hstop : b.stop = a.pos + (textOf (mid ++ last)).byteSize := by
      rw [hcut'.stop, hcut'.pos, Position.offset_advance, hpos, Position.start, textOf_append]
      simp [Nat.add_assoc]
    rw [← Option.some.inj hspan, Span.slice,
      Span.cut_eq_ok_iff.2 ⟨htext, hpos, by rw [hstop, hpos]⟩]
    rfl
  · rw [hvs, filter_append, hcut'.before, hcut'.made, spelled_append]

theorem spelled_eq_map (h : ∀ p ∈ ps, p.text ≠ []) (here : Position) :
    spelled here ps = (spelled .start ps).map (Token.move here) := by
  rw [← filter_isSpelled_scan h here false, scan_eq_map, filter_map,
    ← filter_isSpelled_scan h .start false]
  rfl

/-- The spelled tokens of a run are those of its text, in another place. -/
theorem exists_text_of_extent (h : ts <:+: tokenize t)
    (hspan : Source.extent ts = some span) :
    ∃ u here, span.slice t = .ok u ∧ ts.filter Token.isSpelled =
      ((tokenize u).filter Token.isSpelled).map (Token.move here) := by
  obtain ⟨mid, here, hlexed, hslice, hmid⟩ := exists_pieces_of_extent h hspan
  refine ⟨textOf mid, here, hslice, ?_⟩
  rw [hmid, spelled_eq_map fun p hp => hlexed.text_ne_nil hp,
    filter_isSpelled_tokenize, hlexed]

/-- The tokens that are no implied semicolon and not the end are the spelled ones. -/
theorem filter_written_tokenize (t : Text) :
    (tokenize t).filter (fun k => k.kind != .eof && !k.isImpliedSemi) =
      (tokenize t).filter Token.isSpelled := by
  refine filter_congr fun k hk => ?_
  cases hspelled : k.isSpelled with
  | true =>
    have hmem : k ∈ (tokenize t).filter Token.isSpelled := mem_filter.2 ⟨hk, hspelled⟩
    rw [filter_isSpelled_tokenize] at hmem
    obtain ⟨front, p, back, hpieces, hkind, -⟩ := exists_of_mem_spelled hmem
    have hne : k.kind ≠ .eof := by
      intro heof
      refine (lexed_pieces t).kind_ne (p := p) ?_ (heof ▸ hkind)
      rw [hpieces]
      simp
    have hlexeme := Token.isSpelled_iff.1 hspelled
    simp [Token.isImpliedSemi, hne, hlexeme]
  | false =>
    have hnil : k.lexeme = [] := by
      by_contra hne
      rw [Token.isSpelled_iff.2 hne] at hspelled
      cases hspelled
    rcases tokenize_lexeme hk with ⟨-, hsemi | heof⟩ | ⟨c, r, hcons, -⟩
    · simp [Token.isImpliedSemi, hsemi, hnil]
    · simp [heof]
    · rw [hnil] at hcons
      cases hcons

/-- **The tokens of a slice are a slice of the tokens.**  From the start of one spelled token
to the end of the same or a later one, `tokenize` reads a text as it did before, moved by
`Token.move`; behind them stand the `endTokens`, with a semicolon if the last token can end a
statement. -/
theorem tokenize_slice {t : Text} {i j : Nat} {a b : Token} (hij : i ≤ j)
    (ha : (tokenize t)[i]? = some a) (hb : (tokenize t)[j]? = some b)
    (haspelled : a.isSpelled = true) (hbspelled : b.isSpelled = true) :
    ∃ u, Span.slice ⟨a.pos, b.stop⟩ t = .ok u ∧
      (tokenize u).map (Token.move a.start) = ((tokenize t).drop i).take (j + 1 - i) ++
        endTokens (a.start.advance u) b.kind.endsStatement := by
  have hscan := getElem?_scan_of_tokenize ha haspelled
  have hscan' := getElem?_scan_of_tokenize hb hbspelled
  obtain ⟨ts, hts⟩ : ∃ ts, ts = scan .start false (Lexer.pieces t) := ⟨_, rfl⟩
  rw [← hts] at hscan hscan'
  have hj : j < ts.length := (List.getElem?_eq_some_iff.1 hscan').1
  have hslice : ts.take i ++ (ts.drop i).take (j + 1 - i) ++ ts.drop (j + 1) = ts := by
    have hdrop : ts.drop (j + 1) = (ts.drop i).drop (j + 1 - i) := by
      rw [drop_drop]
      congr 1
      omega
    rw [hdrop, append_assoc, take_append_drop, take_append_drop]
  have hhead : ((ts.drop i).take (j + 1 - i)).head? = some a := by
    rw [head?_take, if_neg (by omega), head?_drop, hscan]
  have hlast : ((ts.drop i).take (j + 1 - i)).getLast? = some b := by
    rw [getLast?_take, if_neg (by omega), getElem?_drop,
      show i + (j + 1 - i - 1) = j by omega, hscan', Option.some_or]
  obtain ⟨front, mid, back, hpieces, hastart, hmade, ⟨p, hp, hpkind⟩,
    ⟨q, hq, hqkind⟩, hstop⟩ :=
    exists_slice (hts.symm.trans hslice.symm) hhead hlast haspelled hbspelled
  have hlexed : Lexed mid := by
    have h := lexed_pieces t
    rw [hpieces] at h
    exact h.left.right
  have htext : t = textOf front ++ textOf mid ++ textOf back := by
    rw [← textOf_append, ← textOf_append, ← hpieces, textOf_pieces]
  have hpos : a.pos = (textOf front).byteSize := by
    rw [Token.pos, hastart, Position.offset_advance, Position.start, Nat.zero_add]
  refine ⟨textOf mid, ?_, ?_⟩
  · rw [Span.slice, Span.cut_eq_ok_iff.2 ⟨htext, hpos, by rw [hstop, hpos]⟩]
    rfl
  · rw [tokenize_textOf hlexed hp hpkind hq hqkind a.start (pendingAfter false front), hmade]
    congr 1
    rw [tokenize_eq, ← hts, drop_append_of_le_length (by omega),
      take_append_of_le_length (by rw [length_drop]; omega)]

/-- From a raw string, over a comment that ends a line, to a number: the brackets around are
gone, and the semicolon that the comment implies is still there. -/
theorem tokenize_slice_lines :
    let t : Text := "(\x60a\nb\x60, x) /* y\n */ ; é ... 0x1p-2.5\n\"open"
    ∃ a b u, (tokenize t)[1]? = some a ∧ (tokenize t)[9]? = some b ∧
      Span.slice ⟨a.pos, b.stop⟩ t = .ok u ∧
      (tokenize u).map (Token.move a.start) = ((tokenize t).drop 1).take 9 ++
        endTokens (a.start.advance u) b.kind.endsStatement := by
  intro t
  have ha : (tokenize t)[1]? = some ⟨.rawStr, "\x60a\nb\x60", ⟨1, 1, 2⟩⟩ := by decide +kernel
  have hb : (tokenize t)[9]? = some ⟨.float, "0x1p-2.5", ⟨29, 3, 13⟩⟩ := by decide +kernel
  obtain ⟨u, hslice, htokens⟩ := tokenize_slice (by decide) ha hb rfl rfl
  exact ⟨_, _, u, ha, hb, hslice, htokens⟩

end Notebook
