import Notebook.Proofs.RowCut
import Notebook.Proofs.Slices

/-!
# What stands around the entry function

The pieces of a program with an entry point fall into three: those up to the brace that opens
the entry function, its body, and those from the bracket that closes it.  The first and the
last part find the entry function by themselves.  So another body with balanced brackets can
be put between them, and the entry point and the statements of the new program are known.

## Main statements

* `exists_enclosure`: the three parts of a program with an entry point
* `entryPoint_enclosed`, `bodyStatements_enclosed`: the entry point and the statements of
  pieces around a body
-/

namespace Notebook

open Lexer List

variable {due pending : Bool} {ps : List Piece} {rows : List Row} {ts us : List Token}
  {here place : Position} {s : Source} {program : Text} {t : Token}

namespace Source

/-! ### The search for the entry function -/

/-- The beginning of an entry function is seen in its first five tokens. -/
theorem startsEntry_append_of_length (h : 5 ≤ ts.length) :
    startsEntry (ts ++ us) = startsEntry ts := by
  obtain ⟨a, ts, rfl⟩ := exists_cons_of_length_pos (show 0 < ts.length by omega)
  obtain ⟨b, ts, rfl⟩ := exists_cons_of_length_pos (l := ts) (by simp at h; omega)
  obtain ⟨c, ts, rfl⟩ := exists_cons_of_length_pos (l := ts) (by simp at h; omega)
  obtain ⟨d, ts, rfl⟩ := exists_cons_of_length_pos (l := ts) (by simp at h; omega)
  obtain ⟨e, ts, rfl⟩ := exists_cons_of_length_pos (l := ts) (by simp at h; omega)
  rfl

/-- Whether an entry function begins with a token is seen in the tokens up to its brace. -/
theorem entryIndex_append_iff {depth i : Nat} (h : i + 5 ≤ ts.length) :
    entryIndex depth (ts ++ us) = some i ↔ entryIndex depth ts = some i := by
  induction ts generalizing depth i with
  | nil => simp at h
  | cons t ts ih =>
    have hstart : startsEntry (t :: ts ++ us) = startsEntry (t :: ts) :=
      startsEntry_append_of_length (by omega)
    rw [cons_append, entryIndex, entryIndex, ← cons_append, hstart]
    split
    · rfl
    · cases i with
      | zero => simp
      | succ i =>
        have hi : i + 5 ≤ ts.length := by
          rw [length_cons] at h
          omega
        simp only [Option.map_eq_some_iff, Nat.add_right_cancel_iff, exists_eq_right, ih hi]

end Source

/-! ### Pieces around a body -/

/-- Pieces up to the brace of the entry function, and nothing behind it. -/
structure IsOpening (front : List Piece) : Prop where
  lexed : Lexed front
  last : ∃ p, front.getLast? = some p ∧ p.kind = .token (.opening .brace)
  entry : ∃ n, (kinds false front).length = n + 5 ∧
    Source.entryIndex 0 (scan .start false front) = some n

/-- Pieces from the bracket on that closes the entry function. -/
structure IsClosing (back : List Piece) : Prop where
  lexed : Lexed back
  head : ∃ p b, back.head? = some p ∧ p.kind = .token (.closing b)

/-- Where a body behind pieces begins. -/
def placeAfter (front : List Piece) : Position :=
  Position.start.advance (textOf front)

/-- The entry point of pieces around a body. -/
def enclosedEntry (front body : List Piece) : EntryPoint where
  openIndex := (kinds false front).length - 1
  closeIndex := (kinds false front).length + (kinds false body).length
  bodyStart := Text.byteSize (textOf front)
  bodyStop := Text.byteSize (textOf (front ++ body))

namespace IsOpening

variable {front : List Piece}

theorem pendingAfter_eq (h : IsOpening front) : pendingAfter false front = false := by
  obtain ⟨p, hp, hk⟩ := h.last
  obtain ⟨ps, rfl⟩ := getLast?_eq_some_iff.1 hp
  rw [pendingAfter_append, pendingAfter_cons, Piece.pendingBehind, hk]
  rfl

/-- The last token is the brace, and it ends where the pieces end. -/
theorem exists_brace (h : IsOpening front) :
    ∃ ts brace, scan .start false front = ts ++ [brace] ∧
    brace.kind = .opening .brace ∧ brace.stop = Text.byteSize (textOf front) := by
  obtain ⟨p, hp, hk⟩ := h.last
  obtain ⟨ps, rfl⟩ := getLast?_eq_some_iff.1 hp
  refine ⟨scan .start false ps, ⟨.opening .brace, p.text, placeAfter ps⟩, ?_, rfl, ?_⟩
  · rw [scan_append, scan_cons, Piece.emitted_of_kind hk]
    rfl
  · simp [Token.stop, Token.pos, Token.size, placeAfter, Position.start]

/-- Anything may be read behind the brace. -/
theorem lexed_append (h : IsOpening front) {qs : List Piece} (hqs : Lexed qs) :
    Lexed (front ++ qs) := by
  obtain ⟨p, hp, hk⟩ := h.last
  have hlast : p.isSolid = true ∧ p.isClosed = true := by
    simp [Piece.isSolid, Piece.isClosed, hk]
  refine Lexed.append h.lexed hqs ?_ ?_
  · intro q hq
    obtain rfl : p = q := Option.some.inj (hp.symm.trans hq)
    exact hlast.2
  · intro q hq
    obtain rfl : p = q := Option.some.inj (hp.symm.trans hq)
    exact .inl hlast.1

end IsOpening

section Enclosed

variable {front body back : List Piece}

section

variable (hfront : IsOpening front) (hback : IsClosing back)
  (hlexed : Lexed (front ++ (body ++ back)))
include hfront hback hlexed

/-- The tokens of a program: those up to the brace, those of the body, and those from the
bracket on that closes it. -/
theorem tokens_enclosed :
    ∃ closing rest, (Source.ofText (textOf (front ++ (body ++ back)))).tokens =
        scan .start false front ++ (scan (placeAfter front) false body ++ closing :: rest) ∧
      closing.kind.closes = true ∧ closing.pos = (enclosedEntry front body).bodyStop := by
  obtain ⟨p, b, hp, hk⟩ := hback.head
  obtain ⟨ps, rfl⟩ := head?_eq_some_iff.1 hp
  have htokens := Source.tokens_ofText (textOf (front ++ (body ++ p :: ps)))
  rw [hlexed, append_assoc, scan_append, hfront.pendingAfter_eq, append_assoc body,
    scan_append, cons_append, scan_cons, Piece.emitted_of_kind hk, append_assoc,
    append_assoc] at htokens
  refine ⟨_, _, htokens, rfl, ?_⟩
  simp [Token.pos, enclosedEntry, Position.start]

/-- The entry function is found where it stands. -/
theorem entryPoint_enclosed (hnest : nest 0 (kinds false body) = some 0) :
    (Source.ofText (textOf (front ++ (body ++ back)))).entryPoint =
      some (enclosedEntry front body) := by
  obtain ⟨closing, rest, htokens, hcloses, hpos⟩ := tokens_enclosed hfront hback hlexed
  obtain ⟨n, hlength, hentry⟩ := hfront.entry
  obtain ⟨ts, brace, hscan, hbrace, hstop⟩ := hfront.exists_brace
  set s := Source.ofText (textOf (front ++ (body ++ back)))
  have hlen : ts.length = n + 4 := by
    rw [← length_scan .start, hscan, length_append, length_singleton] at hlength
    omega
  have hindex : Source.entryIndex 0 s.tokens = some n := by
    rw [htokens, Source.entryIndex_append_iff (by rw [length_scan]; omega)]
    exact hentry
  have hdrop : s.tokens.drop (n + 4) =
      brace :: (scan (placeAfter front) false body ++ closing :: rest) := by
    rw [htokens, hscan, append_assoc, ← hlen, drop_left]
    rfl
  have hclosing : Source.closingIndex 0 (s.tokens.drop (n + 4)) =
      some ((kinds false body).length + 1) := by
    have hdepth : Source.depthAfter 0 brace.kind = 0 + 1 := by
      rw [hbrace]
      rfl
    have hbody : nest 0 ((scan (placeAfter front) false body).map Token.kind) = some 0 := by
      rw [map_kind_scan]
      exact hnest
    have hopens : brace.kind.closes = false := by
      rw [hbrace]
      rfl
    rw [hdrop, Source.closingIndex, hdepth, Source.closingIndex_append hbody, length_scan]
    simp [hopens, hcloses, Source.closingIndex]
  have hmatching : s.matching (n + 4) = some (enclosedEntry front body).closeIndex := by
    have hclose : (enclosedEntry front body).closeIndex = n + 5 +
        (kinds false body).length := by
      rw [enclosedEntry, hlength]
    rw [Source.matching, hclosing, Option.map_some, hclose, Option.some.injEq]
    omega
  have hopening : s.tokens[n + 4]? = some brace := by
    rw [← head?_drop, hdrop]
    rfl
  have hclosed : s.tokens[(enclosedEntry front body).closeIndex]? = some closing := by
    have hsum : (enclosedEntry front body).closeIndex =
        (scan .start false front ++ scan (placeAfter front) false body).length := by
      rw [length_append, length_scan, length_scan]
      rfl
    rw [← head?_drop, htokens, ← append_assoc, hsum, drop_left]
    rfl
  rw [Source.entryPoint, hindex]
  simp only [Option.bind_eq_bind, Option.bind_some, hmatching, hopening, hclosed,
    Option.pure_def]
  rw [hstop, hpos, enclosedEntry, hlength]
  rfl

/-- The tokens of the body. -/
theorem tokens_body_enclosed :
    ∃ rest, (Source.ofText (textOf (front ++ (body ++ back)))).tokens.drop
      (kinds false front).length = scan (placeAfter front) false body ++ rest := by
  obtain ⟨closing, rest, htokens, -⟩ := tokens_enclosed hfront hback hlexed
  exact ⟨closing :: rest, by rw [htokens, ← length_scan .start, drop_left]⟩

/-- The statements of the body are split off from its tokens alone. -/
theorem bodyStatements_enclosed :
    (Source.ofText (textOf (front ++ (body ++ back)))).bodyStatements
      (enclosedEntry front body) =
        Source.split (kinds false front).length .initial
          (scan (placeAfter front) false body) := by
  obtain ⟨rest, htokens⟩ := tokens_body_enclosed hfront hback hlexed
  obtain ⟨n, hlength, -⟩ := hfront.entry
  have hopen : (enclosedEntry front body).openIndex + 1 = (kinds false front).length := by
    rw [enclosedEntry, hlength]
    rfl
  have hcount : (enclosedEntry front body).closeIndex - (kinds false front).length =
      (scan (placeAfter front) false body).length := by
    rw [length_scan, enclosedEntry, Nat.add_sub_cancel_left]
  rw [Source.bodyStatements, Source.statementsBetween, hopen, htokens, hcount, take_left]

end

end Enclosed

section

variable (hfront : IsOpening front) (hback : IsClosing back) (hrows : ∀ r ∈ rows, r.Ended)
  (hs : s = .ofText (textOf (front ++ (Row.flatten rows ++ back))))
include hfront hback hrows hs

theorem entryPoint_rows : s.entryPoint = some (enclosedEntry front (Row.flatten rows)) := by
  subst hs
  exact entryPoint_enclosed hfront hback
    (hfront.lexed_append (Row.lexed_flatten_append hrows hback.lexed))
      (Row.nest_flatten hrows)

/-- The statements of a body that is made of rows. -/
theorem bodyStatements_rows :
    s.bodyStatements (enclosedEntry front (Row.flatten rows)) =
        Row.placed (kinds false front).length (placeAfter front) rows ∧
      Forall₂ (fun st body => st.Spells s body)
        (Row.placed (kinds false front).length (placeAfter front) rows)
        (Row.bodies rows) := by
  subst hs
  have hlexed : Lexed (front ++ (Row.flatten rows ++ back)) :=
    hfront.lexed_append (Row.lexed_flatten_append hrows hback.lexed)
  obtain ⟨rest, htokens⟩ := tokens_body_enclosed hfront hback hlexed
  rw [bodyStatements_enclosed hfront hback hlexed, Source.split_rows_nil hrows]
  have hsize : Text.byteSize (textOf front) = (placeAfter front).offset := by
    simp [placeAfter, Position.start]
  exact ⟨rfl, Row.spells_placed hrows htokens hsize
    ⟨textOf back ++ ['\n'], by simp [Source.ofText]⟩⟩

end

/-- All tokens of pieces but semicolons are spelled. -/
theorem Lexer.isSpelled_of_mem_scan (h : ∀ p ∈ ps, p.text ≠ [])
    (ht : t ∈ scan here pending ps) (hkind : t.kind ≠ .semi) : t.isSpelled = true := by
  induction ps generalizing here pending with
  | nil => cases ht
  | cons p ps ih =>
    rw [scan_cons] at ht
    rcases mem_append.1 ht with ht | ht
    · have hsemi : t.kind ∈ p.emittedKinds pending := by
        rw [← Piece.map_kind_emitted here]
        exact mem_map_of_mem ht
      cases hp : p.kind with
      | token k =>
        rw [Piece.emitted_of_kind hp, mem_singleton] at ht
        rw [ht]
        exact Token.isSpelled_iff.2 (h p mem_cons_self)
      | _ => exact absurd (Piece.emittedKinds_of_isFiller (by simp [Piece.isFiller, hp]) _
        _ hsemi) hkind
    · exact ih (fun q hq => h q (mem_cons_of_mem p hq)) ht

/-- A bracket among the tokens of a text was made from a piece. -/
theorem Lexer.exists_of_getElem?_bracket (hps : ∀ p ∈ ps, p.text ≠ []) {i : Nat}
    (h : (scan here pending ps ++ endTokens place due)[i]? = some t)
    (ht : t.kind.opens = true ∨ t.kind.closes = true) :
    ∃ front p back, ps = front ++ p :: back ∧ p.kind = .token t.kind ∧
      i = (kinds pending front).length := by
  have hend : t ∉ endTokens place due := by
    intro hmem
    unfold endTokens at hmem
    have : t.kind = .semi ∨ t.kind = .eof := by
      split at hmem
      · simp only [mem_cons, not_mem_nil, or_false] at hmem
        exact hmem.imp (congrArg Token.kind) (congrArg Token.kind)
      · exact .inr (congrArg Token.kind (mem_singleton.1 hmem))
    rcases this with hk | hk <;> rw [hk] at ht <;> revert ht <;> decide
  by_cases hi : i < (scan here pending ps).length
  · rw [getElem?_append_left hi] at h
    have hsemi : t.kind ≠ .semi := by
      intro hk
      rw [hk] at ht
      revert ht
      decide
    obtain ⟨front, p, back, heq, hk, -, -, hlength⟩ := exists_of_getElem?_scan h
      (isSpelled_of_mem_scan hps (mem_of_getElem? h) hsemi)
    exact ⟨front, p, back, heq, hk, by rw [hlength, length_scan]⟩
  · rw [getElem?_append_right (Nat.le_of_not_lt hi)] at h
    exact absurd (mem_of_getElem? h) hend

/-- The brace of an entry function is a piece, and the tokens up to it are those of the pieces
up to it. -/
theorem exists_opening {n : Nat}
    (h : Source.entryIndex 0 (Source.ofText program).tokens = some n) :
    ∃ front behind, IsOpening front ∧ Lexer.pieces program = front ++ behind ∧
      (kinds false front).length = n + 5 := by
  have hlexed := lexed_pieces program
  obtain ⟨f, m, l, r, brace, rest, hstart, -, -, -, -, hbrace⟩ :=
    Source.startsEntry_iff.1 (Source.startsEntry_of_entryIndex h)
  have hget : (tokenize program)[n + 4]? = some brace := by
    have hdrop : (tokenize program).drop n = f :: m :: l :: r :: brace :: rest := hstart
    rw [← getElem?_drop, hdrop]
    rfl
  rw [tokenize_eq] at hget
  obtain ⟨ps, p, qs, hpieces, hp, hlength⟩ := exists_of_getElem?_bracket
    (fun p hp => hlexed.text_ne_nil hp) hget (.inl (by rw [hbrace]; rfl))
  rw [hbrace] at hp
  have hfront : Lexer.pieces program = (ps ++ [p]) ++ qs := by
    rw [hpieces, append_assoc]
    rfl
  have hkinds : (kinds false (ps ++ [p])).length = n + 5 := by
    simp [kinds_append, kinds_cons, Piece.emittedKinds, hp, ← hlength]
  refine ⟨ps ++ [p], qs, ⟨(hfront ▸ hlexed).left, ⟨p, by simp, hp⟩, n, hkinds, ?_⟩,
    hfront, hkinds⟩
  have htokens : (Source.ofText program).tokens = tokenize program := rfl
  rw [htokens, tokenize_eq, hfront, scan_append, append_assoc] at h
  exact (Source.entryIndex_append_iff (by rw [length_scan, hkinds])).1 h

/-- The bracket that closes what is open in front of pieces is one of them. -/
theorem exists_closing (hps : ∀ p ∈ ps, p.text ≠ []) {m : Nat}
    (h : Source.closingIndex (0 + 1) (scan here false ps ++ endTokens place due) = some m) :
    ∃ body back, ps = body ++ back ∧ nest 0 (kinds false body) = some 0 ∧
      ∃ p b, back.head? = some p ∧ p.kind = .token (.closing b) := by
  obtain ⟨hnest, closing, hclosing, hcloses⟩ := Source.nest_take_closingIndex h
  obtain ⟨body, q, back, rfl, hq, rfl⟩ :=
    exists_of_getElem?_bracket hps hclosing (.inr hcloses)
  refine ⟨body, q :: back, rfl, ?_, q, ?_⟩
  · rwa [scan_append, append_assoc, ← length_scan here, take_left,
      map_kind_scan] at hnest
  · unfold TokenKind.closes at hcloses
    split at hcloses
    next b hb => exact ⟨b, rfl, by rw [hq, hb]⟩
    · cases hcloses

/-- A program with an entry point has a brace that opens it and a bracket that closes it. -/
theorem exists_enclosure {entry : EntryPoint}
    (h : (Source.ofText program).entryPoint = some entry) :
    ∃ front body back, IsOpening front ∧ IsClosing back ∧
      Lexer.pieces program = front ++ (body ++ back) ∧ nest 0 (kinds false body) = some 0 ∧
      entry = enclosedEntry front body := by
  obtain ⟨n, hindex, hrest⟩ := Option.bind_eq_some_iff.1 h
  obtain ⟨close, hmatching, -⟩ := Option.bind_eq_some_iff.1 hrest
  obtain ⟨front, behind, hfront, hpieces, hlength⟩ := exists_opening hindex
  have hlexed : Lexed (front ++ behind) := hpieces ▸ lexed_pieces program
  obtain ⟨ts, brace, hscan, hbrace, -⟩ := hfront.exists_brace
  have hlen : ts.length = n + 4 := by
    rw [← length_scan .start, hscan, length_append, length_singleton] at hlength
    omega
  have hdrop : (Source.ofText program).tokens.drop (n + 4) =
      brace :: (scan (placeAfter front) false behind ++
        endTokens (Position.start.advance program)
          (pendingAfter false (front ++ behind))) := by
    have htokens : (Source.ofText program).tokens = tokenize program := rfl
    rw [htokens, tokenize_eq, hpieces, scan_append, hfront.pendingAfter_eq, hscan,
      append_assoc, append_assoc, ← hlen, drop_left]
    rfl
  obtain ⟨m, hm⟩ : ∃ m, Source.closingIndex (0 + 1) (scan (placeAfter front) false behind ++
      endTokens (Position.start.advance program) (pendingAfter false (front ++ behind))) =
        some m := by
    rw [Source.matching, hdrop, Source.closingIndex, hbrace] at hmatching
    obtain ⟨j, hj, -⟩ := Option.map_eq_some_iff.1 hmatching
    obtain ⟨m, hm, -⟩ := Option.map_eq_some_iff.1 hj
    exact ⟨m, hm⟩
  obtain ⟨body, back, rfl, hnest, hhead⟩ :=
    exists_closing (fun p hp => hlexed.right.text_ne_nil hp) hm
  have hback : IsClosing back := ⟨hlexed.right.right, hhead⟩
  refine ⟨front, body, back, hfront, hback, hpieces, hnest, ?_⟩
  have hfound := entryPoint_enclosed hfront hback hlexed hnest
  rw [← hpieces, textOf_pieces, h] at hfound
  exact Option.some.inj hfound

end Notebook
