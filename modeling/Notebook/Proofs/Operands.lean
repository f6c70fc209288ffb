import Notebook.Proofs.ControlStatements

/-!
# Runs of tokens

Parts of a statement are put together with spaces and marks between them.  A part that begins
and ends with a token is read in its place as it is read alone, and if nothing outside its
brackets splits a statement, so it is with the parts put together.  A list of operands with
commas between them is cut at these commas, and its parts are the operands in their places.

## Main statements

* `IsRun.join`: two runs with a joint between them
* `commaParts_listPieces`: the parts of a list
-/

namespace Notebook

open Lexer List

variable {ts : List Text} {n t : Text}

/-! ### Runs -/

/-- Pieces from a token to a token, complete, that nothing outside their brackets splits. -/
structure IsRun (ps : List Piece) : Prop where
  lexed : Lexed ps
  closed : ∀ p ∈ ps, p.isClosed = true
  front : ∃ p k, ps.head? = some p ∧ p.kind = .token k
  back : ∃ p k, ps.getLast? = some p ∧ p.kind = .token k
  clause : Source.IsClause (scan .start false ps)

/-- What may stand between two runs: a space, or a mark with a space behind it. -/
structure IsJoint (ps : List Piece) (marks : List TokenKind) : Prop where
  lexed : Lexed ps
  closed : ∀ p ∈ ps, p.isClosed = true
  solid : ∀ p ∈ ps.getLast?, p.isSolid = true
  delimits : ∃ d ∈ (textOf ps).head?, isDelimiter d = true
  kinds : ∀ pending, kinds pending ps = marks
  plain : ∀ k ∈ marks, k.opens = false ∧ k.closes = false ∧ k ≠ .semi ∧ k ≠ .keyword .elseKw

namespace Source

theorem IsClause.append {ts us : List Token} (hts : IsClause ts) (hus : IsClause us) :
    IsClause (ts ++ us) where
  balanced := by
    rw [map_append, nest_append, hts.balanced]
    exact hus.balanced
  plain := by
    rw [topLevel_append hts.balanced]
    exact forall_mem_append.2 ⟨hts.plain, hus.plain⟩

theorem IsClause.move {ts : List Token} (h : IsClause ts) (here : Position) :
    IsClause (ts.map (Token.move here)) where
  balanced := by
    rw [map_map]
    exact h.balanced
  plain := by
    rw [topLevel_move]
    intro t ht
    obtain ⟨u, hu, rfl⟩ := mem_map.1 ht
    exact h.plain u hu

/-- Outside brackets there are tokens of the same kinds, wherever a text stands. -/
theorem exists_inner_of_mem_topLevel {here : Position} {k : Token}
    (hk : k ∈ topLevel 0 (scan here false (Lexer.pieces t))) :
    ∃ u ∈ topLevel 0 (innerTokens t), u.kind = k.kind := by
  rw [scan_eq_map, topLevel_move] at hk
  obtain ⟨u, hu, rfl⟩ := mem_map.1 hk
  exact ⟨u, hu, rfl⟩

/-- Marks are a clause. -/
theorem isClause_of_marks {ts : List Token}
    (h : ∀ t ∈ ts, t.kind.opens = false ∧ t.kind.closes = false ∧ t.kind ≠ .semi ∧
      t.kind ≠ .keyword .elseKw) : IsClause ts where
  balanced := by
    refine nest_of_no_brackets (fun k hk => ?_) 0
    obtain ⟨t, ht, rfl⟩ := mem_map.1 hk
    exact ⟨(h t ht).1, (h t ht).2.1⟩
  plain := fun t ht => (h t (mem_of_mem_topLevel ht)).2.2

end Source

theorem IsJoint.isClause {c : List Piece} {marks : List TokenKind} (h : IsJoint c marks)
    (here : Position) (pending : Bool) : Source.IsClause (scan here pending c) := by
  refine Source.isClause_of_marks fun t ht => h.plain _ ?_
  rw [← h.kinds pending, ← map_kind_scan here]
  exact mem_map_of_mem ht

namespace IsRun

variable {ps qs c : List Piece} {marks : List TokenKind}

theorem clause_at (h : IsRun ps) (here : Position) :
    Source.IsClause (scan here false ps) := by
  rw [scan_eq_map]
  exact h.clause.move here

/-- A run begins with a token, so that it does not matter whether a semicolon was due. -/
theorem scan_eq (h : IsRun ps) (here : Position) (pending : Bool) :
    scan here pending ps = scan here false ps := by
  obtain ⟨p, k, hp, hk⟩ := h.front
  obtain ⟨rest, rfl⟩ := head?_eq_some_iff.1 hp
  exact scan_of_token hk here pending rest

/-- The tokens of a run go from its first piece to its last. -/
theorem extent_scan (h : IsRun ps) (here : Position) :
    Source.extent (scan here false ps) =
      some ⟨here.offset, here.offset + Text.byteSize (textOf ps)⟩ := by
  obtain ⟨p, k, hp, hk⟩ := h.front
  obtain ⟨q, l, hq, hl⟩ := h.back
  obtain ⟨a, ts, b, hscan, hlast, hpos, hstop⟩ := scan_ends hp hk hq hl here
  rw [Source.extent, hscan, hlast, ← hstop, ← hpos]
  rfl

theorem scan_ne_nil (h : IsRun ps) (here : Position) : scan here false ps ≠ [] := by
  intro hnil
  have hextent := h.extent_scan here
  rw [hnil] at hextent
  cases hextent

/-- The last token of a run decides whether a semicolon is due behind it. -/
theorem pendingAfter_eq {q : Piece} {k : TokenKind} (hq : ps.getLast? = some q)
    (hk : q.kind = .token k) (pending : Bool) :
    pendingAfter pending ps = k.endsStatement := by
  obtain ⟨front, rfl⟩ := getLast?_eq_some_iff.1 hq
  rw [pendingAfter_append, pendingAfter_cons, pendingAfter_nil]
  unfold Piece.pendingBehind
  rw [hk]

/-- A delimiter may follow a run. -/
theorem lexed_append (h : IsRun ps) (hqs : Lexed qs)
    (hdelim : ∃ d ∈ (textOf qs).head?, isDelimiter d = true) : Lexed (ps ++ qs) := by
  obtain ⟨p, k, hp, hk⟩ := h.back
  refine Lexer.lexed_append h.lexed hqs h.closed fun q hq => .inr fun d hd => ?_
  obtain ⟨d', hd', hdelim⟩ := hdelim
  cases hp.symm.trans hq
  cases hd.symm.trans hd'
  refine ⟨hdelim, fun hline => ?_⟩
  simp [Piece.isLine, hk] at hline

/-- The tokens of two runs with a joint between them. -/
theorem scan_join (hqs : IsRun qs) (here : Position) (pending : Bool) :
    scan here pending (ps ++ (c ++ qs)) =
      scan here pending ps ++ (scan (here.advance (textOf ps)) (pendingAfter pending ps) c ++
        scan ((here.advance (textOf ps)).advance (textOf c)) false qs) := by
  rw [scan_append, scan_append, hqs.scan_eq]

/-- Two runs with a joint between them are a run. -/
theorem join (hps : IsRun ps) (hc : IsJoint c marks) (hqs : IsRun qs) :
    IsRun (ps ++ (c ++ qs)) where
  lexed := by
    have hright := lexed_append_of_solid c hc.lexed hc.closed hc.solid hqs.lexed
    refine hps.lexed_append hright ?_
    obtain ⟨d, hd, hdelim⟩ := hc.delimits
    refine ⟨d, ?_, hdelim⟩
    rw [textOf_append, head?_append, hd]
    rfl
  closed := by
    exact forall_mem_append.2 ⟨hps.closed, forall_mem_append.2 ⟨hc.closed, hqs.closed⟩⟩
  front := by
    obtain ⟨p, k, hp, hk⟩ := hps.front
    exact ⟨p, k, by rw [head?_append, hp]; rfl, hk⟩
  back := by
    obtain ⟨p, k, hp, hk⟩ := hqs.back
    exact ⟨p, k, by rw [getLast?_append, getLast?_append, hp]; rfl, hk⟩
  clause := by
    rw [hqs.scan_join]
    exact hps.clause.append ((hc.isClause _ _).append (hqs.clause_at _))

end IsRun

/-! ### Operands -/

/-- A text that is one operand: it is complete, begins and ends with a token, and no comma,
semicolon or `else` stands in it outside brackets.  A semicolon that a line end implies
counts. -/
structure IsOperand (t : Text) : Prop where
  closed : LexicallyClosed t
  balanced : Balanced t
  front : ∃ p ∈ (Lexer.pieces t).head?, p.isToken = true
  back : ∃ p ∈ (Lexer.pieces t).getLast?, p.isToken = true
  plain : ∀ k ∈ Source.topLevel 0 (innerTokens t),
    k.kind ≠ .comma ∧ k.kind ≠ .semi ∧ k.kind ≠ .keyword .elseKw

instance (t : Text) : Decidable (IsOperand t) :=
  decidable_of_iff (LexicallyClosed t ∧ Balanced t ∧
      (∃ p ∈ (Lexer.pieces t).head?, p.isToken = true) ∧
      (∃ p ∈ (Lexer.pieces t).getLast?, p.isToken = true) ∧
      ∀ k ∈ Source.topLevel 0 (innerTokens t),
        k.kind ≠ .comma ∧ k.kind ≠ .semi ∧ k.kind ≠ .keyword .elseKw)
    ⟨fun ⟨a, b, c, d, e⟩ => ⟨a, b, c, d, e⟩, fun ⟨a, b, c, d, e⟩ => ⟨a, b, c, d, e⟩⟩

namespace IsOperand

theorem isRun (h : IsOperand t) : IsRun (Lexer.pieces t) where
  lexed := lexed_pieces t
  closed := h.closed
  front := by
    obtain ⟨p, hp, htoken⟩ := h.front
    obtain ⟨k, hk⟩ := Piece.isToken_iff.1 htoken
    exact ⟨p, k, hp, hk⟩
  back := by
    obtain ⟨p, hp, htoken⟩ := h.back
    obtain ⟨k, hk⟩ := Piece.isToken_iff.1 htoken
    exact ⟨p, k, hp, hk⟩
  clause := by
    refine ⟨?_, fun k hk => (h.plain k hk).2⟩
    rw [map_kind_scan]
    exact nest_pieces h.balanced

/-- No comma stands outside the brackets of an operand, wherever it stands itself. -/
theorem single (h : IsOperand t) (here : Position) :
    ∀ k ∈ Source.topLevel 0 (scan here false (Lexer.pieces t)), k.kind ≠ .comma := by
  intro k hk
  obtain ⟨u, hu, hkind⟩ := Source.exists_inner_of_mem_topLevel hk
  rw [← hkind]
  exact (h.plain u hu).1

/-- An operand does not begin with a comma. -/
theorem head_ne_comma (h : IsOperand t) (here : Position) :
    ∀ k ∈ (scan here false (Lexer.pieces t)).head?, k.kind ≠ .comma := by
  intro k hk hcomma
  obtain ⟨ts, hts⟩ := head?_eq_some_iff.1 hk
  refine h.single here k ?_ hcomma
  rw [hts, Source.topLevel_cons (d := 0) (by rw [hcomma]; rfl)]
  exact mem_append_left _ ((Source.mem_topLevel_singleton (by rw [hcomma]; rfl)).2 rfl)

end IsOperand

theorem IsIdentifier.pieces_eq (h : IsIdentifier n) :
    Lexer.pieces n = [⟨.token .ident, n⟩] := by
  have hlexed : Lexed [⟨.token .ident, n⟩] :=
    lexed_cons.2 ⟨h.reads (by rintro d ⟨⟩), lexed_nil⟩
  rw [Lexed, textOf_cons, textOf_nil, append_nil] at hlexed
  exact hlexed

/-- A name is an operand. -/
theorem IsIdentifier.isOperand (h : IsIdentifier n) : IsOperand n where
  closed := by
    intro p hp
    rw [h.pieces_eq] at hp
    rw [mem_singleton.1 hp]
    rfl
  balanced := by
    rw [balanced_iff, h.pieces_eq]
    rfl
  front := ⟨_, by rw [h.pieces_eq]; rfl, rfl⟩
  back := ⟨_, by rw [h.pieces_eq]; rfl, rfl⟩
  plain := by
    intro k hk
    rw [innerTokens, h.pieces_eq] at hk
    rw [mem_singleton.1 (Source.mem_of_mem_topLevel hk)]
    simp

/-! ### Lists -/

/-- Texts with commas between them. -/
def listed (ts : List Text) : Text :=
  List.intercalate [',', ' '] ts

/-- The extents of texts with commas between them, from an offset on. -/
def spansFrom (start : Nat) : List Text → List Span
  | [] => []
  | t :: ts => ⟨start, start + t.byteSize⟩ :: spansFrom (start + t.byteSize + 2) ts

theorem Position.offset_behind_comma (here : Position) (t : Text) :
    ((here.advance t).advance [',', ' ']).offset = here.offset + t.byteSize + 2 := by
  rw [Position.offset_advance, Position.offset_advance]
  rfl

/-- A comma and a space. -/
def listJoint : List Piece :=
  [⟨.token .comma, [',']⟩, ⟨.blank, [' ']⟩]

/-- The pieces of texts with commas between them. -/
def listPieces (ts : List Text) : List Piece :=
  List.intercalate listJoint (ts.map Lexer.pieces)

theorem isJoint_listJoint : IsJoint listJoint [.comma] := by
  have hlexed : Lexed listJoint := lexed_cons.2 ⟨reads_cons.2 rfl, lexed_space⟩
  exact ⟨hlexed, by decide, by decide, ⟨',', rfl, rfl⟩, by decide, by decide⟩

theorem listPieces_singleton (t : Text) : listPieces [t] = Lexer.pieces t :=
  intercalate_singleton

theorem listPieces_cons_cons (t u : Text) (ts : List Text) :
    listPieces (t :: u :: ts) = Lexer.pieces t ++ (listJoint ++ listPieces (u :: ts)) := by
  rw [listPieces, map_cons, map_cons, intercalate_cons_cons, append_assoc]
  rfl

theorem listed_cons_cons (t u : Text) (ts : List Text) :
    listed (t :: u :: ts) = t ++ ([',', ' '] ++ listed (u :: ts)) := by
  rw [listed, intercalate_cons_cons, append_assoc]
  rfl

theorem textOf_listPieces (ts : List Text) : textOf (listPieces ts) = listed ts := by
  induction ts with
  | nil => rfl
  | cons t ts ih =>
    cases ts with
    | nil => rw [listPieces_singleton, textOf_pieces, listed, intercalate_singleton]
    | cons u us =>
      rw [listPieces_cons_cons, listed_cons_cons, textOf_append, textOf_append,
        textOf_pieces, ih]
      rfl

theorem isRun_listPieces (hne : ts ≠ []) (h : ∀ t ∈ ts, IsOperand t) :
    IsRun (listPieces ts) := by
  induction ts with
  | nil => exact absurd rfl hne
  | cons t ts ih =>
    have ht := (h t mem_cons_self).isRun
    cases ts with
    | nil => rwa [listPieces_singleton]
    | cons u us =>
      rw [listPieces_cons_cons]
      exact ht.join isJoint_listJoint
        (ih (cons_ne_nil u us) fun v hv => h v (mem_cons_of_mem t hv))

/-- The last token of a list is that of its last member. -/
theorem getLast?_listPieces (h : ∀ t ∈ ts, IsOperand t) (ht : ts.getLast? = some t) :
    (listPieces ts).getLast? = (Lexer.pieces t).getLast? := by
  induction ts with
  | nil => cases ht
  | cons u ts ih =>
    cases ts with
    | nil =>
      obtain rfl : u = t := by simpa using ht
      rw [listPieces_singleton]
    | cons v vs =>
      rw [getLast?_cons_cons] at ht
      have hrest := ih (fun w hw => h w (mem_cons_of_mem u hw)) ht
      obtain ⟨p, hp, -⟩ := (h t (mem_cons_of_mem u (mem_of_getLast? ht))).back
      rw [listPieces_cons_cons, getLast?_append, getLast?_append, hrest, hp]
      rfl

/-- The tokens of the texts of a list, each in its place. -/
def partsAt (here : Position) : List Text → List (List Token)
  | [] => []
  | t :: ts => scan here false (Lexer.pieces t) ::
    partsAt ((here.advance t).advance [',', ' ']) ts

/-- The tokens of a list of two or more texts. -/
theorem scan_listPieces {u : Text} (h : ∀ v ∈ t :: u :: ts, IsOperand v) (here : Position) :
    scan here false (listPieces (t :: u :: ts)) = scan here false (Lexer.pieces t) ++
      ⟨.comma, [','], here.advance t⟩ ::
        scan ((here.advance t).advance [',', ' ']) false (listPieces (u :: ts)) := by
  have hrest := isRun_listPieces (cons_ne_nil u ts) fun v hv =>
    h v (mem_cons_of_mem t hv)
  rw [listPieces_cons_cons, hrest.scan_join, textOf_pieces]
  rfl

namespace Source

/-- A comma outside brackets cuts off what stands in front of it. -/
theorem cutCommas_append {depth : Nat} {ts us : List Token} {comma : Token}
    (h : nest depth (ts.map Token.kind) = some 0)
    (hsingle : ∀ t ∈ topLevel depth ts, t.kind ≠ .comma) (hcomma : comma.kind = .comma) :
    cutCommas depth (ts ++ comma :: us) = ts :: cutCommas 0 us := by
  induction ts generalizing depth with
  | nil =>
    cases h
    rw [nil_append, cutCommas, if_pos ⟨hcomma, rfl⟩]
  | cons t ts ih =>
    rw [map_cons, nest_cons] at h
    obtain ⟨d, hd, hts⟩ := Option.bind_eq_some_iff.1 h
    rw [topLevel_cons hd] at hsingle
    have hnot : ¬(t.kind = .comma ∧ depth = 0) := by
      rintro ⟨hkind, hzero⟩
      refine hsingle t (mem_append_left _ ?_) hkind
      exact (mem_topLevel_singleton (by rw [hkind]; rfl)).2 hzero
    rw [cons_append, cutCommas, if_neg hnot, depthAfter_of_nestStep hd,
      ih hts fun u hu => hsingle u (mem_append_right _ hu)]

/-- A list is cut at its commas. -/
theorem commaParts_listPieces (hne : ts ≠ []) (h : ∀ t ∈ ts, IsOperand t) (here : Position) :
    commaParts (scan here false (listPieces ts)) = partsAt here ts := by
  induction ts generalizing here with
  | nil => exact absurd rfl hne
  | cons t ts ih =>
    obtain ⟨ht, hts⟩ := forall_mem_cons.1 h
    cases ts with
    | nil =>
      rw [listPieces_singleton, commaParts_eq (ht.single here) (ht.isRun.scan_ne_nil here)]
      rfl
    | cons u us =>
      rw [scan_listPieces h, commaParts, cutCommas_append (ht.isRun.clause_at here).balanced
        (ht.single here) rfl,
        filter_cons_of_pos (by simpa using ht.isRun.scan_ne_nil here), partsAt]
      congr 1
      exact ih (cons_ne_nil u us) hts _

/-- The extents of the parts of a list. -/
theorem map_extent_partsAt (h : ∀ t ∈ ts, IsOperand t) (here : Position) :
    (partsAt here ts).map extent = (spansFrom here.offset ts).map some := by
  induction ts generalizing here with
  | nil => rfl
  | cons t ts ih =>
    rw [partsAt, map_cons, spansFrom, map_cons,
      (h t mem_cons_self).isRun.extent_scan, textOf_pieces,
      ih (fun u hu => h u (mem_cons_of_mem t hu)), Position.offset_behind_comma]

end Source

end Notebook
