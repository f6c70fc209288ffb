import Notebook.Proofs.Clauses

/-!
# Control statements

The semicolons in the header of a control statement belong to it.  The splitting keeps one
flag for this: the keyword at the front of a statement raises it, the first opening brace
outside brackets lowers it, and an `else` raises it again.  So a control statement is one
statement exactly if the flag is up at each semicolon of its header.  That is not so for every
one that can be written: behind a label the keyword is not at the front, and the braces of a
literal in a clause lower the flag before the header ends.
-/

namespace Notebook

open Lexer List

variable {reading : Bool} {k : Keyword} {qs : List Piece} {sts : List Statement}
  {ts : List Text} {here : Position} {before rest t : Text}

/-- A control statement by its parts: a label, the keyword, the clauses of the header in front
of its semicolons, the last clause, and what stands in the braces. -/
structure ControlStatement where
  label : Option Text
  keyword : Keyword
  clauses : List Text
  last : Text
  block : Text
deriving DecidableEq, Repr

/-- The tokens of a text, without the semicolon that its end may imply. -/
def innerTokens (t : Text) : List Token :=
  scan .start false (Lexer.pieces t)

/-- Whether a header is being read behind tokens. -/
def headerBehind (reading : Bool) (ts : List Token) : Bool :=
  (Source.topLevel 0 ts).foldl Source.headerPast reading

/-- Whether a header is being read at each semicolon behind clauses. -/
def keepsHeader (reading : Bool) : List Text → Bool
  | [] => true
  | t :: ts => headerBehind reading (innerTokens t) && keepsHeader true ts

/-- A text that other tokens may surround: it is complete, and no comment at its end goes on
to the end of the line. -/
structure IsInner (t : Text) : Prop where
  closed : LexicallyClosed t
  balanced : Balanced t
  inline : ∀ p ∈ (Lexer.pieces t).getLast?, p.isLine = false

/-- A clause of a header: no semicolon stands in it outside brackets. -/
structure IsHeaderClause (t : Text) : Prop extends IsInner t where
  single : ∀ u ∈ Source.topLevel 0 (innerTokens t), u.kind ≠ .semi

instance (t : Text) : Decidable (IsInner t) :=
  decidable_of_iff (LexicallyClosed t ∧ Balanced t ∧
    ∀ p ∈ (Lexer.pieces t).getLast?, p.isLine = false)
    ⟨fun ⟨a, b, c⟩ => ⟨a, b, c⟩, fun ⟨a, b, c⟩ => ⟨a, b, c⟩⟩

instance (t : Text) : Decidable (IsHeaderClause t) :=
  decidable_of_iff (IsInner t ∧ ∀ u ∈ Source.topLevel 0 (innerTokens t), u.kind ≠ .semi)
    ⟨fun ⟨a, b⟩ => ⟨a, b⟩, fun ⟨a, b⟩ => ⟨a, b⟩⟩

namespace ControlStatement

/-- How the statement is written. -/
def text (c : ControlStatement) : Text :=
  c.label.elim [] (· ++ [':', ' ']) ++ c.keyword.spelling ++ [' '] ++
    c.clauses.flatMap (· ++ [';', ' ']) ++ c.last ++ [' ', '\x7b'] ++ c.block ++ ['\x7d']

/-- Parts that make up a control statement. -/
structure WellFormed (c : ControlStatement) : Prop where
  label : ∀ l ∈ c.label, IsIdentifier l
  keyword : Source.SplitState.opensHeader (.keyword c.keyword) = true
  clauses : ∀ t ∈ c.clauses, IsHeaderClause t
  last : IsHeaderClause c.last
  block : IsInner c.block

end ControlStatement

/-- A text in front of which a closing brace ends a statement. -/
def EndsBlock (rest : Text) : Prop :=
  (tokenize ('\x7d' :: rest))[1]?.map Token.kind = some .semi

instance (rest : Text) : Decidable (EndsBlock rest) :=
  inferInstanceAs (Decidable (_ = _))

/-! ### Statements in another place -/

namespace Source

/-- A splitting of tokens in another place, as far as it has come. -/
structure SplitState.Moved (n : Nat) (a b : SplitState) : Prop where
  depth : a.depth = b.depth
  header : a.header = b.header
  current : a.current.map OpenStatement.span = b.current.map fun c => c.span.move n

theorem SplitState.Moved.close {n : Nat} {a b : SplitState} (h : a.Moved n b)
    (i j : Option Nat) :
    (a.close i).map Statement.span = (b.close j).map fun st => st.span.move n := by
  have hcurrent := h.current
  unfold SplitState.close
  cases ha : a.current <;> cases hb : b.current <;> simp_all

theorem SplitState.Moved.take {a b : SplitState} (h : a.Moved here.offset b) (t : Token)
    (i j : Nat) : (a.take i (t.move here)).Moved here.offset (b.take j t) := by
  have hcurrent := h.current
  have hnone : a.current.isNone = b.current.isNone := by
    have := congrArg Option.isNone hcurrent
    simpa using this
  refine ⟨?_, ?_, ?_⟩
  · simp only [SplitState.take, h.depth, Token.kind_move]
  · simp only [SplitState.take, SplitState.headerAfter, h.depth, h.header, hnone,
      Token.kind_move]
  · unfold SplitState.take
    cases ha : a.current <;> cases hb : b.current <;> simp_all [Span.move]

/-- Where tokens stand, and how they are numbered, changes nothing about the extents of their
statements but the place. -/
theorem map_span_split {a b : SplitState} (h : a.Moved here.offset b) (ts : List Token)
    (i j : Nat) :
    (split i a (ts.map (Token.move here))).map Statement.span =
      (split j b ts).map fun st => st.span.move here.offset := by
  induction ts generalizing a b i j with
  | nil => exact h.close none none
  | cons t ts ih =>
    have hsplits : a.splitsAt t.kind = b.splitsAt t.kind := by
      simp only [SplitState.splitsAt, h.depth, h.header]
    rw [map_cons, split, split, Token.kind_move, hsplits]
    split
    · exact h.close none none
    · split
      · have hnext : SplitState.Moved here.offset ⟨a.depth, a.header, none⟩
            ⟨b.depth, b.header, none⟩ := ⟨h.depth, h.header, rfl⟩
        rw [map_append, map_append, h.close _ (some j), ih hnext]
      · exact ih (h.take t i j) _ _

theorem texts_cons_eq_ok {s : Source} {st : Statement} :
    s.texts (st :: sts) = .ok (t :: ts) ↔ s.statementText st = .ok t ∧
      s.texts sts = .ok ts := by
  unfold texts
  rw [mapM_cons]
  constructor
  · intro h
    obtain ⟨t', ht, h⟩ := Checked.bind_eq_ok.1 h
    obtain ⟨ts', hts, h⟩ := Checked.bind_eq_ok.1 h
    cases h
    exact ⟨ht, hts⟩
  · rintro ⟨ht, hts⟩
    rw [ht, hts]
    rfl

/-- The texts of statements in a text that stands behind another. -/
theorem texts_of_map_span {sts' : List Statement}
    (h : sts.map Statement.span = sts'.map fun st => st.span.move before.byteSize)
    (hfits : ∀ st ∈ sts', st.span.Fits t) :
    (ofText (before ++ t)).texts sts = (ofText t).texts sts' := by
  induction sts' generalizing sts with
  | nil =>
    rw [map_eq_nil_iff.1 h]
    rfl
  | cons st' sts' ih =>
    obtain ⟨st, sts, rfl, hst, hsts⟩ := map_eq_cons_iff.1 h
    have htext : (ofText (before ++ t)).statementText st = (ofText t).statementText st' := by
      have hslice := Span.slice_move (hfits st' mem_cons_self) before []
      rw [append_nil] at hslice
      rw [statementText, hst]
      exact hslice
    have htexts := ih hsts fun u hu => hfits u (mem_cons_of_mem st' hu)
    unfold texts at htexts ⊢
    rw [mapM_cons, mapM_cons, htext, htexts]

end Source

/-- What is no token makes at most a semicolon, if one is due. -/
theorem emitted_of_not_isToken {p : Piece} (h : p.isToken = false) (here : Position) :
    p.emitted here false = [] ∧ p.pendingBehind false = false ∧
      ((∃ place, p.emitted here true = [.impliedSemi place]) ∧ p.pendingBehind true = false ∨
        p.emitted here true = [] ∧ p.pendingBehind true = true) := by
  unfold Piece.isToken at h
  unfold Piece.emitted Piece.pendingBehind
  cases hk : p.kind with
  | token k => simp [hk] at h
  | blank => cases hline : Piece.endsLine p <;> simp
  | comment => cases hline : Piece.endsLine p <;> simp

/-- A semicolon that is due behind a token: if none were due, it alone might be missing. -/
theorem scan_of_kinds_semi {ps : List Piece} {ks : List TokenKind}
    (h : kinds true ps = .semi :: ks) (here : Position) :
    ∃ semi us, semi.kind = .semi ∧ scan here true ps = semi :: us ∧
      (scan here false ps = us ∨ scan here false ps = semi :: us) := by
  induction ps generalizing here with
  | nil => cases h
  | cons p ps ih =>
    cases htoken : p.isToken with
    | true =>
      -- A written semicolon is there in both cases.
      obtain ⟨k, hk⟩ := Piece.isToken_iff.1 htoken
      rw [kinds_cons, Piece.emittedKinds, hk] at h
      obtain rfl : k = .semi := (List.cons.inj h).1
      have hscan : ∀ pending, scan here pending (p :: ps) =
          ⟨.semi, p.text, here⟩ :: scan (here.advance p.text) false ps := by
        intro pending
        rw [scan_cons, Piece.emitted_of_kind hk, Piece.pendingBehind, hk]
        rfl
      exact ⟨_, _, rfl, hscan true, .inr (hscan false)⟩
    | false =>
      obtain ⟨hnone, hstays, ⟨⟨place, hsome⟩, hdone⟩ | ⟨hnothing, hdue⟩⟩ :=
        emitted_of_not_isToken htoken here
      · refine ⟨.impliedSemi place, scan (here.advance p.text) false ps, rfl, ?_, .inl ?_⟩
        · rw [scan_cons, hsome, hdone]
          rfl
        · rw [scan_cons, hnone, hstays]
          rfl
      · rw [kinds_cons, ← Piece.map_kind_emitted here, hnothing, hdue] at h
        obtain ⟨semi, us, hsemi, htrue, hfalse⟩ := ih h (here.advance p.text)
        refine ⟨semi, us, hsemi, ?_, ?_⟩
        · rw [scan_cons, hnothing, hdue]
          exact htrue
        · rw [scan_cons, hnone, hstays]
          exact hfalse

/-! ### The pieces of a control statement -/

theorem lexed_append_of_solid (ps : List Piece) (hps : Lexed ps)
    (hclosed : ∀ p ∈ ps, p.isClosed = true) (hsolid : ∀ p ∈ ps.getLast?, p.isSolid = true)
    (hqs : Lexed qs) : Lexed (ps ++ qs) :=
  lexed_append hps hqs hclosed fun p hp => .inl (hsolid p hp)

namespace IsInner

/-- A delimiter may follow. -/
theorem lexed_append (h : IsInner t) (hqs : Lexed qs)
    (hdelim : ∀ d ∈ (textOf qs).head?, isDelimiter d = true) :
    Lexed (Lexer.pieces t ++ qs) := by
  refine Lexer.lexed_append (lexed_pieces t) hqs h.closed fun p hp => .inr fun d hd => ?_
  refine ⟨hdelim d hd, fun hline => ?_⟩
  rw [h.inline p hp] at hline
  cases hline

theorem nest_eq (h : IsInner t) : nest 0 ((innerTokens t).map Token.kind) = some 0 := by
  rw [innerTokens, map_kind_scan]
  exact nest_pieces h.balanced

end IsInner

/-- A clause is taken into a header. -/
theorem IsHeaderClause.walk_eq (h : IsHeaderClause t) (reading : Bool) :
    Mode.walk ⟨0, reading, true⟩ (kinds false (Lexer.pieces t)) =
      some ⟨0, headerBehind reading (innerTokens t), true⟩ := by
  have heof : ∀ u ∈ innerTokens t, u.kind ≠ .eof := by
    intro u hu heof
    refine mem_kinds_ne_eof (lexed_pieces t) false ?_
    rw [← map_kind_scan .start, ← heof]
    exact mem_map_of_mem hu
  have := Source.walk_of_single h.nest_eq heof h.single reading
  rwa [innerTokens, map_kind_scan] at this

/-- The semicolon behind a clause, and the space behind it. -/
def clauseEnd : List Piece :=
  [⟨.token .semi, [';']⟩, ⟨.blank, [' ']⟩]

theorem lexed_space : Lexed [⟨.blank, [' ']⟩] :=
  lexed_cons.2 ⟨reads_blank (by decide) _, lexed_nil⟩

theorem lexed_clauseEnd : Lexed clauseEnd :=
  lexed_cons.2 ⟨reads_cons.2 rfl, lexed_space⟩

/-- The pieces of clauses in front of semicolons. -/
def clausePieces (ts : List Text) : List Piece :=
  ts.flatMap fun t => Lexer.pieces t ++ clauseEnd

theorem clausePieces_cons (t : Text) (ts : List Text) :
    clausePieces (t :: ts) = Lexer.pieces t ++ (clauseEnd ++ clausePieces ts) := by
  simp [clausePieces]

theorem clausePieces_append (ts us : List Text) :
    clausePieces (ts ++ us) = clausePieces ts ++ clausePieces us := by
  simp [clausePieces]

theorem textOf_clausePieces (ts : List Text) :
    textOf (clausePieces ts) = ts.flatMap (· ++ [';', ' ']) := by
  induction ts with
  | nil => rfl
  | cons t ts ih => simp [clausePieces_cons, ih, textOf_pieces, clauseEnd]

theorem kinds_clauseEnd_append (pending : Bool) (ps : List Piece) :
    kinds pending (clauseEnd ++ ps) = .semi :: kinds false ps := rfl

theorem pendingAfter_clausePieces (ts : List Text) :
    pendingAfter false (clausePieces ts) = false := by
  induction ts with
  | nil => rfl
  | cons t ts ih =>
    rw [clausePieces_cons, pendingAfter_append, pendingAfter_append]
    exact ih

/-- Clauses in front of other pieces. -/
theorem lexed_clausePieces (h : ∀ t ∈ ts, IsHeaderClause t) (hqs : Lexed qs) :
    Lexed (clausePieces ts ++ qs) := by
  induction ts with
  | nil => exact hqs
  | cons t ts ih =>
    have htail := lexed_append_of_solid clauseEnd lexed_clauseEnd (by decide)
      (by decide) (ih fun u hu => h u (mem_cons_of_mem t hu))
    rw [clausePieces_cons, append_assoc, append_assoc]
    refine (h t mem_cons_self).lexed_append htail ?_
    rintro d ⟨⟩
    rfl

/-- As long as the header is being read, its clauses are taken in. -/
theorem walk_clauses (h : ∀ t ∈ ts, IsHeaderClause t)
    (hkeeps : keepsHeader reading ts = true) :
    ∃ reading', Mode.walk ⟨0, reading, true⟩ (kinds false (clausePieces ts)) =
      some ⟨0, reading', true⟩ := by
  induction ts generalizing reading with
  | nil => exact ⟨reading, rfl⟩
  | cons t ts ih =>
    obtain ⟨hbehind, hkeeps⟩ := Bool.and_eq_true_iff.1 hkeeps
    obtain ⟨reading', hwalk⟩ := ih (fun u hu => h u (mem_cons_of_mem t hu)) hkeeps
    refine ⟨reading', ?_⟩
    rw [clausePieces_cons, kinds_append, kinds_clauseEnd_append, Mode.walk_append,
      (h t mem_cons_self).walk_eq, hbehind]
    exact hwalk

/-- The first clause behind which no header is being read ends the statement. -/
theorem exists_cut_of_not_keepsHeader (h : ∀ t ∈ ts, IsHeaderClause t)
    (hkeeps : keepsHeader reading ts = false) :
    ∃ us t vs, ts = us ++ t :: vs ∧
      Mode.walk ⟨0, reading, true⟩ (kinds false (clausePieces us ++ Lexer.pieces t)) =
        some .whole := by
  induction ts generalizing reading with
  | nil => cases hkeeps
  | cons t ts ih =>
    obtain ⟨ht, hts⟩ := forall_mem_cons.1 h
    cases hbehind : headerBehind reading (innerTokens t) with
    | false =>
      refine ⟨[], t, ts, rfl, ?_⟩
      rw [clausePieces, flatMap_nil, nil_append, ht.walk_eq, hbehind]
      rfl
    | true =>
      rw [keepsHeader, hbehind, Bool.true_and] at hkeeps
      obtain ⟨us, u, vs, rfl, hwalk⟩ :=
        ih hts hkeeps
      refine ⟨t :: us, u, vs, rfl, ?_⟩
      rw [clausePieces_cons, append_assoc, append_assoc, kinds_append,
        kinds_clauseEnd_append, Mode.walk_append, ht.walk_eq, hbehind]
      exact hwalk

theorem mem_of_opensHeader (h : Source.SplitState.opensHeader (.keyword k) = true) :
    k ∈ [Keyword.ifKw, .forKw, .switchKw, .selectKw] := by
  revert h
  cases k <;> decide

/-- The pieces of a keyword. -/
def wordPieces (k : Keyword) : List Piece :=
  [⟨.token (.keyword k), k.spelling⟩, ⟨.blank, [' ']⟩]

/-- A keyword that begins a header. -/
theorem wordPieces_spec (h : Source.SplitState.opensHeader (.keyword k) = true) :
    Lexed (wordPieces k) ∧ (∀ p ∈ wordPieces k, p.isClosed = true) ∧
      (∀ p ∈ (wordPieces k).getLast?, p.isSolid = true) ∧
      pendingAfter false (wordPieces k) = false ∧
      ∀ inside, Mode.walk ⟨0, false, inside⟩ (kinds false (wordPieces k)) =
        some ⟨0, !inside, true⟩ := by
  have hmem := mem_of_opensHeader h
  clear h
  revert k
  decide +kernel

namespace ControlStatement

/-- The pieces of the label and of the keyword. -/
def front (c : ControlStatement) : List Piece :=
  (c.label.elim [] fun l => [⟨.token .ident, l⟩, ⟨.token .colon, [':']⟩, ⟨.blank, [' ']⟩]) ++
    wordPieces c.keyword

/-- The pieces of the last clause and of the block. -/
def back (c : ControlStatement) : List Piece :=
  Lexer.pieces c.last ++ ([⟨.blank, [' ']⟩, ⟨.token (.opening .brace), ['\x7b']⟩] ++
    (Lexer.pieces c.block ++ [closingBrace]))

/-- All pieces of a control statement. -/
def pieces (c : ControlStatement) : List Piece :=
  c.front ++ (clausePieces c.clauses ++ c.back)

theorem textOf_pieces (c : ControlStatement) : textOf c.pieces = c.text := by
  cases hl : c.label <;>
    simp [pieces, front, back, text, hl, textOf_clausePieces,
      Lexer.textOf_pieces, closingBrace, wordPieces]

variable {c : ControlStatement}

theorem lexed_front (h : c.WellFormed) (hqs : Lexed qs) : Lexed (c.front ++ qs) := by
  obtain ⟨hlexed, hclosed, hsolid, -⟩ := wordPieces_spec h.keyword
  have hkeyword := lexed_append_of_solid _ hlexed hclosed hsolid hqs
  unfold front
  cases hl : c.label with
  | none => exact hkeyword
  | some l =>
    have hcolon := lexed_append_of_solid [⟨.token .colon, [':']⟩, ⟨.blank, [' ']⟩]
      (lexed_cons.2 ⟨reads_cons.2 rfl, lexed_space⟩) (by decide) (by decide) hkeyword
    refine lexed_cons.2 ⟨(h.label l hl).reads ?_, hcolon⟩
    rintro d ⟨⟩
    decide

theorem lexed_back (h : c.WellFormed) : Lexed c.back := by
  have hblock := h.block.lexed_append lexed_closingBrace (by rintro d ⟨⟩; rfl)
  have hopen := lexed_append_of_solid [⟨.blank, [' ']⟩, ⟨.token (.opening .brace), ['\x7b']⟩]
    (lexed_cons.2 ⟨reads_cons.2 rfl, lexed_cons.2 ⟨reads_cons.2 rfl, lexed_nil⟩⟩) (by decide)
    (by decide) hblock
  exact h.last.lexed_append hopen (by rintro d ⟨⟩; rfl)

theorem getLast?_pieces (c : ControlStatement) : c.pieces.getLast? = some closingBrace := by
  rw [pieces, back, ← append_assoc, ← append_assoc, ← append_assoc,
    ← append_assoc, getLast?_concat]

theorem closed (h : c.WellFormed) : ∀ p ∈ c.pieces, p.isClosed = true := by
  have hfront : ∀ p ∈ c.front, p.isClosed = true := by
    obtain ⟨-, hword, -⟩ := wordPieces_spec h.keyword
    intro p hp
    rcases mem_append.1 hp with hp | hp
    · cases hl : c.label with
      | none => simp [hl] at hp
      | some l =>
        simp only [hl, Option.elim, mem_cons, not_mem_nil, or_false] at hp
        rcases hp with rfl | rfl | rfl <;> rfl
    · exact hword p hp
  have hclauses : ∀ p ∈ clausePieces c.clauses, p.isClosed = true := by
    intro p hp
    obtain ⟨t, ht, hp⟩ := mem_flatMap.1 hp
    rcases mem_append.1 hp with hp | hp
    · exact (h.clauses t ht).closed p hp
    · have hall : ∀ p ∈ clauseEnd, p.isClosed = true := by decide
      exact hall p hp
  intro p hp
  simp only [pieces, back, mem_append] at hp
  rcases hp with hp | hp | hp | hp | hp | hp
  · exact hfront p hp
  · exact hclauses p hp
  · exact h.last.closed p hp
  · revert p
    decide
  · exact h.block.closed p hp
  · revert p
    decide

theorem lexed (h : c.WellFormed) : Lexed c.pieces :=
  lexed_front h (lexed_clausePieces h.clauses (lexed_back h))

/-- Only without a label the keyword begins a header. -/
theorem walk_front (h : c.WellFormed) :
    Mode.outside.walk (kinds false c.front) = some ⟨0, c.label.isNone, true⟩ ∧
      pendingAfter false c.front = false := by
  obtain ⟨-, -, -, hpending, hwalk⟩ := wordPieces_spec h.keyword
  unfold front
  cases c.label with
  | none => exact ⟨hwalk false, hpending⟩
  | some l => exact ⟨hwalk true, hpending⟩

/-- The block ends the header and stands in its braces. -/
theorem walk_back (h : c.WellFormed) (reading : Bool) :
    Mode.walk ⟨0, reading, true⟩ (kinds false c.back) = some .whole := by
  have hblock := Mode.walk_of_nest (nest_pieces h.block.balanced)
    (mem_kinds_ne_eof (lexed_pieces c.block) false) 0 false
  have hopen :
    ∀ pending, kinds pending ([⟨.blank, [' ']⟩, ⟨.token (.opening .brace), ['\x7b']⟩] ++
      (Lexer.pieces c.block ++ [closingBrace])) =
        .opening .brace :: (kinds false (Lexer.pieces c.block) ++ [.closing .brace]) := by
    intro pending
    rw [kinds_append, kinds_append]
    cases pending <;> rfl
  have hbrace : Mode.step ⟨0, headerBehind reading (innerTokens c.last), true⟩
    (.opening .brace) =
      some ⟨0 + 0 + 1, false, true⟩ := rfl
  rw [back, kinds_append, Mode.walk_append, h.last.walk_eq, Option.bind_some, hopen,
    Mode.walk_cons, hbrace, Option.bind_some, Mode.walk_append, hblock]
  rfl

/-- A control statement that keeps its header is taken in from its front to its end. -/
theorem isStatement (h : c.WellFormed)
    (hkeeps : keepsHeader c.label.isNone c.clauses = true) :
    IsStatement c.pieces where
  whole := by
    obtain ⟨hfront, hpending⟩ := walk_front h
    obtain ⟨reading, hclauses⟩ := walk_clauses h.clauses hkeeps
    rw [pieces, kinds_append, hpending, kinds_append, pendingAfter_clausePieces,
      Mode.walk_append, hfront, Option.bind_some, Mode.walk_append, hclauses]
    exact walk_back h reading
  front := by
    unfold pieces front
    cases c.label <;> rintro p ⟨⟩ <;> rfl
  back := by
    intro p hp
    rw [getLast?_pieces] at hp
    cases hp
    rfl

/-- The tokens behind a closing brace that a text ends. -/
theorem kinds_of_endsBlock (h : EndsBlock rest) :
    ∃ ks, kinds true (Lexer.pieces rest ++ [lineEnd]) = .semi :: ks := by
  have hpieces : Lexer.pieces ('\x7d' :: rest) = closingBrace :: Lexer.pieces rest := by
    have hlexed := lexed_append_of_solid [closingBrace] lexed_closingBrace (by decide)
      (by decide) (lexed_pieces rest)
    have htext : textOf ([closingBrace] ++ Lexer.pieces rest) = '\x7d' :: rest := by
      rw [textOf_append, Lexer.textOf_pieces]
      rfl
    rw [← htext]
    exact hlexed
  have htokens := Source.tokens_ofText ('\x7d' :: rest)
  rw [hpieces] at htokens
  have hsecond : (tokenize ('\x7d' :: rest))[1]?.map Token.kind =
      (kinds true (Lexer.pieces rest ++ [lineEnd]) ++ [.eof])[0]? := by
    have htokenize : tokenize ('\x7d' :: rest) = (Source.ofText ('\x7d' :: rest)).tokens :=
      rfl
    rw [htokenize, htokens, ← getElem?_map, map_append, cons_append,
      map_kind_scan]
    rfl
  rw [EndsBlock, hsecond] at h
  cases hks : kinds true (Lexer.pieces rest ++ [lineEnd]) with
  | nil =>
    rw [hks] at h
    cases h
  | cons k ks =>
    rw [hks] at h
    cases h
    exact ⟨ks, rfl⟩

theorem pieces_append (h : c.WellFormed) (rest : Text) :
    Lexer.pieces (c.text ++ rest) = c.pieces ++ Lexer.pieces rest := by
  have hlexed : Lexed (c.pieces ++ Lexer.pieces rest) := by
    refine lexed_append_of_solid _ (lexed h) (closed h) ?_ (lexed_pieces rest)
    rw [getLast?_pieces]
    rintro p ⟨⟩
    rfl
  have htext : textOf (c.pieces ++ Lexer.pieces rest) = c.text ++ rest := by
    rw [textOf_append, textOf_pieces, Lexer.textOf_pieces]
  rw [← htext]
  exact hlexed

/-- The tokens of a text that begins with a control statement. -/
theorem statements_append (h : c.WellFormed) (rest : Text) :
    (Source.ofText (c.text ++ rest)).statements =
      Source.split 0 .initial (scan .start false c.pieces ++
        scan (Position.start.advance c.text) true (Lexer.pieces rest ++ [lineEnd])) := by
  have hpending : pendingAfter false c.pieces = true := by
    rw [pieces, back, ← append_assoc, ← append_assoc, ← append_assoc,
      ← append_assoc, pendingAfter_append]
    rfl
  rw [Source.statements_eq_split, pieces_append h, append_assoc, scan_append, hpending,
    textOf_pieces]

/-- The statements behind a control statement are those of the text behind it. -/
theorem texts_split {semi : Token} {us : List Token} (hsemi : semi.kind = .semi)
    (h : scan (Position.start.advance before) false (Lexer.pieces rest ++ [lineEnd]) = us ∨
      scan (Position.start.advance before) false (Lexer.pieces rest ++ [lineEnd]) =
        semi :: us) (i : Nat) :
    (Source.ofText (before ++ rest)).texts (Source.split i .initial us) =
      (Source.ofText rest).texts (Source.ofText rest).statements := by
  refine Source.texts_of_map_span ?_ fun st hst =>
    Source.fits_of_standsIn (Source.standsIn_of_mem hst).1
  have hmoved : Source.SplitState.Moved (Position.start.advance before).offset
      .initial .initial :=
    ⟨rfl, rfl, rfl⟩
  have hoffset : (Position.start.advance before).offset = before.byteSize := by
    simp [Position.start]
  rw [Source.statements_eq_split, ← hoffset]
  rw [scan_eq_map] at h
  rcases h with rfl | h
  · exact Source.map_span_split hmoved _ i 0
  · -- The semicolon in front is passed over.
    obtain ⟨first, more, hscan, rfl, rfl⟩ := map_eq_cons_iff.1 h
    have hpassed : Source.split 0 .initial (first :: more) = Source.split 1 .initial more :=
      @Source.split_semis [first] (by simpa using hsemi) 0 more
    rw [hscan, hpassed]
    exact Source.map_span_split hmoved more i 1

/-- A control statement that keeps its header is one statement. -/
theorem texts_of_keepsHeader (h : c.WellFormed)
    (hkeeps : keepsHeader c.label.isNone c.clauses = true) (hrest : EndsBlock rest)
    {texts : List Text}
    (htexts : (Source.ofText rest).texts (Source.ofText rest).statements = .ok texts) :
    (Source.ofText (c.text ++ rest)).texts (Source.ofText (c.text ++ rest)).statements =
      .ok (c.text :: texts) := by
  obtain ⟨ks, hks⟩ := kinds_of_endsBlock hrest
  obtain ⟨semi, us, hsemi, hscan, hother⟩ :=
    scan_of_kinds_semi hks (Position.start.advance c.text)
  have hstatement := isStatement h hkeeps
  obtain ⟨a, ts, b, htokens, hlast, hpos, hstop⟩ := hstatement.scan_eq .start
  have hrun : Mode.outside.run ((a :: ts).map Token.kind) = some .whole := by
    rw [← htokens, map_kind_scan]
    exact hstatement.isSplitOff.whole
  have hcut : Span.cut ⟨a.pos, b.stop⟩ (c.text ++ rest) = .ok ([], c.text, rest) := by
    refine Span.cut_eq_ok_iff.2 ⟨rfl, ?_, ?_⟩
    · rw [hpos]
      rfl
    · rw [hstop, textOf_pieces]
      rfl
  have hfirst : Span.slice ⟨a.pos, b.stop⟩ (c.text ++ rest) = .ok c.text := by
    rw [Span.slice, hcut]
    rfl
  rw [statements_append h, htokens, hscan, Source.split_statement hrun hlast hsemi]
  exact Source.texts_cons_eq_ok.2 ⟨hfirst, (texts_split hsemi hother _).trans htexts⟩

/-- One that does not is cut at a semicolon of the header. -/
theorem texts_ne_of_not_keepsHeader (h : c.WellFormed)
    (hkeeps : keepsHeader c.label.isNone c.clauses = false) (rest : Text)
    (texts : List Text) :
    (Source.ofText (c.text ++ rest)).texts (Source.ofText (c.text ++ rest)).statements ≠
      .ok (c.text :: texts) := by
  intro htexts
  obtain ⟨us, t, vs, hclauses, hwalk⟩ := exists_cut_of_not_keepsHeader h.clauses hkeeps
  obtain ⟨hfront, hpending⟩ := walk_front h
  -- What stands in front of the semicolon is a whole statement.
  have hwhole :
    Mode.outside.walk (kinds false (c.front ++ (clausePieces us ++ Lexer.pieces t))) =
      some .whole := by
    rw [kinds_append, hpending, Mode.walk_append, hfront]
    exact hwalk
  have hpieces : c.pieces =
      (c.front ++ (clausePieces us ++ Lexer.pieces t)) ++
        (clauseEnd ++ (clausePieces vs ++ c.back)) := by
    rw [pieces, hclauses, clausePieces_append, clausePieces_cons]
    simp only [append_assoc]
  generalize c.front ++ (clausePieces us ++ Lexer.pieces t) = ps at hwhole hpieces
  obtain ⟨a, ts, hscan⟩ : ∃ a ts, scan .start false ps = a :: ts := by
    refine exists_cons_of_ne_nil fun hnil => ?_
    rw [← map_kind_scan .start, hnil] at hwhole
    cases hwhole
  obtain ⟨b, hlast⟩ : ∃ b, (a :: ts).getLast? = some b :=
    ⟨_, getLast?_eq_some_getLast (by simp)⟩
  let semi : Token := ⟨.semi, [';'], Position.start.advance (textOf ps)⟩
  obtain ⟨more, htokens⟩ : ∃ more, scan .start false c.pieces = (a :: ts) ++ semi :: more :=
    ⟨_, by rw [hpieces, scan_append, hscan]; rfl⟩
  rw [← map_kind_scan .start, hscan] at hwhole
  rw [statements_append h, htokens, append_assoc, cons_append (a := semi),
    Source.split_statement (Mode.run_of_walk hwhole) hlast rfl] at htexts
  obtain ⟨hfirst, -⟩ := Source.texts_cons_eq_ok.1 htexts
  obtain ⟨⟨before, text, behind⟩, hcut, rfl⟩ := Checked.map_eq_ok.1 hfirst
  obtain ⟨-, -, hstop⟩ := Span.cut_eq_ok_iff.1 hcut
  -- The statement ends before the semicolon, and so is shorter than the control statement.
  have hle : b.stop ≤ semi.pos := by
    have hordered := (Source.placed (.ofText (c.text ++ rest))).ordered
    rw [Source.tokens_ofText, pieces_append h, append_assoc, scan_append, htokens,
      append_assoc, append_assoc, pairwise_append] at hordered
    exact hordered.2.2 b (mem_of_getLast? hlast) semi mem_cons_self
  have hsize := congrArg Text.byteSize (congrArg textOf hpieces)
  rw [textOf_pieces, textOf_append, Text.byteSize_append] at hsize
  have hsemi : semi.pos = Text.byteSize (textOf ps) := by
    simp [semi, Token.pos, Position.start]
  have hend : 0 < Text.byteSize (textOf (clauseEnd ++ (clausePieces vs ++ c.back))) := by
    simp [clauseEnd, Char.utf8Size_pos]
  simp only at hstop
  omega

/-- **When a control statement is one statement.**  Whatever stands behind it, the text of a
`ControlStatement` is read as one statement exactly if its clauses keep the flag for headers
up (`keepsHeader`). -/
theorem texts_statements_iff {c : ControlStatement} (h : c.WellFormed) {rest : Text}
    (hrest : EndsBlock rest) :
    ∃ texts, (Source.ofText rest).texts (Source.ofText rest).statements = .ok texts ∧
      ((Source.ofText (c.text ++ rest)).texts (Source.ofText (c.text ++ rest)).statements =
          .ok (c.text :: texts) ↔ keepsHeader c.label.isNone c.clauses = true) := by
  obtain ⟨texts, htexts⟩ : ∃ texts,
      (Source.ofText rest).texts (Source.ofText rest).statements = .ok texts :=
    Checked.mapM_ok fun st hst => Source.statementText_ok (Source.standsIn_of_mem hst).1
  refine ⟨texts, htexts, ?_, fun hkeeps => texts_of_keepsHeader h hkeeps hrest htexts⟩
  intro hall
  by_contra hkeeps
  exact texts_ne_of_not_keepsHeader h (Bool.eq_false_iff.2 hkeeps) rest texts hall

/-- A loop with a literal in the brackets of its second clause, and a call on the next
line. -/
theorem texts_statements_iff_loop :
    let c : ControlStatement :=
      ⟨none, .forKw, ["i := 0", "f(T\x7bi\x7d)"], "i++", " g(); i++ "⟩
    let rest : Text := " // end\nh()"
    c.WellFormed ∧ EndsBlock rest ∧
      (Source.ofText (c.text ++ rest)).texts (Source.ofText (c.text ++ rest)).statements =
        .ok [c.text, "h()"] := by
  intro c rest
  have hc : c.WellFormed :=
    ⟨by simp [c], rfl, by decide +kernel, by decide +kernel, by decide +kernel⟩
  have hrest : EndsBlock rest := by decide +kernel
  obtain ⟨texts, htexts, hiff⟩ := texts_statements_iff hc hrest
  have htexts' : (Source.ofText rest).texts (Source.ofText rest).statements =
      .ok ["h()"] := by
    decide +kernel
  obtain rfl := Except.ok.inj (htexts.symm.trans htexts')
  exact ⟨hc, hrest, hiff.2 (by decide +kernel)⟩

/-- Behind a label no header is read, and braces in a clause end it: these two fall apart. -/
theorem not_one_statement :
    let labelled : ControlStatement := ⟨some "L", .forKw, ["i := 0", "i < 3"], "i++", " x() "⟩
    let literal : ControlStatement :=
      ⟨none, .ifKw, ["x := []int\x7b1\x7d"], "x != nil", " y() "⟩
    labelled.WellFormed ∧ literal.WellFormed ∧
      (Source.ofText labelled.text).texts (Source.ofText labelled.text).statements =
        .ok ["L: for i := 0", "i < 3", "i++ \x7b x() \x7d"] ∧
      (Source.ofText literal.text).texts (Source.ofText literal.text).statements =
        .ok ["if x := []int\x7b1\x7d", "x != nil \x7b y() \x7d"] := by
  intro labelled literal
  refine ⟨⟨?_, rfl, by decide +kernel, by decide +kernel, by decide +kernel⟩,
    ⟨by simp [literal], rfl, by decide +kernel, by decide +kernel, by decide +kernel⟩,
    by decide +kernel, by decide +kernel⟩
  rintro l ⟨⟩
  exact ⟨⟨'L', [], rfl, by decide, by simp⟩, by decide⟩

end ControlStatement

end Notebook
