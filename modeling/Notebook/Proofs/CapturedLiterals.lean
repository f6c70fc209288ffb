import Notebook.Proofs.Clauses
import Notebook.Proofs.PlainTurns

/-!
# Captured function literals

A function literal is cut out of the input that binds it and put into every later program.
There it has to be what it was: one value of one statement.  The value of a name is a part of
its clause that no bracket, no comma and no semicolon outside brackets divides, so the text
from its first token to its last can stand on a line of its own.

## Main statements

* `isFunctionValue_of_mem_inputCaptures`: a captured function literal is one value
* `isIdentifier_of_mem_inputCaptures`: a captured name is an identifier
-/

namespace Notebook

open Lexer List

variable {body ps : List Piece} {p xs ys : List Token} {here : Position} {l n t : Text}
  {k : Token}

/-- In what binds a name no `else` stands outside brackets. -/
def BindsPlainly (t : Text) : Prop :=
  ∀ st ∈ (Source.ofText t).statements, (Source.ofText t).bindings st ≠ [] →
    ∀ clause ∈ Source.clausesOf ((Source.ofText t).tokensOf st),
      ∀ k ∈ Source.topLevel 0 clause, k.kind ≠ .keyword .elseKw

instance (t : Text) : Decidable (BindsPlainly t) :=
  inferInstanceAs (Decidable (∀ _ ∈ _, _ → ∀ _ ∈ _, ∀ _ ∈ _, _))

namespace Source

/-! ### Tokens in another place -/

section Move

variable (here : Position)

theorem declarationClauses_move (ts : List Token) :
    declarationClauses (ts.map (Token.move here)) =
      (declarationClauses ts).map (List.map (Token.move here)) := by
  cases ts with
  | nil => rfl
  | cons t us =>
    have hindex := closingIndex_move here 0 (t :: us)
    rw [map_cons] at hindex ⊢
    simp only [declarationClauses, Token.kind_move, hindex]
    by_cases hparen : t.kind = .opening .paren
    · rw [if_pos hparen, if_pos hparen]
      cases closingIndex 0 (t :: us) with
      | none => rfl
      | some n =>
        dsimp only
        generalize hinner : us.take (n - 1) = inner
        rw [← map_take, hinner]
        -- The splitting sees kinds alone, so it finds the same ranges.
        have hkinds : (inner.map (Token.move here)).map Token.kind =
            inner.map Token.kind := by
          rw [map_map]
          rfl
        have hranges := map_range_split hkinds (shifted_initial 0) 0
        simp only [Nat.zero_add, Prod.mk.eta, map_id'] at hranges
        have hparts : ∀ us : List Token,
            ((split 0 .initial us).map fun spec => part us spec.range) =
              ((split 0 .initial us).map Statement.range).map (part us) := by
          intro us
          rw [map_map]
          rfl
        rw [hparts, hranges, hparts, map_map, map_map, map_map]
        refine map_congr_left fun spec _ => ?_
        exact part_move here inner spec.range
    · rw [if_neg hparen, if_neg hparen]
      rfl

theorem clausesOf_move (ts : List Token) :
    clausesOf (ts.map (Token.move here)) = (clausesOf ts).map
      (List.map (Token.move here)) := by
  cases ts with
  | nil => rfl
  | cons t us =>
    rw [map_cons]
    simp only [clausesOf, Token.kind_move, declarationClauses_move]
    split <;> rfl

end Move

end Source

/-! ### Values as texts -/

theorem Lexer.kind_of_mem_endTokens {pending : Bool} (h : k ∈ endTokens here pending) :
    k.kind = .semi ∨ k.kind = .eof := by
  cases pending with
  | false =>
    rw [mem_singleton.1 h]
    exact .inr rfl
  | true =>
    rcases mem_pair.1 h with rfl | rfl
    · exact .inl rfl
    · exact .inr rfl

theorem Lexer.kind_ne_eof_of_mem_scan (h : Lexed ps) (hk : k ∈ scan here false ps) :
    k.kind ≠ .eof := by
  intro hkind
  refine mem_kinds_ne_eof h false ?_
  rw [← map_kind_scan here, ← hkind]
  exact mem_map_of_mem hk

theorem StandsAlone.isWhole (h : StandsAlone ps) : IsWhole (textOf ps) := by
  have hclosed : LexicallyClosed (textOf ps) := by
    intro p hp
    rw [h.pieces_textOf] at hp
    exact h.closed p hp
  refine ⟨hclosed, ?_, ?_⟩
  · rw [balanced_iff, h.pieces_textOf]
    exact Mode.nest_of_walk h.isStatement.whole
  · have hspells := h.laid.statements hclosed
    obtain ⟨st, sts, hst, hsts, hstatements⟩ := forall₂_cons_right_iff.1 hspells
    cases hsts
    refine ⟨st, hstatements, ?_, ?_⟩
    · obtain ⟨before, behind, htext, hstart⟩ := hst.exists_text
      obtain ⟨here, -, hspan⟩ := hst.tokensOf_eq
      have hbefore : before = [] := by
        have hlength := congrArg List.length htext
        simp only [Source.ofText, length_append] at hlength
        exact length_eq_zero_iff.1 (by omega)
      rw [hspan] at hstart
      rw [hbefore] at hstart
      have hzero : here.offset = 0 := hstart
      rw [hspan, hzero, Nat.zero_add]
    · rw [hst.terminator]
      exact Option.some_ne_none _

/-- The first and the last token of a function literal. -/
theorem kinds_of_isFunctionLiteral {p q : Piece} {k l : TokenKind} (h : Lexed ps)
    (hp : ps.head? = some p) (hk : p.kind = .token k) (hq : ps.getLast? = some q)
    (hl : q.kind = .token l) (hfunction : isFunctionLiteral (textOf ps) = true) :
    k = .keyword .funcKw ∧ l = .closing .brace := by
  obtain ⟨rest, hrest⟩ := head?_eq_some_iff.1 hp
  obtain ⟨front, hfront⟩ := getLast?_eq_some_iff.1 hq
  have hhead : (spelled .start ps).head? = some ⟨k, p.text, .start⟩ := by
    rw [hrest, spelled_token hk]
    rfl
  have hlast : (spelled .start ps).getLast? =
      some ⟨l, q.text, Position.start.advance (textOf front)⟩ := by
    rw [hfront, spelled_append, spelled_token hl, spelled, getLast?_concat]
  unfold isFunctionLiteral at hfunction
  rw [filter_written_tokenize, filter_isSpelled_tokenize, h] at hfunction
  dsimp only at hfunction
  split at hfunction
  next a b ts heq =>
    rw [heq] at hhead hlast hfunction
    cases hhead
    simp only [hlast, Option.any_some, Bool.and_eq_true, beq_iff_eq] at hfunction
    exact ⟨hfunction.1.1, hfunction.2⟩
  · cases hfunction

namespace Source.IsValue

variable (h : IsValue p)

include h

/-- A value begins and ends with no semicolon. -/
theorem head_ne_semi {a : Token} (ha : p.head? = some a) : a.kind ≠ .semi := by
  obtain ⟨ts, rfl⟩ := head?_eq_some_iff.1 ha
  intro hsemi
  have hmem : a ∈ topLevel 0 [a] := (mem_topLevel_singleton (by rw [hsemi]; rfl)).2 rfl
  refine (h.plain a ?_).1 hsemi
  rw [topLevel_cons (d := 0) (by rw [hsemi]; rfl)]
  exact mem_append_left _ hmem

theorem last_ne_semi {b : Token} (hb : p.getLast? = some b) : b.kind ≠ .semi := by
  obtain ⟨ts, rfl⟩ := getLast?_eq_some_iff.1 hb
  intro hsemi
  have hbalanced := h.balanced
  rw [map_append, nest_append] at hbalanced
  obtain ⟨d, hd, hlast⟩ := Option.bind_eq_some_iff.1 hbalanced
  have hzero : d = 0 := by
    rw [map_singleton, hsemi] at hlast
    exact Option.some.inj hlast
  have hmem : b ∈ topLevel d [b] := (mem_topLevel_singleton (by rw [hsemi]; rfl)).2 hzero
  refine (h.plain b ?_).1 hsemi
  rw [topLevel_append hd]
  exact mem_append_right _ hmem

/-- A value that begins with a word that opens no header is one statement. -/
theorem walk_eq (heof : ∀ t ∈ p, t.kind ≠ .eof)
    (hfront : p.head?.map Token.kind = some (.keyword .funcKw)) :
    Mode.outside.walk (p.map Token.kind) = some .whole := by
  obtain ⟨a, ha, hkind⟩ := Option.map_eq_some_iff.1 hfront
  obtain ⟨ts, rfl⟩ := head?_eq_some_iff.1 ha
  refine h.toIsClause.walk_eq (fun t ht => heof t (mem_cons_of_mem a ht)) ?_
  rw [hkind]
  rfl

end Source.IsValue

/-- The pieces of a value: from a token to a token, and with the tokens of the value. -/
theorem exists_pieces_of_value (hlexed : Lexed body)
    (hbody : scan .start false body = xs ++ p ++ ys) (hp : Source.IsValue p) {v : Span}
    (hv : Source.extent p = some v) (hl : v.slice (textOf body) = .ok l) :
    ∃ front mid back here, body = front ++ mid ++ back ∧ l = textOf mid ∧
      p = (scan .start false mid).map (Token.move here) ∧
      (∃ q k, mid.head? = some q ∧ q.kind = .token k) ∧
      ∃ q k, mid.getLast? = some q ∧ q.kind = .token k := by
  obtain ⟨a, ha⟩ : ∃ a, p.head? = some a :=
    Option.ne_none_iff_exists'.1 (by simpa using hp.ne_nil)
  obtain ⟨b, hb⟩ : ∃ b, p.getLast? = some b :=
    Option.ne_none_iff_exists'.1 (by simpa using hp.ne_nil)
  have hspelled : ∀ k ∈ p, k.kind ≠ .semi → k.isSpelled = true := by
    intro k hk hsemi
    have hscan : k ∈ scan .start false body := by
      rw [hbody]
      exact mem_append_left _ (mem_append_right _ hk)
    have heof := kind_ne_eof_of_mem_scan hlexed hscan
    have htoken : k ∈ tokenize (textOf body) := by
      rw [tokenize_eq, hlexed]
      exact mem_append_left _ hscan
    rcases tokenize_lexeme htoken with ⟨-, hkind | hkind⟩ | ⟨c, r, hcons, -⟩
    · exact absurd hkind hsemi
    · exact absurd hkind heof
    · rw [Token.isSpelled_iff, hcons]
      exact cons_ne_nil c r
  obtain ⟨front, mid, back, hpieces, hastart, hmade, ⟨first, hfirst, hfirstKind⟩,
      ⟨last, hlast, hlastKind⟩, hstop⟩ :=
    exists_slice hbody ha hb (hspelled a (mem_of_head? ha) (hp.head_ne_semi ha))
      (hspelled b (mem_of_getLast? hb) (hp.last_ne_semi hb))
  refine ⟨front, mid, back, a.start, hpieces, ?_, ?_, ⟨first, _, hfirst, hfirstKind⟩,
    ⟨last, _, hlast, hlastKind⟩⟩
  · have htext : textOf body = textOf front ++ textOf mid ++ textOf back := by
      rw [hpieces, textOf_append, textOf_append]
    have hpos : a.pos = (textOf front).byteSize := by
      rw [Token.pos, hastart, Position.offset_advance, Position.start, Nat.zero_add]
    have hextent : v = ⟨a.pos, b.stop⟩ := by
      rw [Source.extent, ha, hb] at hv
      exact (Option.some.inj hv).symm
    rw [hextent, Span.slice, Span.cut_eq_ok_iff.2 ⟨htext, hpos, by rw [hstop, hpos]⟩] at hl
    exact (Except.ok.inj hl).symm
  · obtain ⟨rest, hrest⟩ := head?_eq_some_iff.1 hfirst
    rw [← scan_eq_map, ← hmade, hrest]
    exact scan_of_token hfirstKind _ _ _

/-- A value that is a function literal can stand on a line of its own. -/
theorem standsAlone_of_value {mid : List Piece} (hlexed : Lexed mid)
    (hclosed : ∀ q ∈ mid, q.isClosed = true)
    (hscan : p = (scan .start false mid).map (Token.move here)) (hp : Source.IsValue p)
    (hfirst : ∃ q k, mid.head? = some q ∧ q.kind = .token k)
    (hlast : ∃ q k, mid.getLast? = some q ∧ q.kind = .token k)
    (hfunction : isFunctionLiteral (textOf mid) = true) : StandsAlone mid := by
  obtain ⟨first, k, hfirst, hk⟩ := hfirst
  obtain ⟨last, l, hlast, hl⟩ := hlast
  obtain ⟨rfl, rfl⟩ := kinds_of_isFunctionLiteral hlexed hfirst hk hlast hl hfunction
  have hkinds : kinds false mid = p.map Token.kind := by
    rw [← map_kind_scan .start, hscan, map_map]
    rfl
  refine ⟨hlexed, hclosed, ⟨?_, ?_, ?_⟩, ?_⟩
  · rw [hkinds]
    refine hp.walk_eq ?_ ?_
    · intro t ht
      rw [hscan] at ht
      obtain ⟨u, hu, rfl⟩ := mem_map.1 ht
      rw [Token.kind_move]
      exact kind_ne_eof_of_mem_scan hlexed hu
    · obtain ⟨rest, hrest⟩ := head?_eq_some_iff.1 hfirst
      rw [← head?_map, ← hkinds, hrest, kinds_cons, Piece.emittedKinds, hk]
      rfl
  · intro q hq
    cases hfirst.symm.trans hq
    exact Piece.isToken_iff.2 ⟨_, hk⟩
  · intro q hq
    cases hlast.symm.trans hq
    exact Piece.isToken_iff.2 ⟨_, hl⟩
  · obtain ⟨others, hothers⟩ := getLast?_eq_some_iff.1 hlast
    rw [hothers, pendingAfter_append, pendingAfter_cons, pendingAfter_nil,
      Piece.pendingBehind, hl]
    rfl

/-- The value of a name that is a function literal is one value on its own. -/
theorem isFunctionValue_of_value (hlexed : Lexed body)
    (hclosed : ∀ p ∈ body, p.isClosed = true) (hbody : scan .start false body = xs ++ p ++ ys)
    (hp : Source.IsValue p) {v : Span} (hv : Source.extent p = some v)
    (hl : v.slice (textOf body) = .ok l) (hfunction : isFunctionLiteral l = true) :
    IsFunctionValue l ∧ l <:+: textOf body := by
  obtain ⟨front, mid, back, here, rfl, rfl, hscan, hfirst, hlast⟩ :=
    exists_pieces_of_value hlexed hbody hp hv hl
  have hmid : Lexed mid := hlexed.left.right
  have halone : StandsAlone mid := by
    refine standsAlone_of_value hmid (fun q hq => hclosed q ?_) hscan hp hfirst
      hlast hfunction
    exact mem_append_left _ (mem_append_right _ hq)
  refine ⟨⟨⟨halone.isWhole, hfunction⟩, ?_⟩, ⟨textOf front, textOf back, by simp⟩⟩
  intro k hk
  have hnest : nest 0 ((scan .start false mid).map Token.kind) = some 0 := by
    rw [map_kind_scan]
    exact Mode.nest_of_walk halone.isStatement.whole
  rw [tokenize_eq, hmid, Source.topLevel_append hnest] at hk
  rcases mem_append.1 hk with hk | hk
  · have hmoved : k.move here ∈ Source.topLevel 0 p := by
      rw [hscan, Source.topLevel_move]
      exact mem_map_of_mem hk
    have hcomma := hp.single _ hmoved
    exact hcomma
  · rcases kind_of_mem_endTokens (Source.mem_of_mem_topLevel hk) with hkind | hkind <;>
      rw [hkind] <;> decide

/-! ### What an input captures -/

/-- A captured name is an identifier. -/
theorem isIdentifier_of_mem_inputCaptures {p : NamedLiteral} (h : p ∈ inputCaptures t) :
    IsIdentifier p.1 ∧ p.1 ≠ blankName := by
  obtain ⟨b, hb, hp⟩ := mem_filterMap.1 h
  obtain ⟨c, hc, rfl⟩ := Option.map_eq_some_iff.1 hp
  obtain ⟨st, -, hb⟩ := mem_flatMap.1 hb
  have hcapture := PersistencePlan.captured_eq_some_iff.1 hc
  rw [Capture.named, (PersistencePlan.capture?_name_pos hcapture).1]
  exact ⟨isIdentifier_of_mem_bindings hb, (PersistencePlan.capture?_eq_some_iff.1 hcapture).1⟩

/-- A function literal that the pieces of a statement capture is one value. -/
theorem isFunctionValue_of_mem_capturesOf (hlexed : Lexed body)
    (hclosed : ∀ p ∈ body, p.isClosed = true) (hstatement : IsStatement body)
    (hplain : ∀ clause ∈ Source.clausesOf (scan .start false body),
      ∀ k ∈ Source.topLevel 0 clause, k.kind ≠ .keyword .elseKw)
    (h : (n, some l) ∈ capturesOf body) : IsFunctionValue l ∧ l <:+: textOf body := by
  obtain ⟨b, hb, hp⟩ := mem_filterMap.1 h
  obtain ⟨c, hc, hnamed⟩ := Option.map_eq_some_iff.1 hp
  have hliteral : c.literal = some l := congrArg Prod.snd hnamed
  rw [PersistencePlan.capture?_literal_eq
    (PersistencePlan.captured_eq_some_iff.1 hc)] at hliteral
  obtain ⟨v, hv, hslice, hfunction⟩ := PersistencePlan.exists_value_of_literalOf? hliteral
  have hwalk : Mode.outside.walk ((scan .start false body).map Token.kind) = some .whole := by
    rw [map_kind_scan]
    exact hstatement.whole
  obtain ⟨p, xs, ys, hbody, hvalue, hextent⟩ := Source.exists_value_of_bindingsOf hwalk
    (fun k hk => kind_ne_eof_of_mem_scan hlexed hk) hplain hb hv
  exact isFunctionValue_of_value hlexed hclosed hbody hvalue hextent hslice hfunction

/-- A captured function literal is one value, and a part of the input. -/
theorem isFunctionValue_of_mem_inputCaptures (ht : IsPlainInput t) (hplain : BindsPlainly t)
    (h : (n, some l) ∈ inputCaptures t) : IsFunctionValue l ∧ ¬inputMark <:+: l := by
  obtain ⟨rows, hrows⟩ := ht.exists_rowsOf
  rw [← hrows.flatMap_capturesOf] at h
  obtain ⟨body, hbody, h⟩ := mem_flatMap.1 h
  obtain ⟨hlexed, hclosed, hstatement⟩ := hrows.laid.lexed_of_mem hbody
  rw [← Row.map_body_paired 0 .start] at hbody
  obtain ⟨⟨st, row⟩, hpair, rfl⟩ := mem_map.1 hbody
  have hspells := hrows.spells _ hpair
  have hst : st ∈ (Source.ofText t).statements := by
    rw [hrows.statements]
    exact mem_map_of_mem hpair
  have hbinds : (Source.ofText t).bindings st ≠ [] := by
    intro hnil
    rw [← hspells.captures_eq hlexed, hnil] at h
    cases h
  have hclauses : ∀ clause ∈ Source.clausesOf (scan .start false row.body),
      ∀ k ∈ Source.topLevel 0 clause, k.kind ≠ .keyword .elseKw := by
    obtain ⟨here, htokens, -⟩ := hspells.tokensOf_eq
    intro clause hclause k hk
    have hmoved := hplain st hst hbinds
    rw [htokens, scan_eq_map, Source.clausesOf_move] at hmoved
    refine hmoved _ (mem_map_of_mem hclause) (k.move here) ?_
    rw [Source.topLevel_move]
    exact mem_map_of_mem hk
  obtain ⟨hvalue, hwithin⟩ :=
    isFunctionValue_of_mem_capturesOf hlexed hclosed hstatement hclauses h
  refine ⟨hvalue, fun hmark => mark_notInfix_of_tail ht.free ?_⟩
  obtain ⟨before, behind, htext, -⟩ := hspells.exists_text
  have hpart : textOf row.body <:+: t := ⟨before, behind, htext.symm⟩
  exact hmark.trans (hwithin.trans hpart)

end Notebook
