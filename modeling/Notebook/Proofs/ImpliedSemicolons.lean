import Notebook.Proofs.Tiling

/-!
# Where line ends imply semicolons

The lexer carries one bit from token to token and puts semicolons in at three different
places: at a line feed, behind a block comment, and at the end of the text.  The rule that
comes of it speaks of spelled tokens and of the text between them alone.  A semicolon is
implied behind a token that can end a statement if a line ends before the next token, or if
there is none; and nowhere else.

## Main statements

* `Lexer.map_scan_gap`: what one gap adds
* `tokenize_withImplied`: the tokens of a text are its spelled tokens with the semicolons of
  the rule
-/

namespace Notebook

open Lexer List

/-- Whether a line ends between two offsets of a text. -/
def endsLineBetween (t : Text) (start stop : Nat) : Bool :=
  (Span.slice ⟨start, stop⟩ t).toOption.any fun gap => gap.contains '\n'

/-- Whether a semicolon is implied behind a spelled token, by the next one. -/
def impliesSemi (t : Text) (k : Token) (next? : Option Token) : Bool :=
  k.kind.endsStatement && next?.all fun next => endsLineBetween t k.stop next.pos

/-- Spelled tokens of a text, and `none` for every semicolon that is implied behind one of
them. -/
def withImplied (t : Text) : List Token → List (Option Token)
  | [] => []
  | k :: ks =>
    some k :: ((if impliesSemi t k ks.head? then [none] else []) ++ withImplied t ks)

/-- A token, unless it is an implied semicolon. -/
def Token.unlessImplied (k : Token) : Option Token :=
  if k.isImpliedSemi then none else some k

theorem Token.unlessImplied_of_isSpelled {k : Token} (h : k.isSpelled = true) :
    k.unlessImplied = some k := by
  simp only [isSpelled, Bool.not_eq_true'] at h
  simp [unlessImplied, isImpliedSemi, h]

namespace Lexer

theorem tokensOf_append (here : Position) (pending : Bool) (ps qs : List Piece) :
    tokensOf here pending (ps ++ qs) = scan here pending ps ++
      tokensOf (here.advance (textOf ps)) (pendingAfter pending ps) qs := by
  rw [tokensOf_eq, scan_append, tokensOf_eq, textOf_append, Position.advance_append,
    pendingAfter_append, append_assoc]

theorem tokensOf_token {p : Piece} {k : TokenKind} (h : p.kind = .token k) (here : Position)
    (pending : Bool) (ps : List Piece) : tokensOf here pending (p :: ps) =
      ⟨k, p.text, here⟩ :: tokensOf (here.advance p.text) k.endsStatement ps := by
  rw [tokensOf, h]

/-- A gap adds one semicolon if one is due and a line ends in it, and then none is due behind
it. -/
theorem map_scan_gap {fs : List Piece} (h : ∀ p ∈ fs, p.isToken = false) (here : Position)
    (pending : Bool) :
    (scan here pending fs).map Token.unlessImplied =
        (if pending && (textOf fs).contains '\n' then [none] else []) ∧
      pendingAfter pending fs = (pending && !(textOf fs).contains '\n') := by
  induction fs generalizing here pending with
  | nil => cases pending <;> exact ⟨rfl, rfl⟩
  | cons p fs ih =>
    obtain ⟨hp, hfs⟩ := forall_mem_cons.1 h
    obtain ⟨hscan, hpending⟩ := ih hfs
      (here.advance p.text) (p.pendingBehind pending)
    have hlines : (textOf (p :: fs)).contains '\n' =
        (Piece.endsLine p || (textOf fs).contains '\n') := by
      simp [textOf_cons, Piece.endsLine]
    have hbehind : p.pendingBehind pending = (pending && !Piece.endsLine p) := by
      unfold Piece.isToken at hp
      unfold Piece.pendingBehind
      cases hk : p.kind with
      | token k =>
        rw [hk] at hp
        cases hp
      | _ => rfl
    have hemitted : (p.emitted here pending).map Token.unlessImplied =
        if pending && Piece.endsLine p then [none] else [] := by
      unfold Piece.isToken at hp
      unfold Piece.emitted
      cases hk : p.kind with
      | token k =>
        rw [hk] at hp
        cases hp
      | blank => dsimp only; split <;> rfl
      | comment => dsimp only; split <;> rfl
    rw [scan_cons, map_append, hscan, pendingAfter_cons, hpending, hemitted,
      hbehind, hlines]
    cases pending <;> cases Piece.endsLine p <;> cases (textOf fs).contains '\n' <;>
      exact ⟨rfl, rfl⟩

end Lexer

/-- A line ends between the ends of a part of a text if it holds a line feed. -/
theorem endsLineBetween_eq (before gap behind : Text) :
    endsLineBetween (before ++ gap ++ behind) before.byteSize
      (before.byteSize + gap.byteSize) =
      gap.contains '\n' := by
  have hcut : Span.cut ⟨before.byteSize, before.byteSize + gap.byteSize⟩
    (before ++ gap ++ behind) =
      .ok (before, gap, behind) := Span.cut_eq_ok_iff.2 ⟨rfl, rfl, rfl⟩
  rw [endsLineBetween, Span.slice, hcut]
  rfl

/-- The tokens of the pieces behind a text.  `pending` stands for a token in front that can
end a statement, and the rule is applied to it as to the others. -/
theorem map_tokensOf {ps : List Piece} (hps : ∀ p ∈ ps, p.text ≠ []) (before : Text)
    (pending : Bool) :
    (tokensOf (Position.start.advance before) pending ps).map Token.unlessImplied =
      (if pending && (spelled (Position.start.advance before) ps).head?.all fun next =>
          endsLineBetween (before ++ textOf ps) before.byteSize next.pos then
            [none] else []) ++
        withImplied (before ++ textOf ps) (spelled (Position.start.advance before) ps) ++
        [some (Token.eof (Position.start.advance (before ++ textOf ps)))] := by
  induction ps using gap_induction generalizing before pending with
  | gap fs hfs =>
    obtain ⟨hscan, hpending⟩ := map_scan_gap hfs (Position.start.advance before) pending
    rw [tokensOf_eq, map_append, hscan, hpending, ← Position.advance_append,
      spelled_of_noTokens hfs]
    cases pending <;> cases (textOf fs).contains '\n' <;> rfl
  | token fs p k ps hfs hk ih =>
    let here := Position.start.advance before
    let token : Token := ⟨k, p.text, Position.start.advance (before ++ textOf fs)⟩
    let behind := before ++ textOf fs ++ p.text
    have hhere : here.advance (textOf fs) = token.start := (Position.advance_append ..).symm
    have hthere : token.start.advance p.text = Position.start.advance behind :=
      (Position.advance_append ..).symm
    have hpos : token.pos = before.byteSize + (textOf fs).byteSize := by
      show (Position.start.advance (before ++ textOf fs)).offset = _
      rw [Position.offset_advance, Text.byteSize_append, Position.start, Nat.zero_add]
    have hstop : behind.byteSize = token.stop := by
      rw [Text.byteSize_append, Text.byteSize_append, ← hpos]
      rfl
    have hspelled : spelled here (fs ++ p :: ps) =
        token :: spelled (Position.start.advance behind) ps := by
      rw [spelled_append, spelled_of_noTokens hfs, nil_append, hhere,
        spelled_token hk, hthere]
    have htokens : tokensOf here pending (fs ++ p :: ps) = scan here pending fs ++
        token :: tokensOf (Position.start.advance behind) k.endsStatement ps := by
      rw [tokensOf_append, hhere, tokensOf_token hk, hthere]
    have hgap : endsLineBetween (before ++ textOf (fs ++ p :: ps)) before.byteSize token.pos =
        (textOf fs).contains '\n' := by
      rw [hpos, textOf_append, ← append_assoc]
      exact endsLineBetween_eq before (textOf fs) (textOf (p :: ps))
    -- The token is what is pending for the pieces behind it.
    have hrest := ih (fun q hq => hps q (by simp [hq])) behind k.endsStatement
    rw [show behind ++ textOf ps = before ++ textOf (fs ++ p :: ps) by simp [behind],
      hstop] at hrest
    rw [htokens, hspelled, map_append, (map_scan_gap hfs here pending).1,
      map_cons, hrest, Token.unlessImplied_of_isSpelled
        (Token.isSpelled_iff.2 (hps p (by simp))), head?_cons,
      Option.all_some, hgap, withImplied, impliesSemi]
    simp only [append_assoc, cons_append, token]

/-- **Line ends imply semicolons by the rule.**  The tokens of a text are its spelled tokens
in order, `withImplied` semicolons behind exactly those that can end a statement and that are
the last one or have a line end before the next one, and the end. -/
theorem tokenize_withImplied (t : Text) :
    (tokenize t).map Token.unlessImplied =
      withImplied t ((tokenize t).filter Token.isSpelled) ++
        [some (Token.eof (Position.start.advance t))] := by
  have h := map_tokensOf (fun p hp => (lexed_pieces t).text_ne_nil hp) [] false
  rw [nil_append, textOf_pieces] at h
  rw [filter_isSpelled_tokenize]
  exact h

end Notebook
