import Notebook.Proofs.Spans
import Notebook.Token.Lexer

/-!
# Where tokens stand

The tokens of a text stand in it: the characters of each are found at its offset, and each
begins no earlier than the one before it ends.  Both follow the two passes of the lexer: the
pieces make up the text, and the second pass keeps the offset of what it has passed.

## Main statements

* `tokenize_placed`: the tokens of a text are placed in it
* `tokenize_lexeme`: only semicolons and the end cover nothing, and no token begins with a
  blank
-/

namespace Notebook

open List

variable {pending : Bool} {ps : List Piece} {i j : Nat} {here : Position} {t : Text}
  {a b k : Token}

/-- A token whose characters stand in a text at its offset. -/
def Token.StandsIn (k : Token) (t : Text) : Prop :=
  ∃ a b, t = a ++ k.lexeme ++ b ∧ Text.byteSize a = k.pos

namespace Token.StandsIn

theorem isBoundary_pos (h : k.StandsIn t) : t.IsBoundary k.pos := by
  obtain ⟨a, b, rfl, ha⟩ := h
  exact ⟨a, k.lexeme ++ b, by simp, ha⟩

theorem isBoundary_stop (h : k.StandsIn t) : t.IsBoundary k.stop := by
  obtain ⟨a, b, rfl, ha⟩ := h
  exact ⟨a ++ k.lexeme, b, rfl, by simp [Token.stop, Token.size, ha]⟩

end Token.StandsIn

theorem Token.pos_le_stop (k : Token) : k.pos ≤ k.stop :=
  Nat.le_add_right _ _

/-- Tokens that stand in a text, each behind the end of those before it. -/
structure Placed (t : Text) (ts : List Token) : Prop where
  standsIn : ∀ k ∈ ts, k.StandsIn t
  ordered : ts.Pairwise fun a b => a.stop ≤ b.pos

namespace Placed

variable {ts us : List Token}

/-- A part of placed tokens is placed. -/
theorem sublist (h : Placed t ts) (hs : us.Sublist ts) : Placed t us :=
  ⟨fun k hk => h.standsIn k (hs.subset hk), h.ordered.sublist hs⟩

theorem nil (t : Text) : Placed t [] :=
  ⟨by simp, List.Pairwise.nil⟩

/-- A token in front of placed ones is placed if none of them begins before its end. -/
theorem cons (hk : k.StandsIn t) (hle : ∀ b ∈ ts, k.stop ≤ b.pos) (h : Placed t ts) :
    Placed t (k :: ts) := by
  refine ⟨?_, pairwise_cons.2 ⟨hle, h.ordered⟩⟩
  exact forall_mem_cons.2 ⟨hk, h.standsIn⟩

/-- The later of two tokens, by number, begins behind the end of the other. -/
theorem stop_le_pos (h : Placed t ts) (ha : ts[i]? = some a) (hb : ts[j]? = some b)
    (hij : i < j) : a.stop ≤ b.pos := by
  obtain ⟨hi, rfl⟩ := List.getElem?_eq_some_iff.1 ha
  obtain ⟨hj, rfl⟩ := List.getElem?_eq_some_iff.1 hb
  exact pairwise_iff_getElem.1 h.ordered i j hi hj hij

/-- From the start of one token to the end of the same or a later one a text can be read. -/
theorem fits (h : Placed t ts) (ha : ts[i]? = some a) (hb : ts[j]? = some b) (hij : i ≤ j) :
    Span.Fits ⟨a.pos, b.stop⟩ t := by
  refine ⟨?_, (h.standsIn a (mem_of_getElem? ha)).isBoundary_pos,
    (h.standsIn b (mem_of_getElem? hb)).isBoundary_stop⟩
  rcases Nat.lt_or_eq_of_le hij with hlt | rfl
  · calc a.pos ≤ a.stop := a.pos_le_stop
      _ ≤ b.pos := h.stop_le_pos ha hb hlt
      _ ≤ b.stop := b.pos_le_stop
  · obtain rfl : a = b := by simpa [ha] using hb
    exact a.pos_le_stop

end Placed

namespace Lexer

/-! ### The pieces -/

/-- A piece that is a token begins with the first character of the text, which is no blank. -/
theorem firstPiece_token {c : Char} {k : TokenKind} (h : (firstPiece c t).1.kind = .token k) :
    isBlank c = false ∧ ∃ r, (firstPiece c t).1.text = c :: r := by
  have hblank : isBlank c = false := by
    cases hb : isBlank c with
    | false => rfl
    | true => simp [firstPiece, hb] at h
  -- A piece is not empty, and it stands at the front of the text.
  refine ⟨hblank, ?_⟩
  have happend := firstPiece_append c t
  cases htext : (firstPiece c t).1.text with
  | nil => exact absurd htext (firstPiece_text_ne_nil c t)
  | cons d r =>
    rw [htext] at happend
    exact ⟨r, by rw [(List.cons.inj happend).1]⟩

/-- Pieces that are tokens cover something, and begin with no blank. -/
theorem pieces_token {p : Piece} {k : TokenKind} (hp : p ∈ pieces t)
    (hk : p.kind = .token k) : ∃ c r, p.text = c :: r ∧ isBlank c = false := by
  fun_induction pieces t with
  | case1 => simp at hp
  | case2 c t ih =>
    rcases mem_cons.1 hp with rfl | hp
    · obtain ⟨hblank, r, hr⟩ := firstPiece_token hk
      exact ⟨c, r, hr, hblank⟩
    · exact ih hp

/-! ### The second pass -/

/-- The tokens of pieces begin where the pieces begin, or behind. -/
theorem offset_le_pos_of_mem_tokensOf (hk : k ∈ tokensOf here pending ps) :
    here.offset ≤ k.pos := by
  induction ps generalizing here pending with
  | nil =>
    cases pending <;> simp [tokensOf] at hk <;> rcases hk with rfl | rfl <;>
      exact Nat.le_refl _
  | cons p ps ih =>
    have hbehind : ∀ pending,
        k ∈ tokensOf (here.advance p.text) pending ps → here.offset ≤ k.pos := by
      intro pending hk
      have := ih hk
      rw [Position.offset_advance] at this
      omega
    unfold tokensOf at hk
    split at hk
    · rcases mem_cons.1 hk with rfl | hk
      · exact Nat.le_refl _
      · exact hbehind _ hk
    all_goals
      split at hk
      · rcases mem_cons.1 hk with rfl | hk
        · exact Nat.le_refl _
        · exact hbehind _ hk
      · exact hbehind _ hk

/-- A token that covers nothing stands at every boundary. -/
theorem standsIn_of_lexeme_eq_nil {before : Text} (behind : Text) (hk : k.lexeme = [])
    (hpos : k.pos = before.byteSize) : k.StandsIn (before ++ behind) :=
  ⟨before, behind, by simp [hk], hpos.symm⟩

/-- The tokens of pieces are placed in any text that has the pieces at the right offset. -/
theorem tokensOf_placed (ps : List Piece) (here : Position) (pending : Bool) (before : Text)
    (hhere : here.offset = before.byteSize) :
    Placed (before ++ (ps.map Piece.text).flatten) (tokensOf here pending ps) := by
  induction ps generalizing here pending before with
  | nil =>
    have heof : Placed (before ++ []) [Token.eof here] :=
      Placed.cons (standsIn_of_lexeme_eq_nil [] rfl hhere) (by simp) (Placed.nil _)
    cases pending with
    | false => exact heof
    | true =>
      refine Placed.cons (standsIn_of_lexeme_eq_nil [] rfl hhere) ?_ heof
      intro b hb
      rw [mem_singleton.1 hb]
      exact Nat.le_refl _
  | cons p ps ih =>
    -- Behind the piece the same text goes on, with the piece among what was passed.
    have hrest : ∀ pending, Placed (before ++ ((p :: ps).map Piece.text).flatten)
        (tokensOf (here.advance p.text) pending ps) := by
      intro pending
      have h := ih (here.advance p.text) pending (before ++ p.text) (by simp [hhere])
      simpa using h
    -- An implied semicolon covers nothing, so it stands wherever a piece begins.
    have himplied : ∀ (start : Position) (pending : Bool), start.offset = here.offset →
        Placed (before ++ ((p :: ps).map Piece.text).flatten)
          (Token.impliedSemi start :: tokensOf (here.advance p.text) pending ps) := by
      intro start pending hstart
      refine Placed.cons (standsIn_of_lexeme_eq_nil _ rfl (hstart.trans hhere)) ?_
        (hrest pending)
      intro b hb
      have hle := offset_le_pos_of_mem_tokensOf hb
      rw [Position.offset_advance, ← hstart] at hle
      exact Nat.le_trans (Nat.le_add_right _ _) hle
    unfold tokensOf
    split
    · refine Placed.cons ⟨before, (ps.map Piece.text).flatten, by simp, hhere.symm⟩ ?_
        (hrest _)
      intro b hb
      have hle := offset_le_pos_of_mem_tokensOf hb
      rw [Position.offset_advance] at hle
      exact hle
    · split
      · exact himplied here false rfl
      · exact hrest pending
    · split
      · exact himplied _ false rfl
      · exact hrest pending

/-- A token is a piece, or it is an implied semicolon or the end and covers nothing. -/
theorem exists_piece_of_mem_tokensOf (hk : k ∈ tokensOf here pending ps) :
    (k.lexeme = [] ∧ (k.kind = .semi ∨ k.kind = .eof)) ∨
      ∃ p ∈ ps, p.kind = .token k.kind ∧ p.text = k.lexeme := by
  induction ps generalizing here pending with
  | nil =>
    cases pending <;> simp [tokensOf] at hk <;> rcases hk with rfl | rfl <;>
      simp [Token.impliedSemi, Token.eof]
  | cons p ps ih =>
    have hrest {here : Position} {pending : Bool} (hk : k ∈ tokensOf here pending ps) :=
      (ih hk).imp_right (Exists.imp fun _ => And.imp_left (mem_cons_of_mem p))
    unfold tokensOf at hk
    split at hk
    next kind hkind =>
      rcases mem_cons.1 hk with rfl | hk
      · exact .inr ⟨p, mem_cons_self, hkind, rfl⟩
      · exact hrest hk
    all_goals
      split at hk
      · rcases mem_cons.1 hk with rfl | hk
        · exact .inl ⟨rfl, .inl rfl⟩
        · exact hrest hk
      · exact hrest hk

end Lexer

/-- The tokens of a text are placed in it. -/
theorem tokenize_placed (t : Text) : Placed t (tokenize t) := by
  have h := Lexer.tokensOf_placed (Lexer.pieces t) .start false [] rfl
  rwa [nil_append, Lexer.flatten_pieces] at h

/-- A token of a text covers nothing only if it is a semicolon or the end, and no token begins
with a blank. -/
theorem tokenize_lexeme (hk : k ∈ tokenize t) :
    (k.lexeme = [] ∧ (k.kind = .semi ∨ k.kind = .eof)) ∨
      ∃ c r, k.lexeme = c :: r ∧ isBlank c = false := by
  rcases Lexer.exists_piece_of_mem_tokensOf hk with hnone | ⟨p, hp, hkind, htext⟩
  · exact .inl hnone
  · rw [← htext]
    exact .inr (Lexer.pieces_token hp hkind)

end Notebook
