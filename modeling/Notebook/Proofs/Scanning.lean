import Notebook.Proofs.Seams

/-!
# From pieces to tokens

Tokens are made from pieces one after the other, with one bit of memory: whether a line end
here would imply a semicolon.  The tokens of pieces that stand side by side are therefore
those of the first, and then those of the second with the memory that the first leave.  Where
pieces stand in a text changes the positions of their tokens and nothing else.

Brackets are counted over kinds of tokens.  Inside balanced tokens the count never comes back
to where it was before them, so that what is looked for behind them is found there.

## Main statements

* `Lexer.scan_append`, `Lexer.tokensOf_eq`, `Lexer.scan_eq_map`
* `Source.closingIndex_append`, `Source.entryIndex_append`: what is found behind balanced
  tokens
-/

namespace Notebook

open List

variable {ts us : List Token} {ks : List TokenKind} {d depth : Nat} {p : Position}
  {k : TokenKind}

namespace Piece

/-- The tokens that one piece makes. -/
def emitted (here : Position) (pending : Bool) (p : Piece) : List Token :=
  match p.kind with
  | .token k => [⟨k, p.text, here⟩]
  | .blank => if pending && Lexer.Piece.endsLine p then [.impliedSemi here] else []
  | .comment =>
    if pending && Lexer.Piece.endsLine p then
      [.impliedSemi ⟨here.offset, (here.advance p.text).line, (here.advance p.text).column⟩]
    else []

/-- Whether a line end behind a piece would imply a semicolon. -/
def pendingBehind (pending : Bool) (p : Piece) : Bool :=
  match p.kind with
  | .token k => k.endsStatement
  | _ => pending && !Lexer.Piece.endsLine p

/-- The kinds of the tokens that one piece makes. -/
def emittedKinds (pending : Bool) (p : Piece) : List TokenKind :=
  match p.kind with
  | .token k => [k]
  | _ => if pending && Lexer.Piece.endsLine p then [.semi] else []

theorem map_kind_emitted (here : Position) (pending : Bool) (p : Piece) :
    (p.emitted here pending).map Token.kind = p.emittedKinds pending := by
  unfold emitted emittedKinds
  cases p.kind with
  | token k => rfl
  | blank => dsimp only; split <;> rfl
  | comment => dsimp only; split <;> rfl

end Piece

namespace Lexer

/-- The tokens of pieces that start at a place, without those at the end of the text. -/
def scan (here : Position) (pending : Bool) : List Piece → List Token
  | [] => []
  | p :: ps => p.emitted here pending ++
    scan (here.advance p.text) (p.pendingBehind pending) ps

/-- Whether a line end behind pieces would imply a semicolon. -/
def pendingAfter (pending : Bool) (ps : List Piece) : Bool :=
  ps.foldl Piece.pendingBehind pending

/-- The kinds of the tokens of pieces. -/
def kinds (pending : Bool) : List Piece → List TokenKind
  | [] => []
  | p :: ps => p.emittedKinds pending ++ kinds (p.pendingBehind pending) ps

/-- The tokens at the end of a text. -/
def endTokens (here : Position) (pending : Bool) : List Token :=
  if pending then [.impliedSemi here, .eof here] else [.eof here]

@[simp] theorem pendingAfter_nil (pending : Bool) : pendingAfter pending [] = pending := rfl

@[simp] theorem pendingAfter_cons (pending : Bool) (p : Piece) (ps : List Piece) :
    pendingAfter pending (p :: ps) = pendingAfter (p.pendingBehind pending) ps := rfl

theorem pendingAfter_append (pending : Bool) (ps qs : List Piece) :
    pendingAfter pending (ps ++ qs) = pendingAfter (pendingAfter pending ps) qs :=
  foldl_append

@[simp] theorem scan_nil (here : Position) (pending : Bool) : scan here pending [] = [] := rfl

theorem scan_cons (here : Position) (pending : Bool) (p : Piece) (ps : List Piece) :
    scan here pending (p :: ps) =
      p.emitted here pending ++ scan (here.advance p.text) (p.pendingBehind pending) ps := rfl

/-- The tokens of pieces side by side. -/
theorem scan_append (here : Position) (pending : Bool) (ps qs : List Piece) :
    scan here pending (ps ++ qs) =
      scan here pending ps ++ scan (here.advance (textOf ps))
        (pendingAfter pending ps) qs := by
  induction ps generalizing here pending with
  | nil => rfl
  | cons p ps ih =>
    rw [cons_append, scan_cons, ih, scan_cons, append_assoc, textOf_cons,
      Position.advance_append, pendingAfter_cons]

theorem tokensOf_eq (here : Position) (pending : Bool) (ps : List Piece) :
    tokensOf here pending ps =
      scan here pending ps ++ endTokens (here.advance (textOf ps))
        (pendingAfter pending ps) := by
  induction ps generalizing here pending with
  | nil => rfl
  | cons p ps ih =>
    obtain ⟨kind, text⟩ := p
    rw [scan_cons, textOf_cons, Position.advance_append, pendingAfter_cons, append_assoc,
      ← ih]
    rw [tokensOf]
    unfold Piece.emitted Piece.pendingBehind
    cases kind with
    | token k => rfl
    | blank =>
      dsimp only
      cases hline : Piece.endsLine ⟨.blank, text⟩ <;> cases pending <;> rfl
    | comment =>
      dsimp only
      cases hline : Piece.endsLine ⟨.comment, text⟩ <;> cases pending <;> rfl

theorem tokenize_eq (t : Text) :
    tokenize t = scan .start false (pieces t) ++
      endTokens (Position.start.advance t) (pendingAfter false (pieces t)) := by
  rw [tokenize, tokensOf_eq, textOf_pieces]

@[simp] theorem kinds_nil (pending : Bool) : kinds pending [] = [] := rfl

theorem kinds_cons (pending : Bool) (p : Piece) (ps : List Piece) :
    kinds pending (p :: ps) = p.emittedKinds pending ++ kinds (p.pendingBehind pending) ps :=
      rfl

theorem kinds_append (pending : Bool) (ps qs : List Piece) :
    kinds pending (ps ++ qs) = kinds pending ps ++ kinds (pendingAfter pending ps) qs := by
  induction ps generalizing pending with
  | nil => rfl
  | cons p ps ih =>
    rw [cons_append, kinds_cons, ih, kinds_cons, append_assoc, pendingAfter_cons]

theorem map_kind_scan (here : Position) (pending : Bool) (ps : List Piece) :
    (scan here pending ps).map Token.kind = kinds pending ps := by
  induction ps generalizing here pending with
  | nil => rfl
  | cons p ps ih => rw [scan_cons, map_append, ih, Piece.map_kind_emitted, kinds_cons]

theorem length_scan (here : Position) (pending : Bool) (ps : List Piece) :
    (scan here pending ps).length = (kinds pending ps).length := by
  rw [← map_kind_scan here, length_map]

end Lexer

/-! ### Tokens in another place -/

namespace Position

/-- The place that is as far behind `here` as `p` is behind the beginning of a text. -/
def move (here p : Position) : Position where
  offset := here.offset + p.offset
  line := here.line + (p.line - 1)
  column := if p.line = 1 then here.column + (p.column - 1) else p.column

/-- Lines and columns count from one. -/
def Counts (p : Position) : Prop :=
  1 ≤ p.line ∧ 1 ≤ p.column

theorem counts_start : start.Counts :=
  ⟨Nat.le_refl 1, Nat.le_refl 1⟩

theorem Counts.next (h : p.Counts) (c : Char) : (p.next c).Counts := by
  unfold Position.next
  split
  · exact ⟨Nat.le_add_left 1 p.line, Nat.le_refl 1⟩
  · exact ⟨h.1, Nat.le_add_left 1 p.column⟩

theorem Counts.advance (h : p.Counts) (t : Text) : (p.advance t).Counts := by
  induction t generalizing p with
  | nil => exact h
  | cons c t ih => exact ih (h.next c)

@[simp] theorem offset_move (here p : Position) :
    (here.move p).offset = here.offset + p.offset := rfl

theorem move_start (here : Position) : here.move start = here := by
  simp [move, start]

theorem move_next (here : Position) (h : p.Counts) (c : Char) :
    here.move (p.next c) = (here.move p).next c := by
  obtain ⟨hline, hcolumn⟩ := h
  unfold move next
  split
  next hc =>
    simp only [Position.mk.injEq]
    refine ⟨by omega, by omega, ?_⟩
    rw [if_neg (by omega)]
  next hc =>
    simp only [Position.mk.injEq]
    refine ⟨by omega, trivial, ?_⟩
    split
    · omega
    · rfl

theorem move_advance (here : Position) (h : p.Counts) (t : Text) :
    here.move (p.advance t) = (here.move p).advance t := by
  induction t generalizing p with
  | nil => rfl
  | cons c t ih => rw [advance_cons, ih (h.next c), move_next here h, advance_cons]

end Position

namespace Token

/-- A token without its place. -/
def content (t : Token) : TokenKind × Text :=
  (t.kind, t.lexeme)

/-- The token as it is in a text that begins at `here`. -/
def move (here : Position) (t : Token) : Token :=
  { t with start := here.move t.start }

section

variable (here : Position) (t : Token)
include here t

@[simp] theorem kind_move : (t.move here).kind = t.kind := rfl

@[simp] theorem lexeme_move : (t.move here).lexeme = t.lexeme := rfl

@[simp] theorem pos_move : (t.move here).pos = here.offset + t.pos := rfl

@[simp] theorem stop_move : (t.move here).stop = here.offset + t.stop := by
  simp [stop, size, Nat.add_assoc]

@[simp] theorem isIdent_move (name : Text) :
    (t.move here).isIdent name = t.isIdent name := rfl

@[simp] theorem isImpliedSemi_move : (t.move here).isImpliedSemi = t.isImpliedSemi := rfl

end

end Token

namespace Lexer

theorem emitted_move (here : Position) (hp : p.Counts) (pending : Bool) (x : Piece) :
    x.emitted (here.move p) pending = (x.emitted p pending).map (Token.move here) := by
  unfold Piece.emitted
  cases x.kind with
  | token k => rfl
  | blank => dsimp only; split <;> rfl
  | comment =>
    dsimp only
    split
    · simp only [map_cons, map_nil, List.cons.injEq, and_true, Token.impliedSemi,
        Token.move, Token.mk.injEq, true_and]
      rw [← Position.move_advance here hp]
      rfl
    · rfl

theorem scan_move (here : Position) (hp : p.Counts) (pending : Bool) (ps : List Piece) :
    scan (here.move p) pending ps = (scan p pending ps).map (Token.move here) := by
  induction ps generalizing p pending with
  | nil => rfl
  | cons x ps ih =>
    rw [scan_cons, scan_cons, map_append, emitted_move here hp,
      ← Position.move_advance here hp, ih (hp.advance x.text)]

/-- The tokens of pieces in one place are those in another, moved. -/
theorem scan_eq_map (here : Position) (pending : Bool) (ps : List Piece) :
    scan here pending ps = (scan .start pending ps).map (Token.move here) := by
  rw [← scan_move here Position.counts_start, Position.move_start]

/-- No piece is the end of the text. -/
theorem firstPiece_kind_ne (c : Char) (t : Text) : (firstPiece c t).1.kind ≠ .token .eof := by
  have hmark : ∀ m, markKind m ≠ .eof := by
    have hall : ∀ e ∈ markKinds, e.2 ≠ .eof := by decide
    intro m
    unfold markKind
    cases hfound : markKinds.find? fun e => e.1.toList == m with
    | none => exact fun h => by cases h
    | some e => exact hall e (mem_of_find?_eq_some hfound)
  have hnumber : ∀ hex m, numberKind hex m ≠ .eof := by
    intro hex m
    unfold numberKind
    repeat' split
    all_goals exact fun h => by cases h
  have hword : ∀ w, ((Keyword.ofText? w).map TokenKind.keyword).getD .ident ≠ .eof := by
    intro w
    cases Keyword.ofText? w <;> exact fun h => by cases h
  unfold firstPiece
  repeat' split
  all_goals simp [hmark, hnumber, hword]

theorem Lexed.kind_ne {ps : List Piece} (h : Lexed ps) {p : Piece} (hp : p ∈ ps) :
    p.kind ≠ .token .eof := by
  induction ps with
  | nil => cases hp
  | cons q ps ih =>
    obtain ⟨⟨c, t, -, hread⟩, hlexed⟩ := lexed_cons.1 h
    rcases mem_cons.1 hp with rfl | hp
    · have := firstPiece_kind_ne c (t ++ textOf ps)
      rwa [hread] at this
    · exact ih hlexed hp

end Lexer

/-! ### Brackets -/

/-- The depth behind a token, if it closes no bracket that is not open. -/
def nestStep (depth : Nat) (k : TokenKind) : Option Nat :=
  if k.opens then some (depth + 1)
  else if k.closes then if depth = 0 then none else some (depth - 1)
  else some depth

/-- The depth behind tokens that close no bracket that is not open. -/
def nest (depth : Nat) (ks : List TokenKind) : Option Nat :=
  ks.foldlM nestStep depth

/-- Brackets are balanced: none closes before it is opened, and none stays open. -/
def Balanced (t : Text) : Prop :=
  nest 0 ((tokenize t).map Token.kind) = some 0

instance (t : Text) : Decidable (Balanced t) :=
  inferInstanceAs (Decidable (_ = _))

@[simp] theorem nest_nil (depth : Nat) : nest depth [] = some depth := rfl

theorem nest_cons (depth : Nat) (k : TokenKind) (ks : List TokenKind) :
    nest depth (k :: ks) = (nestStep depth k).bind fun d => nest d ks :=
  foldlM_cons

theorem nest_append (depth : Nat) (ks ls : List TokenKind) :
    nest depth (ks ++ ls) = (nest depth ks).bind fun d => nest d ls :=
  foldlM_append

/-- Kinds that are no brackets. -/
theorem nest_of_no_brackets (h : ∀ k ∈ ks, k.opens = false ∧ k.closes = false) (depth : Nat) :
    nest depth ks = some depth := by
  induction ks with
  | nil => rfl
  | cons k ks ih =>
    obtain ⟨hopens, hcloses⟩ := h k mem_cons_self
    rw [nest_cons, nestStep, hopens, hcloses]
    exact ih fun l hl => h l (mem_cons_of_mem k hl)

theorem depthAfter_of_nestStep (h : nestStep depth k = some d) :
    Source.depthAfter depth k = d := by
  unfold nestStep at h
  unfold Source.depthAfter
  split at h
  next ho =>
    rw [if_pos ho]
    exact Option.some.inj h
  next ho =>
    rw [if_neg ho]
    split at h
    next hc =>
      rw [if_pos hc]
      split at h
      · cases h
      · exact Option.some.inj h
    next hc =>
      rw [if_neg hc]
      exact Option.some.inj h

/-- Where no bracket closes what is not open, the depth is the one that is counted. -/
theorem foldl_depthAfter_of_nest (h : nest depth ks = some d) :
    ks.foldl Source.depthAfter depth = d := by
  induction ks generalizing depth with
  | nil => exact Option.some.inj h
  | cons k ks ih =>
    rw [nest_cons] at h
    obtain ⟨e, he, hks⟩ := Option.bind_eq_some_iff.1 h
    rw [foldl_cons, depthAfter_of_nestStep he]
    exact ih hks

theorem nestStep_add (h : nestStep depth k = some d) (n : Nat) :
    nestStep (depth + n) k = some (d + n) := by
  unfold nestStep at h ⊢
  split at h
  next ho =>
    cases h
    rw [if_pos ho, Nat.add_right_comm]
  next ho =>
    rw [if_neg ho]
    split at h
    next hc =>
      rw [if_pos hc]
      split at h
      · cases h
      next hd =>
        cases h
        rw [if_neg (by omega), Nat.sub_add_comm (by omega)]
    next hc =>
      cases h
      rw [if_neg hc]

namespace Source

/-- The bracket that closes is not among tokens that close only what they open. -/
theorem closingIndex_append (h : nest depth (ts.map Token.kind) = some d) (us : List Token) :
    closingIndex (depth + 1) (ts ++ us) = (closingIndex (d + 1) us).map (· + ts.length) := by
  induction ts generalizing depth with
  | nil =>
    cases h
    simp
  | cons t ts ih =>
    rw [map_cons, nest_cons] at h
    obtain ⟨e, he, hts⟩ := Option.bind_eq_some_iff.1 h
    -- A closing bracket closes an open one, so there is one more to close.
    have hopen : (t.kind.closes && depth + 1 - 1 == 0) = false := by
      rw [Nat.add_sub_cancel]
      unfold nestStep at he
      cases hk : t.kind with
      | closing b =>
        rw [hk] at he
        cases depth with
        | zero => cases he
        | succ depth => rfl
      | _ => rfl
    rw [cons_append, closingIndex, hopen, if_neg (by simp),
      depthAfter_of_nestStep (nestStep_add he 1), ih hts, Option.map_map, length_cons]
    rfl

/-- The tokens in front of the bracket that closes close only what they open. -/
theorem nest_take_closingIndex {n : Nat} (h : closingIndex (depth + 1) ts = some n) :
    nest depth ((ts.take n).map Token.kind) = some 0 ∧
      ∃ t, ts[n]? = some t ∧ t.kind.closes = true := by
  induction ts generalizing depth n with
  | nil => cases h
  | cons t ts ih =>
    rw [closingIndex] at h
    split at h
    next hcloses =>
      cases h
      obtain ⟨hclose, hzero⟩ := Bool.and_eq_true_iff.1 hcloses
      obtain rfl : depth = 0 := by simpa using hzero
      exact ⟨rfl, t, rfl, hclose⟩
    next hcloses =>
      obtain ⟨m, hm, rfl⟩ := Option.map_eq_some_iff.1 h
      -- One bracket less is open in front of the token and behind it.
      obtain ⟨d, hdepth, hstep⟩ : ∃ d, depthAfter (depth + 1) t.kind = d + 1 ∧
          nestStep depth t.kind = some d := by
        unfold depthAfter nestStep
        cases hopens : t.kind.opens with
        | true => exact ⟨depth + 1, rfl, rfl⟩
        | false =>
          cases hc : t.kind.closes with
          | true =>
            have hpos : depth ≠ 0 := by
              rintro rfl
              exact hcloses (by simp [hc])
            refine ⟨depth - 1, ?_, ?_⟩
            · simp only [Bool.false_eq_true, if_false, if_true]
              omega
            · simp [hpos]
          | false => exact ⟨depth, rfl, rfl⟩
      rw [hdepth] at hm
      obtain ⟨hnest, u, hu, hcloses'⟩ := ih hm
      refine ⟨?_, u, hu, hcloses'⟩
      rw [take_succ_cons, map_cons, nest_cons, hstep]
      exact hnest

theorem startsEntry_iff :
    startsEntry ts = true ↔ ∃ f m l r b rest, ts = f :: m :: l :: r :: b :: rest ∧
      f.kind = .keyword .funcKw ∧ m.isIdent "main" = true ∧ l.kind = .opening .paren ∧
      r.kind = .closing .paren ∧ b.kind = .opening .brace := by
  constructor
  · intro h
    match ts, h with
    | f :: m :: l :: r :: b :: rest, h =>
      simp only [startsEntry, Bool.and_eq_true, beq_iff_eq] at h
      obtain ⟨⟨⟨⟨hf, hm⟩, hl⟩, hr⟩, hb⟩ := h
      exact ⟨f, m, l, r, b, rest, rfl, hf, hm, hl, hr, hb⟩
  · rintro ⟨f, m, l, r, b, rest, rfl, hf, hm, hl, hr, hb⟩
    simp only [startsEntry, hf, hm, hl, hr, hb, beq_self_eq_true, Bool.and_self]

/-- Kinds that stand behind the first token of an entry function. -/
def continuesEntry : TokenKind → Bool
  | .ident | .opening .paren | .closing .paren | .opening .brace => true
  | _ => false

theorem startsEntry_of_append (h : startsEntry ts = true) :
    startsEntry (ts ++ us) = true := by
  obtain ⟨f, m, l, r, b, rest, rfl, hkinds⟩ := startsEntry_iff.1 h
  exact startsEntry_iff.2 ⟨f, m, l, r, b, rest ++ us, rfl, hkinds⟩

/-- The beginning of an entry function does not go on over a token that cannot continue it. -/
theorem startsEntry_append (hts : ts ≠ [])
    (hus : ∀ u, us.head? = some u → continuesEntry u.kind = false) :
    startsEntry (ts ++ us) = startsEntry ts := by
  rw [Bool.eq_iff_iff]
  refine ⟨fun h => ?_, startsEntry_of_append⟩
  obtain ⟨f, m, l, r, b, rest, heq, hf, hm, hl, hr, hb⟩ := startsEntry_iff.1 h
  have hident : m.kind = .ident := by
    simp only [Token.isIdent, Bool.and_eq_true, beq_iff_eq] at hm
    exact hm.1
  have hhead : ∀ u rest, us = u :: rest → continuesEntry u.kind = false := by
    rintro u rest rfl
    exact hus u rfl
  match ts, hts with
  | [t], _ =>
    have := hhead m _ (List.cons.inj heq).2
    rw [hident] at this
    cases this
  | [t, t₁], _ =>
    simp only [cons_append, nil_append, List.cons.injEq] at heq
    have := hhead l _ heq.2.2
    rw [hl] at this
    cases this
  | [t, t₁, t₂], _ =>
    simp only [cons_append, nil_append, List.cons.injEq] at heq
    have := hhead r _ heq.2.2.2
    rw [hr] at this
    cases this
  | [t, t₁, t₂, t₃], _ =>
    simp only [cons_append, nil_append, List.cons.injEq] at heq
    have := hhead b _ heq.2.2.2.2
    rw [hb] at this
    cases this
  | t :: t₁ :: t₂ :: t₃ :: t₄ :: ts, _ =>
    simp only [cons_append, List.cons.injEq] at heq
    obtain ⟨rfl, rfl, rfl, rfl, rfl, -⟩ := heq
    exact startsEntry_iff.2 ⟨_, _, _, _, _, ts, rfl, hf, hm, hl, hr, hb⟩

/-- The entry function is looked for behind tokens that hold none. -/
theorem entryIndex_append (hts : entryIndex depth ts = none)
    (hus : ∀ u, us.head? = some u → continuesEntry u.kind = false) :
    entryIndex depth (ts ++ us) =
      (entryIndex ((ts.map Token.kind).foldl depthAfter depth) us).map (· + ts.length) := by
  induction ts generalizing depth with
  | nil => simp
  | cons t ts ih =>
    rw [entryIndex] at hts
    split at hts
    · cases hts
    next hstart =>
      rw [Option.map_eq_none_iff] at hts
      rw [cons_append, entryIndex, ← cons_append, startsEntry_append (by simp) hus,
        if_neg hstart, ih hts, Option.map_map]
      rfl

theorem entryIndex_eq_none_of_append (h : entryIndex depth (ts ++ us) = none) :
    entryIndex depth ts = none ∧
      entryIndex ((ts.map Token.kind).foldl depthAfter depth) us = none := by
  induction ts generalizing depth with
  | nil => exact ⟨rfl, h⟩
  | cons t ts ih =>
    rw [cons_append, entryIndex] at h
    split at h
    · cases h
    next hstart =>
      rw [Option.map_eq_none_iff] at h
      obtain ⟨hleft, hright⟩ := ih h
      refine ⟨?_, hright⟩
      rw [entryIndex, if_neg, hleft, Option.map_none]
      intro hshort
      rw [Bool.and_eq_true_iff] at hshort
      exact hstart (Bool.and_eq_true_iff.2 ⟨hshort.1, startsEntry_of_append hshort.2⟩)

@[simp] theorem startsEntry_move (here : Position) (ts : List Token) :
    startsEntry (ts.map (Token.move here)) = startsEntry ts := by
  match ts with
  | [] | [_] | [_, _] | [_, _, _] | [_, _, _, _] => rfl
  | _ :: _ :: _ :: _ :: _ :: _ => rfl

@[simp] theorem entryIndex_move (here : Position) (depth : Nat) (ts : List Token) :
    entryIndex depth (ts.map (Token.move here)) = entryIndex depth ts := by
  induction ts generalizing depth with
  | nil => rfl
  | cons t ts ih =>
    rw [map_cons, entryIndex, ← map_cons, startsEntry_move, ih, entryIndex]
    rfl

end Source

end Notebook
