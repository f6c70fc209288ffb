import Notebook.Proofs.Patches

/-!
# Declarations that become assignments

Where the first `:=` of a statement becomes `=`, the pieces around it may be read differently:
the sign may go into an operator in front of it, as in `<:=`, or shift the pairs in a run of
signs behind it.  All these pieces are operators, and the splitting into statements passes
over operators; so the statement stays one statement, and the gap behind it still ends it.
-/

namespace Notebook

open Lexer List

variable {gap ps qs : List Piece} {p : Piece} {rest : Text} {k : TokenKind}

/-- The sign `=` alone. -/
def equalsPiece : Piece := ⟨.token .assign, ['=']⟩

/-- Two signs, read together. -/
def equalPiece : Piece := ⟨.token .op, ['=', '=']⟩

/-- The sign of a declaration. -/
def definePiece : Piece := ⟨.token .define, [':', '=']⟩

/-- Pieces with a sign `=` in front: signs are read in pairs. -/
def withEquals : List Piece → List Piece
  | [] => [equalsPiece]
  | p :: ps =>
    if p = equalsPiece then equalPiece :: ps
    else if p = equalPiece then equalPiece :: withEquals ps
    else equalsPiece :: p :: ps

/-- The marks that make an operator together with a sign `=` behind them. -/
def signTakers : List Text :=
  [['<', '<'], ['>', '>'], ['&', '^'], ['='], ['!'], ['<'], ['>'], [':'], ['+'],
    ['-'], ['*'], ['/'], ['%'], ['&'], ['|'], ['^']]

/-- Whether a piece and a sign `=` behind it are read together. -/
def takesEquals (p : Piece) : Bool :=
  signTakers.contains p.text

/-- The piece that a piece and a sign `=` behind it are read as. -/
def joinEquals (p : Piece) : Piece :=
  ⟨.token (markKind (p.text ++ ['='])), p.text ++ ['=']⟩

/-- Pieces on both sides of a `:=` when it has become `=`. -/
def demoted (ps qs : List Piece) : List Piece :=
  match ps.getLast? with
  | some p => if takesEquals p then ps.dropLast ++ joinEquals p :: qs else ps ++ withEquals qs
  | none => withEquals qs

theorem textOf_withEquals (ps : List Piece) : textOf (withEquals ps) = '=' :: textOf ps := by
  induction ps with
  | nil => rfl
  | cons p ps ih =>
    rw [withEquals]
    split
    next hp =>
      rw [hp]
      rfl
    · split
      next hp =>
        rw [textOf_cons, ih, hp]
        rfl
      · rfl

theorem textOf_demoted (ps qs : List Piece) :
    textOf (demoted ps qs) = textOf ps ++ '=' :: textOf qs := by
  unfold demoted
  cases hlast : ps.getLast? with
  | none =>
    rw [getLast?_eq_none_iff] at hlast
    rw [hlast]
    exact textOf_withEquals qs
  | some p =>
    obtain ⟨ps', rfl⟩ := getLast?_eq_some_iff.1 hlast
    simp only
    split
    · simp [joinEquals]
    · rw [textOf_append, textOf_withEquals]

/-! ### Reading the pieces -/

theorem isMarkChar_equals : isMarkChar '=' = true := by
  decide

theorem reads_equals : Reads equalsPiece rest ↔ rest.head? ≠ some '=' := by
  have hmark : Reads equalsPiece rest ↔ EndsMark ['='] rest :=
    reads_mark isMarkChar_equals (.inl rfl)
  rw [hmark]
  constructor
  · intro h hrest
    obtain ⟨t, rfl⟩ := head?_eq_some_iff.1 hrest
    have := h.longest "==" (by decide) ⟨t, rfl⟩
    revert this
    decide
  · intro h
    refine ⟨by simp, by simp, fun o ho hpre => ?_⟩
    cases rest with
    | nil => simpa using hpre.length_le
    | cons d rest =>
      -- Only one operator is longer and begins with the sign.
      have hall : ∀ o ∈ operators, o.toList.length ≤ 1 ∨ o.toList.head? ≠ some '=' ∨
          o.toList = ['=', '='] := by decide
      rcases hall o ho with hlen | hhead | heq
      · exact hlen
      · cases hlist : o.toList with
        | nil => simp
        | cons c t =>
          rw [hlist] at hpre hhead
          exact absurd (by rw [(cons_prefix_cons.1 hpre).1]; rfl) hhead
      · rw [heq] at hpre
        have := (cons_prefix_cons.1 (cons_prefix_cons.1 hpre).2).1
        exact absurd (by rw [← this]; rfl) h

theorem reads_equal (rest : Text) : Reads equalPiece rest := by
  have hmark : Reads equalPiece rest ↔ EndsMark ['=', '='] rest :=
    reads_mark isMarkChar_equals (.inr ⟨"==", by decide, rfl⟩)
  rw [hmark]
  refine ⟨by simp, by simp, fun o ho hpre => ?_⟩
  have hall : ∀ o ∈ operators, o.toList.length ≤ 2 ∨ o.toList.take 2 ≠ ['=', '='] := by decide
  rcases hall o ho with hlen | htake
  · exact hlen
  · by_contra hlt
    refine htake ?_
    have hpre₂ : ['=', '='] <+: o.toList :=
      prefix_of_prefix_length_le (prefix_append _ _) hpre (Nat.le_of_not_le hlt)
    exact (prefix_iff_eq_take.1 hpre₂).symm

theorem head_of_piece (h : Spelled p) (hp : p.text.head? = some '=') :
    p = equalsPiece ∨ p = equalPiece := by
  cases h with
  | blank hb =>
    cases hp
    revert hb
    decide
  | line => cases hp
  | block => cases hp
  | quoted hq =>
    cases hp
    cases hq
  | word hs =>
    cases hp
    have : isIdentifierStart '=' = false := by decide
    rw [this] at hs
    cases hs
  | number hs =>
    cases hp
    simp [startsNumber] at hs
  | mark hs ht =>
    cases hp
    rcases ht with rfl | ⟨o, ho, heq⟩
    · exact .inl rfl
    · have hall : ∀ o ∈ operators, o.toList.head? = some '=' → o.toList = ['=', '='] := by
        decide
      rw [hall o ho (by rw [heq]; rfl)] at heq
      rw [← heq]
      exact .inr rfl

theorem lexed_withEquals (h : Lexed ps) (hclosed : ∀ p ∈ ps, p.isClosed = true) :
    Lexed (withEquals ps) := by
  induction ps with
  | nil => exact lexed_cons.2 ⟨reads_equals.2 (by simp), lexed_nil⟩
  | cons p ps ih =>
    obtain ⟨hread, hlexed⟩ := lexed_cons.1 h
    rw [withEquals]
    split
    · exact lexed_cons.2 ⟨reads_equal _, hlexed⟩
    next hone =>
      split
      · exact lexed_cons.2 ⟨reads_equal _, ih hlexed fun q hq =>
          hclosed q (mem_cons_of_mem p hq)⟩
      next htwo =>
        refine lexed_cons.2 ⟨reads_equals.2 fun hhead => ?_, h⟩
        obtain ⟨c, t, hct⟩ := exists_cons_of_ne_nil (reads_text_ne_nil hread)
        rw [textOf_cons, hct] at hhead
        have hspelled := spelled_of_reads hread (hclosed p mem_cons_self)
        rcases head_of_piece hspelled (by rw [hct]; exact hhead) with heq | heq
        · exact hone heq
        · exact htwo heq

/-- A piece in front of `:=` is read in front of `=`, unless both are read together. -/
theorem Lexer.Reads.of_define (h : Reads p (':' :: '=' :: rest)) (hclosed : p.isClosed = true)
    (hjoin : takesEquals p = false) (more : Text) : Reads p ('=' :: more) := by
  cases spelled_of_reads h hclosed with
  | blank hb => exact reads_blank hb _
  | line ht =>
    have := (reads_line ht).1 h ':' rfl
    cases this
  | block ht => exact reads_block ht _
  | quoted hq ht => exact reads_quoted hq ht _
  | word hs ht =>
    refine (reads_word hs ht).2 ?_
    rintro d ⟨⟩
    decide
  | number hs ht =>
    refine (reads_number hs ht).2 ?_
    rintro d ⟨⟩
    simp [isNumberChar]
  | @mark c t hs ht =>
    have hends := (reads_mark hs ht).1 h
    refine (reads_mark hs ht).2 ⟨by simp, by simp, fun o ho hpre => ?_⟩
    by_contra hlt
    have hlt : (c :: t).length < o.toList.length := Nat.lt_of_not_le hlt
    -- An operator that goes on with the sign is the mark and the sign.
    have hall : ∀ o ∈ operators, ∀ n < o.toList.length, 0 < n → o.toList[n]? = some '=' →
        ∃ o' ∈ operators, o'.toList = o.toList.take (n + 1) := by decide
    have hget : o.toList[(c :: t).length]? = some '=' := by
      obtain ⟨s, hs⟩ := hpre
      have := congrArg (fun l => l[(c :: t).length]?) hs
      simp only [getElem?_append_left hlt] at this
      rw [this]
      simp
    obtain ⟨o', ho', heq⟩ := hall o ho _ hlt (by simp) hget
    have hjoined : o'.toList = c :: t ++ ['='] := by
      rw [heq]
      obtain ⟨s, hs⟩ := hpre
      have := congrArg (List.take ((c :: t).length + 1)) hs
      rw [take_append_of_le_length (by omega)] at this
      rw [this, take_length_add_append]
      rfl
    have htaker : ∀ o ∈ operators, o.toList.getLast? = some '=' →
        signTakers.contains o.toList.dropLast = true := by decide
    have := htaker o' ho' (by rw [hjoined, getLast?_concat])
    rw [hjoined, dropLast_concat] at this
    rw [takesEquals, this] at hjoin
    cases hjoin

/-- What is known of the marks that take a sign in. -/
theorem signTakers_spec : ∀ m ∈ signTakers, (∃ o ∈ operators, o.toList = m ++ ['=']) ∧
    (m.length = 1 ∨ ∃ o ∈ operators, o.toList = m) ∧
    (m.head?.any fun c => isMarkChar c && c != '.' && (c != '/' || m == ['/'])) = true := by
  decide

/-- A piece that takes a sign in is a mark. -/
theorem eq_mark_of_takesEquals (h : Spelled p) (hjoin : takesEquals p = true) :
    ∃ c t, p = ⟨.token (markKind (c :: t)), c :: t⟩ ∧ isMarkChar c = true ∧
      (c :: t) ∈ signTakers := by
  have hmem : p.text ∈ signTakers := by simpa [takesEquals] using hjoin
  obtain ⟨-, -, hhead⟩ := signTakers_spec p.text hmem
  cases hct : p.text with
  | nil =>
    rw [hct] at hhead
    cases hhead
  | cons c t =>
    rw [hct] at hhead hmem
    simp only [head?_cons, Option.any_some, Bool.and_eq_true, bne_iff_ne, ne_eq,
      Bool.or_eq_true, beq_iff_eq, List.cons.injEq] at hhead
    obtain ⟨⟨hmark, hpoint⟩, hslash⟩ := hhead
    have hnot := hmark
    simp only [isMarkChar, Bool.and_eq_true, Bool.not_eq_true',
      Option.isNone_iff_eq_none] at hnot
    obtain ⟨⟨⟨hblank, hquote⟩, hstart⟩, hdigit⟩ := hnot
    refine ⟨c, t, ?_, hmark, hmem⟩
    cases h with
    | blank hb =>
      cases hct
      rw [hblank] at hb
      cases hb
    | line =>
      cases hct
      simp at hslash
    | block =>
      cases hct
      simp at hslash
    | quoted hq =>
      cases hct
      rw [hquote] at hq
      cases hq
    | word hs =>
      cases hct
      rw [hstart] at hs
      cases hs
    | number hs =>
      cases hct
      simp [startsNumber, hdigit, hpoint] at hs
    | mark =>
      cases hct
      rfl

/-- The operator of a mark and a sign is read in front of anything. -/
theorem reads_joinEquals {c : Char} {t : Text} (hc : isMarkChar c = true)
    (hmem : (c :: t) ∈ signTakers) (k : PieceKind) (rest : Text) :
    Reads (joinEquals ⟨k, c :: t⟩) rest := by
  obtain ⟨hop, -, -⟩ := signTakers_spec _ hmem
  have hends : EndsMark (c :: (t ++ ['='])) rest := by
    refine ⟨by simp, by simp, fun o ho hpre => ?_⟩
    have hall : ∀ m ∈ signTakers, ∀ o ∈ operators, (m ++ ['=']).isPrefixOf o.toList = true →
        o.toList.length ≤ (m ++ ['=']).length := by decide
    by_contra hlt
    refine hlt (hall _ hmem o ho (List.isPrefixOf_iff_prefix.2 ?_))
    exact prefix_of_prefix_length_le (prefix_append _ _) hpre (Nat.le_of_not_le hlt)
  exact (reads_mark hc (.inr hop)).2 hends

/-- Pieces around a `:=` are read back when it has become `=`. -/
theorem lexed_demoted (h : Lexed (ps ++ definePiece :: qs))
    (hps : ∀ p ∈ ps, p.isClosed = true) (hqs : ∀ p ∈ qs, p.isClosed = true) :
    Lexed (demoted ps qs) := by
  have hlexed : Lexed qs := (lexed_cons.1 h.right).2
  have hequals := lexed_withEquals hlexed hqs
  unfold demoted
  cases hlast : ps.getLast? with
  | none => exact hequals
  | some p =>
    obtain ⟨ps', rfl⟩ := getLast?_eq_some_iff.1 hlast
    have hp : p.isClosed = true := hps p (by simp)
    rw [append_assoc] at h
    have hread : Reads p (':' :: '=' :: textOf qs) := (lexed_cons.1 h.right).1
    have hne := reads_text_ne_nil hread
    simp only
    split
    next hjoin =>
      -- The sign goes into the operator in front of it.
      obtain ⟨c, t, rfl, hc, hmem⟩ := eq_mark_of_takesEquals (spelled_of_reads hread hp) hjoin
      rw [dropLast_concat]
      refine lexed_swap (x := c :: t) (a := ':' :: '=' :: textOf qs) (b := '=' :: textOf qs) h
        (lexed_cons.2 ⟨reads_joinEquals hc hmem _ _, hlexed⟩) ?_ ?_ hne (by simp)
      · simp [definePiece]
      · simp [joinEquals]
    next hjoin =>
      rw [append_assoc]
      refine lexed_swap (x := p.text) (a := ':' :: '=' :: textOf qs) (b := '=' :: textOf qs) h
        (lexed_cons.2 ⟨?_, hequals⟩) ?_ ?_ hne (by simp)
      · have hequal := hread.of_define hp (by simpa using hjoin) (textOf qs)
        rw [← textOf_withEquals qs] at hequal
        exact hequal
      · simp [definePiece]
      · simp [textOf_withEquals]

/-! ### The statement around the sign -/

/-- Kinds that the splitting into statements passes over. -/
def TokenKind.isInert : TokenKind → Bool
  | .op | .assign | .define | .opAssign | .colon => true
  | _ => false

theorem Mode.step_inert (h : k.isInert = true) (m : Mode) :
    m.step k = some ⟨m.depth, m.header, true⟩ := by
  unfold TokenKind.isInert at h
  split at h
  all_goals try rfl
  cases h

theorem signTakers_inert : ∀ m ∈ signTakers,
    (markKind m).isInert = true ∧ (markKind (m ++ ['='])).isInert = true := by
  decide

theorem endsStatement_of_isInert (h : k.isInert = true) : k.endsStatement = false := by
  unfold TokenKind.isInert at h
  split at h
  all_goals try rfl
  cases h

theorem walk_withEquals (ps : List Piece) (m : Mode) :
    m.walk (kinds false (withEquals ps)) = m.walk (.define :: kinds false ps) := by
  induction ps generalizing m with
  | nil =>
    have h₁ : kinds false (withEquals []) = [.assign] := rfl
    rw [h₁, kinds_nil, Mode.walk_cons, Mode.walk_cons, Mode.step_inert rfl,
      Mode.step_inert rfl]
  | cons p ps ih =>
    rw [withEquals]
    split
    next hp =>
      subst hp
      have h₁ : kinds false (equalPiece :: ps) = .op :: kinds false ps := rfl
      have h₂ : kinds false (equalsPiece :: ps) = .assign :: kinds false ps := rfl
      rw [h₁, h₂, Mode.walk_cons, Mode.walk_cons, Mode.step_inert rfl, Mode.step_inert rfl,
        Option.bind_some, Option.bind_some, Mode.walk_cons, Mode.step_inert rfl]
      rfl
    · split
      next hp =>
        subst hp
        have h₁ : kinds false (equalPiece :: withEquals ps) = .op ::
            kinds false (withEquals ps) := rfl
        have h₂ : kinds false (equalPiece :: ps) = .op :: kinds false ps := rfl
        rw [h₁, h₂, Mode.walk_cons, Mode.walk_cons, Mode.step_inert rfl, Mode.step_inert rfl,
          Option.bind_some, Option.bind_some, ih, Mode.walk_cons, Mode.walk_cons,
          Mode.step_inert rfl, Mode.step_inert rfl]
      · have h₁ : kinds false (equalsPiece :: p :: ps) = .assign :: kinds false (p :: ps) :=
          rfl
        rw [h₁, Mode.walk_cons, Mode.walk_cons, Mode.step_inert rfl, Mode.step_inert rfl]

theorem pendingAfter_withEquals (ps : List Piece) (pending : Bool) :
    pendingAfter pending (withEquals ps) = pendingAfter false ps := by
  induction ps generalizing pending with
  | nil => rfl
  | cons p ps ih =>
    rw [withEquals]
    split
    next hp =>
      subst hp
      rfl
    · split
      next hp =>
        subst hp
        exact ih _
      · rfl

/-- Pieces in front of which nothing but a sign stands are read as before it. -/
theorem withEquals_append (h : ∀ p, gap.head? = some p → p.isFiller = true) :
    withEquals (ps ++ gap) = withEquals ps ++ gap := by
  induction ps with
  | nil =>
    cases gap with
    | nil => rfl
    | cons p gap =>
      have hp := h p rfl
      have hone : p ≠ equalsPiece := by
        rintro rfl
        cases hp
      have htwo : p ≠ equalPiece := by
        rintro rfl
        cases hp
      simp [withEquals, hone, htwo]
  | cons p ps ih =>
    rw [cons_append, withEquals, withEquals, ih]
    split
    · rfl
    · split <;> rfl

theorem demoted_append (h : ∀ p, gap.head? = some p → p.isFiller = true) :
    demoted ps (qs ++ gap) = demoted ps qs ++ gap := by
  unfold demoted
  split
  · split
    · simp
    · rw [withEquals_append h, append_assoc]
  · exact withEquals_append h

/-- Pieces end in a token if they do behind a token of theirs. -/
theorem isToken_last_append {ps qs : List Piece} {p : Piece} (hp : p.isToken = true)
    (hqs : ∀ q, qs.getLast? = some q → q.isToken = true) :
    ∀ q, (ps ++ p :: qs).getLast? = some q → q.isToken = true := by
  intro q hq
  rw [getLast?_append, getLast?_cons] at hq
  cases hlast : qs.getLast? with
  | none =>
    rw [hlast] at hq
    cases hq
    exact hp
  | some r =>
    rw [hlast] at hq
    cases hq
    exact hqs _ hlast

/-- The sign in front of pieces is a token, and so is their end. -/
theorem withEquals_ends (h : ∀ p, ps.getLast? = some p → p.isToken = true) :
    (∃ p qs, withEquals ps = p :: qs ∧ p.isToken = true) ∧
      ∀ p, (withEquals ps).getLast? = some p → p.isToken = true := by
  induction ps with
  | nil =>
    refine ⟨⟨equalsPiece, [], rfl, rfl⟩, ?_⟩
    rintro p ⟨⟩
    rfl
  | cons p ps ih =>
    have hps : ∀ q, ps.getLast? = some q → q.isToken = true := fun q hq =>
      h q (by rw [getLast?_cons, hq]; rfl)
    rw [withEquals]
    split
    · exact ⟨⟨equalPiece, ps, rfl, rfl⟩, @isToken_last_append [] ps equalPiece rfl hps⟩
    · split
      · exact ⟨⟨equalPiece, withEquals ps, rfl, rfl⟩,
          @isToken_last_append [] (withEquals ps) equalPiece rfl (ih hps).2⟩
      · exact ⟨⟨equalsPiece, p :: ps, rfl, rfl⟩,
          @isToken_last_append [] (p :: ps) equalsPiece rfl h⟩

theorem kinds_of_isToken (h : p.isToken = true) (pending : Bool) (ps : List Piece) :
    ∃ k, p.kind = .token k ∧ kinds pending (p :: ps) = k :: kinds k.endsStatement ps := by
  obtain ⟨k, hk⟩ := Piece.isToken_iff.1 h
  refine ⟨k, hk, ?_⟩
  rw [kinds_cons]
  unfold Piece.emittedKinds Piece.pendingBehind
  rw [hk]
  rfl

theorem kinds_define (ps qs : List Piece) :
    kinds false (ps ++ definePiece :: qs) = kinds false ps ++ .define :: kinds false qs := by
  rw [kinds_append]
  rfl

theorem pendingAfter_define (ps qs : List Piece) :
    pendingAfter false (ps ++ definePiece :: qs) = pendingAfter false qs := by
  rw [pendingAfter_append]
  rfl

/-- A statement stays one when the sign `=` stands for its `:=`. -/
theorem isStatement_withEquals (h : IsStatement (ps ++ definePiece :: qs)) :
    IsStatement (ps ++ withEquals qs) := by
  have hqs : ∀ p, qs.getLast? = some p → p.isToken = true := fun p hp =>
    h.back p (by rw [getLast?_append, getLast?_cons, hp]; rfl)
  obtain ⟨⟨r, rs, hr, hrtoken⟩, hback⟩ := withEquals_ends hqs
  refine ⟨?_, ?_, ?_⟩
  · have hsame : kinds (pendingAfter false ps) (withEquals qs) =
        kinds false (withEquals qs) := by
      obtain ⟨k, hk, hkinds⟩ := kinds_of_isToken hrtoken (pendingAfter false ps) rs
      obtain ⟨l, hl, hkinds'⟩ := kinds_of_isToken hrtoken false rs
      obtain rfl : k = l := PieceKind.token.inj (hk.symm.trans hl)
      rw [hr, hkinds, hkinds']
    have hwhole := h.whole
    rw [kinds_define, Mode.walk_append] at hwhole
    rw [kinds_append, hsame, Mode.walk_append]
    simp only [walk_withEquals]
    exact hwhole
  · intro q hq
    cases ps with
    | nil =>
      rw [nil_append, hr] at hq
      cases hq
      exact hrtoken
    | cons p ps => exact h.front q hq
  · intro q hq
    have hne : withEquals qs ≠ [] := by simp [hr]
    rw [getLast?_append_of_ne_nil ps hne] at hq
    exact hback q hq

/-- A statement stays one when the mark in front of its `:=` takes the sign `=` to itself. -/
theorem isStatement_joinEquals (hp : Spelled p) (hjoin : takesEquals p = true)
    (h : IsStatement (ps ++ [p] ++ definePiece :: qs)) :
    IsStatement (ps ++ joinEquals p :: qs) ∧
      pendingAfter false (ps ++ joinEquals p :: qs) = pendingAfter false qs := by
  obtain ⟨c, t, rfl, -, hmem⟩ := eq_mark_of_takesEquals hp hjoin
  obtain ⟨hinert, hinert'⟩ := signTakers_inert _ hmem
  have hsign := endsStatement_of_isInert hinert'
  have htoken : (joinEquals ⟨.token (markKind (c :: t)), c :: t⟩).isToken = true := rfl
  refine ⟨⟨?_, ?_, isToken_last_append htoken fun q hq => ?_⟩, ?_⟩
  · obtain ⟨k, hk, hkinds⟩ := kinds_of_isToken htoken (pendingAfter false ps) qs
    cases hk
    obtain ⟨l, hl, hkinds'⟩ := kinds_of_isToken
      (show (⟨.token (markKind (c :: t)), c :: t⟩ : Piece).isToken = true from rfl)
      (pendingAfter false ps) []
    cases hl
    have hwhole := h.whole
    rw [kinds_define, kinds_append, hkinds', kinds_nil, append_assoc,
      Mode.walk_append] at hwhole
    obtain ⟨m, hm, hrest⟩ := Option.bind_eq_some_iff.1 hwhole
    rw [kinds_append, hkinds, hsign, Mode.walk_append, hm, Option.bind_some, Mode.walk_cons,
      Mode.step_inert hinert', Option.bind_some]
    rw [singleton_append, Mode.walk_cons, Mode.step_inert hinert, Option.bind_some,
      Mode.walk_cons, Mode.step_inert rfl, Option.bind_some] at hrest
    exact hrest
  · intro q hq
    cases ps with
    | nil =>
      cases hq
      exact htoken
    | cons r rs => exact h.front q hq
  · exact h.back q (by rw [getLast?_append, getLast?_cons, hq]; rfl)
  · rw [pendingAfter_append, pendingAfter_cons]
    congr 1

/-- A statement stays one when its `:=` becomes `=`, and what ends it still does. -/
theorem isStatement_demoted (h : IsStatement (ps ++ definePiece :: qs))
    (hspelled : ∀ p ∈ ps, Spelled p) :
    IsStatement (demoted ps qs) ∧
      pendingAfter false (demoted ps qs) = pendingAfter false (ps ++ definePiece :: qs) := by
  have hput : IsStatement (ps ++ withEquals qs) ∧
      pendingAfter false (ps ++ withEquals qs) = pendingAfter false qs :=
    ⟨isStatement_withEquals h, by rw [pendingAfter_append, pendingAfter_withEquals]⟩
  rw [pendingAfter_define]
  unfold demoted
  cases hlast : ps.getLast? with
  | none =>
    rw [getLast?_eq_none_iff] at hlast
    subst hlast
    exact hput
  | some p =>
    obtain ⟨ps', rfl⟩ := getLast?_eq_some_iff.1 hlast
    simp only
    split
    next hjoin =>
      rw [dropLast_concat]
      exact isStatement_joinEquals (hspelled p (by simp)) hjoin h
    · exact hput

theorem mem_withEquals (h : p ∈ withEquals ps) :
    p ∈ ps ∨ p = equalsPiece ∨ p = equalPiece := by
  induction ps with
  | nil => exact .inr (.inl (mem_singleton.1 h))
  | cons q ps ih =>
    rw [withEquals] at h
    split at h
    · rcases mem_cons.1 h with h | h
      · exact .inr (.inr h)
      · exact .inl (mem_cons_of_mem q h)
    · split at h
      · rcases mem_cons.1 h with h | h
        · exact .inr (.inr h)
        · exact (ih h).imp_left (mem_cons_of_mem q)
      · rcases mem_cons.1 h with h | h
        · exact .inr (.inl h)
        · exact .inl h

theorem isClosed_joinEquals (h : takesEquals p = true) : (joinEquals p).isClosed = true := by
  have hall : ∀ m ∈ signTakers,
      (⟨.token (markKind (m ++ ['='])), m ++ ['=']⟩ : Piece).isClosed = true := by decide
  exact hall p.text (by simpa [takesEquals] using h)

theorem isClosed_demoted (hps : ∀ p ∈ ps, p.isClosed = true)
    (hqs : ∀ p ∈ qs, p.isClosed = true) : ∀ p ∈ demoted ps qs, p.isClosed = true := by
  have hequals : ∀ p ∈ withEquals qs, p.isClosed = true := by
    intro p hp
    rcases mem_withEquals hp with hp | rfl | rfl
    · exact hqs p hp
    · rfl
    · rfl
  intro p hp
  unfold demoted at hp
  split at hp
  · split at hp
    next q hlast hjoin =>
      rcases mem_append.1 hp with hp | hp
      · exact hps p (dropLast_subset _ hp)
      · rcases mem_cons.1 hp with rfl | hp
        · exact isClosed_joinEquals hjoin
        · exact hqs p hp
    · rcases mem_append.1 hp with hp | hp
      · exact hps p hp
      · exact hequals p hp
  · exact hequals p hp

/-- The pieces of a row are spelled. -/
theorem Row.Sound.spelled {r : Row} (h : r.Sound) (hp : p ∈ r.pieces) : Spelled p := by
  obtain ⟨ps, qs, heq⟩ := append_of_mem hp
  have hlexed := h.lexed
  rw [heq] at hlexed
  exact spelled_of_reads (lexed_cons.1 hlexed.right).1 (h.closed p hp)

/-- A row stays sound when the `:=` of its statement becomes `=`. -/
theorem Row.Sound.demoted (h : Row.Sound ⟨ps ++ definePiece :: qs, gap⟩) :
    Row.Sound ⟨Notebook.demoted ps qs, gap⟩ := by
  obtain ⟨hstatement, hkinds⟩ := h.body.resolve_left (by simp)
  have hspelled : ∀ p ∈ ps, Spelled p := fun p hp => h.spelled (by simp [Row.pieces, hp])
  obtain ⟨hdemoted, hpending⟩ := isStatement_demoted hstatement hspelled
  have hgap : ∀ p, gap.head? = some p → p.isFiller = true := fun p hp =>
    h.fillers p (mem_of_mem_head? hp)
  have hlexed := h.lexed
  rw [Row.pieces, append_assoc, cons_append] at hlexed
  have hclosed := h.closed
  simp only [Row.pieces, mem_append, mem_cons] at hclosed
  refine ⟨?_, ?_, h.fillers, h.solid, .inr ⟨hdemoted, ?_⟩⟩
  · rw [Row.pieces, ← demoted_append hgap]
    refine lexed_demoted hlexed (fun p hp => hclosed p (.inl (.inl hp))) ?_
    intro p hp
    rcases mem_append.1 hp with hp | hp
    · exact hclosed p (.inl (.inr (.inr hp)))
    · exact hclosed p (.inr hp)
  · intro p hp
    rcases mem_append.1 hp with hp | hp
    · exact isClosed_demoted (fun p hp => hclosed p (.inl (.inl hp)))
        (fun p hp => hclosed p (.inl (.inr (.inr hp)))) p hp
    · exact hclosed p (.inr hp)
  · simp only [hpending]
    exact hkinds

/-! ### The first sign of a statement -/

/-- The sign of a declaration is spelled in one way. -/
theorem eq_definePiece (h : Spelled p) (hk : p.kind = .token .define) : p = definePiece := by
  have hmarks : ∀ e ∈ markKinds, e.2 = .define → e.1.toList = [':', '='] := by decide
  obtain ⟨e, he, hkind, htext⟩ := h.exists_markKind hk (by decide)
  rw [hmarks e he hkind] at htext
  exact congrArg₂ Piece.mk hk htext.symm

/-- The first `:=` among the tokens of pieces is made by the first such piece. -/
theorem exists_define (hspelled : ∀ p ∈ ps, Spelled p) {here : Position} {pending : Bool}
    {t : Token} (h : (scan here pending ps).find? (fun t => t.kind == .define) = some t) :
    ∃ as bs, ps = as ++ definePiece :: bs ∧ (∀ p ∈ as, p.kind ≠ .token .define) ∧
      t = ⟨.define, [':', '='], here.advance (textOf as)⟩ := by
  induction ps generalizing here pending with
  | nil => cases h
  | cons p ps ih =>
    rw [scan_cons, find?_append] at h
    by_cases hk : p.kind = .token .define
    · obtain rfl := eq_definePiece (hspelled p mem_cons_self) hk
      refine ⟨[], ps, rfl, by simp, ?_⟩
      simpa [definePiece, Piece.emitted] using h.symm
    · have hnone : (p.emitted here pending).find? (fun t => t.kind == .define) = none := by
        rw [find?_eq_none]
        intro u hu
        have hkind : u.kind ∈ p.emittedKinds pending := by
          rw [← Piece.map_kind_emitted here]
          exact mem_map_of_mem hu
        unfold Piece.emittedKinds at hkind
        cases hp : p.kind with
        | token k =>
          rw [hp] at hkind hk
          simp only [mem_singleton] at hkind
          rw [hkind]
          simpa using hk
        | blank =>
          rw [hp] at hkind
          dsimp only at hkind
          split at hkind
          · rw [mem_singleton.1 hkind]
            decide
          · cases hkind
        | comment =>
          rw [hp] at hkind
          dsimp only at hkind
          split at hkind
          · rw [mem_singleton.1 hkind]
            decide
          · cases hkind
      rw [hnone, Option.none_or] at h
      obtain ⟨as, bs, rfl, has, rfl⟩ :=
        ih (fun q hq => hspelled q (mem_cons_of_mem p hq)) h
      refine ⟨p :: as, bs, rfl, ?_, by rw [textOf_cons, Position.advance_append]⟩
      exact forall_mem_cons.2 ⟨hk, has⟩

end Notebook
