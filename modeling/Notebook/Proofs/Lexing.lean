import Mathlib.Tactic.FinCases
import Notebook.Proofs.Identifiers

/-!
# Reading pieces

The lexer decides where a piece ends from what follows it: a word goes on as long as its
characters do, and an operator takes what makes it longer.  For every way to spell a piece
there is a condition on the text behind it, and the piece is read exactly if that holds.

## Main statements

* `Lexer.spelled_or_unclosed`: what is read is spelled in one of these ways
* `Lexer.reads_blank` and so on: when each of them is read
-/

namespace Notebook

open List

variable {hex : Bool} {c prev q : Char} {p : Piece} {b rest t : Text} {k : TokenKind}

namespace Lexer

/-! ### Closed pieces -/

/-- Whether the first closing mark behind the opening one of a block comment ends the text. -/
def isCommentClosed : Text → Bool
  | [] => false
  | '*' :: '/' :: t => t.isEmpty
  | _ :: t => isCommentClosed t

/-- Whether the first closing quote behind the opening one ends the text.  It is found as in
`quotedRest`. -/
def isQuotedClosed (quote : Char) : Text → Bool
  | [] => false
  | c :: t =>
    if c = '\n' ∧ quote ≠ '\x60' then false
    else if c = '\\' ∧ quote ≠ '\x60' then
      match t with
      | [] => false
      | _ :: t => isQuotedClosed quote t
    else if c = quote then t.isEmpty
    else isQuotedClosed quote t

/-- A closed comment ends where it ends, whatever follows. -/
theorem blockComment_of_closed (h : isCommentClosed b = true) (r : Text) :
    blockComment (b ++ r) = (b, r) := by
  fun_induction isCommentClosed b with
  | case1 => cases h
  | case2 t =>
    obtain rfl : t = [] := by simpa using h
    rfl
  | case3 c t hne ih =>
    have ht : t ≠ [] := by
      rintro rfl
      cases h
    obtain ⟨d, u, rfl⟩ := exists_cons_of_ne_nil ht
    rw [cons_append, blockComment, ih h]
    rintro u' rfl hu
    rw [cons_append, List.cons.injEq] at hu
    exact hne u rfl (by rw [hu.1])

/-- A comment that is not closed goes on to the end of the text. -/
theorem blockComment_of_not_closed (h : isCommentClosed (blockComment t).1 = false) :
    (blockComment t).2 = [] := by
  fun_induction blockComment t with
  | case1 => rfl
  | case2 t => cases h
  | case3 c t hne ih =>
    refine ih ?_
    rw [isCommentClosed] at h
    · exact h
    · rintro u rfl hu
      have happend := blockComment_append t
      rw [hu, cons_append] at happend
      exact hne _ rfl happend.symm

/-- A closed literal ends where it ends, whatever follows. -/
theorem quotedRest_of_closed {quote : Char} (h : isQuotedClosed quote b = true) (r : Text) :
    quotedRest quote (b ++ r) = (b, r) := by
  fun_induction isQuotedClosed quote b with
  | case1 => cases h
  | case2 => cases h
  | case3 => cases h
  | case4 c hnewline hescape d t ih => simp [quotedRest, hescape, ih h]
  | case5 t hnewline hescape =>
    obtain rfl : t = [] := by simpa using h
    rw [cons_append, quotedRest.eq_def]
    simp [hnewline, hescape]
  | case6 c t hnewline hescape hquote ih =>
    rw [cons_append, quotedRest.eq_def]
    simp [hnewline, hescape, hquote, ih h]

end Lexer

namespace Piece

/-- Whether a piece is a comment up to the end of its line. -/
def isLine (p : Piece) : Bool :=
  p.kind == .comment && "//".toList.isPrefixOf p.text

/-- Whether a piece has an end of its own: a block comment and a quoted literal must be
closed. -/
def isClosed (p : Piece) : Bool :=
  match p.kind, p.text with
  | .comment, '/' :: '*' :: t => Lexer.isCommentClosed t
  | .token .str, _ :: t => Lexer.isQuotedClosed '"' t
  | .token .rawStr, _ :: t => Lexer.isQuotedClosed '\x60' t
  | .token .char, _ :: t => Lexer.isQuotedClosed '\'' t
  | _, _ => true

end Piece

namespace Lexer

/-! ### Characters -/

theorem isDigit_cases (h : c.isDigit = true) : 48 ≤ c.toNat ∧ c.toNat ≤ 57 := by
  have hrange : 48 ≤ c.val ∧ c.val ≤ 57 :=
    (Bool.and_eq_true_iff.1 h).imp of_decide_eq_true of_decide_eq_true
  simpa [UInt32.le_iff_toNat_le] using hrange

theorem isBlank_cases (h : isBlank c = true) :
    c = ' ' ∨ (9 ≤ c.toNat ∧ c.toNat ≤ 13) ∨ 128 ≤ c.toNat ∧
      blankRanges.contains c.toNat = true := by
  unfold isBlank at h
  split at h
  · simp only [Bool.or_eq_true, beq_iff_eq, Bool.and_eq_true, decide_eq_true_eq] at h
    exact h.imp_right .inl
  next hge => exact .inr (.inr ⟨by omega, h⟩)

theorem numeralRanges_of_blank {n : Nat} (h : blankRanges.contains n = true) :
    (decimalDigitRanges.contains n || otherNumeralRanges.contains n) = false := by
  rcases blankRanges_cases h with
    rfl | rfl | rfl | ⟨hlo, hhi⟩ | ⟨hlo, hhi⟩ | rfl | rfl | rfl
  case inr.inr.inr.inl => interval_cases n <;> decide +kernel
  case inr.inr.inr.inr.inl => interval_cases n <;> decide +kernel
  all_goals decide +kernel

theorem isNumeral_eq_false_of_isBlank (h : isBlank c = true) : isNumeral c = false := by
  rcases isBlank_cases h with rfl | hlow | ⟨hhigh, hblank⟩
  · decide
  · unfold isNumeral
    rw [if_pos (by omega)]
    cases hdigit : c.isDigit with
    | false => rfl
    | true =>
      have := isDigit_cases hdigit
      omega
  · unfold isNumeral
    rw [if_neg (by omega)]
    exact numeralRanges_of_blank hblank

/-! ### Reading -/

/-- The text that pieces cover. -/
def textOf (ps : List Piece) : Text :=
  ps.flatMap Piece.text

@[simp] theorem textOf_nil : textOf [] = [] := rfl

@[simp] theorem textOf_cons (p : Piece) (ps : List Piece) :
    textOf (p :: ps) = p.text ++ textOf ps := rfl

@[simp] theorem textOf_append (ps qs : List Piece) :
    textOf (ps ++ qs) = textOf ps ++ textOf qs :=
  flatMap_append

theorem textOf_pieces (t : Text) : textOf (pieces t) = t := by
  rw [textOf, flatMap_def, flatten_pieces]

/-- A piece that is read in front of a text. -/
def Reads (p : Piece) (rest : Text) : Prop :=
  ∃ c t, p.text = c :: t ∧ firstPiece c (t ++ rest) = (p, rest)

/-- Pieces that are read back from their text. -/
def Lexed (ps : List Piece) : Prop :=
  pieces (textOf ps) = ps

instance (ps : List Piece) : Decidable (Lexed ps) :=
  inferInstanceAs (Decidable (_ = _))

theorem lexed_nil : Lexed [] := pieces_nil

theorem lexed_pieces (t : Text) : Lexed (pieces t) := by
  rw [Lexed, textOf_pieces]

theorem lexed_cons {ps : List Piece} : Lexed (p :: ps) ↔ Reads p (textOf ps) ∧ Lexed ps := by
  unfold Lexed
  rw [textOf_cons]
  constructor
  · intro h
    cases hp : p.text ++ textOf ps with
    | nil =>
      rw [hp, pieces_nil] at h
      cases h
    | cons c t =>
      rw [hp, pieces_cons] at h
      obtain ⟨hfirst, hrest⟩ := List.cons.inj h
      have happend := firstPiece_append c t
      rw [hfirst, ← hp] at happend
      have hsnd := append_cancel_left happend
      obtain ⟨d, u, hd⟩ := exists_cons_of_ne_nil (hfirst ▸ firstPiece_text_ne_nil c t)
      rw [hsnd] at hrest
      refine ⟨⟨d, u, hd, ?_⟩, hrest⟩
      rw [hd, cons_append, List.cons.injEq] at hp
      rw [hp.1, hp.2]
      exact Prod.ext hfirst hsnd
  · rintro ⟨⟨c, t, hp, hfirst⟩, hps⟩
    rw [hp, cons_append, pieces_cons, hfirst, hps]

/-! ### The kinds of pieces -/

/-- The kind of literal that a quote opens. -/
def quoteKind? (c : Char) : Option TokenKind :=
  if c = '"' then some .str
  else if c = '\x60' then some .rawStr
  else if c = '\'' then some .char
  else none

/-- The kind of a word. -/
def wordKind (t : Text) : TokenKind :=
  ((Keyword.ofText? t).map TokenKind.keyword).getD .ident

/-- Whether a number goes on with a character behind another. -/
def isNumberChar (hex : Bool) (prev c : Char) : Bool :=
  c == '.' || ((c == '+' || c == '-') && isExponentMark hex prev) || c.isAlphanum || c == '_'

/-- Whether a number is begun: by a digit, or by a point with a digit behind it. -/
def startsNumber (c : Char) (t : Text) : Bool :=
  c.isDigit || (c == '.' && t.head?.any Char.isDigit)

/-- A character that begins an operator or a mark, unless a comment or a number begins
there. -/
def isMarkChar (c : Char) : Bool :=
  !isBlank c && (quoteKind? c).isNone && !isIdentifierStart c && !c.isDigit

/-- Whether a mark is read as one in front of a text: it begins no comment and no number, and
no operator takes more. -/
structure EndsMark (m rest : Text) : Prop where
  comment : m = ['/'] → rest.head? ≠ some '/' ∧ rest.head? ≠ some '*'
  number : m = ['.'] → rest.head?.any Char.isDigit = false
  longest : ∀ o ∈ operators, o.toList <+: m ++ rest → o.toList.length ≤ m.length

/-- How a closed piece can be spelled. -/
inductive Spelled : Piece → Prop where
  | blank {c : Char} (h : isBlank c = true) : Spelled ⟨.blank, [c]⟩
  | line {t : Text} (h : '\n' ∉ t) : Spelled ⟨.comment, '/' :: '/' :: t⟩
  | block {t : Text} (h : isCommentClosed t = true) : Spelled ⟨.comment, '/' :: '*' :: t⟩
  | quoted {q : Char} {k : TokenKind} {t : Text} (hq : quoteKind? q = some k)
      (h : isQuotedClosed q t = true) : Spelled ⟨.token k, q :: t⟩
  | word {c : Char} {t : Text} (hc : isIdentifierStart c = true)
      (h : ∀ d ∈ t, isIdentifierChar d = true) : Spelled ⟨.token (wordKind (c :: t)), c :: t⟩
  | number {c : Char} {t : Text} (hc : startsNumber c t = true)
      (h : numberRun (isHexadecimal (c :: t)) c t = (t, [])) :
      Spelled ⟨.token (numberKind (isHexadecimal (c :: t)) (c :: t)), c :: t⟩
  | mark {c : Char} {t : Text} (hc : isMarkChar c = true)
      (h : t = [] ∨ ∃ o ∈ operators, o.toList = c :: t) :
      Spelled ⟨.token (markKind (c :: t)), c :: t⟩

/-- A piece without an end of its own, in front of the text where it ends. -/
inductive Unclosed : Piece → Text → Prop where
  | block {t : Text} (h : isCommentClosed t = false) (hread : blockComment t = (t, [])) :
      Unclosed ⟨.comment, '/' :: '*' :: t⟩ []
  | quoted {q : Char} {k : TokenKind} {t rest : Text} (hq : quoteKind? q = some k)
      (h : isQuotedClosed q t = false) (hread : quotedRest q (t ++ rest) = (t, rest)) :
      Unclosed ⟨.token k, q :: t⟩ rest

theorem isDigit_mem (h : c.isDigit = true) :
    c ∈ ['0', '1', '2', '3', '4', '5', '6', '7', '8', '9'] := by
  obtain ⟨hlo, hhi⟩ := isDigit_cases h
  have hc : c = Char.ofNat c.toNat := (Char.ofNat_toNat c).symm
  rw [hc]
  generalize c.toNat = n at hlo hhi
  interval_cases n <;> decide

/-- A digit begins nothing but a number. -/
theorem isDigit_alone (h : c.isDigit = true) :
    isBlank c = false ∧ c ≠ '/' ∧ c ≠ '.' ∧ quoteKind? c = none ∧
      isIdentifierStart c = false := by
  have hmem := isDigit_mem h
  fin_cases hmem <;> decide

/-! ### What is read first -/

theorem firstPiece_blank (h : isBlank c = true) (t : Text) :
    firstPiece c t = (⟨.blank, [c]⟩, t) := by
  rw [firstPiece, if_pos h]

theorem firstPiece_line (t : Text) :
    firstPiece '/' ('/' :: t) =
      (⟨.comment, '/' :: '/' :: t.takeWhile (· != '\n')⟩, t.dropWhile (· != '\n')) := by
  rfl

theorem firstPiece_block (t : Text) :
    firstPiece '/' ('*' :: t) =
      (⟨.comment, '/' :: '*' :: (blockComment t).1⟩, (blockComment t).2) := by
  rfl

theorem firstPiece_quoted (h : quoteKind? q = some k) (t : Text) :
    firstPiece q t = (⟨.token k, q :: (quotedRest q t).1⟩, (quotedRest q t).2) := by
  unfold quoteKind? at h
  split at h
  next hq =>
    subst hq
    cases h
    rfl
  · split at h
    next hq =>
      subst hq
      cases h
      rfl
    · split at h
      next hq =>
        subst hq
        cases h
        rfl
      · cases h

theorem quote_ne_of_none (h : quoteKind? c = none) : c ≠ '"' ∧ c ≠ '\x60' ∧ c ≠ '\'' := by
  refine ⟨?_, ?_, ?_⟩ <;>
  · rintro rfl
    cases h

theorem firstPiece_number (h : startsNumber c t = true) :
    firstPiece c t =
      (⟨.token (numberKind (isHexadecimal (c :: t))
        (c :: (numberRun (isHexadecimal (c :: t)) c t).1)),
        c :: (numberRun (isHexadecimal (c :: t)) c t).1⟩,
        (numberRun (isHexadecimal (c :: t)) c t).2) := by
  have halone : isBlank c = false ∧ c ≠ '/' ∧ quoteKind? c = none ∧
      isIdentifierStart c = false := by
    rcases Bool.or_eq_true_iff.1 h with hdigit | hpoint
    · obtain ⟨hblank, hslash, -, hquote, hstart⟩ := isDigit_alone hdigit
      exact ⟨hblank, hslash, hquote, hstart⟩
    · obtain rfl : c = '.' := by simpa using (Bool.and_eq_true_iff.1 hpoint).1
      decide
  obtain ⟨hblank, hslash, hquote, hstart⟩ := halone
  obtain ⟨hdouble, hraw, hsingle⟩ := quote_ne_of_none hquote
  unfold startsNumber at h
  simp only [firstPiece, hblank, hslash, hdouble, hraw, hsingle, hstart, h,
    false_and, if_false, if_true, Bool.false_eq_true]

theorem firstPiece_mark (hc : isMarkChar c = true)
    (hcomment : c = '/' → t.head? ≠ some '/' ∧ t.head? ≠ some '*')
    (hnumber : c = '.' → t.head?.any Char.isDigit = false) :
    firstPiece c t = (⟨.token (markKind (mark c t).1), (mark c t).1⟩, (mark c t).2) := by
  simp only [isMarkChar, Bool.and_eq_true, Bool.not_eq_true', Option.isNone_iff_eq_none] at hc
  obtain ⟨⟨⟨hblank, hquote⟩, hstart⟩, hdigit⟩ := hc
  obtain ⟨hdouble, hraw, hsingle⟩ := quote_ne_of_none hquote
  have hline : ¬(c = '/' ∧ t.head? = some '/') := fun h => (hcomment h.1).1 h.2
  have hblock : ¬(c = '/' ∧ t.head? = some '*') := fun h => (hcomment h.1).2 h.2
  have hpoint : (c.isDigit || (c == '.' && t.head?.any Char.isDigit)) = false := by
    cases hdot : c == '.' with
    | false => simp [hdigit]
    | true => simp [hdigit, hnumber (eq_of_beq hdot)]
  simp only [firstPiece, hblank, hline, hblock, hdouble, hraw, hsingle, hstart,
    hpoint, if_false, Bool.false_eq_true]

/-! ### Marks -/

theorem eq_of_prefix_of_length {a : Text} (ha : a <+: t) (hb : b <+: t)
    (h : a.length = b.length) : a = b :=
  List.IsPrefix.eq_of_length (prefix_of_prefix_length_le ha hb h.le) h

/-- Operators stand before those that are shorter. -/
theorem operators_pairwise :
    operators.Pairwise fun a b => b.toList.length ≤ a.toList.length := by
  decide

/-- The longest operator is read. -/
theorem mark_longest (c : Char) (t : Text) (o : String) (ho : o ∈ operators)
    (h : o.toList <+: c :: t) : o.toList.length ≤ (mark c t).1.length := by
  unfold mark
  split
  next found hfound =>
    obtain ⟨-, before, behind, heq, hbefore⟩ := find?_eq_some_iff_append.1 hfound
    rw [heq, mem_append] at ho
    rcases ho with ho | ho
    · have := hbefore o ho
      simp [List.isPrefixOf_iff_prefix.2 h] at this
    · have hpair := operators_pairwise
      rw [heq, pairwise_append, pairwise_cons] at hpair
      rcases mem_cons.1 ho with rfl | ho
      · exact Nat.le_refl _
      · exact hpair.2.1.1 o ho
  next hnone =>
    have := find?_eq_none.1 hnone o ho
    simp [List.isPrefixOf_iff_prefix.2 h] at this

theorem mark_fst (c : Char) (t : Text) :
    (∃ o ∈ operators, o.toList = (mark c t).1) ∨ (mark c t).1 = [c] := by
  unfold mark
  split
  next found hfound => exact .inl ⟨found, mem_of_find?_eq_some hfound, rfl⟩
  · exact .inr rfl

/-- A mark is read if it is an operator or one character, and no operator is longer. -/
theorem mark_eq {c : Char} {t rest : Text} (h : t = [] ∨ ∃ o ∈ operators, o.toList = c :: t)
    (hlongest : ∀ o ∈ operators, o.toList <+: c :: (t ++ rest) → o.toList.length ≤
      (c :: t).length) :
    mark c (t ++ rest) = (c :: t, rest) := by
  have happend := mark_append c (t ++ rest)
  have hfst : (mark c (t ++ rest)).1 = c :: t := by
    have hpre : (mark c (t ++ rest)).1 <+: c :: (t ++ rest) := ⟨_, happend⟩
    refine eq_of_prefix_of_length hpre (prefix_append (c :: t) rest)
      (Nat.le_antisymm ?_ ?_)
    · rcases mark_fst c (t ++ rest) with ⟨o, ho, heq⟩ | heq
      · rw [← heq]
        exact hlongest o ho (heq ▸ hpre)
      · simp [heq]
    · rcases h with rfl | ⟨o, ho, heq⟩
      · exact length_pos_iff.2 (mark_ne_nil c ([] ++ rest))
      · rw [← heq]
        refine mark_longest c (t ++ rest) o ho ?_
        rw [heq]
        exact prefix_append (c :: t) rest
  refine Prod.ext hfst ?_
  rw [hfst, ← cons_append] at happend
  exact append_cancel_left happend

/-! ### Numbers -/

theorem numberRun_cons (hex : Bool) (prev c : Char) (t : Text) :
    numberRun hex prev (c :: t) =
      if isNumberChar hex prev c then (c :: (numberRun hex c t).1, (numberRun hex c t).2)
      else ([], c :: t) := by
  rw [numberRun, isNumberChar]

/-- A number ends in front of a text that does not go on with it. -/
theorem numberRun_append_iff :
    numberRun hex prev (t ++ rest) = (t, rest) ↔
      numberRun hex prev t = (t, []) ∧
        ∀ d, rest.head? = some d → isNumberChar hex (t.getLast?.getD prev) d = false := by
  induction t generalizing prev with
  | nil =>
    cases rest with
    | nil => simp [numberRun]
    | cons d rest =>
      rw [nil_append, numberRun_cons]
      cases h : isNumberChar hex prev d with
      | false => simp [numberRun, h]
      | true => simp [numberRun, h]
  | cons c t ih =>
    rw [cons_append, numberRun_cons, numberRun_cons]
    cases h : isNumberChar hex prev c with
    | false => simp
    | true =>
      simp only [if_true, Prod.mk.injEq, List.cons.injEq, true_and]
      have hlast : (c :: t).getLast?.getD prev = t.getLast?.getD c := by
        cases t with
        | nil => rfl
        | cons d t => simp [getLast?_cons]
      rw [hlast]
      have := @ih c
      rw [Prod.ext_iff, Prod.ext_iff] at this
      exact this

/-! ### When a piece is read -/

theorem reads_cons {k : PieceKind} :
    Reads ⟨k, c :: t⟩ rest ↔ firstPiece c (t ++ rest) = (⟨k, c :: t⟩, rest) := by
  constructor
  · rintro ⟨d, u, heq, h⟩
    obtain ⟨rfl, rfl⟩ := List.cons.inj heq
    exact h
  · intro h
    exact ⟨c, t, rfl, h⟩

theorem reads_blank (h : isBlank c = true) (rest : Text) : Reads ⟨.blank, [c]⟩ rest :=
  reads_cons.2 (firstPiece_blank h rest)

theorem reads_line (ht : '\n' ∉ t) :
    Reads ⟨.comment, '/' :: '/' :: t⟩ rest ↔ ∀ d, rest.head? = some d → d = '\n' := by
  rw [reads_cons, cons_append, firstPiece_line]
  have hall : ∀ c ∈ t, (c != '\n') = true := fun c hc => by
    rw [bne_iff_ne]
    rintro rfl
    exact ht hc
  rw [takeWhile_append_of_pos hall, dropWhile_append_of_pos hall]
  cases rest with
  | nil => simp
  | cons d rest =>
    by_cases hd : d = '\n'
    · simp [hd]
    · simp [hd]

theorem reads_block (ht : isCommentClosed t = true) (rest : Text) :
    Reads ⟨.comment, '/' :: '*' :: t⟩ rest := by
  rw [reads_cons, cons_append, firstPiece_block, blockComment_of_closed ht]

theorem reads_quoted (hq : quoteKind? q = some k) (ht : isQuotedClosed q t = true)
    (rest : Text) : Reads ⟨.token k, q :: t⟩ rest := by
  rw [reads_cons, firstPiece_quoted hq, quotedRest_of_closed ht]

theorem reads_word (hc : isIdentifierStart c = true)
    (ht : ∀ d ∈ t, isIdentifierChar d = true) :
    Reads ⟨.token (wordKind (c :: t)), c :: t⟩ rest ↔
      ∀ d, rest.head? = some d → isIdentifierChar d = false := by
  rw [reads_cons, firstPiece_identifier hc, takeWhile_append_of_pos ht,
    dropWhile_append_of_pos ht]
  cases rest with
  | nil => simp [wordKind]
  | cons d rest =>
    cases hd : isIdentifierChar d with
    | false => simp [hd, wordKind]
    | true => simp [hd]

theorem isHexadecimal_append (h : ∀ d, rest.head? = some d → d.isAlphanum = false) :
    isHexadecimal (c :: (t ++ rest)) = isHexadecimal (c :: t) := by
  cases t with
  | cons d t => simp [isHexadecimal, List.isPrefixOf]
  | nil =>
    cases rest with
    | nil => rfl
    | cons d rest =>
      have hx : d ≠ 'x' ∧ d ≠ 'X' := by
        constructor <;>
        · rintro rfl
          cases h _ rfl
      simp [isHexadecimal, List.isPrefixOf, Ne.symm hx.1, Ne.symm hx.2]

theorem isAlphanum_eq_false_of_isNumberChar (h : isNumberChar hex prev c = false) :
    c.isAlphanum = false := by
  simp only [isNumberChar, Bool.or_eq_false_iff] at h
  exact h.1.2

theorem isNumberChar_of_isDigit (h : c.isDigit = true) : isNumberChar hex prev c = true := by
  simp [isNumberChar, Char.isAlphanum, h]

theorem reads_number (hc : startsNumber c t = true)
    (ht : numberRun (isHexadecimal (c :: t)) c t = (t, [])) :
    Reads ⟨.token (numberKind (isHexadecimal (c :: t)) (c :: t)), c :: t⟩ rest ↔
      ∀ d, rest.head? = some d →
        isNumberChar (isHexadecimal (c :: t)) (t.getLast?.getD c) d = false := by
  have hstart : startsNumber c (t ++ rest) = true := by
    rcases Bool.or_eq_true_iff.1 hc with hdigit | hpoint
    · simp [startsNumber, hdigit]
    · cases t with
      | nil => simp at hpoint
      | cons d t => simpa [startsNumber] using hc
  rw [reads_cons, firstPiece_number hstart]
  constructor
  · intro h
    simp only [Prod.mk.injEq, Piece.mk.injEq, List.cons.injEq, true_and] at h
    have hrun : numberRun (isHexadecimal (c :: (t ++ rest))) c (t ++ rest) = (t, rest) :=
      Prod.ext h.1.2 h.2
    have hends := (numberRun_append_iff.1 hrun).2
    rwa [isHexadecimal_append fun d hd =>
      isAlphanum_eq_false_of_isNumberChar (hends d hd)] at hends
  · intro h
    have hhex : isHexadecimal (c :: (t ++ rest)) = isHexadecimal (c :: t) :=
      isHexadecimal_append fun d hd => isAlphanum_eq_false_of_isNumberChar (h d hd)
    rw [hhex, numberRun_append_iff.2 ⟨ht, h⟩]

/-- Behind its first character an operator of more than one begins no comment and no
number. -/
theorem operators_inside : ∀ o ∈ operators,
    (o.toList.head? = some '/' →
      o.toList.tail.head? ≠ some '/' ∧ o.toList.tail.head? ≠ some '*' ∧ o.toList.tail ≠ []) ∧
    (o.toList.head? = some '.' →
      o.toList.tail.head?.any Char.isDigit = false ∧ o.toList.tail ≠ []) := by
  decide

theorem reads_mark (hc : isMarkChar c = true)
    (ht : t = [] ∨ ∃ o ∈ operators, o.toList = c :: t) :
    Reads ⟨.token (markKind (c :: t)), c :: t⟩ rest ↔ EndsMark (c :: t) rest := by
  have hhead : t ≠ [] → (t ++ rest).head? = t.head? := fun h => by
    obtain ⟨d, u, rfl⟩ := exists_cons_of_ne_nil h
    rfl
  have hslash (h : c :: t = ['/'] → rest.head? ≠ some '/' ∧ rest.head? ≠ some '*') :
      c = '/' → (t ++ rest).head? ≠ some '/' ∧ (t ++ rest).head? ≠ some '*' := by
    rintro rfl
    rcases ht with rfl | ⟨o, ho, heq⟩
    · exact h rfl
    · have hinside := (operators_inside o ho).1
      rw [heq] at hinside
      obtain ⟨hone, htwo, hne⟩ := hinside rfl
      rw [hhead hne]
      exact ⟨hone, htwo⟩
  have hpoint (h : c :: t = ['.'] → rest.head?.any Char.isDigit = false) :
      c = '.' → (t ++ rest).head?.any Char.isDigit = false := by
    rintro rfl
    rcases ht with rfl | ⟨o, ho, heq⟩
    · exact h rfl
    · have hinside := (operators_inside o ho).2
      rw [heq] at hinside
      obtain ⟨hdigit, hne⟩ := hinside rfl
      rw [hhead hne]
      exact hdigit
  rw [reads_cons]
  constructor
  · intro h
    have hcomment : c :: t = ['/'] → rest.head? ≠ some '/' ∧ rest.head? ≠ some '*' := by
      intro heq
      obtain ⟨rfl, rfl⟩ := List.cons.inj heq
      constructor
      all_goals
        intro hrest
        obtain ⟨rest, rfl⟩ := head?_eq_some_iff.1 hrest
        cases congrArg (fun r => r.1.kind) h
    have hnumber : c :: t = ['.'] → rest.head?.any Char.isDigit = false := by
      intro heq
      obtain ⟨rfl, rfl⟩ := List.cons.inj heq
      cases hdigit : rest.head?.any Char.isDigit with
      | false => rfl
      | true =>
        have hstart : startsNumber '.' ([] ++ rest) = true := by
          simpa [startsNumber] using hdigit
        rw [firstPiece_number hstart] at h
        cases rest with
        | nil => cases hdigit
        | cons d rest =>
          have htext := congrArg (fun r => r.1.text.tail) h
          simp only [nil_append, tail_cons, numberRun_cons,
            isNumberChar_of_isDigit (show d.isDigit = true from hdigit), if_true] at htext
          cases htext
    have hmark := firstPiece_mark hc (hslash hcomment) (hpoint hnumber)
    rw [h] at hmark
    refine ⟨hcomment, hnumber, fun o ho hpre => ?_⟩
    have hfst : c :: t = (mark c (t ++ rest)).1 := congrArg (fun r => r.1.text) hmark
    rw [hfst]
    exact mark_longest c (t ++ rest) o ho hpre
  · intro h
    rw [firstPiece_mark hc (hslash h.comment) (hpoint h.number), mark_eq ht h.longest]

/-- A block comment that is read has an end, or it is the last piece of the text. -/
theorem spelled_or_unclosed_block {u : Text} (h : firstPiece '/' ('*' :: u) = (p, rest)) :
    Spelled p ∨ Unclosed p rest := by
  rw [firstPiece_block] at h
  cases h
  cases hclosed : isCommentClosed (blockComment u).1 with
  | true => exact .inl (.block hclosed)
  | false =>
    have hnil := blockComment_of_not_closed hclosed
    have happend := blockComment_append u
    rw [hnil, append_nil] at happend
    refine .inr ?_
    rw [hnil]
    exact .block hclosed (by rw [happend]; exact Prod.ext happend hnil)

/-- A quoted literal that is read has an end, or what stands behind it cuts it off. -/
theorem spelled_or_unclosed_quoted (hquote : quoteKind? q = some k) (hp : p.text = q :: t)
    (h : firstPiece q (t ++ rest) = (p, rest)) : Spelled p ∨ Unclosed p rest := by
  rw [firstPiece_quoted hquote] at h
  obtain rfl := congrArg Prod.fst h
  obtain ⟨-, ht⟩ := List.cons.inj hp
  have hrest : (quotedRest q (t ++ rest)).2 = rest := congrArg (fun r => r.2) h
  cases hclosed : isQuotedClosed q (quotedRest q (t ++ rest)).1 with
  | true => exact .inl (.quoted hquote hclosed)
  | false =>
    refine .inr (.quoted hquote hclosed ?_)
    rw [ht]
    exact Prod.ext ht hrest

/-- A number that is read would be read alone, too: what stands behind it is no part of it. -/
theorem spelled_of_startsNumber (hnumber : startsNumber c (t ++ rest) = true)
    (hp : p.text = c :: t) (h : firstPiece c (t ++ rest) = (p, rest)) : Spelled p := by
  rw [firstPiece_number hnumber] at h
  have htext : (numberRun (isHexadecimal (c :: (t ++ rest))) c (t ++ rest)).1 = t := by
    have := congrArg (fun r => r.1.text) h
    rw [hp] at this
    exact (List.cons.inj this).2
  have hrun : numberRun (isHexadecimal (c :: (t ++ rest))) c (t ++ rest) = (t, rest) :=
    Prod.ext htext (congrArg (fun r => r.2) h)
  obtain ⟨hown, hends⟩ := numberRun_append_iff.1 hrun
  have hhex : isHexadecimal (c :: (t ++ rest)) = isHexadecimal (c :: t) :=
    isHexadecimal_append fun d hd => isAlphanum_eq_false_of_isNumberChar (hends d hd)
  rw [hhex] at hown
  have hp' : p = ⟨.token (numberKind (isHexadecimal (c :: t)) (c :: t)), c :: t⟩ := by
    rw [hrun, hhex] at h
    exact (congrArg Prod.fst h).symm
  rw [hp']
  refine .number ?_ hown
  cases t with
  | cons d t => simpa [startsNumber] using hnumber
  | nil =>
    rcases Bool.or_eq_true_iff.1 hnumber with hdigit | hpoint
    · simp [startsNumber, hdigit]
    · cases rest with
      | nil => simp at hpoint
      | cons d rest =>
        -- A digit behind the point would belong to the number.
        have hdigit : d.isDigit = true := by simpa using (Bool.and_eq_true_iff.1 hpoint).2
        have := hends d rfl
        rw [isNumberChar_of_isDigit hdigit] at this
        cases this

/-- A mark that is read is one character or an operator. -/
theorem spelled_of_isMarkChar (hc : isMarkChar c = true)
    (hcomment : c = '/' → (t ++ rest).head? ≠ some '/' ∧ (t ++ rest).head? ≠ some '*')
    (hnumber : c = '.' → (t ++ rest).head?.any Char.isDigit = false) (hp : p.text = c :: t)
    (h : firstPiece c (t ++ rest) = (p, rest)) : Spelled p := by
  rw [firstPiece_mark hc hcomment hnumber] at h
  have hfst : (mark c (t ++ rest)).1 = c :: t := (congrArg (fun r => r.1.text) h).trans hp
  have hp' : p = ⟨.token (markKind (c :: t)), c :: t⟩ := by
    rw [hfst] at h
    exact (congrArg Prod.fst h).symm
  rw [hp']
  refine .mark hc ?_
  rcases mark_fst c (t ++ rest) with ⟨o, ho, heq⟩ | heq
  · exact .inr ⟨o, ho, heq.trans hfst⟩
  · rw [hfst] at heq
    exact .inl (List.cons.inj heq).2

/-- What is read is spelled in one of seven ways, or has no end of its own. -/
theorem spelled_or_unclosed (h : Reads p rest) : Spelled p ∨ Unclosed p rest := by
  obtain ⟨c, t, hp, h⟩ := h
  by_cases hblank : isBlank c = true
  · rw [firstPiece_blank hblank] at h
    obtain rfl := congrArg Prod.fst h
    exact .inl (.blank hblank)
  by_cases hslash : c = '/' ∧ (t ++ rest).head? = some '/'
  · obtain ⟨rfl, hhead⟩ := hslash
    obtain ⟨u, hu⟩ := head?_eq_some_iff.1 hhead
    rw [hu, firstPiece_line] at h
    cases h
    refine .inl (.line fun hmem => ?_)
    simpa using mem_takeWhile_imp hmem
  by_cases hstar : c = '/' ∧ (t ++ rest).head? = some '*'
  · obtain ⟨rfl, hhead⟩ := hstar
    obtain ⟨u, hu⟩ := head?_eq_some_iff.1 hhead
    rw [hu] at h
    exact spelled_or_unclosed_block h
  cases hquote : quoteKind? c with
  | some k => exact spelled_or_unclosed_quoted hquote hp h
  | none =>
    by_cases hstart : isIdentifierStart c = true
    · rw [firstPiece_identifier hstart] at h
      obtain rfl := congrArg Prod.fst h
      exact .inl (.word hstart fun d hd => mem_takeWhile_imp hd)
    by_cases hnumber : startsNumber c (t ++ rest) = true
    · exact .inl (spelled_of_startsNumber hnumber hp h)
    · simp only [startsNumber, Bool.or_eq_true, not_or, Bool.not_eq_true, Bool.and_eq_true,
        beq_iff_eq, not_and] at hnumber
      have hmark : isMarkChar c = true := by
        simp [isMarkChar, hblank, hquote, hstart, hnumber.1]
      have hcomment : c = '/' → (t ++ rest).head? ≠ some '/' ∧ (t ++ rest).head? ≠ some '*' :=
        fun hc => ⟨fun h => hslash ⟨hc, h⟩, fun h => hstar ⟨hc, h⟩⟩
      exact .inl (spelled_of_isMarkChar hmark hcomment hnumber.2 hp h)

/-- A quoted literal has an end if what stands behind its quote has one. -/
theorem isClosed_quoted (hq : quoteKind? q = some k) (t : Text) :
    Piece.isClosed ⟨.token k, q :: t⟩ = isQuotedClosed q t := by
  unfold quoteKind? at hq
  split at hq
  next hc =>
    subst hc
    cases hq
    rfl
  · split at hq
    next hc =>
      subst hc
      cases hq
      rfl
    · split at hq
      next hc =>
        subst hc
        cases hq
        rfl
      · cases hq

theorem Spelled.text_ne_nil (h : Spelled p) : p.text ≠ [] := by
  cases h <;> simp

theorem Unclosed.isClosed_eq (h : Unclosed p rest) : p.isClosed = false := by
  cases h with
  | block h => exact h
  | quoted hq h => rw [isClosed_quoted hq, h]

theorem Spelled.isClosed_eq (h : Spelled p) : p.isClosed = true := by
  cases h with
  | blank => rfl
  | line => rfl
  | block h => exact h
  | quoted hq h => rw [isClosed_quoted hq, h]
  | @word c t =>
    unfold wordKind
    cases Keyword.ofText? (c :: t) <;> rfl
  | @number c t =>
    unfold numberKind
    repeat' split
    all_goals rfl
  | @mark c t =>
    have hall : ∀ e ∈ markKinds, ∀ m, (⟨.token e.2, m⟩ : Piece).isClosed = true := by
      simp [markKinds, Piece.isClosed]
    unfold markKind
    cases hfound : markKinds.find? fun e => e.1.toList == c :: t with
    | none => rfl
    | some e => exact hall e (mem_of_find?_eq_some hfound) _

/-- What is read and has an end is spelled in one of seven ways. -/
theorem spelled_of_reads (h : Reads p rest) (hc : p.isClosed = true) : Spelled p := by
  rcases spelled_or_unclosed h with hspelled | hunclosed
  · exact hspelled
  · rw [hunclosed.isClosed_eq] at hc
    cases hc

/-- A piece of a kind that only marks have is spelled like one of them. -/
theorem Spelled.exists_markKind (h : Spelled p) (hk : p.kind = .token k)
    (hmark : k ∈ markKinds.map Prod.snd) :
    ∃ e ∈ markKinds, e.2 = k ∧ e.1.toList = p.text := by
  cases h with
  | blank => cases hk
  | line => cases hk
  | block => cases hk
  | quoted hq =>
    cases hk
    unfold quoteKind? at hq
    repeat' split at hq
    all_goals cases hq
    all_goals exact absurd hmark (by decide)
  | @word c t =>
    simp only [PieceKind.token.injEq, wordKind] at hk
    rw [← hk] at hmark
    cases hw : Keyword.ofText? (c :: t) <;> rw [hw] at hmark <;> simp [markKinds] at hmark
  | number =>
    simp only [PieceKind.token.injEq, numberKind] at hk
    repeat' split at hk
    all_goals cases hk
    all_goals exact absurd hmark (by decide)
  | @mark c t =>
    simp only [PieceKind.token.injEq, markKind] at hk
    cases hfound : markKinds.find? fun e => e.1.toList == c :: t with
    | none =>
      rw [hfound] at hk
      cases hk
      exact absurd hmark (by decide)
    | some e =>
      rw [hfound] at hk
      exact ⟨e, mem_of_find?_eq_some hfound, hk, by simpa using find?_some hfound⟩

end Lexer

end Notebook
