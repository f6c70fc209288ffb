import Mathlib.Data.List.TakeWhile
import Mathlib.Tactic.IntervalCases
import Notebook.Source.Binding

/-!
# Identifiers in a text

An identifier that stands in front of something that cannot belong to it is read as a token of
its own.  The tests that the lexer makes before it looks for an identifier all fail on the
character that begins one, because letters are neither blanks nor quotation marks.

## Main statements

* `Lexer.pieces_identifier`: an identifier is one piece
* `mem_identifiers_of_front`: an identifier behind a blank at the front of a text is one of
  its identifiers
-/

namespace Notebook

open List

variable {c d : Char} {t x : Text}

/-- A text that can name a variable: a letter or an underscore, then letters, numerals and
underscores, and no keyword. -/
structure IsIdentifier (x : Text) : Prop where
  spelled : ∃ c r, x = c :: r ∧ Lexer.isIdentifierStart c = true ∧
    ∀ d ∈ r, isIdentifierChar d = true
  free : Keyword.ofText? x = none

theorem IsIdentifier.point_notMem (h : IsIdentifier x) : '.' ∉ x := by
  obtain ⟨c, r, rfl, hc, hr⟩ := h.spelled
  rw [mem_cons, not_or]
  constructor
  · rintro rfl
    revert hc
    decide
  · intro hmem
    have hchar := hr '.' hmem
    revert hchar
    decide

/-! ### Letters and blanks -/

/-- The code points of the blanks above ASCII. -/
theorem blankRanges_cases {n : Nat} (h : blankRanges.contains n = true) :
    n = 0x85 ∨ n = 0xa0 ∨ n = 0x1680 ∨ (0x2000 ≤ n ∧ n ≤ 0x200a) ∨ (0x2028 ≤ n ∧ n ≤ 0x2029) ∨
      n = 0x202f ∨ n = 0x205f ∨ n = 0x3000 := by
  simp only [blankRanges, CodeRanges.contains] at h
  grind

theorem isAlpha_cases (h : c.isAlpha = true) :
    (65 ≤ c.toNat ∧ c.toNat ≤ 90) ∨ (97 ≤ c.toNat ∧ c.toNat ≤ 122) := by
  rcases Bool.or_eq_true_iff.1 h with hupper | hlower
  · have hrange : 65 ≤ c.val ∧ c.val ≤ 90 := of_decide_eq_true hupper
    exact .inl (by simpa [UInt32.le_iff_toNat_le] using hrange)
  · have hrange : 97 ≤ c.val ∧ c.val ≤ 122 :=
      (Bool.and_eq_true_iff.1 hlower).imp of_decide_eq_true of_decide_eq_true
    exact .inr (by simpa [UInt32.le_iff_toNat_le] using hrange)

/-- A letter is no blank. -/
theorem isBlank_eq_false_of_isLetter (h : isLetter c = true) : isBlank c = false := by
  unfold isLetter at h
  unfold isBlank
  split
  next hascii =>
    rw [if_pos hascii] at h
    have hcases := isAlpha_cases h
    have hspace : c ≠ ' ' := by
      rintro rfl
      revert hcases
      decide
    simp only [Bool.or_eq_false_iff, beq_eq_false_iff_ne, Bool.and_eq_false_iff,
      decide_eq_false_iff_not]
    exact ⟨hspace, by omega⟩
  next hascii =>
    rw [if_neg hascii] at h
    cases hblank : blankRanges.contains c.toNat with
    | false => rfl
    | true =>
      exfalso
      revert h
      generalize c.toNat = n at hblank
      -- Above ASCII the blanks are few, and none of them is in the table of letters.
      rcases blankRanges_cases hblank with
        rfl | rfl | rfl | ⟨hlo, hhi⟩ | ⟨hlo, hhi⟩ | rfl | rfl | rfl
      case inr.inr.inr.inl => interval_cases n <;> decide +kernel
      case inr.inr.inr.inr.inl => interval_cases n <;> decide +kernel
      all_goals decide +kernel

/-- Names and reserved words. -/
def TokenKind.isWord : TokenKind → Bool
  | ident | keyword _ => true
  | _ => false

namespace Lexer

theorem isBlank_eq_false_of_isIdentifierStart (h : isIdentifierStart c = true) :
    isBlank c = false := by
  rcases Bool.or_eq_true_iff.1 h with h | h
  · exact isBlank_eq_false_of_isLetter h
  · cases eq_of_beq h
    decide

/-! ### Reading -/

/-- A word begins with an identifier character, and takes all that follow. -/
theorem firstPiece_identifier (h : isIdentifierStart c = true) :
    firstPiece c t = (⟨.token (((Keyword.ofText? (c :: t.takeWhile isIdentifierChar)).map
      TokenKind.keyword).getD .ident), c :: t.takeWhile isIdentifierChar⟩,
      t.dropWhile isIdentifierChar) := by
  -- The tests before the one for words look for a blank, a slash or a quotation mark.
  have hne : ∀ d, isIdentifierStart d = false → c ≠ d := by
    rintro d hd rfl
    rw [h] at hd
    cases hd
  have hslash := hne '/' (by decide)
  have hquote := hne '"' (by decide)
  have hraw := hne '\x60' (by decide)
  have hchar := hne '\'' (by decide)
  simp only [firstPiece, isBlank_eq_false_of_isIdentifierStart h, hslash, hquote,
    hraw, hchar, h, false_and, if_false, if_true, Bool.false_eq_true]

/-- An identifier is one piece, if what follows cannot belong to it. -/
theorem pieces_identifier (hx : IsIdentifier x) (hd : isIdentifierChar d = false) :
    pieces (x ++ d :: t) = ⟨.token .ident, x⟩ :: pieces (d :: t) := by
  obtain ⟨c, r, rfl, hc, hr⟩ := hx.spelled
  have htake : (r ++ d :: t).takeWhile isIdentifierChar = r := by
    rw [takeWhile_append_of_pos hr, takeWhile_cons_of_neg (by simp [hd]),
      append_nil]
  have hdrop : (r ++ d :: t).dropWhile isIdentifierChar = d :: t := by
    rw [dropWhile_append_of_pos hr, dropWhile_cons_of_neg (by simp [hd])]
  rw [cons_append, pieces_cons, firstPiece_identifier hc, htake, hdrop, hx.free]
  rfl

/-- What is a name or a reserved word begins as words do: numbers and marks are neither. -/
theorem isIdentifierStart_of_isWord {k : TokenKind} (h : (firstPiece c t).1.kind = .token k)
    (hk : k.isWord = true) : isIdentifierStart c = true := by
  have hmark : ∀ m, (markKind m).isWord = false := by
    have hall : ∀ e ∈ markKinds, e.2.isWord = false := by decide
    intro m
    unfold markKind
    cases hfound : markKinds.find? fun e => e.1.toList == m with
    | none => rfl
    | some e => exact hall e (mem_of_find?_eq_some hfound)
  have hnumber : ∀ hex m, (numberKind hex m).isWord = false := by
    intro hex m
    unfold numberKind
    repeat' split
    all_goals rfl
  have hquoted : ∀ l ∈ [TokenKind.str, .rawStr, .char], l.isWord = false := by decide
  by_contra hstart
  unfold firstPiece at h
  rw [if_neg hstart] at h
  repeat' split at h
  all_goals cases h
  all_goals simp [hmark, hnumber, hquoted] at hk

/-- Only a word is an identifier. -/
theorem firstPiece_ident (h : (firstPiece c t).1.kind = .token .ident) :
    IsIdentifier (firstPiece c t).1.text := by
  have hword := isIdentifierStart_of_isWord h rfl
  rw [firstPiece_identifier hword] at h ⊢
  cases hkey : Keyword.ofText? (c :: t.takeWhile isIdentifierChar) with
  | none => exact ⟨⟨c, _, rfl, hword, fun d hd => mem_takeWhile_imp hd⟩, hkey⟩
  | some k =>
    rw [hkey] at h
    cases h

theorem pieces_ident {p : Piece} (hp : p ∈ pieces t) (h : p.kind = .token .ident) :
    IsIdentifier p.text := by
  fun_induction pieces t with
  | case1 => simp at hp
  | case2 c t ih =>
    rcases mem_cons.1 hp with rfl | hp
    · exact firstPiece_ident h
    · exact ih hp

end Lexer

/-- An identifier behind a tab at the front of a text is one of its identifiers. -/
theorem mem_identifiers_of_front (hx : IsIdentifier x) (hd : isIdentifierChar d = false) :
    x ∈ identifiers ('\t' :: (x ++ d :: t)) := by
  have hblank : Lexer.firstPiece '\t' (x ++ d :: t) = (⟨.blank, ['\t']⟩, x ++ d :: t) := by
    simp only [Lexer.firstPiece, show isBlank '\t' = true by decide, if_true]
  have hmem : ∃ p, (⟨.ident, x, p⟩ : Token) ∈ tokenize ('\t' :: (x ++ d :: t)) := by
    rw [tokenize, Lexer.pieces_cons, hblank, Lexer.pieces_identifier hx hd]
    simp [Lexer.tokensOf]
  obtain ⟨p, hp⟩ := hmem
  exact mem_map.2 ⟨_, mem_filter.2 ⟨hp, rfl⟩, rfl⟩

end Notebook
