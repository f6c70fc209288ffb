import Mathlib.Data.List.Infix
import Notebook.Assembly
import Notebook.Proofs.Lines

/-!
# Where the input mark can stand

Before a program is run, every occurrence of the input mark is taken out of its text.  The
mark that assembly put in should be the only one.  A text that is put together from others may
hold a mark that none of them holds, but hardly anywhere: a mark is a comment, and rows end in
blanks, semicolons and comments that are closed.  Only a closed comment with half a mark
behind it makes one.

## Main statements

* `Text.erase_append`: leaving out the first occurrence of a text
* `mark_notInfix_flatten`: rows without half a mark hold no mark together
* `stripMark_eq`: a program with one mark, without it
-/

namespace Notebook

open Lexer List

variable {p : Piece} {a b needle t x y : Text}

/-! ### Occurrences -/

namespace Text

theorem erase_of_notInfix (h : ¬needle <:+: t) : erase t needle = t := by
  rw [erase]
  induction t with
  | nil => rfl
  | cons c t ih =>
    rw [infix_cons_iff, not_or] at h
    have hprefix : ¬needle.isPrefixOf (c :: t) = true := by
      rw [List.isPrefixOf_iff_prefix]
      exact h.1
    rw [eraseFrom, if_neg hprefix, ih h.2]

theorem eraseFrom_length (needle a t : Text) : eraseFrom needle a.length (a ++ t) =
    eraseFrom needle 0 t := by
  induction a with
  | nil => rfl
  | cons c a ih => exact ih

/-- A text that begins in no end of itself but the whole. -/
def IsBorderless (t : Text) : Prop :=
  ∀ x ∈ t.tails, x <+: t → x = [] ∨ x = t

instance (t : Text) : Decidable t.IsBorderless :=
  inferInstanceAs (Decidable (∀ _ ∈ _, _))

/-- A text that another begins with ends in its first part, or goes on in its second. -/
theorem prefix_append_cases (h : x <+: a ++ b) : x <+: a ∨ ∃ y, x = a ++ y ∧ y <+: b := by
  obtain ⟨t, ht⟩ := h
  rcases append_eq_append_iff.1 ht with ⟨u, hu, -⟩ | ⟨y, hy, hb⟩
  · exact .inl ⟨u, hu.symm⟩
  · exact .inr ⟨y, hy, t, hb.symm⟩

/-- A text that begins in no end of itself is not begun in front of an occurrence. -/
theorem IsBorderless.prefix_of_prefix_append (h : needle.IsBorderless) (ha : a ≠ [])
    (hpre : needle <+: a ++ (needle ++ b)) : needle <+: a := by
  rcases prefix_append_cases hpre with hshort | ⟨x, hx, hlong⟩
  · exact hshort
  · -- An occurrence that begins earlier would end in the beginning of the other.
    have hmem : x ∈ needle.tails := (mem_tails _ _).2 ⟨a, hx.symm⟩
    have hlen : x.length < needle.length := by
      have hpos := length_pos_of_ne_nil ha
      rw [hx, length_append]
      omega
    have hxpre : x <+: needle :=
      prefix_of_prefix_length_le hlong (prefix_append needle b) hlen.le
    rcases h x hmem hxpre with rfl | rfl
    · rw [append_nil] at hx
      exact hx ▸ prefix_rfl
    · omega

/-- The first occurrence of a text is left out where it stands. -/
theorem erase_append (hne : needle ≠ []) (hborder : needle.IsBorderless) (ha : ¬needle <:+: a)
    (b : Text) : erase (a ++ needle ++ b) needle = a ++ erase b needle := by
  unfold erase
  induction a with
  | nil =>
    obtain ⟨c, n, rfl⟩ := exists_cons_of_ne_nil hne
    have hprefix : (c :: n).isPrefixOf (c :: (n ++ b)) = true := by
      rw [List.isPrefixOf_iff_prefix]
      exact prefix_append (c :: n) b
    rw [nil_append, cons_append, eraseFrom, if_pos hprefix]
    exact eraseFrom_length (c :: n) n b
  | cons c a ih =>
    rw [infix_cons_iff, not_or] at ha
    have hprefix : ¬needle.isPrefixOf (c :: (a ++ needle ++ b)) = true := by
      rw [List.isPrefixOf_iff_prefix]
      intro hpre
      have hsplit : needle <+: (c :: a) ++ (needle ++ b) := by simpa using hpre
      exact ha.1 (hborder.prefix_of_prefix_append (cons_ne_nil c a) hsplit)
    rw [cons_append, cons_append, eraseFrom, if_neg hprefix, ih ha.2,
      cons_append]

/-- A text does not occur across a character that it does not hold. -/
theorem infix_append_cons {c : Char} (hc : c ∉ needle) :
    needle <:+: a ++ c :: b ↔ needle <:+: a ∨ needle <:+: b := by
  constructor
  · intro h
    rcases List.infix_append_iff.1 h with h | h | ⟨x, y, rfl, hx, hy⟩
    · exact .inl h
    · rcases infix_cons_iff.1 h with h | h
      · rcases prefix_cons_iff.1 h with rfl | ⟨t, rfl, -⟩
        · exact .inl List.nil_infix
        · exact absurd mem_cons_self hc
      · exact .inr h
    · rcases prefix_cons_iff.1 hy with rfl | ⟨t, rfl, -⟩
      · rw [append_nil]
        exact .inl hx.isInfix
      · simp at hc
  · rintro (h | h)
    · exact infix_append_of_infix_left h
    · exact infix_append_of_infix_right (infix_cons h)

theorem infix_trim : t.trim <:+: t := by
  have hend : ∀ u : Text, u.trimEnd <+: u := by
    intro u
    have := dropWhile_suffix isBlank (l := u.reverse)
    rw [trimEnd, ← reverse_suffix, reverse_reverse]
    exact this
  exact (hend t.trimStart).isInfix.trans (dropWhile_suffix isBlank).isInfix

end Text

/-! ### Marks in rows -/

/-- The mark without its first character. -/
def markTail : Text := "/ :INPUT"

theorem inputMark_eq : inputMark = '/' :: markTail := rfl

theorem mark_notInfix_of_tail (h : ¬markTail <:+: t) : ¬inputMark <:+: t := by
  intro hmark
  exact h ((suffix_cons '/' markTail).isInfix.trans hmark)

theorem isCommentClosed_suffix (h : isCommentClosed t = true) : ['*', '/'] <:+ t := by
  fun_induction isCommentClosed t with
  | case1 => cases h
  | case2 t =>
    obtain rfl : t = [] := by simpa using h
    exact suffix_rfl
  | case3 c t hne ih => exact (ih h).trans (suffix_cons c t)

/-- What stands in gaps: a blank, a semicolon, a line comment, or a comment that is closed. -/
theorem Piece.filler_cases (h : Spelled p) (hfiller : p.isFiller = true) :
    (∃ c, isBlank c = true ∧ p = ⟨.blank, [c]⟩) ∨ p.text = [';'] ∨ p.isLine = true ∨
      ['*', '/'] <:+ p.text := by
  cases h with
  | blank hc => exact .inl ⟨_, hc, rfl⟩
  | line ht => exact .inr (.inr (.inl rfl))
  | block ht =>
    refine .inr (.inr (.inr ?_))
    exact (isCommentClosed_suffix ht).trans
      ((suffix_cons _ _).trans (suffix_cons _ _))
  | @quoted q k t hq _ =>
    exfalso
    unfold quoteKind? at hq
    repeat' split at hq
    all_goals cases hq
    all_goals cases hfiller
  | @word c t _ _ =>
    exfalso
    unfold isFiller wordKind at hfiller
    cases hk : Keyword.ofText? (c :: t) <;> simp [hk] at hfiller
  | @number c t _ _ =>
    exfalso
    unfold isFiller numberKind at hfiller
    simp only at hfiller
    repeat' split at hfiller
    all_goals simp at hfiller
  | @mark c t _ _ =>
    have hsemi : markKind (c :: t) = .semi := by simpa [isFiller] using hfiller
    have hmem := markKind_solid (m := c :: t) (by rw [hsemi]; rfl)
    revert hsemi
    fin_cases hmem
    all_goals intro hsemi
    all_goals first
      | exact .inr (.inl rfl)
      | exact absurd hsemi (by decide)

/-- The last character of a text is that of its last part. -/
theorem Text.getLast?_of_suffix {u : Text} {c : Char} (h : x ++ [c] <:+ t ++ u)
    (hu : u ≠ []) : u.getLast? = some c := by
  obtain ⟨v, hv⟩ := h
  have hlast := congrArg List.getLast? hv
  rw [← append_assoc, getLast?_concat, getLast?_append_of_ne_nil t hu] at hlast
  exact hlast.symm

/-- The beginnings of the mark, by their last characters. -/
theorem mark_front_cases (h : inputMark = x ++ y) (hx : x ≠ []) (hy : y ≠ []) :
    x = ['/'] ∨ x = ['/', '/'] ∨ x = ['/', '/', ' '] ∨
      ∃ c ∈ [':', 'I', 'N', 'P', 'U'], x.getLast? = some c := by
  have hinits :
    inputMark.inits = [[], ['/'], ['/', '/'], ['/', '/', ' '], ['/', '/', ' ', ':'],
      ['/', '/', ' ', ':', 'I'], ['/', '/', ' ', ':', 'I', 'N'],
      ['/', '/', ' ', ':', 'I', 'N', 'P'], ['/', '/', ' ', ':', 'I', 'N', 'P', 'U'],
      inputMark] := by
    decide
  have hmem : x ∈ inputMark.inits := (mem_inits _ _).2 ⟨y, h.symm⟩
  have hne : x ≠ inputMark := by
    rintro rfl
    exact hy (self_eq_append_right.1 h)
  rw [hinits] at hmem
  simp only [mem_cons, not_mem_nil, or_false, hx, hne, false_or] at hmem
  rcases hmem with hmem | hmem | hmem | hmem | hmem | hmem | hmem | hmem
  · exact .inl hmem
  · exact .inr (.inl hmem)
  · exact .inr (.inr (.inl hmem))
  all_goals
    rw [hmem]
    exact .inr (.inr (.inr ⟨_, by decide, rfl⟩))

namespace Row.Sound

variable {r : Row}

/-- A row ends in a piece of its gap. -/
theorem exists_last (h : r.Sound) (hne : textOf r.pieces ≠ []) :
    ∃ gap p, r.gap = gap ++ [p] ∧ textOf r.pieces = textOf (r.body ++ gap) ++
      p.text ∧ Spelled p ∧
      p.isFiller = true := by
  rcases eq_nil_or_concat r.gap with hgap | ⟨gap, p, hgap⟩
  · -- Without a gap there is no statement either.
    rcases h.body with hbody | ⟨-, hkinds⟩
    · rw [Row.pieces, hbody, hgap] at hne
      exact absurd rfl hne
    · rw [hgap] at hkinds
      exact absurd rfl hkinds
  · rw [concat_eq_append] at hgap
    exact ⟨gap, p, hgap, by simp [Row.pieces, hgap], h.spelled (by simp [Row.pieces, hgap]),
      h.fillers p (by simp [hgap])⟩

/-- A row ends in a blank, in a semicolon, or with a closed comment. -/
theorem last_cases (h : r.Sound) (hne : textOf r.pieces ≠ []) :
    (∃ c, (textOf r.pieces).getLast? = some c ∧ (isBlank c = true ∨ c = ';')) ∨
      ['*', '/'] <:+ textOf r.pieces := by
  obtain ⟨gap, p, hgap, htext, hspelled, hfiller⟩ := h.exists_last hne
  rw [htext]
  rcases Piece.filler_cases hspelled hfiller with ⟨c, hc, rfl⟩ | hsemi | hline | hblock
  · exact .inl ⟨c, by simp, .inl hc⟩
  · exact .inl ⟨';', by simp [hsemi], .inr rfl⟩
  · have hsolid := h.solid p (by simp [hgap])
    cases hspelled with
    | line => cases hsolid
    | _ => cases hline
  · exact .inr (hblock.trans (suffix_append _ _))

/-- A row whose last piece ends in a space ends in a blank: a line comment is not last. -/
theorem eq_blank_of_last (h : r.Sound) {gap : List Piece} (hgap : r.gap = gap ++ [p])
    (hlast : p.text.getLast? = some ' ') : p = ⟨.blank, [' ']⟩ := by
  have hspelled := h.spelled (p := p) (by simp [Row.pieces, hgap])
  rcases Piece.filler_cases hspelled (h.fillers p (by simp [hgap])) with
    ⟨c, -, rfl⟩ | hsemi | hline | ⟨u, hu⟩
  · cases hlast
    rfl
  · rw [hsemi] at hlast
    cases hlast
  · have hsolid := h.solid p (by simp [hgap])
    cases hspelled with
    | line => cases hsolid
    | _ => cases hline
  · rw [← hu] at hlast
    simp at hlast

/-- A piece of a gap with a blank behind it is a closed comment if it ends in a slash: a line
comment lasts to the end of its line. -/
theorem block_of_slash (h : r.Sound) {front : List Piece} {q : Piece}
    (hgap : r.gap = front ++ [q] ++ [⟨.blank, [' ']⟩]) (hlast : q.text.getLast? = some '/') :
    ['*', '/'] <:+ q.text := by
  have hspelled := h.spelled (p := q) (by simp [Row.pieces, hgap])
  rcases Piece.filler_cases hspelled (h.fillers q (by simp [hgap])) with
    ⟨d, hd, rfl⟩ | hsemi | hline | hblock
  · cases hlast
    exact absurd hd (by decide)
  · rw [hsemi] at hlast
    cases hlast
  · have hlexed := h.lexed
    have hsplit : r.pieces = r.body ++ front ++ (q :: [⟨.blank, [' ']⟩]) := by
      simp [Row.pieces, hgap]
    rw [hsplit] at hlexed
    have hread := (lexed_cons.1 hlexed.right).1
    cases hspelled with
    | line ht => exact absurd ((reads_line ht).1 hread ' ' rfl) (by decide)
    | _ => cases hline
  · exact hblock

/-- A slash in front of the last blank of a row ends a comment. -/
theorem slash_blank (h : r.Sound) (hsuffix : ['/', ' '] <:+ textOf r.pieces) :
    ['*', '/', ' '] <:+ textOf r.pieces := by
  have hne : textOf r.pieces ≠ [] := by
    intro hnil
    rw [hnil] at hsuffix
    cases suffix_nil.1 hsuffix
  obtain ⟨gap, p, hgap, htext, hspelled, -⟩ := h.exists_last hne
  rw [htext] at hsuffix ⊢
  obtain rfl : p = ⟨.blank, [' ']⟩ :=
    h.eq_blank_of_last hgap
      (Text.getLast?_of_suffix (x := ['/']) hsuffix hspelled.text_ne_nil)
  have hbefore : ['/'] <:+ textOf (r.body ++ gap) := by
    obtain ⟨u, hu⟩ := hsuffix
    have : u ++ ['/'] ++ [' '] = textOf (r.body ++ gap) ++ [' '] := by simpa using hu
    exact ⟨u, (append_inj' this rfl).1⟩
  rcases eq_nil_or_concat gap with rfl | ⟨front, q, rfl⟩
  · -- The blank alone would end no statement.
    exfalso
    rcases h.body with hbody | ⟨-, hkinds⟩
    · rw [hbody] at hbefore
      cases suffix_nil.1 hbefore
    · rw [hgap] at hkinds
      cases hpending : pendingAfter false r.body <;> rw [hpending] at hkinds <;>
        exact hkinds rfl
  · rw [concat_eq_append] at hbefore hgap ⊢
    have hq := h.spelled (p := q) (by simp [Row.pieces, hgap])
    have htail : textOf (r.body ++ (front ++ [q])) = textOf (r.body ++ front) ++ q.text := by
      simp
    rw [htail] at hbefore ⊢
    obtain ⟨u, hu⟩ :=
      h.block_of_slash hgap (Text.getLast?_of_suffix (x := []) hbefore hq.text_ne_nil)
    exact ⟨textOf (r.body ++ front) ++ u, by simp [← hu]⟩

/-- What of a mark can stand at the end of a row: its first slash, and no more. -/
theorem eq_slash (h : r.Sound) (hxy : inputMark = x ++ y) (hx : x ≠ []) (hy : y ≠ [])
    (hsuffix : x <:+ textOf r.pieces) : x = ['/'] := by
  have hne : textOf r.pieces ≠ [] := by
    intro hnil
    rw [hnil] at hsuffix
    exact hx (suffix_nil.1 hsuffix)
  rcases mark_front_cases hxy hx hy with rfl | rfl | rfl | ⟨c, hc, hlast⟩
  · rfl
  · exfalso
    obtain ⟨u, hu⟩ := hsuffix
    rcases h.last_cases hne with ⟨c, hc, hkind⟩ | ⟨v, hv⟩
    · rw [← hu] at hc
      simp at hc
      rw [← hc] at hkind
      revert hkind
      decide
    · cases (append_inj' (hu.trans hv.symm) rfl).2
  · exfalso
    obtain ⟨u, hu⟩ := hsuffix
    obtain ⟨v, hv⟩ := h.slash_blank ⟨u ++ ['/'], by simpa using hu⟩
    cases (append_inj' (hu.trans hv.symm) rfl).2
  · exfalso
    obtain ⟨u, hu⟩ := hsuffix
    have hend : (textOf r.pieces).getLast? = some c := by
      rw [← hu, getLast?_append, hlast]
      rfl
    rcases h.last_cases hne with ⟨d, hd, hkind⟩ | ⟨v, hv⟩
    · rw [hend] at hd
      cases hd
      revert hkind
      fin_cases hc <;> decide
    · rw [← hv] at hend
      simp at hend
      subst hend
      revert hc
      decide

end Row.Sound

namespace Row

variable {rows : List Row}

/-- Rows do not begin with half a mark if none of them holds one. -/
theorem tail_notPrefix_flatten (h : ∀ r ∈ rows, r.Sound)
    (hfree : ∀ r ∈ rows, ¬markTail <:+: textOf r.pieces) :
    ¬markTail <+: textOf (flatten rows) := by
  induction rows with
  | nil => decide
  | cons r rs ih =>
    obtain ⟨hr, hs⟩ := forall_mem_cons.1 h
    have hrfree := hfree r mem_cons_self
    have hrs := ih hs fun q hq =>
      hfree q (mem_cons_of_mem r hq)
    intro hprefix
    rw [flatten_cons, textOf_append] at hprefix
    rcases Text.prefix_append_cases hprefix with hshort | ⟨y, hy, hlong⟩
    · exact hrfree hshort.isInfix
    · by_cases hnil : textOf r.pieces = []
      · rw [hnil, nil_append] at hy
        exact hrs (hy ▸ hlong)
      · -- The whole row would be the beginning of half a mark.
        have hyne : y ≠ [] := by
          rintro rfl
          rw [append_nil] at hy
          exact hrfree (hy ▸ infix_rfl)
        have hmark : inputMark = ('/' :: textOf r.pieces) ++ y := by
          rw [inputMark_eq, hy]
          rfl
        rcases mark_front_cases hmark (by simp) hyne with hx | hx | hx | ⟨c, hc, hlast⟩
        · exact hnil (List.cons.inj hx).2
        · have hslash : textOf r.pieces = ['/'] := (List.cons.inj hx).2
          rcases hr.last_cases hnil with ⟨c, hc, hkind⟩ | hblock
          · rw [hslash] at hc
            cases hc
            revert hkind
            decide
          · rw [hslash] at hblock
            exact absurd hblock.length_le (by decide)
        · have hslash : textOf r.pieces = ['/', ' '] := (List.cons.inj hx).2
          have := hr.slash_blank (hslash ▸ suffix_rfl)
          rw [hslash] at this
          exact absurd this.length_le (by decide)
        · have hend : (textOf r.pieces).getLast? = some c := by
            rw [getLast?_cons] at hlast
            cases hcase : (textOf r.pieces).getLast? with
            | none => exact absurd (getLast?_eq_none_iff.1 hcase) hnil
            | some d =>
              rw [hcase] at hlast
              exact hlast
          rcases hr.last_cases hnil with ⟨d, hd, hkind⟩ | ⟨v, hv⟩
          · rw [hend] at hd
            cases hd
            revert hkind
            fin_cases hc <;> decide
          · rw [← hv] at hend
            simp at hend
            subst hend
            revert hc
            decide

/-- Rows without half a mark hold no mark together. -/
theorem mark_notInfix_flatten (h : ∀ r ∈ rows, r.Sound)
    (hfree : ∀ r ∈ rows, ¬markTail <:+: textOf r.pieces) :
    ¬inputMark <:+: textOf (flatten rows) := by
  induction rows with
  | nil => decide
  | cons r rs ih =>
    obtain ⟨hr, hsound⟩ := forall_mem_cons.1 h
    have hrest : ∀ q ∈ rs, ¬markTail <:+: textOf q.pieces := fun q hq =>
      hfree q (mem_cons_of_mem r hq)
    rw [flatten_cons, textOf_append, infix_append_iff_ne_nil]
    rintro (hleft | hright | ⟨x, y, hx, hy, hxy, hsuffix, hprefix⟩)
    · exact mark_notInfix_of_tail (hfree r mem_cons_self) hleft
    · exact ih hsound hrest hright
    · -- A mark over the end of the row has its first slash there, and its other half behind.
      obtain rfl := hr.eq_slash hxy hx hy hsuffix
      obtain rfl : markTail = y := (List.cons.inj (inputMark_eq ▸ hxy)).2
      exact tail_notPrefix_flatten hsound hrest hprefix

end Row

/-! ### Taking the mark out -/

/-- A program with one mark, without it. -/
theorem stripMark_eq (ha : ¬inputMark <:+: a) (hb : ¬inputMark <:+: b)
    (hab : ¬inputMark <:+: a ++ b) : stripMark (a ++ (" " ++ inputMark) ++ b) = a ++ b := by
  have hspaced : ∀ t : Text, ¬inputMark <:+: t → ¬(" " ++ inputMark : Text) <:+: t :=
    fun t ht h =>
    ht ((suffix_append _ _).isInfix.trans h)
  rw [stripMark, Text.erase_append (by decide) (by decide) (hspaced a ha),
    Text.erase_of_notInfix (hspaced b hb), Text.erase_of_notInfix hab]

end Notebook
