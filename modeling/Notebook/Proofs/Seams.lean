import Notebook.Proofs.Lexing

/-!
# Seams between pieces

Texts can be cut and put together between pieces as long as this does not change what is read,
and that is so at most places: a blank, a bracket or a quoted literal ends where it ends, and
no piece but a line comment reads on over a blank or a bracket behind it.

## Main statements

* `Lexer.Lexed.append`: pieces on both sides of a seam are read back together
* `Lexer.Lexed.left`, `Lexer.Lexed.right`: so are those on one side alone
-/

namespace Notebook

open List

variable {c d : Char} {ps qs : List Piece} {p : Piece}

namespace Piece

/-- Whether a closed piece ends where it ends, whatever follows. -/
def isSolid (p : Piece) : Bool :=
  match p.kind with
  | .blank => true
  | .comment => !p.isLine
  | .token k =>
    match k with
    | .str | .rawStr | .char | .opening _ | .closing _ | .comma | .semi => true
    | _ => false

end Piece

/-- Characters that no piece takes in from behind, a line comment apart. -/
def isDelimiter (c : Char) : Bool :=
  isBlank c || [';', '(', ')', '[', ']', '\x7b', '\x7d', ',', '"', '\'', '\x60'].contains c

namespace Lexer

theorem isIdentifierChar_eq_false_of_isDelimiter (h : isDelimiter c = true) :
    isIdentifierChar c = false := by
  rcases Bool.or_eq_true_iff.1 h with hblank | hmark
  · have hletter : isLetter c = false := by
      cases hl : isLetter c with
      | false => rfl
      | true =>
        rw [isBlank_eq_false_of_isLetter hl] at hblank
        cases hblank
    have hunder : (c == '_') = false := by
      rw [beq_eq_false_iff_ne]
      rintro rfl
      revert hblank
      decide
    simp [isIdentifierChar, isAlphanumeric, hletter,
      isNumeral_eq_false_of_isBlank hblank, hunder]
  · revert h
    simp only [contains_eq_mem, decide_eq_true_eq] at hmark
    simp only [mem_cons, not_mem_nil, or_false] at hmark
    rcases hmark with rfl | rfl | rfl | rfl | rfl | rfl | rfl | rfl | rfl | rfl | rfl <;>
      decide

/-! ### What may follow -/

theorem isIdentifierChar_of_isAlphanum (h : c.isAlphanum = true) :
    isIdentifierChar c = true := by
  rcases Bool.or_eq_true_iff.1 h with halpha | hdigit
  · have hascii : c.toNat < 0x80 := by
      have := isAlpha_cases halpha
      omega
    simp [isIdentifierChar, isAlphanumeric, isLetter, hascii, halpha]
  · have hascii : c.toNat < 0x80 := by
      have := isDigit_cases hdigit
      omega
    simp [isIdentifierChar, isAlphanumeric, isNumeral, hascii, hdigit]

theorem ne_of_isDelimiter (h : isDelimiter c = true) (hd : isDelimiter d = false) :
    c ≠ d := by
  rintro rfl
  rw [h] at hd
  cases hd

theorem isAlphanum_eq_false_of_isDelimiter (h : isDelimiter c = true) :
    c.isAlphanum = false := by
  cases halnum : c.isAlphanum with
  | false => rfl
  | true =>
    have := isIdentifierChar_of_isAlphanum halnum
    rw [isIdentifierChar_eq_false_of_isDelimiter h] at this
    cases this

theorem isNumberChar_eq_false_of_isDelimiter (h : isDelimiter c = true) (hex : Bool)
    (prev : Char) : isNumberChar hex prev c = false := by
  have hpoint : c ≠ '.' := ne_of_isDelimiter h (by decide)
  have hplus : c ≠ '+' := ne_of_isDelimiter h (by decide)
  have hminus : c ≠ '-' := ne_of_isDelimiter h (by decide)
  have hunder : c ≠ '_' := ne_of_isDelimiter h (by decide)
  simp [isNumberChar, hpoint, hplus, hminus, hunder, isAlphanum_eq_false_of_isDelimiter h]

/-- Operators hold no delimiters. -/
theorem operators_chars : ∀ o ∈ operators, ∀ c ∈ o.toList, isDelimiter c = false := by
  have hall : ∀ o ∈ operators, o.toList.all (fun c => !isDelimiter c) = true := by decide
  intro o ho c hc
  simpa using all_eq_true.1 (hall o ho) c hc

/-- The marks that begin no operator: brackets, commas and semicolons. -/
theorem markKind_solid {m : Text} (h : (⟨.token (markKind m), m⟩ : Piece).isSolid = true) :
    m ∈ [['('], [')'], ['['], [']'], ['\x7b'], ['\x7d'], [','], [';']] := by
  have hall : ∀ e ∈ markKinds, (⟨.token e.2, []⟩ : Piece).isSolid = true →
      e.1.toList ∈ [['('], [')'], ['['], [']'], ['\x7b'], ['\x7d'], [','], [';']] := by
    decide
  unfold markKind at h
  cases hfound : markKinds.find? fun e => e.1.toList == m with
  | none =>
    rw [hfound] at h
    cases h
  | some e =>
    have heq : e.1.toList = m := by simpa using find?_some hfound
    rw [hfound] at h
    rw [← heq]
    exact hall e (mem_of_find?_eq_some hfound) h

namespace EndsMark

variable {m rest more : Text}

theorem of_longer (h : EndsMark m (rest ++ more)) : EndsMark m rest where
  comment hm := by
    cases rest with
    | nil => simp
    | cons d rest => exact h.comment hm
  number hm := by
    cases rest with
    | nil => rfl
    | cons d rest => exact h.number hm
  longest o ho hpre := by
    refine h.longest o ho (hpre.trans ?_)
    rw [← append_assoc]
    exact prefix_append _ _

/-- More text behind a text changes nothing, three points in a row apart. -/
theorem append (h : EndsMark m rest) (hm : m ≠ []) (hrest : rest ≠ [])
    (hpoints : m = ['.'] → rest = ['.'] → more.head? ≠ some '.') :
    EndsMark m (rest ++ more) := by
  obtain ⟨c, t, rfl⟩ := exists_cons_of_ne_nil hm
  obtain ⟨d, rest, rfl⟩ := exists_cons_of_ne_nil hrest
  refine ⟨h.comment, h.number, fun o ho hpre => ?_⟩
  by_contra hlt
  have hlt : (c :: t).length < o.toList.length := Nat.lt_of_not_le hlt
  obtain ⟨s, hs⟩ :=
    prefix_of_prefix_length_le (prefix_append (c :: t) _) hpre hlt.le
  have hs' : s <+: d :: (rest ++ more) := by
    rw [← hs] at hpre
    exact (prefix_append_right_inj (c :: t)).1 hpre
  match s, hs' with
  | [], _ =>
    rw [append_nil] at hs
    rw [hs] at hlt
    exact Nat.lt_irrefl _ hlt
  | [e], hs' =>
    -- The operator is longer by one character, which stands there already.
    obtain ⟨rfl, -⟩ := cons_prefix_cons.1 hs'
    have := h.longest o ho (by
      rw [← hs]
      exact (prefix_append_right_inj (c :: t)).2 (by simp))
    omega
  | e :: f :: s, hs' =>
    obtain ⟨rfl, htail⟩ := cons_prefix_cons.1 hs'
    have hthree : ∀ o ∈ operators, o.toList.length ≤ 3 ∧ (o.toList.length = 3 →
        o.toList = ['.', '.', '.'] ∨ ∃ p ∈ operators, p.toList = o.toList.take 2) := by
      decide
    obtain ⟨hle, hlen⟩ := hthree o ho
    rw [← hs] at hle hlen
    simp only [length_append, length_cons] at hle hlen
    obtain rfl : t = [] := length_eq_zero_iff.1 (by omega)
    obtain rfl : s = [] := length_eq_zero_iff.1 (by simp at hle; omega)
    rcases hlen rfl with hpts | ⟨p, hp, heq⟩
    · simp only [cons_append, nil_append, List.cons.injEq, and_true] at hpts
      obtain ⟨rfl, rfl, rfl⟩ := hpts
      cases rest with
      | nil =>
        obtain ⟨more, rfl⟩ : ∃ u, more = '.' :: u := by
          obtain ⟨u, hu⟩ := htail
          exact ⟨u, hu.symm⟩
        exact hpoints rfl rfl rfl
      | cons g rest =>
        obtain ⟨rfl, -⟩ := cons_prefix_cons.1 htail
        have := h.longest o ho (by rw [← hs]; exact ⟨rest, rfl⟩)
        rw [← hs] at this
        simp at this
    · have := h.longest p hp (by rw [heq]; exact ⟨rest, rfl⟩)
      rw [heq] at this
      simp at this

theorem of_delimiter (hd : isDelimiter d = true) : EndsMark m (d :: rest) where
  comment _ := by
    simp only [head?_cons, ne_eq, Option.some.injEq]
    exact ⟨ne_of_isDelimiter hd (by decide), ne_of_isDelimiter hd (by decide)⟩
  number _ := by
    have := isAlphanum_eq_false_of_isDelimiter hd
    simpa using (Bool.or_eq_false_iff.1 this).2
  longest o ho hpre := by
    by_contra hlt
    -- A longer operator would hold the delimiter.
    have hlt : m.length < o.toList.length := Nat.lt_of_not_le hlt
    have hget := hpre.getElem hlt
    rw [getElem_append_right (Nat.le_refl _)] at hget
    have := operators_chars o ho d (by
      rw [show d = o.toList.get ⟨m.length, hlt⟩ by simpa using hget.symm]
      exact get_mem ..)
    rw [hd] at this
    cases this

end EndsMark

/-- A literal that ends in front of a text ends there too if less follows. -/
theorem quotedRest_of_longer {q : Char} {rest more : Text} : ∀ {t : Text},
    quotedRest q (t ++ (rest ++ more)) = (t, rest ++ more) →
      quotedRest q (t ++ rest) = (t, rest)
  | [], h => by
    cases rest with
    | nil => rfl
    | cons c rest =>
      rw [nil_append, cons_append, quotedRest.eq_def] at h
      rw [nil_append, quotedRest.eq_def]
      dsimp only at h ⊢
      split at h
      next hline => rw [if_pos hline]
      · split at h
        · split at h
          all_goals cases h
        · split at h
          all_goals cases h
  | [c], h => by
    rw [singleton_append, quotedRest.eq_def] at h
    rw [singleton_append, quotedRest.eq_def]
    dsimp only at h ⊢
    split at h
    · cases h
    next hline =>
      rw [if_neg hline]
      split at h
      next hescape =>
        rw [if_pos hescape]
        cases rest with
        | nil => rfl
        | cons d rest => cases h
      next hescape =>
        rw [if_neg hescape]
        split at h
        next hquote =>
          rw [if_pos hquote]
        next hquote =>
          rw [if_neg hquote]
          obtain ⟨hfst, hsnd⟩ := Prod.mk.inj h
          have hnil := quotedRest_of_longer (t := []) (Prod.ext (List.cons.inj hfst).2 hsnd)
          rw [nil_append] at hnil
          rw [hnil]
  | c :: d :: t, h => by
    rw [cons_append, quotedRest.eq_def] at h
    rw [cons_append, quotedRest.eq_def]
    dsimp only at h ⊢
    split at h
    · cases h
    next hline =>
      rw [if_neg hline]
      split at h
      next hescape =>
        rw [if_pos hescape]
        obtain ⟨hfst, hsnd⟩ := Prod.mk.inj h
        have htail := quotedRest_of_longer (t := t)
          (Prod.ext (List.cons.inj (List.cons.inj hfst).2).2 hsnd)
        simp only [cons_append, htail]
      next hescape =>
        rw [if_neg hescape]
        split at h
        · cases h
        next hquote =>
          rw [if_neg hquote]
          obtain ⟨hfst, hsnd⟩ := Prod.mk.inj h
          have htail :=
            quotedRest_of_longer (t := d :: t) (Prod.ext (List.cons.inj hfst).2 hsnd)
          rw [htail]

/-- A literal without an end that something follows ends with its line, whatever follows the
line. -/
theorem quotedRest_of_open {q : Char} {t rest : Text} (hopen : isQuotedClosed q t = false)
    (h : quotedRest q (t ++ rest) = (t, rest)) (hrest : rest ≠ []) :
    rest.head? = some '\n' ∧ ∀ more, quotedRest q (t ++ '\n' :: more) =
      (t, '\n' :: more) := by
  fun_induction isQuotedClosed q t with
  | case1 =>
    obtain ⟨c, r, rfl⟩ := exists_cons_of_ne_nil hrest
    rw [nil_append, quotedRest.eq_def] at h
    dsimp only at h
    split at h
    next hline =>
      obtain ⟨rfl, hquote⟩ := hline
      refine ⟨rfl, fun more => ?_⟩
      rw [nil_append, quotedRest.eq_def]
      simp [hquote]
    · split at h
      · split at h <;> cases h
      · split at h <;> cases h
  | case2 c t hline =>
    rw [cons_append, quotedRest.eq_def] at h
    simp [hline] at h
  | case3 c hline hescape =>
    obtain ⟨d, r, rfl⟩ := exists_cons_of_ne_nil hrest
    rw [singleton_append, quotedRest.eq_def] at h
    simp [hescape] at h
  | case4 c hline hescape d t ih =>
    have hread : ∀ u, quotedRest q (c :: d :: t ++ u) =
        (c :: d :: (quotedRest q (t ++ u)).1, (quotedRest q (t ++ u)).2) := by
      intro u
      rw [cons_append, quotedRest.eq_def]
      simp [hescape]
    rw [hread] at h
    obtain ⟨hfst, hsnd⟩ := Prod.mk.inj h
    obtain ⟨hhead, hmore⟩ := ih hopen (Prod.ext (List.cons.inj (List.cons.inj hfst).2).2 hsnd)
    exact ⟨hhead, fun more => by rw [hread, hmore]⟩
  | case5 t hline hescape =>
    rw [cons_append, quotedRest.eq_def] at h
    simp only [hline, hescape, if_false, if_true, Prod.mk.injEq] at h
    rw [← (List.cons.inj h.1).2] at hopen
    cases hopen
  | case6 c t hline hescape hquote ih =>
    have hread : ∀ u, quotedRest q (c :: t ++ u) =
        (c :: (quotedRest q (t ++ u)).1, (quotedRest q (t ++ u)).2) := by
      intro u
      rw [cons_append, quotedRest.eq_def]
      simp [hline, hescape, hquote]
    rw [hread] at h
    obtain ⟨hfst, hsnd⟩ := Prod.mk.inj h
    obtain ⟨hhead, hmore⟩ := ih hopen (Prod.ext (List.cons.inj hfst).2 hsnd)
    exact ⟨hhead, fun more => by rw [hread, hmore]⟩

namespace Reads

variable {rest more : Text}

/-- A piece is read in front of less text. -/
theorem of_longer (h : Reads p (rest ++ more)) : Reads p rest := by
  have hhead : ∀ d, rest.head? = some d → (rest ++ more).head? = some d := by
    cases rest <;> simp
  rcases spelled_or_unclosed h with hspelled | hunclosed
  · cases hspelled with
    | blank hb => exact reads_blank hb rest
    | line ht => exact (reads_line ht).2 fun d hd => (reads_line ht).1 h d (hhead d hd)
    | block ht => exact reads_block ht rest
    | quoted hq ht => exact reads_quoted hq ht rest
    | word hs ht => exact (reads_word hs ht).2 fun d hd =>
      (reads_word hs ht).1 h d (hhead d hd)
    | number hs ht =>
      exact (reads_number hs ht).2 fun d hd => (reads_number hs ht).1 h d (hhead d hd)
    | mark hs ht => exact (reads_mark hs ht).2 ((reads_mark hs ht).1 h).of_longer
  · generalize hlonger : rest ++ more = longer at hunclosed
    cases hunclosed with
    | block ht hread =>
      obtain ⟨rfl, rfl⟩ := append_eq_nil_iff.1 hlonger
      exact h
    | quoted hq ht hread =>
      subst hlonger
      rw [reads_cons, firstPiece_quoted hq, quotedRest_of_longer hread]

/-- Only at a line end, or at the end of the text, is there a piece without an end or a line
comment. -/
theorem closed_of_head (h : Reads p rest) (hrest : rest ≠ [])
    (hhead : rest.head? ≠ some '\n') :
    p.isClosed = true ∧ p.isLine = false := by
  rcases spelled_or_unclosed h with hspelled | hunclosed
  · refine ⟨hspelled.isClosed_eq, ?_⟩
    cases hspelled with
    | line ht =>
      obtain ⟨d, u, rfl⟩ := exists_cons_of_ne_nil hrest
      exact absurd (congrArg some ((reads_line ht).1 h d rfl)) hhead
    | _ => rfl
  · cases hunclosed with
    | block => exact absurd rfl hrest
    | quoted hq hopen hread => exact absurd (quotedRest_of_open hopen hread hrest).1 hhead

/-- A piece that something follows is read in front of more text, the first of three points
apart. -/
theorem append (h : Reads p rest) (hrest : rest ≠ [])
    (hpoints : p.text = ['.'] → rest = ['.'] → more.head? ≠ some '.') :
    Reads p (rest ++ more) := by
  have hhead : ∀ d, (rest ++ more).head? = some d → rest.head? = some d := by
    obtain ⟨d, rest, rfl⟩ := exists_cons_of_ne_nil hrest
    simp
  rcases spelled_or_unclosed h with hspelled | hunclosed
  · cases hspelled with
    | blank hb => exact reads_blank hb _
    | line ht => exact (reads_line ht).2 fun d hd => (reads_line ht).1 h d (hhead d hd)
    | block ht => exact reads_block ht _
    | quoted hq ht => exact reads_quoted hq ht _
    | word hs ht => exact (reads_word hs ht).2 fun d hd =>
      (reads_word hs ht).1 h d (hhead d hd)
    | number hs ht =>
      exact (reads_number hs ht).2 fun d hd => (reads_number hs ht).1 h d (hhead d hd)
    | mark hs ht =>
      exact (reads_mark hs ht).2 (((reads_mark hs ht).1 h).append (by simp) hrest hpoints)
  · -- A comment without an end would go on over the text, and a literal ends with its line.
    cases hunclosed with
    | block => exact absurd rfl hrest
    | quoted hq hopen hread =>
      obtain ⟨hline, hmore⟩ := quotedRest_of_open hopen hread hrest
      obtain ⟨d, rest, rfl⟩ := exists_cons_of_ne_nil hrest
      cases hline
      rw [cons_append, reads_cons, firstPiece_quoted hq, hmore]

/-- A piece is read in front of a delimiter; behind a line comment that is the line end. -/
theorem of_delimiter (h : Reads p rest) (hc : p.isClosed = true) (hd : isDelimiter d = true)
    (hline : p.isLine = true → d = '\n') (more : Text) : Reads p (d :: more) := by
  have hhead : ∀ e, (d :: more).head? = some e → e = d := by simp [eq_comm]
  cases spelled_of_reads h hc with
  | blank hb => exact reads_blank hb _
  | line ht => exact (reads_line ht).2 fun e he => (hhead e he).trans (hline rfl)
  | block ht => exact reads_block ht _
  | quoted hq ht => exact reads_quoted hq ht _
  | word hs ht =>
    exact (reads_word hs ht).2 fun e he =>
      hhead e he ▸ isIdentifierChar_eq_false_of_isDelimiter hd
  | number hs ht =>
    exact (reads_number hs ht).2 fun e he =>
      hhead e he ▸ isNumberChar_eq_false_of_isDelimiter hd _ _
  | mark hs ht => exact (reads_mark hs ht).2 (.of_delimiter hd)

/-- A solid piece is read in front of anything. -/
theorem of_solid (h : Reads p rest) (hc : p.isClosed = true) (hs : p.isSolid = true)
    (more : Text) : Reads p more := by
  cases spelled_of_reads h hc with
  | blank hb => exact reads_blank hb _
  | line ht => cases hs
  | block ht => exact reads_block ht _
  | quoted hq ht => exact reads_quoted hq ht _
  | @word c t hw ht =>
    unfold wordKind at hs
    cases hword : Keyword.ofText? (c :: t) with
    | none =>
      rw [hword] at hs
      cases hs
    | some k =>
      rw [hword] at hs
      cases hs
  | @number c t hw ht =>
    unfold numberKind at hs
    repeat' split at hs
    all_goals cases hs
  | @mark c t hw ht =>
    have hall : ∀ m ∈ [['('], [')'], ['['], [']'], ['\x7b'], ['\x7d'], [','], [';']],
        m ≠ ['/'] ∧ m ≠ ['.'] ∧ ∀ o ∈ operators, o.toList ≠ [] ∧
          o.toList.head? ≠ m.head? := by
      decide
    obtain ⟨hslash, hpoint, hnone⟩ := hall _ (markKind_solid hs)
    refine (reads_mark hw ht).2
      ⟨fun hm => absurd hm hslash, fun hm => absurd hm hpoint, fun o ho hpre => ?_⟩
    -- No operator begins with such a mark.
    obtain ⟨hne, hhead⟩ := hnone o ho
    obtain ⟨d, u, hdu⟩ := exists_cons_of_ne_nil hne
    rw [hdu, cons_append] at hpre
    rw [hdu, (cons_prefix_cons.1 hpre).1] at hhead
    exact absurd rfl hhead

end Reads

/-! ### Pieces side by side -/

theorem reads_text_ne_nil {rest : Text} (h : Reads p rest) : p.text ≠ [] := by
  obtain ⟨c, t, hp, -⟩ := h
  simp [hp]

theorem Lexed.textOf_eq_nil (h : Lexed ps) (ht : textOf ps = []) : ps = [] := by
  rw [← h, ht, pieces_nil]

/-- Pieces that may stand in front of others: the last one is solid, or a delimiter
follows. -/
def Seam (ps qs : List Piece) : Prop :=
  ∀ p, ps.getLast? = some p → p.isSolid = true ∨
    ∀ d, (textOf qs).head? = some d → isDelimiter d = true ∧ (p.isLine = true → d = '\n')

/-- A single point is no solid piece. -/
theorem isSolid_eq_false_of_point (h : Lexed ps) (ht : textOf ps = ['.'])
    (hp : ps.getLast? = some p) : p.isSolid = false := by
  have hps : ps = [⟨.token .dot, ['.']⟩] := by
    have hfirst : firstPiece '.' [] = (⟨.token .dot, ['.']⟩, []) := by decide
    rw [← h, ht, pieces_cons, hfirst, pieces_nil]
  rw [hps] at hp
  cases hp
  rfl

/-- Pieces on both sides of a seam are read back together, if the last one in front of it has
an end. -/
theorem Lexed.append (hps : Lexed ps) (hqs : Lexed qs)
    (hclosed : ∀ p, ps.getLast? = some p → p.isClosed = true) (hseam : Seam ps qs) :
    Lexed (ps ++ qs) := by
  induction ps with
  | nil => exact hqs
  | cons p ps ih =>
    obtain ⟨hread, hlexed⟩ := lexed_cons.1 hps
    rw [cons_append, lexed_cons, textOf_append]
    cases ps with
    | nil =>
      have hp := hclosed p rfl
      refine ⟨?_, hqs⟩
      rcases hseam p rfl with hsolid | hdelim
      · exact hread.of_solid hp hsolid _
      · cases hq : textOf qs with
        | nil => simpa [hq] using hread
        | cons d more =>
          rw [hq] at hdelim
          obtain ⟨hd, hline⟩ := hdelim d rfl
          exact hread.of_delimiter hp hd hline more
    | cons q ps =>
      have hlast : ∀ r, (q :: ps).getLast? = some r → (p :: q :: ps).getLast? = some r := by
        intro r hr
        rwa [getLast?_cons_cons]
      refine ⟨hread.append ?_ ?_, ih hlexed (fun r hr => hclosed r (hlast r hr))
        fun r hr => hseam r (hlast r hr)⟩
      · exact fun h => by cases hlexed.textOf_eq_nil h
      · intro _ hpoint hmore
        -- A point is not solid, and a delimiter is no point.
        cases hr : (q :: ps).getLast? with
        | none => simp at hr
        | some r =>
          rcases hseam r (hlast r hr) with hsolid | hdelim
          · rw [isSolid_eq_false_of_point hlexed hpoint hr] at hsolid
            cases hsolid
          · exact ne_of_isDelimiter (hdelim _ hmore).1 (by decide) rfl

theorem lexed_append (hps : Lexed ps) (hqs : Lexed qs) (hclosed : ∀ p ∈ ps, p.isClosed = true)
    (hseam : Seam ps qs) : Lexed (ps ++ qs) :=
  hps.append hqs (fun p hp => hclosed p (mem_of_getLast? hp)) hseam

theorem Lexed.right (h : Lexed (ps ++ qs)) : Lexed qs := by
  induction ps with
  | nil => exact h
  | cons p ps ih => exact ih (lexed_cons.1 h).2

/-- Pieces in front of others are closed at the end, unless a line end follows. -/
theorem Lexed.closed_of_getLast? (h : Lexed (ps ++ qs)) (hqs : textOf qs ≠ [])
    (hhead : (textOf qs).head? ≠ some '\n') (hp : ps.getLast? = some p) :
    p.isClosed = true ∧ p.isLine = false := by
  obtain ⟨front, rfl⟩ := getLast?_eq_some_iff.1 hp
  rw [append_assoc] at h
  exact (lexed_cons.1 h.right).1.closed_of_head hqs hhead

theorem Lexed.left (h : Lexed (ps ++ qs)) : Lexed ps := by
  induction ps with
  | nil => exact lexed_nil
  | cons p ps ih =>
    rw [cons_append, lexed_cons, textOf_append] at h
    exact lexed_cons.2 ⟨h.1.of_longer, ih h.2⟩

end Lexer

/-- A text whose comments and quoted literals all have an end. -/
def LexicallyClosed (t : Text) : Prop :=
  ∀ p ∈ Lexer.pieces t, p.isClosed = true

instance (t : Text) : Decidable (LexicallyClosed t) :=
  inferInstanceAs (Decidable (∀ _ ∈ _, _))

end Notebook
