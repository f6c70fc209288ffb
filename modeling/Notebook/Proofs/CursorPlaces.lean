import Notebook.Proofs.CursorRows
import Notebook.Proofs.DeclarationHistory
import Notebook.Repl

/-!
# Where the cursor stands in a program

The word that stands for the cursor is found again at its first occurrence in the program.  No
text of the session holds it, and it stands behind the identifier in front of the cursor.  Its
first occurrence may begin in this identifier, since the word begins as it ends.  Otherwise
the names that are offered begin with exactly what is replaced by the one that is chosen.

## Main statements

* `exists_cursorPlace`: the program of an input with the word has the word in its place
* `cursor_stem`: what the names are to begin with, and what is replaced
-/

namespace Notebook

open Lexer List

variable {below lead : List Text} {a back front r t : Text}

/-! ### First occurrences -/

namespace Text

variable {needle : Text}

/-- Behind a character that the text does not hold the search begins anew. -/
theorem cutFirst?_append_cons {c : Char} (hc : c ∉ needle) (ha : ¬needle <:+: a) (b : Text) :
    cutFirst? needle (a ++ c :: b) = (cutFirst? needle b).map fun p =>
      (a ++ c :: p.1, p.2) := by
  induction a with
  | nil =>
    have hpre : ¬needle.isPrefixOf (c :: b) = true := by
      rw [List.isPrefixOf_iff_prefix, ← nil_append (c :: b),
        (apart_cons hc b).prefix_append_iff]
      exact fun hpre => ha hpre.isInfix
    rw [nil_append, cutFirst?, if_neg hpre]
    rfl
  | cons d a ih =>
    rw [infix_cons_iff, not_or] at ha
    have hpre : ¬needle.isPrefixOf (d :: (a ++ c :: b)) = true := by
      rw [List.isPrefixOf_iff_prefix, ← cons_append, (apart_cons hc b).prefix_append_iff]
      exact ha.1
    rw [cons_append, cutFirst?, if_neg hpre, ih ha.2, Option.map_map]
    rfl

/-- A text is found where it stands, or earlier if it has begun before. -/
theorem exists_cutFirst? (hne : needle ≠ []) (t b : Text) :
    ∃ a x r, t = a ++ x ∧ cutFirst? needle (t ++ (needle ++ b)) = some (a, r) ∧
      (x = [] ↔ ¬needle <:+: t ++ needle.dropLast) := by
  induction t with
  | nil =>
    obtain ⟨c, n, rfl⟩ := exists_cons_of_ne_nil hne
    refine ⟨[], [], b, rfl, ?_, iff_of_true rfl fun hocc => ?_⟩
    · have hpre : (c :: n).isPrefixOf (c :: (n ++ b)) = true := by
        rw [List.isPrefixOf_iff_prefix]
        exact prefix_append (c :: n) b
      rw [nil_append, cons_append, cutFirst?, if_pos hpre]
      simp
    · have hlen := hocc.length_le
      simp at hlen
  | cons c t ih =>
    have hdrop : t ++ (needle ++ b) = t ++ needle.dropLast ++
        ([needle.getLast hne] ++ b) := by
      conv_lhs => rw [← dropLast_concat_getLast hne]
      simp only [append_assoc]
    by_cases hpre : needle <+: c :: (t ++ (needle ++ b))
    · -- What begins here ends in front of the last character behind the text.
      have hlen : needle.length ≤ (c :: (t ++ needle.dropLast)).length := by
        simp only [length_cons, length_append, length_dropLast]
        omega
      have hshort : needle <+: c :: (t ++ needle.dropLast) := by
        rw [hdrop, ← cons_append] at hpre
        exact prefix_of_prefix_length_le hpre (prefix_append _ _) hlen
      refine ⟨[], c :: t, (c :: (t ++ (needle ++ b))).drop needle.length, rfl, ?_,
        iff_of_false (cons_ne_nil c t) ?_⟩
      · rw [cons_append, cutFirst?, if_pos (List.isPrefixOf_iff_prefix.2 hpre)]
      · exact not_not_intro hshort.isInfix
    · obtain ⟨a, x, r, rfl, hcut, hx⟩ := ih
      refine ⟨c :: a, x, r, rfl, ?_, hx.trans (not_congr ?_)⟩
      · rw [cons_append, cutFirst?, if_neg (List.isPrefixOf_iff_prefix.not.2 hpre), hcut]
        rfl
      · have hnot : ¬needle <+: c :: (a ++ x ++ needle.dropLast) := by
          intro hshort
          rw [hdrop, ← cons_append] at hpre
          exact hpre (hshort.trans (prefix_append _ _))
        rw [cons_append, infix_cons_iff, or_iff_right hnot]

end Text

/-! ### Finding the cursor -/

/-- Whether the word begins in front of the cursor depends on the identifier there alone. -/
theorem cursorMark_infix_iff (h : ¬cursorMark <:+: t) :
    cursorMark <:+: t ++ cursorMark.dropLast ↔
      cursorMark <:+: identifierTail t ++ cursorMark.dropLast := by
  obtain ⟨a, ha, hends⟩ := exists_identifierTail t
  rcases eq_nil_or_concat a with rfl | ⟨b, c, rfl⟩
  · rw [nil_append] at ha
    rw [← ha]
  · rw [concat_eq_append] at ha hends
    have hc : c ∉ cursorMark := notMem_cursorMark (hends c (by simp))
    have hfree : ¬cursorMark <:+: b := fun hocc => h (ha ▸ by
      rw [append_assoc]
      exact infix_append_of_infix_left hocc)
    conv_lhs => rw [ha]
    rw [append_assoc, append_assoc, singleton_append,
      Text.infix_append_cons hc, or_iff_right hfree]

/-- How a program goes on around the cursor: an identifier ends there, and the word stands
behind it and nowhere in front of it. -/
def CursorPlace (tail program : Text) : Prop :=
  ∃ front c behind, program = front ++ c :: (tail ++ (cursorMark ++ behind)) ∧
    isIdentifierChar c = false ∧ ¬cursorMark <:+: front

theorem Span.slice_middle (a b c : Text) :
    Span.slice ⟨a.byteSize, a.byteSize + b.byteSize⟩ (a ++ b ++ c) = .ok b := by
  rw [Span.slice, Span.cut_eq_ok_iff.2 ⟨rfl, rfl, rfl⟩]
  rfl

/-- The request at the first occurrence of the word. -/
theorem CursorPlace.exists_request {tail program : Text} (h : CursorPlace tail program)
    (htail : ∀ c ∈ tail, isIdentifierChar c = true) (names : List Text)
    (declarations : List (DeclarationKind × Text)) :
    ∃ request, CompletionRequest.make (eraseFirst cursorMark program).1
        (eraseFirst cursorMark program).2 names declarations = .ok request ∧
      (∃ a b, request.program = a ++ b ∧ a.byteSize = request.offset ∧ request.stem <:+ a) ∧
      request.stem <+: tail ∧
      (request.stem = tail ↔ ¬cursorMark <:+: tail ++ cursorMark.dropLast) := by
  obtain ⟨front, c, behind, rfl, hc, hfront⟩ := h
  obtain ⟨a, x, r, rfl, hcut, hx⟩ :=
    @Text.exists_cutFirst? cursorMark (by decide) tail behind
  have herase : eraseFirst cursorMark (front ++ c :: (a ++ x ++ (cursorMark ++ behind))) =
      (front ++ c :: a ++ r, Text.byteSize (front ++ c :: a)) := by
    rw [eraseFirst, Text.cutFirst?_append_cons (notMem_cursorMark hc) hfront, hcut]
    rfl
  have hslice : Span.slice ⟨0, Text.byteSize (front ++ c :: a)⟩ (front ++ c :: a ++ r) =
      .ok (front ++ c :: a) := by
    have := Span.slice_middle [] (front ++ c :: a) r
    rwa [Text.byteSize_nil, Nat.zero_add, nil_append] at this
  have hmin : min (Text.byteSize (front ++ c :: a)) (Text.byteSize (front ++ c :: a ++ r)) =
      Text.byteSize (front ++ c :: a) := by
    rw [Text.byteSize_append _ r]
    omega
  have hstem : identifierTail (front ++ c :: a) = a := by
    have hsplit : front ++ c :: a = front ++ [c] ++ a := by simp
    rw [hsplit, identifierTail_append_left (endsOutside_concat hc front)]
    exact rtakeWhile_eq_self_iff.2 fun d hd => htail d (mem_append_left x hd)
  rw [herase]
  simp only [CompletionRequest.make, hmin, hslice, bind, Except.bind]
  refine ⟨_, rfl, ⟨front ++ c :: a, r, rfl, rfl, ?_⟩, ?_, ?_⟩
  · exact (isIdentifierEnd_identifierTail (front ++ c :: a)).suffix
  · show identifierTail (front ++ c :: a) <+: a ++ x
    rw [hstem]
    exact prefix_append a x
  · simp only [hstem]
    rw [← hx]
    exact ⟨fun heq => self_eq_append_right.1 heq,
      fun hnil => by rw [hnil, append_nil]⟩

/-! ### The word in a program -/

theorem notMem_inputMark_of_mem {c : Char} (h : c ∈ cursorMark) : c ∉ inputMark := by
  have hall : cursorMark.all (· ∉ inputMark) = true := by decide
  simpa using all_eq_true.1 hall c h

/-- Marks are left out in front of the word and behind it. -/
theorem erase_cursor (x y : Text) : Text.erase (x ++ (cursorMark ++ y)) inputMark =
    Text.erase x inputMark ++ (cursorMark ++ Text.erase y inputMark) := by
  have hcons : cursorMark ++ y = '_' :: (cursorMark.tail ++ y) := rfl
  have hapart : Text.Apart inputMark (cursorMark ++ y) := by
    rw [hcons]
    exact Text.apart_cons (by decide) _
  rw [hapart.erase_append, Text.erase_append_left (by decide) fun c =>
    notMem_inputMark_of_mem]

/-- Trimming takes nothing away around the word. -/
theorem trim_cursor (x y : Text) :
    Text.trim (x ++ (cursorMark ++ y)) = Text.trimStart x ++
      (cursorMark ++ Text.trimEnd y) := by
  have hlast : (Text.trimStart x ++ cursorMark).getLast? = some '_' := by
    rw [getLast?_append_of_ne_nil _ (by decide)]
    decide
  have hstart : Text.trimStart (x ++ (cursorMark ++ y)) = Text.trimStart x ++
      (cursorMark ++ y) :=
    Text.trimStart_append_cons (c := '_') (by decide) x (cursorMark.tail ++ y)
  rw [Text.trim, hstart, ← append_assoc, Text.trimEnd_append hlast (by decide),
    append_assoc]

theorem identifierTail_trimStart (t : Text) :
    identifierTail t.trimStart = identifierTail t := by
  have hends : EndsOutside (t.takeWhile isBlank) := by
    intro c hc
    have hblank : isBlank c = true := mem_takeWhile_imp (mem_of_getLast? hc)
    exact isIdentifierChar_eq_false_of_isDelimiter (by simp [isDelimiter, hblank])
  conv_rhs => rw [← takeWhile_append_dropWhile (p := isBlank) (l := t)]
  rw [identifierTail_append_left hends, Text.trimStart]

/-- Changed signs are no identifiers. -/
theorem Demoted.identifierTail_eq (h : Demoted t r) :
    identifierTail r = identifierTail t := by
  obtain ⟨a, ha, hends⟩ := exists_identifierTail t
  have hchars (c : Char) := @isIdentifierChar_of_mem_identifierTail c t
  generalize identifierTail t = w at ha hchars
  subst ha
  have hhead : w.head? ≠ some '=' := by
    intro hhead
    exact absurd (hchars _ (mem_of_head? hhead)) (by decide)
  have hcolon : ':' ∉ w := fun hmem => absurd (hchars _ hmem) (by decide)
  obtain ⟨a', w', rfl, ha', hw⟩ := h.exists_of_append hhead
  rw [← append_nil w] at hw
  obtain ⟨_, rfl, hnil⟩ := hw.exists_append_of_notMem hcolon
  cases hnil
  have hends' : EndsOutside a' := fun c hc => hends c (ha'.getLast?_eq ▸ hc)
  rw [append_nil, identifierTail_append_left hends']
  exact rtakeWhile_eq_self_iff.2 fun c hc => hchars c hc

/-- The word is kept where signs change. -/
theorem Demoted.exists_cursor {b : Text} (h : Demoted (a ++ (cursorMark ++ b)) r) :
    ∃ a' b', r = a' ++ (cursorMark ++ b') ∧ Demoted a a' := by
  have hhead : (cursorMark ++ b).head? ≠ some '=' := by
    show some '_' ≠ some '='
    decide
  obtain ⟨a', r', rfl, ha, hr⟩ := h.exists_of_append hhead
  obtain ⟨b', rfl, -⟩ := hr.exists_append_of_notMem (by decide)
  exact ⟨a', b', rfl, ha⟩

/-- The first block with the word gives its place. -/
theorem cursorPlace_ended {above : List Text} {x y : Text} (hne : above ≠ [])
    (habove : ∀ t ∈ above, ¬cursorMark <:+: Text.erase t inputMark) (hx : ¬cursorMark <:+: x)
    (hmark : ¬inputMark <:+: x) :
    CursorPlace (identifierTail x)
      (Text.erase (ended (above ++ (x ++ (cursorMark ++ y)) :: below)) inputMark) := by
  obtain ⟨ts, t, rfl⟩ := (eq_nil_or_concat above).resolve_left hne
  rw [concat_eq_append] at habove ⊢
  have hfront : ¬cursorMark <:+: ended (ts.map (Text.erase · inputMark)) ++
      Text.erase t inputMark := by
    intro hocc
    have hended : cursorMark <:+: ended ((ts ++ [t]).map (Text.erase · inputMark)) := by
      rw [map_append, ended_append, map_singleton, ended_cons, ← append_assoc]
      exact infix_append_of_infix_left hocc
    obtain ⟨_, hmem, hocc⟩ := (infix_ended (by decide) (by decide)).1 hended
    obtain ⟨t', ht', rfl⟩ := mem_map.1 hmem
    exact habove t' ht' hocc
  rw [erase_ended (by decide) (by decide), map_append, map_cons,
    ended_append, ended_cons, erase_cursor, Text.erase_of_notInfix hmark, map_append,
    ended_append, map_singleton,
    ended_cons]
  generalize ended (ts.map (Text.erase · inputMark)) = front at hfront ⊢
  generalize ended (below.map (Text.erase · inputMark)) = rest
  obtain ⟨a, ha, hends⟩ := exists_identifierTail x
  generalize identifierTail x = w at ha
  subst ha
  rcases eq_nil_or_concat a with rfl | ⟨b, c, rfl⟩
  · exact ⟨front ++ Text.erase t inputMark, '\n', Text.erase y inputMark ++ '\n' :: rest,
      by simp [ended], by decide, hfront⟩
  · rw [concat_eq_append] at hends hx ⊢
    refine ⟨front ++ Text.erase t inputMark ++ '\n' :: b, c,
      Text.erase y inputMark ++ '\n' :: rest,
      by simp [ended], hends c (by simp), ?_⟩
    rw [Text.infix_append_cons (by decide), not_or]
    exact ⟨hfront, fun hocc => hx (by
      rw [append_assoc]
      exact infix_append_of_infix_left hocc)⟩

theorem partwise_cursorMark : Partwise fun t => ¬cursorMark <:+: Text.erase t inputMark where
  join := by
    intro c hc a b ha hb
    have hmark : separators.all (· ∉ inputMark) = true := by decide
    have hcursor : separators.all (· ∉ cursorMark) = true := by decide
    have hnot : c ∉ inputMark := by simpa using all_eq_true.1 hmark c hc
    have hnot' : c ∉ cursorMark := by simpa using all_eq_true.1 hcursor c hc
    rw [Text.erase_append_cons hnot (by decide), Text.infix_append_cons hnot', not_or]
    exact ⟨ha, hb⟩
  blank := by
    intro t ht hocc
    rw [Text.erase_cons (by decide) (by decide), ← nil_append (' ' :: _),
      Text.infix_append_cons (by decide)] at hocc
    exact ht (hocc.resolve_left (by decide))
  colon := by
    intro t ht hocc
    rw [apart_colon.erase_append, (by decide : Text.erase [' ', ':'] inputMark = [' ', ':']),
      Text.infix_append_cons (by decide)] at hocc
    exact ht (hocc.resolve_right (by decide))
  words := by decide

section Program

variable {session : Session} {store : ValueStore} {files : FileTree}
    {before behind body : Text}
  {declarations : List Declaration}

/-- What does not occur on either side of the cursor occurs in no part of them. -/
theorem notInfix_of_side {needle : Text} (hline : '\n' ∉ needle) (hne : needle ≠ [])
    (hneedle : ¬needle <:+: before ++ behind) (ht : t <:+: before ∨ t <:+: behind ++ ['\n']) :
    ¬needle <:+: t := by
  intro hocc
  rcases ht with ht | ht
  · exact hneedle (infix_append_of_infix_left (hocc.trans ht))
  · have hocc := hocc.trans ht
    rw [Text.infix_append_cons hline] at hocc
    have hbehind := hocc.resolve_right fun hnil => hne (infix_nil.1 hnil)
    exact hneedle (infix_append_of_infix_right hbehind)

/-- A declaration on one side of the cursor holds no word. -/
theorem cursor_notInfix_side (hcursor : ¬cursorMark <:+: before ++ behind)
    (hmark : ¬inputMark <:+: before ++ behind)
    (ht : t <:+: before ∨ t <:+: behind ++ ['\n']) :
    ¬cursorMark <:+: Text.erase t.trim inputMark := by
  intro hocc
  have hocc := hocc.trans (Text.infix_erase_trim t)
  rw [Text.erase_of_notInfix (notInfix_of_side (by decide) (by decide) hmark ht)] at hocc
  exact notInfix_of_side (by decide) (by decide) hcursor ht hocc

/-- The word brings no mark into an input. -/
theorem mark_notInfix_marked (h : ¬inputMark <:+: before ++ behind) :
    ¬inputMark <:+: before ++ (cursorMark ++ behind) := by
  have hcons : before ++ (cursorMark ++ behind) = before ++ '_' ::
      (cursorMark.tail ++ behind) := rfl
  rw [hcons, Text.infix_append_cons (by decide), not_or]
  refine ⟨fun hocc => h (infix_append_of_infix_left hocc), fun hocc => h ?_⟩
  refine infix_append_of_infix_right (Text.infix_of_append_left (by decide) ?_ hocc)
  exact fun c hc => notMem_inputMark_of_mem (mem_of_mem_tail hc)

/-- A block in front of the body holds the word only if it is a declaration that does. -/
theorem cursor_notInfix_lead {P : Text → Prop} {lines : List Text}
    (hsession : ∀ t ∈ session.texts store files, ¬cursorMark <:+: Text.erase t inputMark)
    (hdeclared : ∀ d ∈ declarations,
      ¬cursorMark <:+: Text.erase (Text.trim d.source) inputMark ∨ P (Text.trim d.source))
    (hlines : ∀ l ∈ lines, ¬cursorMark <:+: Text.erase ('\t' :: l) inputMark) :
    ∀ t ∈ leadBlocks (Declaration.merge session.declarations declarations) lines,
      ¬cursorMark <:+: Text.erase t inputMark ∨ P t := by
  refine forall_mem_leadBlocks (P := fun t => ¬cursorMark <:+: Text.erase t inputMark ∨ P t)
    (.inl (by decide)) (.inl (by decide)) (.inl (by decide)) ?_ fun l hl => .inl (hlines l hl)
  intro d hd
  rcases Declaration.mem_merge hd with hd | hd
  · exact .inl fun hocc => hsession d.source (Session.source_mem_texts hd)
      (hocc.trans (Text.infix_erase_trim d.source))
  · exact hdeclared d hd

/-- The word in the body. -/
theorem cursorPlace_of_body (hne : lead ≠ [])
    (hlead : ∀ t ∈ lead, ¬cursorMark <:+: Text.erase t inputMark) {edited : Text}
    (hdemoted : Demoted (front ++ (cursorMark ++ back)) edited)
    (hcursor : ¬cursorMark <:+: front) (hmark : ¬inputMark <:+: front) :
    CursorPlace (identifierTail front) (Text.erase
      (ended (lead ++ ['\t' :: (edited.trim ++ (" " ++ inputMark)), ['\x7d']]))
        inputMark) := by
  obtain ⟨front', back', rfl, hfront⟩ := hdemoted.exists_cursor
  have hfree {needle : Text} (htab : '\t' ∉ needle) (hsign : '=' ∉ needle) (hne : needle ≠ [])
      (hneedle : ¬needle <:+: front) : ¬needle <:+: '\t' :: Text.trimStart front' := by
    rw [← nil_append ('\t' :: _), Text.infix_append_cons htab, not_or]
    refine ⟨fun hnil => hne (infix_nil.1 hnil), fun hocc => hneedle ?_⟩
    exact hfront.infix_left hsign (hocc.trans (dropWhile_suffix isBlank).isInfix)
  have hblock : '\t' :: (Text.trim (front' ++ (cursorMark ++ back')) ++ (" " ++ inputMark)) =
      '\t' :: Text.trimStart front' ++
        (cursorMark ++ (Text.trimEnd back' ++ (" " ++ inputMark))) := by
    rw [trim_cursor]
    simp only [append_assoc, cons_append]
  have htail : identifierTail ('\t' :: Text.trimStart front') = identifierTail front := by
    have htab : EndsOutside ['\t'] := endsOutside_concat (by decide) []
    rw [← singleton_append, identifierTail_append_left htab, identifierTail_trimStart,
      hfront.identifierTail_eq]
  rw [hblock, ← htail]
  exact cursorPlace_ended hne hlead (hfree (by decide) (by decide) (by decide) hcursor)
    (hfree (by decide) (by decide) (by decide) hmark)

/-- The word in a declaration, whose block is the first with the word. -/
theorem cursorPlace_of_lead (hmem : Text.trim (front ++ (cursorMark ++ back)) ∈ lead)
    (hhead : lead.head? = some packageLine)
    (hlead : ∀ t ∈ lead, ¬cursorMark <:+: Text.erase t inputMark ∨
      t = Text.trim (front ++ (cursorMark ++ back)))
    (hcursor : ¬cursorMark <:+: front) (hmark : ¬inputMark <:+: front) :
    CursorPlace (identifierTail front) (Text.erase (ended (lead ++ below)) inputMark) := by
  obtain ⟨above, rest, rfl, hfirst⟩ := eq_append_cons_of_mem hmem
  have hsuffix : Text.trimStart front <:+: front := (dropWhile_suffix isBlank).isInfix
  have habove : ∀ t ∈ above, ¬cursorMark <:+: Text.erase t inputMark := by
    intro t ht
    refine (hlead t (mem_append_left _ ht)).resolve_right ?_
    rintro rfl
    exact hfirst ht
  have hne : above ≠ [] := by
    rintro rfl
    -- The package line does not hold the word.
    have hpackage : Text.trim (front ++ (cursorMark ++ back)) = packageLine :=
      Option.some.inj hhead
    have hocc : cursorMark <:+: packageLine := by
      rw [← hpackage, trim_cursor]
      exact infix_append_of_infix_right (infix_append_of_infix_left infix_rfl)
    exact absurd hocc (by decide)
  rw [append_assoc, cons_append, trim_cursor, ← identifierTail_trimStart]
  exact cursorPlace_ended hne habove (fun hocc => hcursor (hocc.trans hsuffix))
    fun hocc => hmark (hocc.trans hsuffix)

/-- The program of an input with the word has the word behind the identifier in front of the
cursor. -/
theorem exists_cursorPlace (session : Session) (store : ValueStore) (files : FileTree)
    (hsession : ∀ t ∈ session.texts store files, ¬cursorMark <:+: Text.erase t inputMark)
    (hcursor : ¬cursorMark <:+: before ++ behind) (hmark : ¬inputMark <:+: before ++ behind)
    (honce : ∀ declarations body,
      splitDeclarations (before ++ (cursorMark ++ behind)) = .ok (declarations, body) →
        (declarations.map Declaration.identity).Nodup) :
    ∃ made, assemble session store files (before ++ (cursorMark ++ behind)) = .ok made ∧
      CursorPlace (identifierTail before) (Text.erase made.program inputMark) := by
  have hcursorBefore : ¬cursorMark <:+: before := fun h =>
    hcursor (infix_append_of_infix_left h)
  have hmarkBefore : ¬inputMark <:+: before :=
    fun h => hmark (infix_append_of_infix_left h)
  obtain ⟨declarations, body, edited, skipped, hsplit, hdemoted, hmade, -⟩ :=
    exists_assembled session store files (before ++ (cursorMark ++ behind))
  refine ⟨_, hmade, ?_⟩
  have hlines : ∀ l ∈ (rehydrations session store files skipped).map Prod.snd,
      ¬cursorMark <:+: Text.erase ('\t' :: l) inputMark := by
    intro l hl
    obtain ⟨r, hr, rfl⟩ := mem_map.1 hl
    exact partwise_cursorMark.rehydration hsession hr
  rcases inBody_or_inDeclaration hsplit hcursorBefore with hin | ⟨d, hin⟩
  · obtain ⟨front, back, rfl, htail, hfree⟩ := hin.place
    have hlead := cursor_notInfix_lead (P := fun _ => False) hsession
      (fun d hd => .inl (cursor_notInfix_side hcursor hmark (hin.others d hd))) hlines
    rw [← htail]
    refine cursorPlace_of_body (by simp [leadBlocks])
      (fun t ht => (hlead t ht).resolve_right id)
      hdemoted hfree fun hocc => mark_notInfix_body hsplit (mark_notInfix_marked hmark) ?_
    exact infix_append_of_infix_left hocc
  · obtain ⟨front, back, hsource, htail, hsuffix⟩ := hin.place
    have hmem := @Declaration.mem_merge_of_nodup _ session.declarations _
      (honce declarations body hsplit) hin.mem
    have hlead := cursor_notInfix_lead (P := fun t => t = Text.trim d.source) hsession
      (fun e he => (hin.others e he).elim (fun heq => .inr (by rw [heq]))
        fun hother => .inl (cursor_notInfix_side hcursor hmark hother)) hlines
    rw [hsource] at hlead
    rw [← htail]
    refine cursorPlace_of_lead ?_ rfl hlead
      (fun hocc => hcursorBefore (hocc.trans hsuffix.isInfix))
      fun hocc => hmarkBefore (hocc.trans hsuffix.isInfix)
    rw [← hsource, leadBlocks]
    simp only [mem_cons, mem_append, mem_flatMap]
    exact .inr (.inr (.inl ⟨d, Declaration.mem_importsFirst.2 hmem, .inl rfl⟩))

end Program

/-! ### Completion at a cursor -/

/-- **What the offered names begin with.**  Neither the input nor the session has
`cursorMark`, nor gets it when `inputMark` is erased, and the input with `cursorMark` at the
cursor declares nothing twice.  Then `completionRequest` makes a request and `Repl.complete`
answers, and what it replaces is the longest end of the text in front of the cursor that
consists of identifier characters (`IsIdentifierEnd`).  The request's `offset` lies between
two characters of its `program`, right behind its `stem`; the `stem` begins what is replaced,
and is all of it exactly if no `cursorMark` has begun in front of the cursor. -/
theorem cursor_stem (k : Kernel) (files : FileTree) {input before behind : Text}
    {cursor : Nat} (hcut : input.cutAt? cursor = some (before, behind))
    (hsession : ∀ t ∈ k.session.texts k.workspace.store files,
      ¬cursorMark <:+: Text.erase t inputMark)
    (hcursor : ¬cursorMark <:+: input) (hmark : ¬inputMark <:+: input)
    (honce : ∀ declarations body,
      splitDeclarations (before ++ cursorMark ++ behind) = .ok (declarations, body) →
        (declarations.map Declaration.identity).Nodup) :
    ∃ request start pairs replaced, k.completionRequest files input cursor = .ok request ∧
      Repl.complete k files input cursor = .ok (start, pairs) ∧
      Span.slice ⟨start, cursor⟩ input = .ok replaced ∧ IsIdentifierEnd replaced before ∧
      (∃ a b, request.program = a ++ b ∧ a.byteSize = request.offset ∧ request.stem <:+ a) ∧
      request.stem <+: replaced ∧
      (request.stem = replaced ↔ ¬cursorMark <:+: before ++ cursorMark.dropLast) := by
  obtain ⟨rfl, rfl⟩ := Text.cutAt?_eq_some_iff.1 hcut
  rw [append_assoc] at honce
  obtain ⟨made, hmade, hplace⟩ :=
    exists_cursorPlace k.session k.workspace.store files hsession hcursor hmark honce
  let offered := (Declaration.merge k.session.declarations made.declarations).filter fun d =>
    !d.key.containsText cursorMark
  obtain ⟨request, hmake, hat, hstem, hiff⟩ := hplace.exists_request
    (fun c => isIdentifierChar_of_mem_identifierTail) k.session.tracked
    (offered.map fun d => (d.kind, d.key))
  have hrequest : k.completionRequest files (before ++ behind) before.byteSize =
      .ok request := by
    simp only [Kernel.completionRequest, completionRequest, hcut, Option.getD_some,
      append_assoc, hmade, bind, Except.bind]
    exact hmake
  have hbefore : Span.slice ⟨0, before.byteSize⟩ (before ++ behind) = .ok before := by
    have hslice := Span.slice_middle [] before behind
    rwa [Text.byteSize_nil, Nat.zero_add, nil_append] at hslice
  have hcomplete : Repl.complete k files (before ++ behind) before.byteSize =
      .ok (before.byteSize - Text.byteSize (identifierTail before),
        request.items.map fun i => (i.label ++ "  (" ++ i.detail ++ ")", i.label)) := by
    simp only [Repl.complete, Kernel.complete, hrequest, hbefore, Except.map,
      bind, Except.bind]
    rfl
  refine ⟨request, _, _, identifierTail before, hrequest, hcomplete, ?_,
    isIdentifierEnd_identifierTail before, hat, hstem, ?_⟩
  · obtain ⟨a, ha, -⟩ := exists_identifierTail before
    generalize identifierTail before = w at ha
    subst ha
    have hslice := Span.slice_middle a w behind
    rwa [Text.byteSize_append, Nat.add_sub_cancel_right]
  · rw [hiff, cursorMark_infix_iff fun hocc => hcursor (infix_append_of_infix_left hocc)]

/-- A cursor in a declaration behind a statement, with a literal and a declaration in the
session. -/
theorem cursor_stem_declaration :
    let k : Kernel := { Kernel.sampleKernel with
      session := ⟨["f"], [("f", "func() int \x7b return 1 \x7d")],
        [⟨.typeDecl, "T", "type T struct\x7b\x7d"⟩]⟩ }
    let before : Text := "x := f(); func g() \x7b __to"
    let behind : Text := "t() \x7d"
    (Text.cutAt? (before ++ behind) 25 = some (before, behind) ∧
      (∀ t ∈ k.session.texts k.workspace.store .empty,
        ¬cursorMark <:+: Text.erase t inputMark) ∧
      ¬cursorMark <:+: before ++ behind ∧ ¬inputMark <:+: before ++ behind ∧
      ∀ declarations body,
        splitDeclarations (before ++ cursorMark ++ behind) = .ok (declarations, body) →
          (declarations.map Declaration.identity).Nodup) ∧
      ∃ request start pairs, k.completionRequest .empty (before ++ behind) 25 = .ok request ∧
        Repl.complete k .empty (before ++ behind) 25 = .ok (start, pairs) ∧
        Span.slice ⟨start, 25⟩ (before ++ behind) = .ok request.stem ∧
        IsIdentifierEnd request.stem before := by
  intro k before behind
  have hcut : Text.cutAt? (before ++ behind) 25 = some (before, behind) := by decide
  have hsession : ∀ t ∈ k.session.texts k.workspace.store .empty,
      ¬cursorMark <:+: Text.erase t inputMark := by
    decide +kernel
  have hcursor : ¬cursorMark <:+: before ++ behind := by decide
  have hmark : ¬inputMark <:+: before ++ behind := by decide
  have hsplit : (splitDeclarations (before ++ cursorMark ++ behind)).map
      (fun r => r.1.map Declaration.identity) = .ok [(.function, "g".toList)] := by
    decide +kernel
  have honce : ∀ declarations body,
      splitDeclarations (before ++ cursorMark ++ behind) = .ok (declarations, body) →
        (declarations.map Declaration.identity).Nodup := by
    intro declarations body h
    rw [h] at hsplit
    have hone : declarations.map Declaration.identity = [(.function, "g".toList)] :=
      Except.ok.inj hsplit
    rw [hone]
    exact nodup_singleton _
  obtain ⟨request, start, pairs, replaced, hrequest, hcomplete, hslice, hend, -, -, hiff⟩ :=
    cursor_stem k .empty hcut hsession hcursor hmark honce
  obtain rfl : request.stem = replaced := hiff.2 (by decide)
  exact ⟨⟨hcut, hsession, hcursor, hmark, honce⟩, request, start, pairs, hrequest,
    hcomplete, hslice, hend⟩

/-- Behind the beginning of the word, and behind a declaration in which the word arises when
the marks are left out, the request is made for another place than the cursor's. -/
theorem cursor_lost :
    let k : Kernel := { Kernel.sampleKernel with
      session := ⟨[], [],
        [⟨.typeDecl, "U", "type U struct\x7b /*__gocell_// :INPUTcursor__*/ \x7d"⟩]⟩ }
    (((Kernel.sampleKernel.completionRequest .empty "__gocell_cursor" 15).map (·.stem),
        (Repl.complete Kernel.sampleKernel .empty "__gocell_cursor" 15).map (·.1)) =
          (.ok [], .ok 0)) ∧
      (((k.completionRequest .empty "to" 2).map (·.stem),
        (Repl.complete k .empty "to" 2).map (·.1)) =
        (.ok [], .ok 0)) := by
  decide +kernel

end Notebook
