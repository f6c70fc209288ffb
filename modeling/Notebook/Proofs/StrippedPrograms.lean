import Notebook.Proofs.EditedInputs

/-!
# Programs without the input mark

The mark behind an input is taken out of the text of its program, and with it every other
occurrence of the same characters, in a string or a comment as well.  What is left is
therefore not always the program that the input would make without a mark, but it depends on
that program alone: it is that program with all its marks taken out.  The two are the same
exactly if the program holds no mark, and it holds none if neither the input nor the session
does: no mark arises where texts are joined, where declarations are taken out or where signs
change.
-/

namespace Notebook

open Lexer List

variable {c : Char} {files : FileTree} {declarations : List Declaration} {skipped : List Text}
  {session : Session} {a b body input name needle t : Text} {store : ValueStore}

/-! ### Leaving occurrences out -/

namespace Text

/-- Occurrences are left out part by part, if none goes on from the first part into the
second. -/
theorem eraseFrom_append (h : ∀ a : Text, a ≠ [] → needle <+: a ++ b → needle <+: a) {n : Nat}
    (hn : n ≤ a.length) :
    eraseFrom needle n (a ++ b) = eraseFrom needle n a ++ erase b needle := by
  induction a generalizing n with
  | nil =>
    obtain rfl : n = 0 := Nat.le_zero.1 hn
    rfl
  | cons d a ih =>
    cases n with
    | succ n => exact ih (Nat.le_of_succ_le_succ hn)
    | zero =>
      have hiff : needle.isPrefixOf (d :: (a ++ b)) = needle.isPrefixOf (d :: a) := by
        rw [Bool.eq_iff_iff, List.isPrefixOf_iff_prefix, List.isPrefixOf_iff_prefix]
        exact ⟨h (d :: a) (cons_ne_nil d a), fun hpre =>
          hpre.trans (prefix_append _ b)⟩
      rw [cons_append, eraseFrom, eraseFrom, hiff]
      split
      next hpre =>
        have hlen := (List.isPrefixOf_iff_prefix.1 hpre).length_le
        rw [length_cons] at hlen
        exact ih (by omega)
      next => rw [ih (Nat.zero_le _), cons_append]

/-- No end of the first text stands at the front of the second. -/
def Apart (needle b : Text) : Prop :=
  ∀ y, y <:+ needle → y ≠ [] → ¬y <+: b

theorem apart_cons (hc : c ∉ needle) (b : Text) : Apart needle (c :: b) := by
  intro y hy hne hpre
  rcases prefix_cons_iff.1 hpre with hnil | ⟨t, rfl, -⟩
  · exact hne hnil
  · exact hc (hy.subset mem_cons_self)

namespace Apart

theorem prefix_append_iff (h : Apart needle b) : needle <+: a ++ b ↔ needle <+: a := by
  constructor
  · intro hpre
    rcases prefix_append_cases hpre with hpre | ⟨y, hy, hpre⟩
    · exact hpre
    · by_cases hne : y = []
      · rw [hne, append_nil] at hy
        rw [hy]
      · exact absurd hpre (h y ⟨a, hy.symm⟩ hne)
  · exact fun hpre => hpre.trans (prefix_append a b)

theorem infix_append_iff (h : Apart needle b) :
    needle <:+: a ++ b ↔ needle <:+: a ∨ needle <:+: b := by
  constructor
  · intro hocc
    rcases List.infix_append_iff.1 hocc with hin | hin | ⟨x, y, hxy, hx, hy⟩
    · exact .inl hin
    · exact .inr hin
    · by_cases hne : y = []
      · rw [hne, append_nil] at hxy
        exact .inl (hxy ▸ hx.isInfix)
      · exact absurd hy (h y ⟨x, hxy.symm⟩ hne)
  · rintro (hin | hin)
    · exact infix_append_of_infix_left hin
    · exact infix_append_of_infix_right hin

/-- Occurrences are left out of both parts, since none lies across. -/
theorem erase_append (h : Apart needle b) :
    erase (a ++ b) needle = erase a needle ++ erase b needle :=
  eraseFrom_append (fun _ _ => h.prefix_append_iff.1) (Nat.zero_le _)

end Apart

/-- A character that a text does not begin with stays. -/
theorem erase_cons (hc : needle.head? ≠ some c) (hne : needle ≠ []) (t : Text) :
    erase (c :: t) needle = c :: erase t needle := by
  have hpre : ¬needle.isPrefixOf (c :: t) = true := by
    rw [List.isPrefixOf_iff_prefix, prefix_cons_iff, not_or]
    refine ⟨hne, ?_⟩
    rintro ⟨u, rfl, -⟩
    exact hc rfl
  rw [erase, eraseFrom, if_neg hpre, erase]

theorem erase_append_cons (hc : c ∉ needle) (hne : needle ≠ []) (a b : Text) :
    erase (a ++ c :: b) needle = erase a needle ++ c :: erase b needle := by
  rw [(apart_cons hc b).erase_append,
    erase_cons (fun hhead => hc (mem_of_head? hhead)) hne]

/-- What shares no character with a text stays when the text is left out. -/
theorem erase_append_left (hne : needle ≠ []) (ha : ∀ c ∈ a, c ∉ needle) (b : Text) :
    erase (a ++ b) needle = a ++ erase b needle := by
  induction a with
  | nil => rfl
  | cons c a ih =>
    rw [forall_mem_cons] at ha
    rw [cons_append, erase_cons (fun hhead => ha.1 (mem_of_head? hhead)) hne,
      ih ha.2, cons_append]

theorem infix_of_append_left (hne : needle ≠ []) (ha : ∀ c ∈ a, c ∉ needle)
    (h : needle <:+: a ++ b) : needle <:+: b := by
  induction a with
  | nil => exact h
  | cons c a ih =>
    rw [forall_mem_cons] at ha
    rw [cons_append, ← nil_append (c :: (a ++ b)), infix_append_cons ha.1] at h
    exact ih ha.2 (h.resolve_left fun hnil => hne (infix_nil.1 hnil))

/-- An occurrence at the end is left out, and the others are the same as without it. -/
theorem erase_append_self (h : needle.IsBorderless) (hne : needle ≠ []) (a : Text) :
    erase (a ++ needle) needle = erase a needle := by
  have hself : erase needle needle = [] := by
    have herase := erase_append hne h (infix_nil.not.2 hne) []
    rwa [nil_append, append_nil] at herase
  have hgoes : ∀ a : Text, a ≠ [] → needle <+: a ++ needle → needle <+: a := by
    intro a ha hpre
    refine h.prefix_of_prefix_append (b := []) ha ?_
    rwa [append_nil]
  have hsplit : erase (a ++ needle) needle = erase a needle ++ erase needle needle :=
    eraseFrom_append hgoes (Nat.zero_le _)
  rw [hsplit, hself, append_nil]

theorem length_eraseFrom_le (needle : Text) (n : Nat) (t : Text) :
    (eraseFrom needle n t).length ≤ t.length := by
  induction t generalizing n with
  | nil => exact Nat.le_of_eq rfl
  | cons c t ih =>
    cases n with
    | succ n => exact (ih n).trans (Nat.le_succ _)
    | zero =>
      rw [eraseFrom]
      split
      · exact (ih _).trans (Nat.le_succ _)
      · exact Nat.succ_le_succ (ih 0)

theorem length_erase_lt (hne : needle ≠ []) (h : needle <:+: t) :
    (erase t needle).length < t.length := by
  rw [erase]
  induction t with
  | nil => exact absurd (infix_nil.1 h) hne
  | cons c t ih =>
    rw [eraseFrom]
    split
    · exact Nat.lt_succ_of_le (length_eraseFrom_le needle _ t)
    next hpre =>
      rw [List.isPrefixOf_iff_prefix] at hpre
      exact Nat.succ_lt_succ (ih ((infix_cons_iff.1 h).resolve_left hpre))

end Text

/-- Taking marks out changes a text exactly if there is one. -/
theorem stripMark_eq_self_iff : stripMark t = t ↔ ¬inputMark <:+: t := by
  constructor
  · intro heq hmark
    have hlen : (stripMark t).length < t.length := by
      rw [stripMark]
      by_cases hspaced : (" " ++ inputMark : Text) <:+: t
      · exact (Text.length_eraseFrom_le _ _ _).trans_lt
          (Text.length_erase_lt (by decide) hspaced)
      · rw [Text.erase_of_notInfix hspaced]
        exact Text.length_erase_lt (by decide) hmark
    rw [heq] at hlen
    exact Nat.lt_irrefl _ hlen
  · intro hfree
    have hspaced : ¬(" " ++ inputMark : Text) <:+: t := fun h =>
      hfree ((suffix_append _ _).isInfix.trans h)
    rw [stripMark, Text.erase_of_notInfix hspaced, Text.erase_of_notInfix hfree]

/-- The mark behind a text is taken out with the blank in front of it. -/
theorem stripMark_append_mark (t : Text) :
    stripMark (t ++ (" " ++ inputMark)) = stripMark t := by
  have herase : Text.erase (t ++ (" " ++ inputMark)) (" " ++ inputMark) =
      Text.erase t (" " ++ inputMark) := Text.erase_append_self (by decide) (by decide) t
  rw [stripMark, herase, stripMark]

/-- Trimming takes nothing into a text that comes to occur when marks are left out. -/
theorem Text.infix_erase_trim (t : Text) : erase t.trim inputMark <:+: erase t inputMark := by
  have hblank {c : Char} (hc : isBlank c = true) : inputMark.head? ≠ some c := by
    intro hhead
    obtain rfl : '/' = c := Option.some.inj hhead
    exact absurd hc (by decide)
  have hstart : erase t.trimStart inputMark <:+ erase t inputMark := by
    induction t with
    | nil => exact suffix_rfl
    | cons c t ih =>
      cases hc : isBlank c with
      | false => rw [trimStart, dropWhile_cons_of_neg (by simp [hc])]
      | true =>
        rw [trimStart, dropWhile_cons_of_pos hc, erase_cons (hblank hc) (by decide)]
        exact ih.trans (suffix_cons _ _)
  have hend (u : Text) : erase u.trimEnd inputMark <+: erase u inputMark := by
    have hapart : Apart inputMark (u.rtakeWhile isBlank) := by
      intro y hy hne hpre
      obtain ⟨x, hx⟩ := hy
      have hlast : y.getLast? = some 'T' := by
        rw [← getLast?_append_of_ne_nil x hne, hx]
        decide
      have hT := mem_rtakeWhile_imp (hpre.subset (mem_of_getLast? hlast))
      exact absurd hT (by decide)
    have hsplit : u = u.trimEnd ++ u.rtakeWhile isBlank :=
      (rdropWhile_append_rtakeWhile (p := isBlank) (l := u)).symm
    conv_rhs => rw [hsplit]
    rw [hapart.erase_append]
    exact prefix_append _ _
  exact (hend t.trimStart).isInfix.trans hstart.isInfix

/-! ### Programs by their blocks -/

/-- Texts with a line end behind each. -/
def ended (ts : List Text) : Text :=
  ts.flatMap (· ++ ['\n'])

theorem ended_cons (t : Text) (ts : List Text) : ended (t :: ts) = t ++ '\n' :: ended ts := by
  simp [ended]

theorem ended_append (ts us : List Text) : ended (ts ++ us) = ended ts ++ ended us :=
  flatMap_append

theorem erase_ended (hline : '\n' ∉ needle) (hne : needle ≠ []) (ts : List Text) :
    Text.erase (ended ts) needle = ended (ts.map (Text.erase · needle)) := by
  induction ts with
  | nil => rfl
  | cons t ts ih =>
    rw [ended_cons, Text.erase_append_cons hline hne, ih, map_cons, ended_cons]

theorem stripMark_ended (ts : List Text) :
    stripMark (ended ts) = ended (ts.map stripMark) := by
  rw [stripMark, erase_ended (by decide) (by decide), erase_ended (by decide) (by decide),
    map_map]
  rfl

theorem infix_ended (hline : '\n' ∉ needle) (hne : needle ≠ []) {ts : List Text} :
    needle <:+: ended ts ↔ ∃ t ∈ ts, needle <:+: t := by
  induction ts with
  | nil => simp [ended, hne]
  | cons t ts ih =>
    rw [ended_cons, Text.infix_append_cons hline, ih, exists_mem_cons_iff]

/-- What stands in front of the body of a program, line by line. -/
def leadBlocks (ds : List Declaration) (lines : List Text) : List Text :=
  packageLine :: [] ::
    ((Declaration.importsFirst ds).flatMap (fun d => [Text.trim d.source, []]) ++
    entryOpening :: lines.map ('\t' :: ·))

/-- The blocks of a program. -/
def programBlocks (ds : List Declaration) (lines : List Text) (body : Text) : List Text :=
  leadBlocks ds lines ++ ['\t' :: body, ['\x7d']]

theorem programText_eq_ended (ds : List Declaration) (lines : List Text) (body : Text) :
    programText ds (lines.flatMap bodyLine) body = ended (programBlocks ds lines body) := by
  have hrender : Declaration.render ds =
      ended ((Declaration.importsFirst ds).flatMap fun d => [Text.trim d.source, []]) := by
    simp [Declaration.render, Declaration.importsFirst, ended, flatMap_assoc]
  have hlines : lines.flatMap bodyLine = ended (lines.map ('\t' :: ·)) := by
    rw [ended, flatMap_map]
    rfl
  have hassoc : ∀ p r o ls b : Text, ∀ n t c : Char,
      (p ++ [n, n]) ++ r ++ (o ++ [n]) ++ ls ++ [t] ++ b ++ [n, c, n] =
        p ++ n :: ([] ++ n :: (r ++ (o ++ n :: (ls ++ (t :: b ++ n :: ([c] ++ [n])))))) := by
    intros
    simp
  have hblocks : ended (programBlocks ds lines body) =
      packageLine ++ '\n' :: ([] ++ '\n' :: (Declaration.render ds ++ (entryOpening ++ '\n' ::
        (lines.flatMap bodyLine ++ ('\t' :: body ++ '\n' :: (['\x7d'] ++ ['\n'])))))) := by
    rw [hrender, hlines, programBlocks, leadBlocks, ended_append, ended_cons,
      ended_cons, ended_append, ended_cons, ended_cons, ended_cons]
    simp only [append_assoc, cons_append]
    rfl
  rw [hblocks, ← hassoc]
  rfl

/-! ### The texts in a program -/

/-- The texts that a session puts into a program: names, literals, declarations and types. -/
def Session.texts (session : Session) (store : ValueStore) (files : FileTree) : List Text :=
  session.names ++ session.literals.map Prod.snd ++ session.declarations.map (·.source) ++
    session.names.filterMap fun name => (store.typeTag files name).toOption.map TypeTag.text

theorem Session.source_mem_texts {d : Declaration} (hd : d ∈ session.declarations) :
    d.source ∈ session.texts store files :=
  mem_append_left _ (mem_append_right _ (mem_map_of_mem hd))

/-- The signs that separate the texts in a statement that brings a variable back. -/
def separators : List Char := ['\t', ',', '[', ']', '"', '-', '=']

/-- What holds of a statement that brings a variable back if it holds of the texts in it. -/
structure Partwise (P : Text → Prop) : Prop where
  join : ∀ c ∈ separators, ∀ a b : Text, P a → P b → P (a ++ c :: b)
  blank : ∀ t : Text, P t → P (' ' :: t)
  colon : ∀ t : Text, P t → P (t ++ [' ', ':'])
  words : ∀ w ∈ ([[], " _ :".toList, " _Deserialize".toList, "(".toList,
    "var".toList, ")".toList] :
    List Text), P w

namespace Partwise

variable {P : Text → Prop}

theorem replay (h : Partwise P) {l : Text} (hname : P name) (hl : P l) :
    P (replayStatement name l) := by
  have heq : replayStatement name l = (name ++ [' ', ':']) ++ '=' :: ' ' :: l := by
    simp [replayStatement]
  rw [heq]
  exact h.join '=' (by decide) _ _ (h.colon name hname) (h.blank l hl)

theorem decode (h : Partwise P) {type : Text} (hname : P name) (htype : P type) :
    P (decodeStatement name type) := by
  have heq : decodeStatement name type = name ++ ',' :: (" _ :".toList ++ '=' ::
      (" _Deserialize".toList ++ '[' :: (type ++ ']' :: ("(".toList ++ '"' ::
        ("var".toList ++ '-' :: (name ++ '"' :: ")".toList)))))) := by
    simp [decodeStatement, variableKey]
  rw [heq]
  have hword (w : Text) (hw : w ∈ ([[], " _ :".toList, " _Deserialize".toList, "(".toList,
      "var".toList, ")".toList] : List Text)) : P w := h.words w hw
  refine h.join ',' (by decide) _ _ hname (h.join '=' (by decide) _ _ (hword _ (by simp)) ?_)
  refine h.join '[' (by decide) _ _ (hword _ (by simp)) (h.join ']' (by decide) _ _ htype ?_)
  refine h.join '"' (by decide) _ _ (hword _ (by simp)) ?_
  refine h.join '-' (by decide) _ _ (hword _ (by simp)) ?_
  exact h.join '"' (by decide) _ _ hname (hword _ (by simp))

/-- What holds of the texts of a session holds of the lines that bring its variables back. -/
theorem rehydration (h : Partwise P) (htexts : ∀ t ∈ session.texts store files, P t)
    {r : Text × Text} (hr : r ∈ rehydrations session store files skipped) :
    P ('\t' :: r.2) := by
  suffices hP : P r.2 from h.join '\t' (by decide) [] _ (h.words [] (by simp)) hP
  obtain ⟨hname, hcases⟩ := mem_rehydrations_cases hr
  have hPname : P r.1 := htexts _ (by simp [Session.texts, hname])
  rcases hcases with ⟨l, hl, htext⟩ | ⟨type, -, htype, htext⟩
  · obtain ⟨front, back, hliterals, -⟩ := lookup_eq_some_iff.1 hl
    rw [htext]
    exact h.replay hPname (htexts l (by simp [Session.texts, hliterals]))
  · have htag : type ∈ session.names.filterMap fun name =>
        (store.typeTag files name).toOption.map TypeTag.text :=
      mem_filterMap.2 ⟨r.1, hname, by rw [htype]; rfl⟩
    rw [htext]
    exact h.decode hPname (htexts type (mem_append_right _ htag))

end Partwise

/-! ### No mark arises -/

/-- The ends of the mark, by their first characters. -/
theorem mark_back_cases {y : Text} (h : y <:+ inputMark) (hy : y ≠ []) (hne : y ≠ inputMark) :
    (∃ u, y = '/' :: ' ' :: u) ∨ (∃ u, y = ' ' :: ':' :: u) ∨
      ∃ c ∈ [':', 'I', 'N', 'P', 'U', 'T'], ∃ u, y = c :: u := by
  have htails : inputMark.tails = [inputMark, ['/', ' ', ':', 'I', 'N', 'P', 'U', 'T'],
      [' ', ':', 'I', 'N', 'P', 'U', 'T'], [':', 'I', 'N', 'P', 'U', 'T'],
      ['I', 'N', 'P', 'U', 'T'],
      ['N', 'P', 'U', 'T'], ['P', 'U', 'T'], ['U', 'T'], ['T'], []] := by
    decide
  have hmem : y ∈ inputMark.tails := (mem_tails _ _).2 h
  rw [htails] at hmem
  simp only [mem_cons, not_mem_nil, or_false, hy, hne, false_or] at hmem
  rcases hmem with hmem | hmem | hmem | hmem | hmem | hmem | hmem | hmem
  · exact .inl ⟨_, hmem⟩
  · exact .inr (.inl ⟨_, hmem⟩)
  all_goals exact .inr (.inr ⟨_, by decide, _, hmem⟩)

/-- A gap begins in the inside of no mark. -/
theorem Divided.parted_inputMark {rows : List Row} {last : Row} (h : Divided t rows last)
    {r : Row} (hr : r ∈ rows ++ [last]) (hbody : r.body ≠ []) : r.Parted inputMark := by
  intro x y rest hxy hx hy hpre
  have hremovable := h.removable r hr
  have hfiller {p : Piece} (hp : p ∈ r.gap) :=
    (h.reads hr (mem_append_right r.body hp)).elim
      fun _ hread => hread.filler_cases (hremovable.fillers p hp)
  have hproper : y ≠ inputMark := by
    rintro rfl
    exact hx (self_eq_append_left.1 hxy)
  obtain ⟨p, gap, hgap⟩ := exists_cons_of_ne_nil (hremovable.ends hbody)
  have hsplit : textOf r.gap ++ rest = p.text ++ (textOf gap ++ rest) := by
    rw [hgap, textOf_cons, append_assoc]
  rw [hsplit] at hpre
  obtain ⟨behind, hrest⟩ := hpre
  have hcases := mark_back_cases ⟨x, hxy.symm⟩ hy hproper
  rcases hfiller (p := p) (by rw [hgap]; exact mem_cons_self) with
    ⟨c, hc, rfl⟩ | hsemi | ⟨c, u, hcomment, hc⟩
  · rcases hcases with ⟨u, rfl⟩ | ⟨u, rfl⟩ | ⟨d, hd, u, rfl⟩
    · obtain ⟨rfl, -⟩ := List.cons.inj hrest
      exact absurd hc (by decide)
    · -- Behind the blank another filler follows, and none begins with a colon.
      obtain ⟨rfl, hrest⟩ := List.cons.inj hrest
      cases gap with
      | nil => exact h.gap_ne_blank hr hbody (by decide) hgap
      | cons q gap =>
        have hcolon : ':' :: (u ++ behind) = q.text ++ (textOf gap ++ rest) := by
          simpa [textOf_cons] using hrest
        rcases hfiller (p := q) (by rw [hgap]; simp) with ⟨e, he,
          rfl⟩ | hsemi | ⟨e, u, htext, -⟩
        · obtain ⟨rfl, -⟩ := List.cons.inj hcolon
          exact absurd he (by decide)
        · rw [hsemi] at hcolon
          exact absurd (List.cons.inj hcolon).1 (by decide)
        · rw [htext] at hcolon
          exact absurd (List.cons.inj hcolon).1 (by decide)
    · obtain ⟨rfl, -⟩ := List.cons.inj hrest
      revert hc
      fin_cases hd <;> decide
  · rw [hsemi] at hrest
    exact Text.apart_cons (by decide) _ y ⟨x, hxy.symm⟩ hy ⟨behind, hrest⟩
  · rw [hcomment] at hrest
    rcases hcases with ⟨v, rfl⟩ | ⟨v, rfl⟩ | ⟨d, hd, v, rfl⟩
    · -- A comment has no blank behind its first slash.
      have hsecond : ' ' = c := (List.cons.inj (List.cons.inj hrest).2).1
      rcases hc with rfl | rfl <;> exact absurd hsecond (by decide)
    · exact absurd (List.cons.inj hrest).1 (by decide)
    · obtain ⟨rfl, -⟩ := List.cons.inj hrest
      revert hd
      decide

/-- The body of an input without a mark holds none. -/
theorem mark_notInfix_body (hsplit : splitDeclarations input = .ok (declarations, body))
    (hinput : ¬inputMark <:+: input) : ¬inputMark <:+: body := by
  obtain ⟨rows, last, h⟩ := exists_divided input
  refine fun hbody => hinput (h.infix_of_infix_body (by decide) (by decide) ?_ hsplit hbody)
  intro r hr hdeclares
  refine h.parted_inputMark hr ?_
  rintro hnil
  rw [hnil] at hdeclares
  cases hdeclares

theorem apart_colon : Text.Apart inputMark [' ', ':'] := by
  have htails : ∀ y ∈ inputMark.tails, y ≠ [] → ¬y <+: [' ', ':'] := by decide
  exact fun y hy => htails y ((mem_tails _ _).2 hy)

theorem partwise_inputMark : Partwise fun t => ¬inputMark <:+: t where
  join := by
    intro c hc a b ha hb
    have hall : separators.all (· ∉ inputMark) = true := by decide
    have hnot : c ∉ inputMark := by simpa using all_eq_true.1 hall c hc
    rw [Text.infix_append_cons hnot, not_or]
    exact ⟨ha, hb⟩
  blank := by
    intro t ht hocc
    rcases infix_cons_iff.1 hocc with hpre | hocc
    · obtain ⟨_, hrest⟩ := hpre
      exact absurd (List.cons.inj hrest).1 (by decide)
    · exact ht hocc
  colon := by
    intro t ht
    rw [apart_colon.infix_append_iff, not_or]
    exact ⟨ht, by decide⟩
  words := by decide

/-! ### What is left of a program -/

/-- The program of an input as it would be without a mark. -/
def unmarkedProgram (session : Session) (store : ValueStore) (files : FileTree)
    (input : Text) :
    Checked Text := do
  let (declarations, body) ← splitDeclarations input
  let again := redeclarations session body
  let body ← Edit.applyAll body (demotions again)
  return programText (Declaration.merge session.declarations declarations)
    (rehydrationLines session store files (skippedNames again)) body.trim

/-- Every input has a program, whose blocks come from the session and the input. -/
theorem exists_assembled (session : Session) (store : ValueStore) (files : FileTree)
    (input : Text) :
    ∃ declarations body edited skipped, splitDeclarations input = .ok (declarations, body) ∧
      Demoted body edited ∧
      assemble session store files input =
        .ok ⟨ended (programBlocks (Declaration.merge session.declarations declarations)
          ((rehydrations session store files skipped).map Prod.snd)
          (edited.trim ++ (" " ++ inputMark))), declarations⟩ ∧
      unmarkedProgram session store files input =
        .ok (ended (programBlocks (Declaration.merge session.declarations declarations)
          ((rehydrations session store files skipped).map Prod.snd) edited.trim)) := by
  obtain ⟨rows, last, hrows⟩ := exists_divided input
  obtain ⟨declarations, body, hsplit, -, -⟩ := hrows.splitDeclarations
  obtain ⟨edited, happly, hdemoted⟩ := demoted_applyAll session body
  refine ⟨declarations, body, edited, skippedNames (redeclarations session body),
    hsplit, hdemoted, ?_, ?_⟩
  · rw [← programText_eq_ended, ← append_assoc]
    simp only [assemble_eq, hsplit, happly, bind, Except.bind, rehydrationLines,
      flatMap_map]
    rfl
  · rw [← programText_eq_ended]
    simp only [unmarkedProgram, hsplit, happly, bind, Except.bind, rehydrationLines,
      flatMap_map]
    rfl

/-- What holds of all parts of a program's lead. -/
theorem forall_mem_leadBlocks {P : Text → Prop} {ds : List Declaration} {lines : List Text}
    (hpackage : P packageLine) (hnil : P []) (hopening : P entryOpening)
    (hds : ∀ d ∈ ds, P (Text.trim d.source)) (hlines : ∀ l ∈ lines, P ('\t' :: l)) :
    ∀ t ∈ leadBlocks ds lines, P t := by
  intro t ht
  simp only [leadBlocks, mem_cons, mem_append, mem_flatMap, mem_map,
    not_mem_nil, or_false] at ht
  rcases ht with rfl | rfl | ⟨d, hd, rfl | rfl⟩ | rfl | ⟨l, hl, rfl⟩
  · exact hpackage
  · exact hnil
  · exact hds d (Declaration.mem_importsFirst.1 hd)
  · exact hnil
  · exact hopening
  · exact hlines l hl

/-- The program of an input holds no mark if neither the session nor the input does. -/
theorem mark_notInfix_unmarked {edited : Text}
    (hsplit : splitDeclarations input = .ok (declarations, body))
    (hdemoted : Demoted body edited)
    (hsession : ∀ t ∈ session.texts store files, ¬inputMark <:+: t)
    (hinput : ¬inputMark <:+: input) :
    ¬inputMark <:+: ended (programBlocks (Declaration.merge session.declarations declarations)
      ((rehydrations session store files skipped).map Prod.snd) edited.trim) := by
  rw [infix_ended (by decide) (by decide)]
  rintro ⟨t, ht, hmark⟩
  rcases mem_append.1 ht with ht | ht
  · refine forall_mem_leadBlocks (P := fun t => ¬inputMark <:+: t) (by decide) (by decide)
      (by decide) ?_ ?_ t ht hmark
    · intro d hd htrim
      have hsource : inputMark <:+: d.source := htrim.trans Text.infix_trim
      rcases Declaration.mem_merge hd with hd | hd
      · exact hsession d.source (Session.source_mem_texts hd) hsource
      · exact hinput (hsource.trans (infix_of_mem_declarations hsplit hd))
    · intro l hl
      obtain ⟨r, hr, rfl⟩ := mem_map.1 hl
      exact partwise_inputMark.rehydration hsession hr
  · simp only [mem_cons, not_mem_nil, or_false] at ht
    rcases ht with rfl | rfl
    · have htrim : inputMark <:+: edited.trim := by
        rcases infix_cons_iff.1 hmark with hpre | hocc
        · obtain ⟨_, hrest⟩ := hpre
          exact absurd (List.cons.inj hrest).1 (by decide)
        · exact hocc
      have hbody := hdemoted.infix_left (by decide) (htrim.trans Text.infix_trim)
      exact mark_notInfix_body hsplit hinput hbody
    · exact absurd hmark (by decide)

/-- **What `stripMark` leaves of a program.**  For every input `assemble` has a program, and
`stripMark` leaves of it what it leaves of `unmarkedProgram`, the same program without a mark
of its own.  That is `unmarkedProgram` itself exactly if `inputMark` does not occur in it, and
it does not if neither the texts of the session nor the input hold it. -/
theorem stripMark_assemble (session : Session) (store : ValueStore) (files : FileTree)
    (input : Text) :
    ∃ made unmarked, assemble session store files input = .ok made ∧
      unmarkedProgram session store files input = .ok unmarked ∧
      stripMark made.program = stripMark unmarked ∧
      (stripMark made.program = unmarked ↔ ¬inputMark <:+: unmarked) ∧
      ((∀ t ∈ session.texts store files, ¬inputMark <:+: t) → ¬inputMark <:+: input →
        stripMark made.program = unmarked) := by
  obtain ⟨declarations, body, edited, skipped, hsplit, hdemoted, hmade, hunmarked⟩ :=
    exists_assembled session store files input
  have hstrip (ds : List Declaration) (lines : List Text) :
      stripMark (ended (programBlocks ds lines (edited.trim ++ (" " ++ inputMark)))) =
        stripMark (ended (programBlocks ds lines edited.trim)) := by
    have hblock : stripMark ('\t' :: (edited.trim ++ (" " ++ inputMark))) =
        stripMark ('\t' :: edited.trim) := stripMark_append_mark ('\t' :: edited.trim)
    simp only [stripMark_ended, programBlocks, map_append, map_cons, hblock]
  refine ⟨_, _, hmade, hunmarked, hstrip _ _, ?_, fun hsession hinput => ?_⟩
  · rw [hstrip, stripMark_eq_self_iff]
  · rw [hstrip, stripMark_eq_self_iff]
    exact mark_notInfix_unmarked hsplit hdemoted hsession hinput

/-- A literal, a stored value, a declaration and a comment come back whole. -/
theorem stripMark_assemble_plain :
    let session : Session := ⟨["f", "x"], [("f", "func() int \x7b return 1 \x7d")],
      [⟨.typeDecl, "T", "type T struct\x7b\x7d // : INPUT"⟩]⟩
    let input : Text := "func g() \x7b\x7d\nx := f() // /: INPUT"
    (∀ t ∈ session.texts ⟨"/s"⟩ numberStore, ¬inputMark <:+: t) ∧ ¬inputMark <:+: input ∧
      ∃ made unmarked, assemble session ⟨"/s"⟩ numberStore input = .ok made ∧
        unmarkedProgram session ⟨"/s"⟩ numberStore input = .ok unmarked ∧
        stripMark made.program = unmarked := by
  intro session input
  have hsession : ∀ t ∈ session.texts ⟨"/s"⟩ numberStore, ¬inputMark <:+: t := by
    decide +kernel
  have hinput : ¬inputMark <:+: input := by decide
  obtain ⟨made, unmarked, hmade, hunmarked, -, -, hfree⟩ :=
    stripMark_assemble session ⟨"/s"⟩ numberStore input
  exact ⟨hsession, hinput, made, unmarked, hmade, hunmarked, hfree hsession hinput⟩

/-- A mark inside a string is taken out of the string. -/
theorem stripMark_string :
    let input : Text := "s := \"a // :INPUT b\""
    (assemble .empty ⟨"/s"⟩ numberStore input).map (fun made => stripMark made.program) =
        .ok "package main\n\nfunc main() \x7b\n\ts := \"a b\"\n\x7d\n".toList ∧
      unmarkedProgram .empty ⟨"/s"⟩ numberStore input =
        .ok "package main\n\nfunc main() \x7b\n\ts := \"a // :INPUT b\"\n\x7d\n".toList := by
  decide +kernel

end Notebook
