import Notebook.Proofs.DeclarationRouting
import Notebook.Proofs.FirstWrites
import Notebook.Proofs.Marks
import Notebook.Proofs.Splices

/-!
# What assembly leaves of the text of an input

Before an input stands in a program two things are done to it: its declarations are taken out,
and some of its `:=` become `=`.  Neither puts two texts side by side that could make a third
together.  What stands behind a declaration is a gap, and a gap begins with a blank, a
semicolon or a comment; and where a sign was changed there is an `=` now.

## Main statements

* `demoted_applyAll`: what turning declarations into assignments does to a text
* `Row.infix_undeclared`: what occurs in a text without its declarations occurs in the text
* `Divided.splitDeclarations`: the declarations and the body of an input, row by row
-/

namespace Notebook

open Lexer List

variable {declarations : List Declaration} {p : Piece} {a b body front needle rest t : Text}

/-! ### Signs that have changed -/

/-- A text, and the same with some `:=` turned into `=`. -/
inductive Demoted : Text → Text → Prop where
  | nil : Demoted [] []
  | keep (c : Char) {t r : Text} (h : Demoted t r) : Demoted (c :: t) (c :: r)
  | demote {t r : Text} (h : Demoted t r) : Demoted (':' :: '=' :: t) ('=' :: r)

namespace Demoted

variable {r : Text}

theorem refl (t : Text) : Demoted t t := by
  induction t with
  | nil => exact .nil
  | cons c t ih => exact .keep c ih

theorem append_left (a : Text) (h : Demoted t r) : Demoted (a ++ t) (a ++ r) := by
  induction a with
  | nil => exact h
  | cons c a ih => exact .keep c ih

/-- A text that another begins with begins the other as it was, if no sign is in it. -/
theorem prefix_left {x : Text} (hx : '=' ∉ x) (h : Demoted t r) (hr : x <+: r) : x <+: t := by
  induction h generalizing x with
  | nil => exact hr
  | keep c h ih =>
    rcases prefix_cons_iff.1 hr with rfl | ⟨y, rfl, hy⟩
    · exact List.nil_prefix
    · rw [mem_cons, not_or] at hx
      exact prefix_cons_iff.2 (.inr ⟨y, rfl, ih hx.2 hy⟩)
  | demote h ih =>
    rcases prefix_cons_iff.1 hr with rfl | ⟨y, rfl, hy⟩
    · exact List.nil_prefix
    · exact absurd mem_cons_self hx

/-- No text without the sign comes to occur. -/
theorem infix_left (hneedle : '=' ∉ needle) (h : Demoted t r) (hr : needle <:+: r) :
    needle <:+: t := by
  induction h with
  | nil => exact hr
  | keep c h ih =>
    rcases infix_cons_iff.1 hr with hpre | hocc
    · exact (prefix_left hneedle (.keep c h) hpre).isInfix
    · exact infix_cons (ih hocc)
  | demote h ih =>
    rcases infix_cons_iff.1 hr with hpre | hocc
    · exact (prefix_left hneedle (.demote h) hpre).isInfix
    · exact infix_cons (infix_cons (ih hocc))

/-- A text is changed part by part, as long as no sign lies across the cut. -/
theorem exists_of_append (h : Demoted (a ++ b) r) (hb : b.head? ≠ some '=') :
    ∃ a' b', r = a' ++ b' ∧ Demoted a a' ∧ Demoted b b' := by
  induction a generalizing r with
  | nil => exact ⟨[], r, rfl, .nil, h⟩
  | cons c a ih =>
    generalize ht : c :: a ++ b = t at h
    cases h with
    | nil => cases ht
    | keep d h =>
      obtain ⟨rfl, rfl⟩ := List.cons.inj ht
      obtain ⟨a', b', rfl, ha, hb'⟩ := ih h
      exact ⟨c :: a', b', rfl, .keep c ha, hb'⟩
    | @demote u r h =>
      obtain ⟨rfl, hab⟩ := List.cons.inj ht
      cases a with
      | nil =>
        obtain rfl : b = '=' :: u := hab
        exact absurd rfl hb
      | cons d a =>
        obtain ⟨rfl, rfl⟩ := List.cons.inj hab
        obtain ⟨a', b', hr, ha, hb'⟩ := ih (r := '=' :: r) (.keep '=' h)
        -- The sign itself is in the front part, whose first character is kept in the
        -- induction.
        generalize hda : '=' :: a = t at ha
        cases ha with
        | nil => cases hda
        | keep _ ha =>
          obtain ⟨rfl, rfl⟩ := List.cons.inj hda
          exact ⟨_, b', hr, .demote ha, hb'⟩
        | demote => cases hda

/-- A front without a colon is not changed. -/
theorem exists_append_of_notMem (h : Demoted (a ++ b) r) (ha : ':' ∉ a) :
    ∃ b', r = a ++ b' ∧ Demoted b b' := by
  induction a generalizing r with
  | nil => exact ⟨r, rfl, h⟩
  | cons c a ih =>
    rw [mem_cons, not_or] at ha
    generalize ht : c :: a ++ b = t at h
    cases h with
    | nil => cases ht
    | keep d h =>
      obtain ⟨rfl, rfl⟩ := List.cons.inj ht
      obtain ⟨b', rfl, hb⟩ := ih h ha.2
      exact ⟨b', rfl, hb⟩
    | demote h => exact absurd (List.cons.inj ht).1.symm ha.1

/-- The last character is not changed. -/
theorem getLast?_eq (h : Demoted t r) : r.getLast? = t.getLast? := by
  induction h with
  | nil => rfl
  | keep c h ih => rw [getLast?_cons, getLast?_cons, ih]
  | demote h ih => simp only [getLast?_cons, ih, Option.getD_some]

end Demoted

/-- Two fronts of a text of one size are the same. -/
theorem Text.append_inj_of_byteSize {c d : Text} (h : a ++ b = c ++ d)
    (hsize : Text.byteSize a = Text.byteSize c) : a = c ∧ b = d := by
  have hab : cutAt? (c ++ d) c.byteSize = some (a, b) := cutAt?_eq_some_iff.2 ⟨h.symm, hsize⟩
  rw [cutAt?_eq_some_iff.2 ⟨rfl, rfl⟩] at hab
  exact Prod.mk.inj (Option.some.inj hab.symm)

theorem Span.exists_of_slice {sp : Span} {r : Text} (h : sp.slice t = .ok r) :
    ∃ a c, t = a ++ r ++ c ∧ sp.start = a.byteSize ∧ sp.stop = a.byteSize + r.byteSize := by
  unfold slice at h
  cases hcut : sp.cut t with
  | error err =>
    rw [hcut] at h
    cases h
  | ok p =>
    rw [hcut] at h
    cases h
    exact ⟨p.1, p.2.2, cut_eq_ok_iff.1 hcut⟩

/-- An edit that turns the `:=` in its span into `=`. -/
structure Edit.Demotes (e : Edit) (t : Text) : Prop where
  old : e.span.slice t = .ok [':', '=']
  new : e.text = ['=']

/-- Edits of signs, spliced into what stands behind an offset. -/
theorem demoted_spliceFrom {edits : List Edit} (ht : t = front ++ rest)
    (hedits : ∀ e ∈ edits, e.Demotes t) {r : Text}
    (h : Edit.spliceFrom t front.byteSize edits = .ok r) : Demoted rest r := by
  induction edits generalizing front rest r with
  | nil =>
    obtain ⟨a, c, htext, hstart, hstop⟩ := Span.exists_of_slice h
    rw [ht, append_assoc] at htext
    obtain ⟨rfl, rfl⟩ := Text.append_inj_of_byteSize htext hstart
    have hc : c = [] := Text.byteSize_eq_zero.1 (by
      simp only [ht, Text.byteSize_append] at hstop
      omega)
    rw [hc, append_nil]
    exact .refl r
  | cons e es ih =>
    obtain ⟨untouched, huntouched, h⟩ := Checked.bind_eq_ok.1 h
    obtain ⟨behind, hbehind, h⟩ := Checked.bind_eq_ok.1 h
    cases h
    obtain ⟨hold, hnew⟩ := hedits e mem_cons_self
    -- What is copied begins at the offset, and the sign stands right behind it.
    obtain ⟨a, c, htext, hstart, hstop⟩ := Span.exists_of_slice huntouched
    obtain ⟨b, d, hsign, hsignStart, hsignStop⟩ := Span.exists_of_slice hold
    have hfront := htext
    rw [ht, append_assoc] at hfront
    obtain ⟨rfl, rfl⟩ := Text.append_inj_of_byteSize hfront hstart
    rw [htext, append_assoc b] at hsign
    obtain ⟨rfl, rfl⟩ := Text.append_inj_of_byteSize hsign (by
      rw [Text.byteSize_append, ← hsignStart]
      exact hstop.symm)
    have hsize : (front ++ untouched ++ [':', '=']).byteSize = e.span.stop := by
      rw [hsignStop, Text.byteSize_append]
    rw [← hsize] at hbehind
    have hes := ih (by rw [htext, append_assoc _ [':', '=']])
      (fun f hf => hedits f (mem_cons_of_mem e hf)) hbehind
    rw [hnew, append_assoc]
    exact (Demoted.demote hes).append_left untouched

theorem lexeme_of_define {k : Token} (hk : k ∈ tokenize t) (h : k.kind = .define) :
    k.lexeme = [':', '='] := by
  rcases exists_piece_of_mem_tokensOf hk with ⟨-, hsemi | heof⟩ | ⟨p, hp, hkind, htext⟩
  · cases h.symm.trans hsemi
  · cases h.symm.trans heof
  · rw [h] at hkind
    obtain ⟨front, back, hpieces⟩ := append_of_mem hp
    have hlexed := lexed_pieces t
    rw [hpieces] at hlexed
    have hread := (lexed_cons.1 hlexed.right).1
    have hclosed : p.isClosed = true := by
      unfold Piece.isClosed
      rw [hkind]
    rw [← htext, eq_definePiece (spelled_of_reads hread hclosed) hkind]
    rfl

/-- The edit of a redeclaration turns a sign of the input into another. -/
theorem demotes_of_mem_demotions {session : Session} {body : Text} {e : Edit}
    (he : e ∈ demotions (redeclarations session body)) : e.Demotes body := by
  obtain ⟨r, hr, hdemotion⟩ := mem_demotions he
  obtain ⟨st, -, hst⟩ := mem_filterMap.1 hr
  simp only [Redeclaration.ofStatement?, Redeclaration.ofBindings?] at hst
  split at hst
  · cases hst
  · cases hst
    simp only at hdemotion
    split at hdemotion
    · obtain ⟨k, hk, rfl⟩ := Option.map_eq_some_iff.1 hdemotion
      have hmem : k ∈ (Source.ofText body).tokens :=
        ((Source.ofText body).segment_sublist _ _).subset (mem_of_find?_eq_some hk)
      have hlexeme : k.lexeme = [':', '='] :=
        lexeme_of_define hmem (by simpa using find?_some hk)
      obtain ⟨a, b, htext, hpos⟩ := (Source.ofText body).placed.standsIn k hmem
      rw [hlexeme] at htext
      have hcut : Span.cut ⟨k.pos, k.stop⟩ body = .ok (a, [':', '='], b) :=
        Span.cut_eq_ok_iff.2 ⟨htext, hpos.symm, by rw [hpos, Token.stop, Token.size, hlexeme]⟩
      refine ⟨?_, rfl⟩
      rw [Span.slice, hcut]
      rfl
    · cases hdemotion

/-- Declarations are turned into assignments: some signs of the input change, and nothing
else. -/
theorem demoted_applyAll (session : Session) (body : Text) :
    ∃ r, Edit.applyAll body (demotions (redeclarations session body)) = .ok r ∧
      Demoted body r := by
  have hfit := demotions_fit session body
  have hdemotes := @demotes_of_mem_demotions session body
  have hspans : ((demotions (redeclarations session body)).map (·.span)).Nodup := by
    refine pairwise_map.2 (hfit.disjoint.imp_of_mem fun {a b} ha _ hab heq => ?_)
    -- A sign is not empty, so no span is disjoint from itself.
    obtain ⟨_, _, -, hstart, hstop⟩ := Span.exists_of_slice (hdemotes ha).old
    have hsize : Text.byteSize [':', '='] = 2 := rfl
    rw [← heq] at hab
    rcases hab with hab | hab <;> omega
  obtain ⟨r, hsplice, happly⟩ := Edit.applyAll_eq_splice hfit hspans
  refine ⟨r, happly _ (List.Perm.refl _),
    demoted_spliceFrom (nil_append body).symm ?_ hsplice⟩
  exact fun e he => hdemotes ((Edit.inOrder_perm _).mem_iff.1 he)

/-! ### Declarations that are taken out -/

namespace Row

/-- The gap of a row begins in the inside of no occurrence of a text. -/
def Parted (needle : Text) (r : Row) : Prop :=
  ∀ x y rest : Text, needle = x ++ y → x ≠ [] → y ≠ [] → ¬y <+: textOf r.gap ++ rest

/-- What occurs in a text without its declarations occurs in the text. -/
theorem infix_undeclared {rows : List Row}
    (h : ∀ r ∈ rows, declares r.body = true → r.Parted needle) {back : Text}
    (hocc : needle <:+: front ++ (textOf (flatten (rows.map undeclared)) ++ back)) :
    needle <:+: front ++ (textOf (flatten rows) ++ back) := by
  induction rows generalizing front with
  | nil => exact hocc
  | cons r rs ih =>
    have hrs : ∀ q ∈ rs, declares q.body = true → q.Parted needle := fun q hq =>
      h q (mem_cons_of_mem r hq)
    rw [map_cons, flatten_cons, textOf_append, append_assoc] at hocc
    rw [flatten_cons, textOf_append, append_assoc]
    cases hdeclares : declares r.body with
    | false =>
      rw [undeclared_eq hdeclares, ← append_assoc] at hocc
      rw [← append_assoc]
      exact ih hrs hocc
    | true =>
      have hgap : textOf r.undeclared.pieces = textOf r.gap := by
        rw [undeclared, hdeclares, if_pos rfl, pieces, nil_append]
      rw [hgap] at hocc
      rw [pieces, textOf_append, append_assoc]
      -- An occurrence lies in front of the declaration or behind it, but not across.
      have hfront : needle <:+: front → needle <:+: front ++
          (textOf r.body ++ (textOf r.gap ++ (textOf (flatten rs) ++ back))) :=
        infix_append_of_infix_left
      have hback : needle <:+: textOf r.gap ++
        (textOf (flatten (rs.map undeclared)) ++ back) →
          needle <:+: front ++
            (textOf r.body ++ (textOf r.gap ++ (textOf (flatten rs) ++ back))) := fun hback =>
        infix_append_of_infix_right (infix_append_of_infix_right (ih hrs hback))
      rcases List.infix_append_iff.1 hocc with hin | hin | ⟨x, y, hxy, hx, hy⟩
      · exact hfront hin
      · exact hback hin
      · by_cases hxnil : x = []
        · rw [hxnil, nil_append] at hxy
          exact hback (hxy ▸ hy.isInfix)
        · by_cases hynil : y = []
          · rw [hynil, append_nil] at hxy
            exact hfront (hxy ▸ hx.isInfix)
          · exact absurd hy (h r mem_cons_self hdeclares x y _ hxy hxnil hynil)

end Row

/-- A written semicolon is spelled in one way. -/
theorem Lexer.Spelled.text_of_semi (h : Spelled p) (hk : p.kind = .token .semi) :
    p.text = [';'] := by
  have hmarks : ∀ e ∈ markKinds, e.2 = .semi → e.1.toList = [';'] := by decide
  obtain ⟨e, he, hkind, htext⟩ := h.exists_markKind hk (by decide)
  exact htext.symm.trans (hmarks e he hkind)

/-- How a filler begins, whether it has an end or not. -/
theorem Lexer.Reads.filler_cases (h : Reads p rest) (hfiller : p.isFiller = true) :
    (∃ c, isBlank c = true ∧ p = ⟨.blank, [c]⟩) ∨ p.text = [';'] ∨
      ∃ c t, p.text = '/' :: c :: t ∧ (c = '/' ∨ c = '*') := by
  cases hkind : p.kind with
  | token k =>
    obtain rfl : k = .semi := by simpa [Piece.isFiller, hkind] using hfiller
    have hclosed : p.isClosed = true := by
      unfold Piece.isClosed
      rw [hkind]
    exact .inr (.inl ((spelled_of_reads h hclosed).text_of_semi hkind))
  | blank =>
    rcases spelled_or_unclosed h with hspelled | hunclosed
    · cases hspelled with
      | blank hc => exact .inl ⟨_, hc, rfl⟩
      | _ => cases hkind
    · cases hunclosed <;> cases hkind
  | comment =>
    rcases spelled_or_unclosed h with hspelled | hunclosed
    · cases hspelled with
      | line => exact .inr (.inr ⟨_, _, rfl, .inl rfl⟩)
      | block => exact .inr (.inr ⟨_, _, rfl, .inr rfl⟩)
      | _ => cases hkind
    · cases hunclosed with
      | block => exact .inr (.inr ⟨_, _, rfl, .inr rfl⟩)
      | quoted => cases hkind

/-! ### The rows of an input -/

namespace Divided

variable {rows : List Row} {last : Row}

theorem removable (h : Divided t rows last) : ∀ r ∈ rows ++ [last], r.Removable := by
  intro r hr
  rcases mem_append.1 hr with hr | hr
  · exact (h.splitsOff r hr).removable
  · rw [mem_singleton.1 hr]
    exact h.unended.removable

/-- The pieces of rows are read from the text and a line end behind it. -/
theorem reads (h : Divided t rows last) {r : Row} (hr : r ∈ rows ++ [last])
    (hp : p ∈ r.pieces) : ∃ rest, Reads p rest := by
  have hmem : p ∈ Lexer.pieces t ++ [lineEnd] := by
    rw [← h.flatten]
    exact mem_flatMap.2 ⟨r, hr, hp⟩
  rcases mem_append.1 hmem with hmem | hmem
  · obtain ⟨front, back, hpieces⟩ := append_of_mem hmem
    have hlexed := lexed_pieces t
    rw [hpieces] at hlexed
    exact ⟨_, (lexed_cons.1 hlexed.right).1⟩
  · rw [mem_singleton.1 hmem]
    exact ⟨[], reads_blank (by decide) []⟩

/-- The gap behind a statement is more than one blank that ends no line. -/
theorem gap_ne_blank (h : Divided t rows last) {r : Row} (hr : r ∈ rows ++ [last])
    (hne : r.body ≠ []) {c : Char} (hc : c ≠ '\n') : r.gap ≠ [⟨.blank, [c]⟩] := by
  intro hgap
  rcases mem_append.1 hr with hr | hr
  · have hkinds := (((h.splitsOff r hr).body).resolve_left hne).2
    rw [hgap] at hkinds
    refine hkinds ?_
    simp [kinds, Piece.emittedKinds, Piece.endsLine, Ne.symm hc]
  · -- The last gap ends in the line end behind the text.
    obtain rfl := mem_singleton.1 hr
    have hlast := congrArg List.getLast? h.flatten
    rw [getLast?_concat, Row.flatten_append, Row.flatten_cons, Row.flatten_nil,
      append_nil, Row.pieces, hgap, ← append_assoc, getLast?_concat] at hlast
    exact hc (head_eq_of_cons_eq (Piece.mk.inj (Option.some.inj hlast)).2)

/-- The declarations of an input have the texts of rows, and in the body the gaps behind them
stay. -/
theorem splitDeclarations (h : Divided t rows last) :
    ∃ declarations body, Notebook.splitDeclarations t = .ok (declarations, body) ∧
      declarations.map (·.source) =
        ((Row.bodies (rows ++ [last])).filter declares).map textOf ∧
      body ++ ['\n'] = textOf (Row.flatten ((rows ++ [last]).map Row.undeclared)) := by
  obtain ⟨body, hbody, hsplit⟩ := splitDeclarations_eq t
  refine ⟨_, body, hsplit, ?_, ?_⟩
  · have hpairs := congrArg₂ List.zip h.map_textAt h.map_isPackageLevel
    rw [zip_map', zip_map'] at hpairs
    have hothers := congrArg (fun l => (l.filter fun q => q.2).map Prod.fst) hpairs
    rw [Source.map_source_declared?]
    simpa [filter_map, Function.comp_def] using hothers
  · rw [← (h.undeclared hbody).textOf_flatten, map_append]
    rfl

/-- A text that no gap parts occurs in the body of an input only if it occurs in the input. -/
theorem infix_of_infix_body (h : Divided t rows last) (hne : needle ≠ [])
    (hline : '\n' ∉ needle)
    (hparted : ∀ r ∈ rows ++ [last], declares r.body = true → r.Parted needle)
    (hsplit : Notebook.splitDeclarations t = .ok (declarations, body))
    (hbody : needle <:+: body) : needle <:+: t := by
  obtain ⟨declarations', body', hsplit', -, htext⟩ := h.splitDeclarations
  cases hsplit.symm.trans hsplit'
  have hrows : needle <:+: textOf (Row.flatten ((rows ++ [last]).map Row.undeclared)) :=
    htext ▸ infix_append_of_infix_left hbody
  rw [← nil_append (textOf _), ← append_nil (textOf _)] at hrows
  have hinput := Row.infix_undeclared hparted hrows
  rw [nil_append, append_nil, h.textOf_flatten,
    Text.infix_append_cons hline] at hinput
  exact hinput.resolve_right fun hnil => hne (eq_nil_of_infix_nil hnil)

end Divided

/-- A declaration is a part of the input. -/
theorem infix_of_mem_declarations {input : Text}
    (h : splitDeclarations input = .ok (declarations, body)) {d : Declaration}
    (hd : d ∈ declarations) : d.source <:+: input := by
  obtain ⟨body', -, hsplit⟩ := splitDeclarations_eq input
  cases h.symm.trans hsplit
  obtain ⟨st, hst, hdeclared⟩ := mem_filterMap.1 hd
  obtain ⟨i, -, rfl⟩ := Option.map_eq_some_iff.1 hdeclared
  obtain ⟨a, c, htext, -, -⟩ := Span.exists_of_slice (Source.statementText_eq hst)
  exact ⟨a, c, htext.symm⟩

end Notebook
