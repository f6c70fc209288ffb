import Mathlib.Data.List.TakeDrop
import Notebook.Proofs.Lines
import Notebook.Proofs.Redeclarations

/-!
# The rows of an input

On its way into the program an input is edited twice: package-level declarations are taken out
of it, and some of its `:=` become `=`.  Both edits work on rows.  A declaration that is taken
out leaves the gap behind it, and what is left of the input is made of the other rows.

## Main statements

* `splitDeclarations_rows`: the rows of an input without its declarations
* `demotions_rows`: the rows of an input whose redeclarations have become assignments
-/

namespace Notebook

open Lexer List

variable {body : List Piece} {rows : List Row} {i : Nat} {here : Position} {r : Row}
  {session : Session} {s : Source} {st : Statement} {input : Text}

/-- The rows of a text and of a line end behind it. -/
structure RowsOf (t : Text) (rows : List Row) : Prop where
  sound : ∀ r ∈ rows, r.Sound
  flatten : Row.flatten rows = Lexer.pieces t ++ [lineEnd]
  closed : LexicallyClosed t

/-- A row that holds a statement, and the place of the statement. -/
theorem Row.of_mem_paired {p : Statement × Row} (h : p ∈ paired i here rows) :
    p.2 ∈ rows ∧ p.2.body ≠ [] ∧
      p.1.span.stop = p.1.span.start + Text.byteSize (textOf p.2.body) := by
  induction rows generalizing i here with
  | nil => cases h
  | cons r rs ih =>
    rcases mem_append.1 h with h | h
    · obtain ⟨st, hst, rfl⟩ := mem_map.1 h
      unfold statementAt at hst
      split at hst
      · cases hst
      next hne =>
        rw [mem_singleton.1 hst]
        exact ⟨mem_cons_self, hne, rfl⟩
    · obtain ⟨hmem, hrest⟩ := ih h
      exact ⟨mem_cons_of_mem r hmem, hrest⟩

namespace RowsOf

variable {t : Text}

theorem laid (h : RowsOf t rows) : Laid (t ++ ['\n']) (Row.bodies rows) :=
  ⟨rows, h.sound, by rw [h.flatten, pieces_append_lineFeed h.closed], rfl⟩

theorem statements (h : RowsOf t rows) :
    (Source.ofText t).statements = (Row.paired 0 .start rows).map Prod.fst := by
  rw [Source.statements_eq_split, ← h.flatten,
    Source.split_rows_nil (Row.ended_of_sound h.sound), Row.map_fst_paired]

theorem spells (h : RowsOf t rows) :
    ∀ p ∈ Row.paired 0 .start rows, p.1.Spells (.ofText t) p.2.body := by
  have hspells := h.laid.statements h.closed
  rw [h.statements, Row.map_fst_paired] at hspells
  exact Row.forall_paired_of_forall₂ hspells

/-- Rows whose text is known. -/
theorem of_textOf (hrows : ∀ r ∈ rows, r.Sound)
    (htext : textOf (Row.flatten rows) = t ++ ['\n']) :
    RowsOf t rows := by
  have hpieces : Row.flatten rows = Lexer.pieces (t ++ ['\n']) := by
    rw [← htext]
    exact (Row.lexed_flatten (Row.ended_of_sound hrows)).symm
  have hclosed : LexicallyClosed t := by
    refine lexicallyClosed_of_lineFeed fun p hp => ?_
    rw [← hpieces] at hp
    exact Row.closed_flatten hrows p hp
  exact ⟨hrows, by rw [hpieces, pieces_append_lineFeed hclosed], hclosed⟩

/-- The rows of a text whose statements are edited. -/
theorem edited (h : RowsOf t rows) {g : Statement → Row → Row} {E : Statement → List Edit}
    (hturns : ∀ p ∈ Row.paired 0 .start rows, Turns (E p.1) p.1 p.2 (g p.1 p.2)) {r : Text}
    (hr : Edit.applyAll t ((Source.ofText t).statements.flatMap E) = .ok r) :
    RowsOf r (Row.remap g 0 .start rows) := by
  obtain ⟨hsound, htext⟩ := applyAll_laid h.sound h.flatten hturns (List.Perm.refl _) hr
  exact of_textOf hsound htext

end RowsOf

/-- A complete text has rows. -/
theorem exists_rowsOf {t : Text} (hclosed : LexicallyClosed t) (hbalanced : Balanced t)
    (hterminated : Terminated t) : ∃ rows, RowsOf t rows := by
  obtain ⟨bodies, rows, hrows, hflat, -⟩ := exists_laid hclosed hbalanced hterminated
  exact ⟨rows, hrows, by rw [hflat, pieces_append_lineFeed hclosed], hclosed⟩

/-- The tokens of a statement are those of the pieces that spell it. -/
theorem Statement.Spells.tokensOf_eq (h : st.Spells s body) :
    ∃ here, s.tokensOf st = scan here false body ∧
      st.span = ⟨here.offset, here.offset + Text.byteSize (textOf body)⟩ := by
  obtain ⟨here, semi, rest, htokens, -, hspan⟩ := h.tokens
  refine ⟨here, ?_, hspan⟩
  rw [Source.tokensOf, Source.segment, htokens, h.last, Nat.add_sub_cancel_left,
    ← length_scan here, take_left]

/-- The kinds of the tokens from the first of a statement up to the semicolon behind it. -/
theorem Statement.Spells.kindAt_eq (h : st.Spells s body)
    (hi : i ≤ (kinds false body).length) :
    s.kindAt (st.first + i) = (kinds false body)[i]?.getD .semi := by
  obtain ⟨here, semi, rest, htokens, hsemi, -⟩ := h.tokens
  have hget := congrArg (fun l => (l.map Token.kind)[i]?) htokens
  rw [map_append, map_kind_scan, map_cons, hsemi] at hget
  simp only [getElem?_map, getElem?_drop] at hget
  rw [Source.kindAt, hget]
  rcases Nat.lt_or_eq_of_le hi with hlt | rfl
  · rw [getElem?_append_left hlt, getElem?_eq_getElem hlt]
    rfl
  · rw [getElem?_append_right (Nat.le_refl _), getElem?_eq_none (Nat.le_refl _),
      Nat.sub_self]
    rfl

/-- The kind of the last token of a statement. -/
theorem Statement.Spells.kindAt_last (h : st.Spells s body) :
    (kinds false body).getLast? = some (s.kindAt st.last) := by
  have hlast := h.last
  obtain ⟨a, ts, -, hscan, -⟩ := h.isStatement.scan_eq .start
  have hcount : (kinds false body).length = ts.length + 1 := by
    rw [← length_scan .start, hscan, length_cons]
  have hkind := h.kindAt_eq (i := ts.length) (by omega)
  rw [show st.first + ts.length = st.last by omega] at hkind
  rw [hkind, getLast?_eq_getElem?, hcount, Nat.add_sub_cancel,
    getElem?_eq_getElem (by omega)]
  rfl

/-! ### Declarations are taken out -/

/-- Whether a statement is a package-level declaration. -/
def Source.isPackageLevel (s : Source) (st : Statement) : Bool :=
  (Declaration.identify? s st []).isSome

/-- What is declared does not depend on the text under which it is kept. -/
theorem Declaration.isSome_identify? (s : Source) (st : Statement) (source : Text) :
    (identify? s st source).isSome = s.isPackageLevel st := by
  unfold Source.isPackageLevel identify?
  split
  · rfl
  · split <;> rfl

/-- A row without its statement. -/
theorem Row.Sound.emptied (h : r.Sound) : Row.Sound ⟨[], r.gap⟩ where
  lexed := by
    have := h.lexed
    rw [Row.pieces] at this
    exact this.right
  closed := fun p hp => h.closed p (mem_append_right _ hp)
  fillers := h.fillers
  solid := h.solid
  body := .inl rfl

/-- Replacing a statement and a part of the gap behind it. -/
theorem turns_replaced {p : Statement × Row} (hp : p ∈ Row.paired i here rows)
    (hrows : ∀ r ∈ rows, r.Sound) {gone kept : List Piece} (hgap : p.2.gap = gone ++ kept)
    {new : Text} (hr : r.Sound) (htext : textOf r.pieces = new ++ textOf kept) :
    Turns [⟨⟨p.1.span.start, p.1.span.stop + Text.byteSize (textOf gone)⟩, new⟩]
      p.1 p.2 r := by
  obtain ⟨hmem, hne, hstop⟩ := Row.of_mem_paired hp
  have hlexed := (hrows p.2 hmem).lexed
  rw [Row.pieces] at hlexed
  exact ⟨patched_replaced (fun hnil => hne (hlexed.left.textOf_eq_nil hnil)) hstop
    hgap htext, hr⟩

/-- Taking out a statement leaves its gap. -/
theorem turns_deletion {p : Statement × Row} (hp : p ∈ Row.paired i here rows)
    (hrows : ∀ r ∈ rows, r.Sound) : Turns [Edit.deletion p.1.span] p.1 p.2 ⟨[], p.2.gap⟩ :=
  turns_replaced hp hrows (nil_append _).symm
    (hrows p.2 (Row.of_mem_paired hp).1).emptied rfl

/-- A statement that changes nothing. -/
theorem turns_nil (h : r.Sound) : Turns [] st r r :=
  ⟨.refl _ _, h⟩

/-- The text of a statement that stands in a source. -/
def Source.textAt (s : Source) (st : Statement) : Text :=
  (s.statementText st).toOption.getD []

theorem Source.statementText_eq (hst : st ∈ s.statements) :
    s.statementText st = .ok (s.textAt st) := by
  obtain ⟨text, htext⟩ := statementText_ok (standsIn_of_mem hst).1
  rw [textAt, htext]
  rfl

/-- The declaration that a statement makes, if it makes one. -/
def Source.declared? (s : Source) (st : Statement) : Option Declaration :=
  (Declaration.identify? s st (s.textAt st)).map fun i => ⟨i.1, i.2, s.textAt st⟩

theorem Source.isSome_declared? (s : Source) (st : Statement) :
    (s.declared? st).isSome = s.isPackageLevel st := by
  rw [declared?, Option.isSome_map, Declaration.isSome_identify?]

/-- The edits that take a statement out if it is a declaration. -/
def removals (s : Source) (st : Statement) : List Edit :=
  if s.isPackageLevel st then [Edit.deletion st.span] else []

/-- The declarations of an input, statement by statement. -/
theorem declarationsOf_eq (input : Text) :
    declarationsOf input = .ok ((Source.ofText input).statements.filterMap fun st =>
      ((Source.ofText input).declared? st).map fun d => (d, Edit.deletion st.span)) := by
  let s := Source.ofText input
  have hfound : (s.statements.mapM fun st => do
        return (← Declaration.ofStatement? s st).map fun d => (d, Edit.deletion st.span)) =
      .ok (s.statements.map fun st =>
        (s.declared? st).map fun d => (d, Edit.deletion st.span)) := by
    refine Checked.mapM_of_forall₂ (forall₂_same.2 fun st hst => ?_)
    rw [Declaration.ofStatement?_eq (Source.standsIn_of_mem hst).1,
      Source.statementText_eq hst]
    rfl
  rw [declarationsOf_eq_mapM, hfound]
  exact congrArg Except.ok filterMap_map

/-- What is found in statements: the declarations, and the edits that take them out. -/
theorem unzip_declared? (s : Source) (sts : List Statement) :
    let found := sts.filterMap fun st => (s.declared? st).map fun d =>
      (d, Edit.deletion st.span)
    found.map Prod.fst = sts.filterMap s.declared? ∧
      found.map Prod.snd = sts.flatMap (removals s) := by
  induction sts with
  | nil => exact ⟨rfl, rfl⟩
  | cons st sts ih =>
    have hsome := s.isSome_declared? st
    cases hd : s.declared? st with
    | none =>
      rw [hd] at hsome
      simpa [hd, removals, ← hsome] using ih
    | some d =>
      rw [hd] at hsome
      simpa [hd, removals, ← hsome] using ih

/-- Each declaration is kept under the text of its statement. -/
theorem Source.map_source_declared? (s : Source) (sts : List Statement) :
    (sts.filterMap s.declared?).map (·.source) = (sts.filter s.isPackageLevel).map
      s.textAt := by
  induction sts with
  | nil => rfl
  | cons st sts ih =>
    have hsome := s.isSome_declared? st
    rw [filterMap_cons, filter_cons, ← hsome]
    cases hd : s.declared? st with
    | none => exact ih
    | some d =>
      obtain ⟨i, -, rfl⟩ := Option.map_eq_some_iff.1 hd
      exact congrArg (s.textAt st :: ·) ih

/-- An input is split into what its statements declare and what is left when they are taken
out. -/
theorem splitDeclarations_eq (input : Text) :
    ∃ body, Edit.applyAll input
      ((Source.ofText input).statements.flatMap (removals (.ofText input))) =
        .ok body ∧
      splitDeclarations input =
        .ok ((Source.ofText input).statements.filterMap (Source.ofText input).declared?,
          body) := by
  obtain ⟨hfst, hsnd⟩ := unzip_declared? (.ofText input) (Source.ofText input).statements
  obtain ⟨found, hfound, hfit⟩ := declarationsOf_fit input
  rw [declarationsOf_eq] at hfound
  cases hfound
  rw [hsnd] at hfit
  obtain ⟨body, hbody⟩ := hfit.applyAll
  refine ⟨body, hbody, ?_⟩
  simp only [splitDeclarations, declarationsOf_eq, bind, Except.bind, hfst, hsnd, hbody]
  rfl

/-- An input without package-level declarations stays as it is. -/
theorem splitDeclarations_of_none {input : Text}
    (h : ∀ st ∈ (Source.ofText input).statements,
      (Source.ofText input).isPackageLevel st = false) :
    splitDeclarations input = .ok ([], input) := by
  obtain ⟨body, hbody, hsplit⟩ := splitDeclarations_eq input
  have hedits : (Source.ofText input).statements.flatMap (removals (.ofText input)) = [] := by
    rw [flatMap_eq_nil_iff]
    intro st hst
    rw [removals, h st hst, if_neg Bool.false_ne_true]
  have hnone :
      (Source.ofText input).statements.filterMap (Source.ofText input).declared? = [] := by
    rw [filterMap_eq_nil_iff]
    intro st hst
    rw [← Option.isNone_iff_eq_none, ← Option.not_isSome, Source.isSome_declared?, h st hst]
    rfl
  rw [hedits, Edit.applyAll_nil] at hbody
  cases hbody
  rw [hsplit, hnone]

/-- A row of an input without the declaration in it. -/
def withoutDeclaration (s : Source) (st : Statement) (r : Row) : Row :=
  if s.isPackageLevel st then ⟨[], r.gap⟩ else r

theorem filter_bodies_withoutDeclaration (s : Source) {ps : List (Statement × Row)}
    (hne : ∀ p ∈ ps, p.2.body ≠ []) :
    (ps.map fun p => (withoutDeclaration s p.1 p.2).body).filter (fun b => !b.isEmpty) =
      (ps.filter fun p => !s.isPackageLevel p.1).map fun p => p.2.body := by
  induction ps with
  | nil => rfl
  | cons p ps ih =>
    have hps := ih fun q hq => hne q (mem_cons_of_mem p hq)
    rw [map_cons, filter_cons, filter_cons, hps]
    cases hlevel : s.isPackageLevel p.1 with
    | true => simp [withoutDeclaration, hlevel]
    | false => simp [withoutDeclaration, hlevel, hne p mem_cons_self]

/-- An input without its declarations: what is declared, and the rows of the rest. -/
theorem splitDeclarations_rows (h : RowsOf input rows) :
    ∃ declarations body rows', splitDeclarations input = .ok (declarations, body) ∧
      RowsOf body rows' ∧
      declarations.map (·.source) = ((Row.paired 0 .start rows).filter fun p =>
        (Source.ofText input).isPackageLevel p.1).map (fun p => textOf p.2.body) ∧
      Row.bodies rows' = ((Row.paired 0 .start rows).filter fun p =>
        !(Source.ofText input).isPackageLevel p.1).map (fun p => p.2.body) := by
  let s := Source.ofText input
  have hturns : ∀ p ∈ Row.paired 0 .start rows,
      Turns (removals s p.1) p.1 p.2 (withoutDeclaration s p.1 p.2) := by
    intro p hp
    unfold removals withoutDeclaration
    split
    · exact turns_deletion hp h.sound
    · exact turns_nil (h.sound p.2 (Row.of_mem_paired hp).1)
  obtain ⟨body, hbody, hsplit⟩ := splitDeclarations_eq input
  refine ⟨_, body, Row.remap (withoutDeclaration s) 0 .start rows, hsplit,
    h.edited hturns hbody, ?_, ?_⟩
  · rw [Source.map_source_declared?, h.statements, filter_map, map_map]
    refine map_congr_left fun p hp => ?_
    simp only [Function.comp_apply, Source.textAt, (h.spells p (mem_filter.1 hp).1).text]
    rfl
  · rw [Row.bodies_remap]
    exact filter_bodies_withoutDeclaration s fun p hp => (Row.of_mem_paired hp).2.1

/-! ### Redeclarations become assignments -/

/-- The pieces of a statement whose first `:=` has become `=`. -/
def demotedFirst (body : List Piece) : List Piece :=
  match body.span fun p => p.kind ≠ .token .define with
  | (as, _ :: bs) => demoted as bs
  | (_, []) => body

theorem demotedFirst_append {as bs : List Piece} (has : ∀ p ∈ as, p.kind ≠ .token .define) :
    demotedFirst (as ++ definePiece :: bs) = demoted as bs := by
  have hspan : (as ++ definePiece :: bs).span (fun p => p.kind ≠ .token .define) =
      (as, definePiece :: bs) := by
    rw [span_eq_takeWhile_dropWhile, takeWhile_append_of_pos (by simpa using has),
      dropWhile_append_of_pos (by simpa using has)]
    simp [definePiece]
  rw [demotedFirst, hspan]

/-- The edit that demotes a statement is that of its first `:=`. -/
theorem demotionOf_of_demotion? {e : Edit} (h : demotion? s session st = some e) :
    Redeclaration.demotionOf s st = some e := by
  obtain ⟨r, hr, he⟩ := Option.bind_eq_some_iff.1 h
  split at he
  · simp only [Redeclaration.ofStatement?, Redeclaration.ofBindings?] at hr
    split at hr
    · cases hr
    · cases hr
      simp only at he
      split at he
      · exact he
      · cases he
  · cases he

/-- Where the sign stands that becomes `=`. -/
theorem exists_of_demotion? (hr : r.Sound) (hspells : st.Spells s r.body) {e : Edit}
    (h : demotion? s session st = some e) :
    ∃ as bs, r.body = as ++ definePiece :: bs ∧ (∀ p ∈ as, p.kind ≠ .token .define) ∧
      e = ⟨⟨st.span.start + Text.byteSize (textOf as),
        st.span.start + Text.byteSize (textOf as) + 2⟩, "="⟩ := by
  obtain ⟨here, htokens, hspan⟩ := hspells.tokensOf_eq
  have hdemotion := demotionOf_of_demotion? h
  rw [Redeclaration.demotionOf, htokens] at hdemotion
  obtain ⟨t, ht, rfl⟩ := Option.map_eq_some_iff.1 hdemotion
  obtain ⟨as, bs, hbody, has, rfl⟩ := exists_define
    (fun p hp => hr.spelled (mem_append_left _ hp)) ht
  refine ⟨as, bs, hbody, has, ?_⟩
  have hstart : st.span.start = here.offset := by rw [hspan]
  simp only [Token.stop, Token.pos, Token.size, Position.offset_advance, hstart]
  rfl

/-- The row of a statement with the edit that demotes it. -/
def demotedRow (demotion : Option Edit) (r : Row) : Row :=
  match demotion with
  | none => r
  | some _ => ⟨demotedFirst r.body, r.gap⟩

theorem turns_demotion (hr : r.Sound) (hspells : st.Spells s r.body) :
    Turns (demotion? s session st).toList st r (demotedRow (demotion? s session st) r) := by
  cases hd : demotion? s session st with
  | none => exact turns_nil hr
  | some e =>
    obtain ⟨as, bs, hbody, has, rfl⟩ := exists_of_demotion? hr hspells hd
    obtain ⟨body, gap⟩ := r
    subst hbody
    simp only [demotedRow, Option.toList_some, demotedFirst_append has]
    refine ⟨⟨[⟨textOf as, none⟩, ⟨[':', '='], some ['=']⟩, ⟨textOf bs ++ textOf gap, none⟩],
      ?_, ?_, ?_, ?_⟩, hr.demoted⟩
    · simp [Row.pieces, definePiece]
    · rfl
    · simp [Row.pieces, textOf_demoted]
    · intro q hq hsome
      simp only [mem_cons, not_mem_nil, or_false] at hq
      rcases hq with rfl | rfl | rfl
      · cases hsome
      · simp
      · cases hsome

/-- An edit of a text as an edit of a part that begins at an offset. -/
def Edit.within (offset : Nat) (e : Edit) : Edit :=
  ⟨⟨e.span.start - offset, e.span.stop - offset⟩, e.text⟩

/-- A statement of the entry function as it is written there: one that brings a variable back,
or a statement of the input, with a `:=` that became `=` where it is demoted. -/
def BodyStatement.text (s : Source) : BodyStatement → Checked Text
  | rehydrated _ text => .ok text
  | given st none => s.statementText st
  | given st (some e) => do
    let text ← s.statementText st
    (e.within st.span.start).apply text

theorem text_given (hr : r.Sound) (hspells : st.Spells s r.body) :
    BodyStatement.text s (.given st (demotion? s session st)) =
      .ok (textOf (demotedRow (demotion? s session st) r).body) := by
  cases hd : demotion? s session st with
  | none => exact hspells.text
  | some e =>
    obtain ⟨as, bs, hbody, has, rfl⟩ := exists_of_demotion? hr hspells hd
    have hcut : Span.cut ⟨Text.byteSize (textOf as), Text.byteSize (textOf as) + 2⟩
        (textOf as ++ [':', '='] ++ textOf bs) = .ok (textOf as, [':', '='], textOf bs) :=
      Span.cut_eq_ok_iff.2 ⟨rfl, rfl, rfl⟩
    have htext : textOf r.body = textOf as ++ [':', '='] ++ textOf bs := by
      rw [hbody]
      simp [definePiece]
    have hdemoted : textOf (demotedFirst r.body) = textOf as ++ '=' :: textOf bs := by
      rw [hbody, demotedFirst_append has, textOf_demoted]
    simp only [BodyStatement.text, hspells.text, bind, Except.bind, Edit.apply,
      Edit.within, htext, demotedRow, hdemoted]
    rw [Nat.add_sub_cancel_left, Nat.add_assoc, Nat.add_sub_cancel_left, hcut]
    simp [Except.map]

/-- The rows of a text with the statements demoted that a session has demoted. -/
def demotedRows (session : Session) (body : Text) (rows : List Row) : List Row :=
  Row.remap (fun st r => demotedRow (demotion? (.ofText body) session st) r) 0 .start rows

/-- Demoting its redeclarations keeps an input a list of rows. -/
theorem rowsOf_demotedRows (session : Session) {body : Text} (h : RowsOf body rows) :
    ∃ edited, Edit.applyAll body (demotions (redeclarations session body)) = .ok edited ∧
      RowsOf edited (demotedRows session body rows) := by
  let s := Source.ofText body
  have hedits : demotions (redeclarations session body) =
      s.statements.flatMap fun st => (demotion? s session st).toList := by
    rw [demotions, redeclarations, filter_filterMap, filterMap_filterMap,
      filterMap_eq_flatMap_toList]
    congr 1
    funext st
    simp only [demotion?]
    cases Redeclaration.ofStatement? (.ofText body) session st with
    | none => rfl
    | some r => cases hneeded : r.needed <;> simp [hneeded, Option.filter]
  have hturns : ∀ p ∈ Row.paired 0 .start rows,
      Turns (demotion? s session p.1).toList p.1 p.2
        (demotedRow (demotion? s session p.1) p.2) := fun p hp =>
    turns_demotion (h.sound p.2 (Row.of_mem_paired hp).1) (h.spells p hp)
  obtain ⟨edited, hedited⟩ := (demotions_fit session body).applyAll
  exact ⟨edited, hedited, h.edited hturns (by rw [← hedits]; exact hedited)⟩

/-- A demoted statement is still one. -/
theorem body_demotedRow_ne_nil (hr : r.Sound) (hspells : st.Spells s r.body) :
    (demotedRow (demotion? s session st) r).body ≠ [] := by
  cases hd : demotion? s session st with
  | none => exact hspells.isStatement.ne_nil
  | some e =>
    obtain ⟨as, bs, hbody, has, -⟩ := exists_of_demotion? hr hspells hd
    simp only [demotedRow, hbody, demotedFirst_append has]
    intro hnil
    have := congrArg textOf hnil
    rw [textOf_demoted] at this
    simp at this

theorem bodies_demotedRows (session : Session) {body : Text} (h : RowsOf body rows) :
    Row.bodies (demotedRows session body rows) = (Row.paired 0 .start rows).map fun p =>
      (demotedRow (demotion? (.ofText body) session p.1) p.2).body := by
  rw [demotedRows, Row.bodies_remap, filter_eq_self]
  intro b hb
  obtain ⟨p, hp, rfl⟩ := mem_map.1 hb
  have hne : (demotedRow (demotion? (.ofText body) session p.1) p.2).body ≠ [] :=
    body_demotedRow_ne_nil (h.sound p.2 (Row.of_mem_paired hp).1) (h.spells p hp)
  simpa using hne

/-- The rows of an input whose redeclarations have become assignments. -/
theorem demotions_rows (session : Session) {body : Text} (h : RowsOf body rows) :
    ∃ edited rows', Edit.applyAll body (demotions (redeclarations session body)) =
      .ok edited ∧
      RowsOf edited rows' ∧
      ((Source.ofText body).statements.map fun st =>
        BodyStatement.given st (demotion? (.ofText body) session st)).mapM
          (BodyStatement.text (.ofText body)) = .ok ((Row.bodies rows').map textOf) := by
  obtain ⟨edited, hedited, hrows⟩ := rowsOf_demotedRows session h
  refine ⟨edited, _, hedited, hrows, ?_⟩
  rw [bodies_demotedRows session h, map_map, h.statements, map_map]
  refine Checked.mapM_of_forall₂ ?_
  rw [forall₂_map_left_iff, forall₂_same]
  intro p hp
  exact text_given (h.sound p.2 (Row.of_mem_paired hp).1) (h.spells p hp)

end Notebook
