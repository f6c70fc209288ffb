import Notebook.Proofs.ChangedRows
import Notebook.Proofs.MarkedStatements

/-!
# Programs with their last value shown

Showing the last value of a program changes nothing but statements of its entry function,
whatever stands around it.  One statement is put into a printing call or none is, displays are
taken out, and all others stay as they are.  The edits work on the rows of the body: a display
that goes takes a semicolon and blanks of its own row with it, and what is put into a call
ends on the line of the mark, so that a parenthesis can stand behind it.  The program is read
again row by row.

## Main statements

* `DisplayPlan.IsFor.exists_shownRows`: what becomes of the rows
* `analyze_statements`: the statements of a program with its last value shown
-/

namespace Notebook

open Lexer List

variable {entry : EntryPoint} {printing : List Edit} {before behind body : List Piece}
  {sts : List Statement} {texts : List Text} {s : Source} {st : Statement}
  {program text : Text}

/-! ### What becomes of the statements -/

/-- Whether a statement is a display that is taken out.  If the value of a statement is shown,
all displays but that statement are; otherwise all but the last. -/
def Source.isDropped (s : Source) (sts : List Statement) (shown : Option Statement)
    (st : Statement) : Bool :=
  s.isDisplay st &&
    match shown with
    | some w => st != w
    | none => (sts.filter s.isDisplay).getLast? != some st

/-- What becomes of the text of a statement when the value of `shown` is shown. -/
def Source.shownText (s : Source) (sts : List Statement) (shown : Option Statement)
    (st : Statement) (text : Text) : Option Text :=
  if shown = some st then some ("fmt.Println(" ++ text ++ ")")
  else if s.isDropped sts shown st then none
  else some text

namespace DisplayPlan

variable {p : DisplayPlan} {answer : Option Nat}

/-- The statement whose value is shown. -/
def shownStatement (p : DisplayPlan) (answer : Option Nat) : Option Statement :=
  p.marked.filter fun _ => p.shows answer

theorem wrapEdits_of_none (h : p.shownStatement answer = none) :
    p.wrapEdits answer = .ok [] := by
  unfold wrapEdits
  cases hmarked : p.marked with
  | none => rfl
  | some st =>
    rw [shownStatement, hmarked, Option.filter_some] at h
    split at h
    · cases h
    next hshows => exact if_neg hshows

theorem wrapEdits_of_some (h : p.shownStatement answer = some st)
    (htext : p.source.statementText st = .ok text) :
    p.wrapEdits answer = .ok [⟨st.span, "fmt.Println(" ++ text ++ ")"⟩] := by
  obtain ⟨hmarked, hshows⟩ := Option.filter_eq_some_iff.1 h
  simp only [wrapEdits, hmarked, hshows, htext, if_true, bind, Except.bind, pure, Except.pure]

/-- A statement covers something. -/
theorem start_lt_stop (h : st.StandsIn s.tokens) : st.span.start < st.span.stop := by
  obtain ⟨k, c, r, hk, hstart, hlexeme, -⟩ := first_token h
  obtain ⟨a, b, ha, hb, hspan, -⟩ := h.extent
  obtain rfl : k = a := Option.some.inj (hk.symm.trans ha)
  have hsize : k.pos < k.stop := by
    have := c.utf8Size_pos
    rw [Token.stop, Token.size, hlexeme, Text.byteSize_cons]
    omega
  rw [hspan]
  rcases Nat.eq_or_lt_of_le h.first_le_last with heq | hlt
  · obtain rfl : k = b := Option.some.inj (hk.symm.trans (heq ▸ hb))
    exact hsize
  · have hle := s.placed.stop_le_pos hk hb hlt
    have := b.pos_le_stop
    show k.pos < b.stop
    omega

/-- Statements of a plan are told apart by their extent. -/
theorem Reads.eq_of_span (h : p.Reads program) {x y : Statement} (hx : x ∈ p.statements)
    (hy : y ∈ p.statements) (heq : x.span = y.span) : x = y := by
  by_contra hne
  -- The one that precedes the other ends before the other begins, and covers something.
  have hapart : ∀ {a b : Statement}, a ∈ p.statements → b ∈ p.statements → a.span = b.span →
      ¬a.Precedes b := by
    intro a b ha hb hspan hab
    have hle := Source.stop_le_start (h.standsIn ha) (h.standsIn hb) hab
    have hlt := start_lt_stop (h.standsIn ha)
    rw [← hspan] at hle
    omega
  rcases h.precedes_or_precedes hx hy hne with hlt | hlt
  · exact hapart hx hy heq hlt
  · exact hapart hy hx heq.symm hlt

theorem mem_dropLast_iff {α : Type} {l : List α} (hl : l.Nodup) {a : α} :
    a ∈ l.dropLast ↔ a ∈ l ∧ l.getLast? ≠ some a := by
  rcases eq_nil_or_concat l with rfl | ⟨l', z, rfl⟩
  · simp
  · rw [concat_eq_append] at *
    have hz : z ∉ l' := fun hmem =>
      (nodup_append.1 hl).2.2 z hmem z (mem_singleton_self z) rfl
    rw [dropLast_concat, getLast?_concat, mem_append, mem_singleton]
    constructor
    · intro ha
      refine ⟨.inl ha, ?_⟩
      rintro ⟨⟩
      exact hz ha
    · rintro ⟨ha | rfl, hne⟩
      · exact ha
      · exact absurd rfl hne

/-- The displays that a plan takes out. -/
theorem mem_dropped_iff (h : p.Reads program) (hprinting : p.wrapEdits answer = .ok printing)
    (hst : st ∈ p.statements) :
    st ∈ p.dropped printing ↔
      p.source.isDropped p.statements (p.shownStatement answer) st = true := by
  unfold dropped droppedOf Source.isDropped
  cases hshown : p.shownStatement answer with
  | none =>
    rw [wrapEdits_of_none hshown] at hprinting
    cases hprinting
    dsimp only
    rw [mem_dropLast_iff (h.nodup.filter _), mem_filter]
    simp [hst]
  | some w =>
    have hw : w ∈ p.statements := h.marked w (Option.filter_eq_some_iff.1 hshown).1
    obtain ⟨text, htext⟩ := Source.statementText_ok (h.standsIn hw)
    rw [wrapEdits_of_some hshown htext] at hprinting
    cases hprinting
    dsimp only
    have hspan : st.span ≠ w.span ↔ st ≠ w :=
      not_congr ⟨h.eq_of_span hst hw, congrArg Statement.span⟩
    rw [mem_filter, mem_filter]
    simp [hst, hspan]

/-- The edits of one statement of a plan. -/
theorem editsOf_eq (h : p.Reads program) (hprinting : p.wrapEdits answer = .ok printing)
    (hst : st ∈ p.statements) :
    p.editsOf printing st =
      if p.shownStatement answer = some st then printing
      else if p.source.isDropped p.statements (p.shownStatement answer) st then
        (deletionSpan p.source st).toOption.toList.map Edit.deletion
      else [] := by
  have hdropped := mem_dropped_iff h hprinting hst
  unfold editsOf
  cases hshown : p.shownStatement answer with
  | none =>
    rw [hshown] at hdropped
    rw [wrapEdits_of_none hshown] at hprinting
    cases hprinting
    simp [hdropped]
  | some w =>
    rw [hshown] at hdropped
    have hmarked : p.marked = some w := (Option.filter_eq_some_iff.1 hshown).1
    by_cases hw : w = st
    · subst hw
      have hnot : ¬w ∈ p.dropped printing := by
        rw [hdropped]
        simp [Source.isDropped]
      simp [hmarked, hnot]
    · have hw' : st ≠ w := fun heq => hw heq.symm
      simp [hmarked, hw, hw', hdropped]

/-- The plan of a program: its statements, which of them is marked, and when that one is
shown. -/
structure IsFor (p : DisplayPlan) (program : Text) (entry : EntryPoint) : Prop where
  source : p.source = .ofText program
  statements : p.statements = (Source.ofText program).bodyStatements entry
  reads : p.Reads program
  marked : ∀ st, p.marked = some st ↔ IsMarked program p.statements st
  need : ∀ st, p.marked = some st → needOf p.source entry st = .ok p.need

/-- A program with an entry point and a mark has a plan. -/
theorem exists_isFor (hentry : (Source.ofText program).entryPoint = some entry)
    (hmark : inputMark <:+: program) :
    ∃ p, ofProgram? program = .ok (some p) ∧ p.IsFor program entry := by
  obtain ⟨mark, lineStart, hoffsets⟩ := exists_markOffsets? hmark
  obtain ⟨found, hfound, hreads⟩ := ofProgram?_reads program
  cases found with
  | none =>
    simp only [ofProgram?_eq, hoffsets, hentry] at hfound
    split at hfound
    · obtain ⟨need, -, hneed⟩ := Checked.bind_eq_ok.1 hfound
      cases hneed
    · cases hfound
  | some p =>
    obtain ⟨mark', lineStart', entry', hoffsets', hentry', hsource, hstatements,
      hmarked, hneed⟩ :=
      ofProgram?_spec hfound
    cases hoffsets.symm.trans hoffsets'
    cases hentry.symm.trans hentry'
    refine ⟨p, hfound, hsource, hstatements, hreads p rfl, fun st => ?_, hneed⟩
    rw [hmarked]
    refine markedStatement_iff hoffsets fun x hx => ?_
    have hfits := Source.fits_of_standsIn ((hreads p rfl).standsIn hx)
    rw [(hreads p rfl).text] at hfits
    exact hfits.stop

/-- Showing the last value is making the edits of the plan. -/
theorem analyze_eq (h : ofProgram? program = .ok (some p))
    (resultCount : ArityQuery → Option Nat) :
    analyze (fun q => .ok (resultCount q)) program = p.apply (p.query?.bind resultCount) := by
  simp only [analyze, h, bind, Except.bind]
  cases p.query? <;> rfl

/-- The statement whose value is shown is the marked one, if it yields a value. -/
theorem IsFor.shownStatement_iff (h : p.IsFor program entry)
    (resultCount : ArityQuery → Option Nat) :
    p.shownStatement (p.query?.bind resultCount) = some st ↔
      IsMarked program p.statements st ∧ p.source.YieldsValue entry resultCount st := by
  rw [shownStatement, Option.filter_eq_some_iff, h.marked]
  refine and_congr_right fun hmarked => ?_
  have hst := (h.marked st).2 hmarked
  exact shows_iff (h.reads.standsIn (h.reads.marked st hst)) (h.need st hst) resultCount

end DisplayPlan

/-! ### What becomes of rows -/

/-- A statement on the line of the mark ends in a piece that has an end and is no line
comment: what follows it is not the end of its line. -/
theorem Located.closed_of_isMarked (h : Located program st before body behind)
    (hmarked : IsMarked program sts st) {p : Piece} (hp : body.getLast? = some p) :
    p.isClosed = true ∧ p.isLine = false := by
  obtain ⟨upTo, line, after, hprogram, -, hstop, hline, -⟩ := hmarked
  have hbehind : textOf behind = line ++ (inputMark ++ after) := by
    have hleft : program.cutAt? st.span.stop =
        some (textOf (before ++ body), textOf behind) := by
      refine Text.cutAt?_eq_some_iff.2 ⟨?_, by simp [h.span]⟩
      rw [← textOf_pieces program, h.pieces]
      simp
    have hright : program.cutAt? st.span.stop = some (upTo, line ++ (inputMark ++ after)) :=
      Text.cutAt?_eq_some_iff.2 ⟨by simp [hprogram], hstop.symm⟩
    exact congrArg Prod.snd (Option.some.inj (hleft.symm.trans hright))
  have hlexed : Lexed (before ++ (body ++ behind)) := by
    rw [← h.pieces]
    exact lexed_pieces program
  refine hlexed.right.closed_of_getLast? ?_ ?_ hp
  · rw [hbehind, inputMark_eq]
    simp
  · rw [hbehind, inputMark_eq]
    cases line with
    | nil => simp
    | cons c line =>
      rintro ⟨⟩
      exact hline mem_cons_self

/-- Putting the statement of a row into a printing call. -/
theorem patched_printed {r : Row} (hbody : textOf r.body ≠ [])
    (hstop : st.span.stop = st.span.start + Text.byteSize (textOf r.body)) :
    Patched st.span.start [⟨st.span, "fmt.Println(" ++ textOf r.body ++ ")"⟩]
      (textOf r.pieces)
      (textOf (Row.mk (printed r.body) r.gap).pieces) := by
  refine patched_replaced hbody hstop (nil_append _).symm ?_
  rw [Row.pieces, textOf_append, textOf_printed]

theorem Row.text?_printed (body gap : List Piece) :
    Row.text? ⟨printed body, gap⟩ = some ("fmt.Println(" ++ textOf body ++ ")") := by
  rw [Row.text?, if_neg (by simp [printed, printFront]), textOf_printed]

/-- A statement that nothing ends stays such when it is put into a printing call. -/
theorem Row.Rest.printed {r : Row} (h : r.Rest)
    (hlast : ∀ p, r.body.getLast? = some p → p.isClosed = true ∧ p.isLine = false) :
    Row.Final ⟨printed r.body, r.gap⟩ := by
  have hlexed := h.final.lexed
  have hnest := h.final.nest
  rw [pieces, kinds_append, nest_append] at hnest
  have hgap : ∀ p ∈ r.gap, p.isFiller = true :=
    fun p hp => Piece.isFiller_of_isToken (h.gap p hp)
  have hbody : nest 0 (kinds false r.body) = some 0 := by
    obtain ⟨d, hd, hgapNest⟩ := Option.bind_eq_some_iff.1 hnest
    rw [nest_fillers hgap] at hgapNest
    exact hd.trans hgapNest
  refine final_of_isStatement (lexed_printed hlexed hlast) ?_
    (isStatement_printed hlexed.left hbody) hgap
  intro p hp
  rw [pieces, getLast?_append] at hp
  cases hgapLast : r.gap.getLast? with
  | none =>
    obtain rfl : closingParen = p := by simpa [hgapLast, Notebook.printed] using hp
    decide
  | some q =>
    obtain rfl : q = p := by simpa [hgapLast] using hp
    exact h.final.last q (by simp [pieces, hgapLast])

/-- A row without a statement in the place of what is left behind the rows. -/
theorem Row.Rest.emptied {r : Row} (h : r.Rest) : Row.Final ⟨[], r.gap⟩ := by
  have hgap : ∀ p ∈ r.gap, p.isFiller = true :=
    fun p hp => Piece.isFiller_of_isToken (h.gap p hp)
  refine Ended.final ⟨h.final.lexed.right, hgap, ?_, .inl rfl⟩
  intro p hp
  obtain ⟨hclosed, hline⟩ := h.final.last p (by simp [pieces, hp])
  exact ⟨Piece.isSolid_of_not_isLine (hgap p (mem_of_getLast? hp)) hline, hclosed⟩

namespace DisplayPlan

variable {p : DisplayPlan} {answer : Option Nat} {front back : List Piece} {rows : List Row}
  {rest : Row}

/-- A statement is put into a printing call, goes, or stays. -/
theorem IsFor.fate_cases (hp : p.IsFor program entry)
    (hprinting : p.wrapEdits answer = .ok printing) (hst : st ∈ p.statements)
    (hlocated : Located program st before body behind) :
    (p.source.shownText p.statements (p.shownStatement answer) st (textOf body) =
          some ("fmt.Println(" ++ textOf body ++ ")") ∧
        p.editsOf printing st = [⟨st.span, "fmt.Println(" ++ textOf body ++ ")"⟩] ∧
        ∀ q, body.getLast? = some q → q.isClosed = true ∧ q.isLine = false) ∨
      (p.source.shownText p.statements (p.shownStatement answer) st (textOf body) = none ∧
        p.editsOf printing st =
          (deletionSpan (.ofText program) st).toOption.toList.map Edit.deletion) ∨
      (p.source.shownText p.statements (p.shownStatement answer) st (textOf body) =
          some (textOf body) ∧
        p.editsOf printing st = []) := by
  rw [editsOf_eq hp.reads hprinting hst, Source.shownText]
  by_cases hshown : p.shownStatement answer = some st
  · have hmarked := (hp.marked st).1 (Option.filter_eq_some_iff.1 hshown).1
    have htext : p.source.statementText st = .ok (textOf body) := by
      rw [hp.source]
      exact hlocated.statementText_eq
    rw [wrapEdits_of_some hshown htext] at hprinting
    cases hprinting
    rw [if_pos hshown, if_pos hshown]
    exact .inl ⟨rfl, rfl, fun q hq => hlocated.closed_of_isMarked hmarked hq⟩
  · rw [if_neg hshown, if_neg hshown, hp.source]
    cases (Source.ofText program).isDropped p.statements (p.shownStatement answer) st with
    | true => exact .inr (.inl ⟨rfl, rfl⟩)
    | false => exact .inr (.inr ⟨rfl, rfl⟩)

/-- A row of a program whose last value is shown: its statement is put into a printing call,
or goes with a part of the gap, or stays. -/
theorem IsFor.exists_shownRow (hp : p.IsFor program entry)
    (h : BodyRows program entry front rows rest back)
    (hprinting : p.wrapEdits answer = .ok printing) {q : Statement × Row}
    (hq : q ∈ Row.paired (kinds false front).length (placeAfter front) rows) :
    ∃ r' : Row, r'.Ended ∧
      r'.text? = p.source.shownText p.statements (p.shownStatement answer) q.1
        (textOf q.2.body) ∧
      Patched q.1.span.start (p.editsOf printing q.1) (textOf q.2.pieces)
        (textOf r'.pieces) := by
  obtain ⟨hmem, hne, hstop⟩ := Row.of_mem_paired hq
  obtain ⟨j, place, us, before, behind, hst, htokens, hsize, hpieces, c, t,
    hbehind, hblank⟩ :=
    h.exists_located hq
  have hr : q.2.Ended := h.ended q.2 hmem
  have hstatement : q.1 ∈ p.statements := by
    rw [hp.statements, h.bodyStatements_eq, ← Row.map_fst_paired]
    exact mem_append_left _ (mem_map_of_mem hq)
  have hlocated : Located program q.1 before q.2.body (q.2.gap ++ behind) := by
    refine ⟨by rw [hpieces, Row.pieces, append_assoc], ?_⟩
    rw [Row.statementAt, if_neg hne, mem_singleton] at hst
    rw [hst, hsize]
  have hbody : textOf q.2.body ≠ [] := fun hnil => hne (hr.lexed.left.textOf_eq_nil hnil)
  rcases hp.fate_cases hprinting hstatement hlocated with
    ⟨htext, hedits, hclosed⟩ | ⟨htext, hedits⟩ | ⟨htext, hedits⟩
  · rw [htext, hedits]
    exact ⟨⟨printed q.2.body, q.2.gap⟩, hr.printed hne fun p hp => (hclosed p hp).1,
      Row.text?_printed _ _, patched_printed hbody hstop⟩
  · have hsource : (Source.ofText program).text =
        textOf before ++ textOf q.2.pieces ++ textOf behind := by
      show program = _
      rw [← textOf_pieces program, hpieces, textOf_append, textOf_append, append_assoc]
    have hinline : ∀ d, (textOf behind).head? = some d → isInline d = false := by
      rw [hbehind]
      rintro d ⟨⟩
      exact isInline_eq_false hblank
    obtain ⟨gone, kept, hgap, hspan⟩ :=
      exists_deletionSpan hr hst htokens hsize hsource hinline
    rw [htext, hedits, hspan]
    exact ⟨⟨[], kept⟩, hr.shortened hgap, rfl, patched_replaced hbody hstop hgap rfl⟩
  · rw [htext, hedits]
    exact ⟨q.2, hr, if_neg hne, .refl _ _⟩

/-- What is left behind the rows of a program whose last value is shown. -/
theorem IsFor.exists_shownRest (hp : p.IsFor program entry)
    (h : BodyRows program entry front rows rest back)
    (hprinting : p.wrapEdits answer = .ok printing) {sts : List Statement}
    (hsts : sts = Source.split
      ((kinds false front).length + (kinds false (Row.flatten rows)).length) .initial
      (scan ((placeAfter front).advance (textOf (Row.flatten rows))) false rest.pieces)) :
    ∃ last : Row, last.Final ∧
      last.text?.toList = (sts.zip rest.text?.toList).filterMap (fun q =>
        p.source.shownText p.statements (p.shownStatement answer) q.1 q.2) ∧
      Patched (Text.byteSize (textOf (front ++ Row.flatten rows)))
        (sts.flatMap (p.editsOf printing)) (textOf rest.pieces) (textOf last.pieces) := by
  rcases h.rest_cases
    ((kinds false front).length + (kinds false (Row.flatten rows)).length) with
    ⟨hnil, hnone⟩ | ⟨st, hne, hone, hlocated, -, hterminator⟩
  · rw [hnone] at hsts
    subst hsts
    exact ⟨rest, h.isRest.final, by simp [Row.text?, hnil], .refl _ _⟩
  · rw [hone] at hsts
    subst hsts
    have hstatement : st ∈ p.statements := by
      rw [hp.statements, h.bodyStatements_eq, hone]
      simp
    have hbody : textOf rest.body ≠ [] :=
      fun hnil => hne (h.isRest.final.lexed.left.textOf_eq_nil hnil)
    have hstart : Text.byteSize (textOf (front ++ Row.flatten rows)) = st.span.start := by
      rw [hlocated.span]
    have hstop : st.span.stop = st.span.start + Text.byteSize (textOf rest.body) := by
      rw [hlocated.span]
    have htexts : rest.text? = some (textOf rest.body) := if_neg hne
    rw [hstart, htexts]
    simp only [flatMap_cons, flatMap_nil, append_nil, Option.toList_some,
      zip_cons_cons, zip_nil_right, filterMap_cons, filterMap_nil]
    rcases hp.fate_cases hprinting hstatement hlocated with
      ⟨htext, hedits, hclosed⟩ | ⟨htext, hedits⟩ | ⟨htext, hedits⟩
    · rw [htext, hedits]
      exact ⟨⟨printed rest.body, rest.gap⟩, h.isRest.printed hclosed,
        by rw [Row.text?_printed]; rfl, patched_printed hbody hstop⟩
    · have hspan : deletionSpan (.ofText program) st = .ok st.span := by
        rw [deletionSpan, hterminator]
      rw [htext, hedits, hspan]
      exact ⟨⟨[], rest.gap⟩, h.isRest.emptied, rfl,
        patched_replaced hbody hstop (nil_append _).symm rfl⟩
    · rw [htext, hedits]
      exact ⟨rest, h.isRest.final, by rw [htexts]; rfl, .refl _ _⟩

/-- The rows of a program with its last value shown. -/
theorem IsFor.exists_shownRows (hp : p.IsFor program entry)
    (h : BodyRows program entry front rows rest back) (answer : Option Nat) :
    ∃ (rows' : List Row) (last : Row), (∀ r ∈ rows', r.Ended) ∧ last.Final ∧
      p.apply answer = .ok (textOf (front ++ (Row.flatten (rows' ++ [last]) ++ back))) ∧
      (rows' ++ [last]).filterMap Row.text? =
        (p.statements.zip ((rows ++ [rest]).filterMap Row.text?)).filterMap fun q =>
          p.source.shownText p.statements (p.shownStatement answer) q.1 q.2 := by
  obtain ⟨printing, hprinting, -⟩ := wrapEdits_spec hp.reads answer
  obtain ⟨es, hes, -⟩ := edits_fit hp.reads answer
  have hperm := edits_perm hp.reads hprinting hes
  obtain ⟨rows', hrows', hpatch, htexts⟩ :=
    Row.exists_changed h.ended (E := p.editsOf printing)
      (F := p.source.shownText p.statements (p.shownStatement answer))
    fun q hq => hp.exists_shownRow h hprinting hq
  obtain ⟨last, hlast, hlastText, hlastPatch⟩ := hp.exists_shownRest h hprinting rfl
  refine ⟨rows', last, hrows', hlast, ?_, ?_⟩
  · have hfront : (placeAfter front).offset = Text.byteSize (textOf front) := by
      simp [placeAfter, Position.start]
    rw [hfront] at hpatch
    rw [textOf_append, Text.byteSize_append] at hlastPatch
    have hall := hpatch.append hlastPatch
    rw [← flatMap_append, ← h.bodyStatements_eq, ← hp.statements] at hall
    have happly := hall.applyAll (textOf back) hperm
    rw [apply, hes]
    show Edit.applyAll p.source.text es = _
    rw [hp.source]
    show Edit.applyAll program es = _
    rw [h.text_eq]
    simpa using happly
  · have hone : ∀ r : Row, [r].filterMap Row.text? = r.text?.toList := fun r => by
      cases htext : r.text? <;> simp [htext]
    have hlength : (Row.placed (kinds false front).length (placeAfter front) rows).length =
        (rows.filterMap Row.text?).length := by
      rw [← Row.map_textOf_bodies, ← Row.map_fst_paired, ← Row.map_body_paired,
        length_map, length_map, length_map]
    rw [filterMap_append, htexts, hone, hlastText, Row.map_textOf_bodies, hp.statements]
    rw [filterMap_append, hone, h.bodyStatements_eq, zip_append hlength,
      filterMap_append]

end DisplayPlan

/-- The text of a program with its last value shown, and its statements. -/
theorem DisplayPlan.IsFor.exists_result {p : DisplayPlan} (hp : p.IsFor program entry)
    (hentry : (Source.ofText program).entryPoint = some entry) (answer : Option Nat) :
    ∃ (front inside inside' back : Text) (entry' : EntryPoint) (texts : List Text),
      program = front ++ inside ++ back ∧
      entry.bodyStart = front.byteSize ∧ entry.bodyStop = (front ++ inside).byteSize ∧
      p.apply answer = .ok (front ++ inside' ++ back) ∧
      (Source.ofText (front ++ inside' ++ back)).entryPoint = some entry' ∧
      entry'.bodyStart = front.byteSize ∧ entry'.bodyStop = (front ++ inside').byteSize ∧
      (Source.ofText program).texts ((Source.ofText program).bodyStatements entry) =
        .ok texts ∧
      (Source.ofText (front ++ inside' ++ back)).texts
          ((Source.ofText (front ++ inside' ++ back)).bodyStatements entry') =
        .ok ((((Source.ofText program).bodyStatements entry).zip texts).filterMap fun q =>
          (Source.ofText program).shownText ((Source.ofText program).bodyStatements entry)
            (p.shownStatement answer) q.1 q.2) := by
  obtain ⟨front, rows, rest, back, h⟩ := exists_bodyRows hentry
  obtain ⟨rows', last, hrows', hlast, happly, htexts⟩ := hp.exists_shownRows h answer
  have hresult : textOf (front ++ (Row.flatten (rows' ++ [last]) ++ back)) =
      textOf front ++ textOf (Row.flatten (rows' ++ [last])) ++ textOf back := by
    simp
  have hentry' := Row.entryPoint_enclosed h.opening h.closing hrows' hlast
  have htexts' := Row.texts_enclosed h.opening h.closing hrows' hlast rfl
  rw [hresult] at happly hentry' htexts'
  rw [htexts, hp.source, hp.statements] at htexts'
  refine ⟨textOf front, textOf (Row.flatten (rows ++ [rest])),
    textOf (Row.flatten (rows' ++ [last])), textOf back,
    enclosedEntry front (Row.flatten (rows' ++ [last])), _, h.text_eq, ?_, ?_,
    happly, hentry', rfl,
    ?_, h.texts_eq, htexts'⟩
  · rw [h.entry_eq]
    rfl
  · rw [h.entry_eq, enclosedEntry, textOf_append]
  · rw [enclosedEntry, textOf_append]

/-! ### Displays and their texts -/

namespace BodyRows

variable {front back : List Piece} {rows : List Row} {rest : Row}

/-- Whether a statement with a row of its own is a display is seen in its pieces. -/
theorem isDisplay_of_mem_paired (h : BodyRows program entry front rows rest back)
    {q : Statement × Row}
    (hq : q ∈ Row.paired (kinds false front).length (placeAfter front) rows) :
    (Source.ofText program).isDisplay q.1 = displays q.2.body ∧
      (Source.ofText program).statementText q.1 = .ok (textOf q.2.body) := by
  obtain ⟨hmem, -, -⟩ := Row.of_mem_paired hq
  obtain ⟨j, place, us, before, behind, hst, htokens, hsize, hpieces, -⟩ :=
    h.exists_located hq
  have htext : textOf before ++ textOf q.2.pieces <+:
      (Source.ofText program).text ++ ['\n'] := by
    refine ⟨textOf behind ++ ['\n'], ?_⟩
    show _ = program ++ ['\n']
    rw [← textOf_pieces program, hpieces]
    simp
  obtain ⟨-, hspells⟩ := Row.spells_statementAt (h.ended q.2 hmem) htokens hsize htext hst
  exact ⟨hspells.isDisplay_eq, hspells.text⟩

/-- Whether a statement that nothing ends is a display is seen in its pieces: behind it stand
semicolons or the bracket that closes the body. -/
theorem isDisplay_of_first (h : BodyRows program entry front rows rest back) {st : Statement}
    (hfirst : st.first = (kinds false front).length +
      (kinds false (Row.flatten rows)).length) :
    (Source.ofText program).isDisplay st = displays rest.body := by
  have hlexed := lexed_pieces program
  rw [h.pieces] at hlexed
  obtain ⟨closing, us, htokens, hcloses, -⟩ := tokens_enclosed h.opening h.closing hlexed
  rw [← h.pieces, textOf_pieces, Row.flatten_append, scan_append,
    Row.pendingAfter_flatten h.ended, Row.flatten_cons, Row.flatten_nil, append_nil,
    Row.pieces, scan_append] at htokens
  have hsemis := kinds_fillers (fun p hp => Piece.isFiller_of_isToken (h.isRest.gap p hp))
    (pendingAfter false rest.body)
  rw [Source.isDisplay, htokens, hfirst, ← length_scan .start, ← drop_drop,
    drop_left, ← length_scan (placeAfter front), append_assoc, drop_left,
    append_assoc]
  rw [← map_kind_scan (((placeAfter front).advance (textOf (Row.flatten rows))).advance
    (textOf rest.body))] at hsemis
  cases hgap : scan (((placeAfter front).advance (textOf (Row.flatten rows))).advance
      (textOf rest.body)) (pendingAfter false rest.body) rest.gap with
  | nil =>
    rw [nil_append, Source.startsDisplay_append (.inr hcloses), scan_eq_map,
      Source.startsDisplay_move, displays]
  | cons semi semis =>
    have hsemi : semi.kind = .semi := hsemis _ (by simp [hgap])
    rw [cons_append, Source.startsDisplay_append (.inl hsemi), scan_eq_map,
      Source.startsDisplay_move, displays]

end BodyRows

/-- Whether a statement in the body of a program is a display is seen in its text. -/
theorem Source.isDisplay_of_text (hentry : (Source.ofText program).entryPoint = some entry)
    (hst : st ∈ (Source.ofText program).bodyStatements entry)
    (htext : (Source.ofText program).statementText st = .ok text) :
    (Source.ofText program).isDisplay st = displays (Lexer.pieces text) := by
  obtain ⟨front, rows, rest, back, h⟩ := exists_bodyRows hentry
  rw [h.bodyStatements_eq, mem_append, ← Row.map_fst_paired] at hst
  rcases hst with hst | hst
  · obtain ⟨q, hq, rfl⟩ := mem_map.1 hst
    obtain ⟨hdisplay, htext'⟩ := h.isDisplay_of_mem_paired hq
    have hlexed : Lexed q.2.body := (h.ended q.2 (Row.of_mem_paired hq).1).lexed.left
    cases htext'.symm.trans htext
    rw [hdisplay, hlexed]
  · rcases h.rest_cases
      ((kinds false front).length + (kinds false (Row.flatten rows)).length) with
      ⟨-, hnone⟩ | ⟨z, -, hone, hlocated, hfirst, -⟩
    · rw [hnone] at hst
      cases hst
    · rw [hone, mem_singleton] at hst
      subst hst
      have hlexed : Lexed rest.body := h.isRest.final.lexed.left
      cases hlocated.statementText_eq.symm.trans htext
      rw [h.isDisplay_of_first hfirst, hlexed]

/-- Work on a list in which only one key yields anything. -/
theorem length_filterMap_le_one {α β γ : Type} {key : α → γ} {g : α → Option β} {l : List α}
    (hnodup : (l.map key).Nodup) {k : Option γ}
    (h : ∀ x ∈ l, (g x).isSome = true → some (key x) = k) : (l.filterMap g).length ≤ 1 := by
  induction l with
  | nil => exact Nat.zero_le _
  | cons x l ih =>
    rw [map_cons, nodup_cons] at hnodup
    cases hx : g x with
    | none =>
      rw [filterMap_cons_none hx]
      exact ih hnodup.2 fun y hy => h y (mem_cons_of_mem _ hy)
    | some b =>
      have hnone : ∀ y ∈ l, g y = none := by
        intro y hy
        by_contra hne
        have hkey := h y (mem_cons_of_mem _ hy) (Option.isSome_iff_ne_none.2 hne)
        rw [← h x mem_cons_self (by rw [hx]; rfl), Option.some.injEq] at hkey
        exact hnodup.1 (hkey ▸ mem_map_of_mem hy)
      rw [filterMap_cons_some hx, filterMap_eq_nil_iff.2 hnone]
      exact Nat.le_refl _

/-- At most one of the texts of statements that are shown is a display: that of the statement
whose value is shown, or of the last display. -/
theorem Source.length_shownTexts_le (hnodup : sts.Nodup) (shown : Option Statement)
    (h : Forall₂ (fun st text => s.isDisplay st = displays (Lexer.pieces text)) sts texts) :
    (((sts.zip texts).filterMap fun q => s.shownText sts shown q.1 q.2).filter fun text =>
      displays (Lexer.pieces text)).length ≤ 1 := by
  rw [filter_filterMap]
  have hkeys : ((sts.zip texts).map Prod.fst).Nodup := by
    rw [map_fst_zip h.length_eq.le]
    exact hnodup
  refine length_filterMap_le_one hkeys
    (k := shown.orElse fun _ => (sts.filter s.isDisplay).getLast?) ?_
  rintro ⟨st, text⟩ hq hsome
  have hdisplay := (forall₂_iff_zip.1 h).2 hq
  obtain ⟨t, ht⟩ := Option.isSome_iff_exists.1 hsome
  obtain ⟨hshown, hdisplays⟩ := Option.filter_eq_some_iff.1 ht
  unfold shownText at hshown
  split at hshown
  next heq =>
    rw [heq]
    rfl
  next hne =>
    split at hshown
    · cases hshown
    next hkept =>
      cases hshown
      unfold isDropped at hkept
      rw [hdisplay, hdisplays, Bool.true_and] at hkept
      cases shown with
      | none => exact (by simpa using hkept : _ = some st).symm
      | some w => simpa using hkept

/-- Statements that are displays and texts that are. -/
theorem length_filter_of_forall₂ {α β : Type} {f : α → Bool} {g : β → Bool} {xs : List α}
    {ys : List β} (h : Forall₂ (fun x y => f x = g y) xs ys) :
    (xs.filter f).length = (ys.filter g).length := by
  induction h with
  | nil => rfl
  | cons hxy _ ih =>
    rw [filter_cons, filter_cons, hxy]
    split
    · rw [length_cons, length_cons, ih]
    · exact ih

/-- The statements of a program and their texts, with the displays among them. -/
theorem Source.forall₂_isDisplay {program : Text} {entry : EntryPoint}
    (hentry : (Source.ofText program).entryPoint = some entry) {texts : List Text}
    (htexts : (Source.ofText program).texts ((Source.ofText program).bodyStatements entry) =
      .ok texts) :
    Forall₂ (fun st text => (Source.ofText program).isDisplay st =
        displays (Lexer.pieces text))
          ((Source.ofText program).bodyStatements entry) texts := by
  have hall := Checked.forall₂_of_mapM htexts
  refine forall₂_iff_zip.2 ⟨hall.length_eq, fun hmem => ?_⟩
  exact isDisplay_of_text hentry (of_mem_zip hmem).1
    ((forall₂_iff_zip.1 hall).2 hmem)

/-- **Only the marked value is shown.**  `analyze` puts the statement that `IsMarked` into a
printing call if it `YieldsValue`, and drops all displays; otherwise it drops all displays but
the last.  `shownText` says what becomes of each statement; nothing else of the program
changes, and at most one statement `isDisplay` behind it. -/
theorem analyze_statements {program : Text} {entry : EntryPoint}
    (hentry : (Source.ofText program).entryPoint = some entry)
    (hmark : inputMark <:+: program) (resultCount : ArityQuery → Option Nat) :
    ∃ (shown : Option Statement) (front inside inside' back : Text) (entry' : EntryPoint)
      (texts : List Text),
      (∀ st, shown = some st ↔
        IsMarked program ((Source.ofText program).bodyStatements entry) st ∧
          (Source.ofText program).YieldsValue entry resultCount st) ∧
      program = front ++ inside ++ back ∧
      entry.bodyStart = front.byteSize ∧ entry.bodyStop = (front ++ inside).byteSize ∧
      analyze (fun q => .ok (resultCount q)) program = .ok (front ++ inside' ++ back) ∧
      (Source.ofText (front ++ inside' ++ back)).entryPoint = some entry' ∧
      entry'.bodyStart = front.byteSize ∧ entry'.bodyStop = (front ++ inside').byteSize ∧
      (Source.ofText program).texts ((Source.ofText program).bodyStatements entry) =
        .ok texts ∧
      (Source.ofText (front ++ inside' ++ back)).texts
          ((Source.ofText (front ++ inside' ++ back)).bodyStatements entry') =
        .ok ((((Source.ofText program).bodyStatements entry).zip texts).filterMap fun q =>
          (Source.ofText program).shownText
            ((Source.ofText program).bodyStatements entry) shown q.1 q.2) ∧
      (((Source.ofText (front ++ inside' ++ back)).bodyStatements entry').filter
        (Source.ofText (front ++ inside' ++ back)).isDisplay).length ≤ 1 := by
  obtain ⟨p, hplan, hp⟩ := DisplayPlan.exists_isFor hentry hmark
  obtain ⟨front, inside, inside', back, entry', texts, hprogram, hstart, hstop,
    happly, hentry', hstart', hstop', htexts, htexts'⟩ := hp.exists_result hentry
      (p.query?.bind resultCount)
  refine ⟨p.shownStatement (p.query?.bind resultCount), front, inside, inside', back,
    entry', texts, ?_, hprogram, hstart, hstop, ?_, hentry', hstart', hstop',
    htexts, htexts', ?_⟩
  · intro st
    rw [hp.shownStatement_iff, hp.statements, hp.source]
  · rw [DisplayPlan.analyze_eq hplan, happly]
  · rw [length_filter_of_forall₂ (Source.forall₂_isDisplay hentry' htexts')]
    have hnodup := hp.reads.nodup
    rw [hp.statements] at hnodup
    exact Source.length_shownTexts_le hnodup _ (Source.forall₂_isDisplay hentry htexts)

/-- A call over two lines is shown, with a comment behind it: one display goes with a
semicolon and the blank behind it, the other leaves its line. -/
theorem analyze_statements_call :
    let program : Text := "package main\n\nfunc main() \x7b\n\tfmt.Println(1); x := 2\n" ++
      "\tfmt.Print(x)\n\tf(\n\t\tx) /* c */ // :INPUT\n\x7d\n"
    ∃ entry result entry', (Source.ofText program).entryPoint = some entry ∧
      inputMark <:+: program ∧ analyze (fun _ => .ok (some 1)) program = .ok result ∧
      (Source.ofText result).entryPoint = some entry' ∧
      (Source.ofText result).texts ((Source.ofText result).bodyStatements entry') =
        .ok ["x := 2", "fmt.Println(f(\n\t\tx))"] := by
  intro program
  let entry : EntryPoint := ⟨7, 31, 27, 93⟩
  let call : Statement := ⟨26, 29, ⟨67, 74⟩, some 30⟩
  have hentry : (Source.ofText program).entryPoint = some entry := by decide +kernel
  have hcut : Text.cutLast? inputMark program =
      some (program.take 74 ++ " /* c */ ".toList, "\n\x7d\n".toList) := by decide +kernel
  obtain ⟨hprogram, hlast⟩ := Text.cutLast?_spec hcut
  have hmark : inputMark <:+: program := ⟨_, _, hprogram.symm⟩
  obtain ⟨shown, front, inside, inside', back, entry', texts, hshown, -, -, -, hanalyze,
    hentry', -, -, htexts, hresult, -⟩ := analyze_statements hentry hmark fun _ => some 1
  have hmarked : IsMarked program ((Source.ofText program).bodyStatements entry) call := by
    refine ⟨_, _, _, hprogram, hlast, by decide +kernel, by decide, ?_⟩
    exact ⟨((Source.ofText program).bodyStatements entry).take 3,
      [], by decide +kernel, by simp⟩
  have hvalue : (Source.ofText program).YieldsValue entry (fun _ => some 1) call :=
    .inr ⟨⟨67, 68⟩, "f", 1, by decide +kernel, by decide +kernel, rfl, Nat.one_pos⟩
  have htexts' :
    (Source.ofText program).texts ((Source.ofText program).bodyStatements entry) =
      .ok ["fmt.Println(1)", "x := 2", "fmt.Print(x)", "f(\n\t\tx)"] := by decide +kernel
  obtain rfl := Except.ok.inj (htexts.symm.trans htexts')
  obtain rfl := (hshown call).2 ⟨hmarked, hvalue⟩
  refine ⟨entry, _, entry', hentry, hmark, hanalyze, hentry', hresult.trans ?_⟩
  decide +kernel

end Notebook
