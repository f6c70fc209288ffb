import Mathlib.Data.List.Pairwise
import Notebook.Proofs.Bindings
import Notebook.Proofs.Edits
import Notebook.Proofs.TokenReads

/-!
# The edits of a turn

Five stages of a turn edit a text: declarations are taken out of the input, redeclarations
become assignments, the last value is shown, unused names are discarded, and storing calls are
moved to the end.  Each of them takes its edits from the statements of the text that it edits,
and statements follow one another; so the edits of every stage fit their text, whatever the
text says.

## Main statements

* `declarationsOf_fit`, `demotions_fit`, `DisplayPlan.edits_fit`, `discards_fit`,
  `PersistencePlan.findings_fit`: one for each stage
* `DisplayPlan.deletionSpan_spec`: what is taken out with a display ends before the next
  statement
-/

namespace Notebook

open List

variable {entry : EntryPoint} {statements : List Statement} {s : Source} {st : Statement}
  {before behind program t : Text}

/-! ### Declarations -/

theorem Declaration.ofStatement?_ok (h : st.StandsIn s.tokens) :
    ∃ d, ofStatement? s st = .ok d := by
  obtain ⟨source, hsource⟩ := Source.statementText_ok h
  exact ⟨_, by rw [ofStatement?_eq h, hsource]; rfl⟩

/-- The declarations of a text can be taken out of it. -/
theorem declarationsOf_fit (input : Text) :
    ∃ found, declarationsOf input = .ok found ∧ Edit.Fit input (found.map Prod.snd) := by
  let s := Source.ofText input
  obtain ⟨found, hfound, hspans⟩ : ∃ found, (s.statements.mapM fun st => do
        return (← Declaration.ofStatement? s st).map fun d => (d, Edit.deletion st.span)) =
        .ok found ∧
      Forall₂ (fun st o => st ∈ s.statements ∧ ∀ x ∈ o, x.2 = Edit.deletion st.span)
        s.statements found := by
    refine Checked.mapM_forall₂ fun st hst => ?_
    obtain ⟨d, hd⟩ := Declaration.ofStatement?_ok (Source.standsIn_of_mem hst).1
    refine ⟨d.map fun d => (d, Edit.deletion st.span), by rw [hd]; rfl, hst, ?_⟩
    rintro _ hx
    obtain ⟨d, -, rfl⟩ := Option.map_eq_some_iff.1 hx
    rfl
  refine ⟨found.filterMap id, by rw [declarationsOf_eq_mapM, hfound]; rfl,
    Edit.Fit.of_ordered ?_ ?_⟩
  · intro e he
    obtain ⟨x, hx, rfl⟩ := mem_map.1 he
    obtain ⟨o, ho, hox⟩ := mem_filterMap.1 hx
    obtain ⟨st, -, hst, hspan⟩ := exists_of_forall₂ hspans ho
    rw [hspan x hox]
    exact Source.fits_of_standsIn (Source.standsIn_of_mem hst).1
  · rw [pairwise_map, pairwise_filterMap]
    refine pairwise_of_forall₂ hspans (s.pairwise_ordered 0 _) ?_
    intro st st' o o' hle ho ho' x hx x' hx'
    rw [ho.2 x hx, ho'.2 x' hx']
    exact hle

/-! ### Redeclarations -/

/-- The edit that a redeclaration calls for replaces one token of its statement. -/
theorem Redeclaration.exists_token_of_demotion {session : Session} {r : Redeclaration}
    {e : Edit} (hr : ofStatement? s session st = some r) (he : r.demotion = some e) :
    ∃ t ∈ s.tokensOf st, e.span = ⟨t.pos, t.stop⟩ := by
  simp only [ofStatement?, ofBindings?] at hr
  split at hr
  · cases hr
  · cases hr
    simp only at he
    split at he
    · obtain ⟨t, ht, rfl⟩ := Option.map_eq_some_iff.1 he
      exact ⟨t, mem_of_find?_eq_some ht, rfl⟩
    · cases he

theorem mem_demotions {again : List Redeclaration} {e : Edit} (he : e ∈ demotions again) :
    ∃ r ∈ again, r.demotion = some e := by
  obtain ⟨r, hr, hdemotion⟩ := mem_filterMap.1 he
  exact ⟨r, (mem_filter.1 hr).1, hdemotion⟩

/-- Declarations can be turned into assignments. -/
theorem demotions_fit (session : Session) (body : Text) :
    Edit.Fit body (demotions (redeclarations session body)) := by
  let s := Source.ofText body
  refine Edit.Fit.of_ordered ?_ ?_
  · intro e he
    obtain ⟨r, hr, hdemotion⟩ := mem_demotions he
    obtain ⟨st, -, hst⟩ := mem_filterMap.1 hr
    obtain ⟨t, ht, hspan⟩ := Redeclaration.exists_token_of_demotion hst hdemotion
    have hstands := s.placed.standsIn t ((s.segment_sublist _ _).subset ht)
    rw [hspan]
    exact ⟨t.pos_le_stop, hstands.isBoundary_pos, hstands.isBoundary_stop⟩
  · simp only [demotions, redeclarations, pairwise_filterMap, pairwise_filter]
    refine (s.pairwise_ordered 0 _).imp_of_mem ?_
    intro st st' hst hst' hle r hr r' hr' _ _ e he e' he'
    obtain ⟨t, ht, hspan⟩ := Redeclaration.exists_token_of_demotion hr he
    obtain ⟨t', ht', hspan'⟩ := Redeclaration.exists_token_of_demotion hr' he'
    have hbound := (Source.token_bounds (Source.standsIn_of_mem hst).1 ht).2
    have hbound' := (Source.token_bounds (Source.standsIn_of_mem hst').1 ht').1
    rw [hspan, hspan']
    exact Nat.le_trans hbound (Nat.le_trans hle hbound')

/-! ### The last value -/

namespace DisplayPlan

theorem byteSize_takeWhile_le {p : Char → Bool} {c : Char} (hc : p c = false)
    (x rest : Text) :
    Text.byteSize ((x ++ c :: rest).takeWhile p) ≤ Text.byteSize x := by
  induction x with
  | nil => simp [hc]
  | cons d x ih =>
    rw [cons_append, takeWhile_cons]
    split
    · simpa using ih
    · simp

/-- Blanks that stand before a token end before it, because no token begins with a blank. -/
theorem blanks_le_pos {p : Char → Bool} {k : Token} {c : Char} {r : Text} (hk : k.StandsIn t)
    (hlexeme : k.lexeme = c :: r) (hc : p c = false) (ht : t = before ++ behind)
    (hle : before.byteSize ≤ k.pos) :
    before.byteSize + Text.byteSize (behind.takeWhile p) ≤ k.pos := by
  obtain ⟨u, v, hu, hpos⟩ := hk
  have hboundary : t.IsBoundary k.pos := ⟨u, k.lexeme ++ v, by simp [hu], hpos⟩
  obtain ⟨x, y, hxy, hsize⟩ := Text.IsBoundary.prefix_of_le ht hboundary hle
  have hy : y = c :: (r ++ v) := by
    have h₁ : t.cutAt? k.pos = some (u, c :: (r ++ v)) :=
      Text.cutAt?_eq_some_iff.2 ⟨by simp [hu, hlexeme], hpos⟩
    have h₂ : t.cutAt? k.pos = some (before ++ x, y) :=
      Text.cutAt?_eq_some_iff.2 ⟨by simp [ht, hxy], by simp [hsize]⟩
    rw [h₁] at h₂
    simp only [Option.some.injEq, Prod.mk.injEq] at h₂
    exact h₂.2.symm
  have := byteSize_takeWhile_le hc x (r ++ v)
  rw [hxy, hy, hsize]
  omega

/-- A span that can be taken out for a statement: it fits the text, begins with the statement
and ends before the next one. -/
structure Covers (s : Source) (st : Statement) (d : Span) : Prop where
  fits : d.Fits s.text
  start : d.start = st.span.start
  stop : ∀ y : Statement, y.StandsIn s.tokens → st.Precedes y → d.stop ≤ y.span.start

/-- A statement begins with a token, and the token with no blank. -/
theorem first_token {y : Statement} (h : y.StandsIn s.tokens) :
    ∃ k c r, s.tokens[y.first]? = some k ∧ y.span.start = k.pos ∧ k.lexeme = c :: r ∧
      isBlank c = false := by
  obtain ⟨k, _, hk, -, hspan, hnotSemi, hnotEof⟩ := h.extent
  have hmem : k ∈ tokenize s.text := s.tokens_eq ▸ mem_of_getElem? hk
  rcases tokenize_lexeme hmem with ⟨-, hkind | hkind⟩ | ⟨c, r, hlexeme, hc⟩
  · exact absurd hkind hnotSemi
  · exact absurd hkind hnotEof
  · exact ⟨k, c, r, hk, by rw [hspan], hlexeme, hc⟩

/-- A statement can be taken out up to the blanks behind its semicolon: they cannot reach into
the next statement, because no token begins with a blank. -/
theorem covers_blanks {i : Nat} {semi : Token} (h : st.StandsIn s.tokens)
    (hterm : st.terminator = some i) (hsemi : s.tokens[i]? = some semi)
    (htext : s.text = before ++ behind) (hsize : before.byteSize = semi.stop) :
    Covers s st ⟨st.span.start,
      semi.stop + Text.byteSize (behind.takeWhile fun c => c == ' ' || c == '\t')⟩ where
  fits := by
    have hfits := Source.fits_of_standsIn h
    obtain ⟨hlt, -⟩ := h.terminator i hterm
    obtain ⟨_, b, -, hb, hspan, -, -⟩ := h.extent
    have hle : st.span.stop ≤ semi.pos := by
      rw [hspan]
      exact s.placed.stop_le_pos hb hsemi hlt
    refine ⟨?_, hfits.start, before ++ behind.takeWhile fun c => c == ' ' || c == '\t',
      behind.dropWhile fun c => c == ' ' || c == '\t', ?_, by simp [hsize]⟩
    · have := hfits.le
      have := semi.pos_le_stop
      simp only
      omega
    · rw [append_assoc, takeWhile_append_dropWhile]
      exact htext
  start := rfl
  stop := by
    intro y hy hst
    obtain ⟨k, c, r, hk, hstart, hlexeme, hc⟩ := first_token hy
    have hnone : (c == ' ' || c == '\t') = false := by
      revert hc
      contrapose
      simp only [Bool.not_eq_false, Bool.or_eq_true, beq_iff_eq]
      rintro (rfl | rfl) <;> decide
    rw [hstart, ← hsize]
    refine blanks_le_pos (s.placed.standsIn k (mem_of_getElem? hk)) hlexeme
      hnone htext ?_
    rw [hsize]
    exact s.placed.stop_le_pos hsemi hk (hst.terminator_lt i hterm)

/-- What is taken out with a statement begins with it and ends before the next one. -/
theorem deletionSpan_spec (h : st.StandsIn s.tokens) :
    ∃ d, deletionSpan s st = .ok d ∧ Covers s st d := by
  have hown : Covers s st st.span :=
    ⟨Source.fits_of_standsIn h, rfl, fun y hy hst => Source.stop_le_start h hy hst⟩
  cases hterm : st.terminator with
  | none => exact ⟨st.span, by rw [deletionSpan, hterm], hown⟩
  | some i =>
    obtain ⟨-, semi, hsemi, -⟩ := h.terminator i hterm
    have hread : s.tokenAt i = .ok semi := by rw [Source.tokenAt, hsemi]
    by_cases himplied : semi.isImpliedSemi = true
    · refine ⟨st.span, ?_, hown⟩
      rw [deletionSpan, hterm]
      simp [hread, himplied, bind, Except.bind, pure, Except.pure]
    · have hstands := s.placed.standsIn semi (mem_of_getElem? hsemi)
      obtain ⟨before, behind, htext, hsize⟩ := hstands.isBoundary_stop
      refine ⟨_, ?_, covers_blanks h hterm hsemi htext hsize⟩
      have hcut : s.text.cutAt? semi.stop = some (before, behind) :=
        Text.cutAt?_eq_some_iff.2 ⟨htext, hsize⟩
      rw [deletionSpan, hterm]
      simp [hread, himplied, hcut, bind, Except.bind, pure, Except.pure]

/-- A plan as it is made for a program: it speaks of the program's own statements, and a
question that it asks is about a place of the program. -/
structure Reads (p : DisplayPlan) (program : Text) : Prop where
  text : p.source.text = program
  statements : ∃ first stop, p.statements = p.source.statementsBetween first stop
  marked : ∀ st, p.marked = some st → st ∈ p.statements
  query : ∀ q, p.query? = some q → Span.Fits ⟨q.bodyStart, q.statementStart⟩ q.program

theorem mem_of_markedStatement {mark lineStart : Nat}
    (h : markedStatement statements mark lineStart = some st) : st ∈ statements := by
  have hfind := (Option.filter_eq_some_iff.1 h).1
  exact mem_reverse.1 (mem_of_find?_eq_some hfind)

/-- Whether a statement of the entry function is to be shown can be said, and a question about
it is about a place of the program. -/
theorem needOf_spec (he : s.entryPoint = some entry) (hst : st ∈ s.bodyStatements entry) :
    ∃ need, needOf s entry st = .ok need ∧
      ∀ q, need = .ifResults q → Span.Fits ⟨q.bodyStart, q.statementStart⟩ q.program := by
  rw [needOf_eq (Source.standsIn_of_mem hst).1]
  split
  · exact ⟨.always, rfl, by simp⟩
  next callee hcallee =>
    obtain ⟨text, htext⟩ := (Source.callee_fits hcallee).slice
    refine ⟨.ifResults ⟨text, s.text, entry.bodyStart, st.span.start⟩, ?_, ?_⟩
    · rw [Source.slice, htext]
      rfl
    · rintro q ⟨⟩
      exact ⟨(Source.body_bounds he hst).1, (Source.isBoundary_body he).1,
        (Source.fits_of_standsIn (Source.standsIn_of_mem hst).1).start⟩
  · exact ⟨.never, rfl, by simp⟩

/-- Every program has its plan, or none. -/
theorem ofProgram?_reads (program : Text) :
    ∃ found, ofProgram? program = .ok found ∧ ∀ p, found = some p → p.Reads program := by
  rw [ofProgram?_eq]
  simp only
  split
  next mark lineStart entry hmark he =>
    let statements := (Source.ofText program).bodyStatements entry
    cases hmarked : markedStatement statements mark lineStart with
    | none =>
      refine ⟨some ⟨Source.ofText program, statements, none, .never⟩, rfl, ?_⟩
      rintro p ⟨⟩
      exact ⟨rfl, ⟨_, _, rfl⟩, by simp, by simp [query?]⟩
    | some st =>
      have hmem := mem_of_markedStatement hmarked
      obtain ⟨need, hneed, hquery⟩ := needOf_spec he hmem
      refine ⟨some ⟨Source.ofText program, statements, some st, need⟩, ?_, ?_⟩
      · simp only [hneed]
        rfl
      · rintro p ⟨⟩
        refine ⟨rfl, ⟨_, _, rfl⟩, by rintro _ ⟨⟩; exact hmem, ?_⟩
        intro q hq
        refine hquery q ?_
        revert hq
        cases need <;> simp [query?]
  · exact ⟨none, rfl, by simp⟩

variable {p : DisplayPlan}

theorem Reads.standsIn (h : p.Reads program) (hst : st ∈ p.statements) :
    st.StandsIn p.source.tokens := by
  obtain ⟨first, stop, hstatements⟩ := h.statements
  exact (Source.standsIn_of_mem (hstatements ▸ hst)).1

theorem Reads.pairwise (h : p.Reads program) : p.statements.Pairwise Statement.Precedes := by
  obtain ⟨first, stop, hstatements⟩ := h.statements
  rw [hstatements]
  exact p.source.pairwise_precedes first stop

theorem dropped_sublist (p : DisplayPlan) (wrapped : List Edit) :
    (p.dropped wrapped).Sublist p.statements := by
  unfold dropped droppedOf
  split
  · exact (dropLast_sublist _).trans filter_sublist
  · exact filter_sublist.trans filter_sublist

/-- Wrapping replaces the marked statement, or nothing. -/
theorem wrapEdits_spec (h : p.Reads program) (answer : Option Nat) :
    ∃ wrapped, p.wrapEdits answer = .ok wrapped ∧
      (wrapped = [] ∨ ∃ st ∈ p.statements, ∃ text, wrapped = [⟨st.span, text⟩]) := by
  unfold wrapEdits
  split
  next st hst =>
    split
    · have hmem := h.marked st hst
      obtain ⟨text, htext⟩ := Source.statementText_ok (h.standsIn hmem)
      exact ⟨_, by rw [htext]; rfl, .inr ⟨st, hmem, _, rfl⟩⟩
    · exact ⟨[], rfl, .inl rfl⟩
  · exact ⟨[], rfl, .inl rfl⟩

/-- Statements can be taken out of the program. -/
theorem deletions_spec (h : p.Reads program) {dropped : List Statement}
    (hsub : dropped.Sublist p.statements) :
    ∃ deletions, (dropped.mapM fun st => do
        return Edit.deletion (← deletionSpan p.source st)) = .ok deletions ∧
      Forall₂ (fun st e => st ∈ dropped ∧ Covers p.source st e.span) dropped
        deletions := by
  refine Checked.mapM_forall₂ fun st hst => ?_
  obtain ⟨d, hd, hcovers⟩ := deletionSpan_spec (h.standsIn (hsub.subset hst))
  exact ⟨Edit.deletion d, by rw [hd]; rfl, hst, hcovers⟩

/-- Of two statements one precedes the other. -/
theorem Reads.precedes_or_precedes (h : p.Reads program) {st' : Statement}
    (hst : st ∈ p.statements) (hst' : st' ∈ p.statements) (hne : st ≠ st') :
    st.Precedes st' ∨ st'.Precedes st := by
  have hsymm : p.statements.Pairwise fun x y => x.Precedes y ∨ y.Precedes x :=
    h.pairwise.imp Or.inl
  have : Std.Symm fun x y : Statement => x.Precedes y ∨ y.Precedes x := ⟨fun _ _ => Or.symm⟩
  exact hsymm.forall hst hst' hne

/-- What is taken out for a statement does not touch another one. -/
theorem disjoint_of_covers (h : p.Reads program) {st' : Statement} {d : Span}
    (hst : st ∈ p.statements) (hst' : st' ∈ p.statements) (hne : st ≠ st')
    (hcovers : Covers p.source st' d) : st.span.Disjoint d := by
  rcases h.precedes_or_precedes hst hst' hne with hlt | hlt
  · refine .inl ?_
    rw [hcovers.start]
    exact Source.stop_le_start (h.standsIn hst) (h.standsIn hst') hlt
  · exact .inr (hcovers.stop st (h.standsIn hst) hlt)

/-- The edits that show the last value fit the program. -/
theorem edits_fit (h : p.Reads program) (answer : Option Nat) :
    ∃ edits, p.edits answer = .ok edits ∧ Edit.Fit program edits := by
  obtain ⟨wrapped, hwrapped, hcases⟩ := wrapEdits_spec h answer
  have hsub := p.dropped_sublist wrapped
  obtain ⟨deletions, hdeletions, hspans⟩ := deletions_spec h hsub
  have hok : p.edits answer = .ok (wrapped ++ deletions) := by
    rw [edits_eq fun st => h.standsIn, hwrapped]
    simp only [bind, Except.bind, pure, Except.pure] at hdeletions ⊢
    rw [hdeletions]
  refine ⟨_, hok, ?_, pairwise_append.2 ⟨?_, ?_, ?_⟩⟩
  · intro e he
    rw [← h.text]
    rcases mem_append.1 he with he | he
    · rcases hcases with rfl | ⟨st, hst, text, rfl⟩
      · cases he
      · cases mem_singleton.1 he
        exact Source.fits_of_standsIn (h.standsIn hst)
    · obtain ⟨st, -, -, hcovers⟩ := exists_of_forall₂ hspans he
      exact hcovers.fits
  · rcases hcases with rfl | ⟨st, hst, text, rfl⟩ <;> simp
  · refine pairwise_of_forall₂ hspans (h.pairwise.sublist hsub) ?_
    intro x x' e e' hlt hx hx'
    refine .inl ?_
    rw [hx'.2.start]
    exact hx.2.stop x' (h.standsIn (hsub.subset hx'.1)) hlt
  · intro e he e' he'
    obtain ⟨st', hst', -, hcovers⟩ := exists_of_forall₂ hspans he'
    rcases hcases with rfl | ⟨st, hst, text, rfl⟩
    · cases he
    · cases mem_singleton.1 he
      -- The wrapped statement itself is not among those that are taken out.
      have hne : st ≠ st' := by
        rintro rfl
        simp [dropped, droppedOf] at hst'
      exact disjoint_of_covers h hst (hsub.subset hst') hne hcovers

end DisplayPlan

/-! ### Unused names -/

theorem Edit.insertion_fits {n : Nat} (h : t.IsBoundary n) (text : Text) :
    (insertion n text).span.Fits t :=
  ⟨Nat.le_refl n, h, h⟩

/-- Names can be used for nothing at the end of the entry function. -/
theorem discards_fit (he : (Source.ofText program).entryPoint = some entry)
    (names : List Text) : Edit.Fit program (discards entry names) := by
  have hstop := (Source.isBoundary_body he).2
  refine ⟨?_, pairwise_singleton _ _⟩
  intro e hmem
  cases mem_singleton.1 hmem
  exact Edit.insertion_fits hstop _

/-! ### Storing calls -/

namespace PersistencePlan

theorem existing_ok (h : st.StandsIn s.tokens) :
    ∃ c, existing s st = .ok c ∧ c.span = st.span := by
  obtain ⟨text, htext⟩ := Source.statementText_ok h
  exact ⟨_, by rw [existing_eq (Source.last_lt_of_standsIn h), htext]; rfl, rfl⟩

theorem capture?_ok {b : Binding} (h : b.FitsIn s.text) : ∃ c, capture? s b = .ok c := by
  unfold capture?
  split
  · exact ⟨_, rfl⟩
  · split
    next value hvalue =>
      obtain ⟨text, htext⟩ := (h.value value hvalue).slice
      rw [Source.slice, htext]
      simp only [bind, Except.bind]
      split
      · exact ⟨_, rfl⟩
      · exact ⟨_, rfl⟩
    · exact ⟨_, rfl⟩
    · exact ⟨_, rfl⟩

theorem captures_ok (h : ∀ st ∈ statements, st.StandsIn s.tokens) :
    ∃ found, captures s statements = .ok found := by
  obtain ⟨found, hfound⟩ :
      ∃ found, (statements.flatMap s.bindings).mapM (capture? s) = .ok found := by
    refine Checked.mapM_ok fun b hb => ?_
    obtain ⟨st, -, hb⟩ := mem_flatMap.1 hb
    exact capture?_ok (Source.bindings_fit hb)
  exact ⟨_, by rw [captures_eq h, hfound]; rfl⟩

/-- Storing calls can be moved to the end of the entry function. -/
theorem findings_fit (he : (Source.ofText program).entryPoint = some entry) :
    ∃ found, findings (Source.ofText program) entry = .ok found ∧
      Edit.Fit program (found.edits entry) := by
  let s := Source.ofText program
  let calls := (s.bodyStatements entry).filter s.isPersistence
  have hbody : ∀ st ∈ calls, st ∈ s.bodyStatements entry :=
    fun st hst => (mem_filter.1 hst).1
  obtain ⟨read, hread, hspans⟩ : ∃ read, calls.mapM (existing s) = .ok read ∧
      Forall₂ (fun st c => st ∈ calls ∧ c.span = st.span) calls read := by
    refine Checked.mapM_forall₂ fun st hst => ?_
    obtain ⟨c, hc, hspan⟩ := existing_ok (Source.standsIn_of_mem (hbody st hst)).1
    exact ⟨c, hc, hst, hspan⟩
  obtain ⟨captured, hcaptured⟩ : ∃ captured,
      captures s ((s.bodyStatements entry).filter fun st => !s.isPersistence st) =
        .ok captured :=
    captures_ok fun st hst => (Source.standsIn_of_mem (mem_filter.1 hst).1).1
  refine ⟨⟨read, captured⟩, ?_, Edit.Fit.of_ordered ?_ ?_⟩
  · rw [findings_eq he, hread]
    simp only [bind, Except.bind]
    rw [hcaptured]
    rfl
  · intro e hmem
    rcases mem_append.1 hmem with hmem | hmem
    · obtain ⟨c, hc, rfl⟩ := mem_map.1 hmem
      obtain ⟨st, -, hst, hspan⟩ := exists_of_forall₂ hspans hc
      rw [Edit.deletion, hspan]
      exact Source.fits_of_standsIn (Source.standsIn_of_mem (hbody st hst)).1
    · cases mem_singleton.1 hmem
      exact Edit.insertion_fits (Source.isBoundary_body he).2 _
  · refine pairwise_append.2 ⟨?_, pairwise_singleton _ _, ?_⟩
    · rw [pairwise_map]
      refine pairwise_of_forall₂ hspans ((s.pairwise_ordered _ _).filter _) ?_
      intro st st' c c' hle hc hc'
      rw [Edit.deletion, Edit.deletion, hc.2, hc'.2]
      exact hle
    · intro e hmem e' hmem'
      obtain ⟨c, hc, rfl⟩ := mem_map.1 hmem
      obtain ⟨st, -, hst, hspan⟩ := exists_of_forall₂ hspans hc
      cases mem_singleton.1 hmem'
      rw [Edit.deletion, hspan]
      exact (Source.body_bounds he (hbody st hst)).2

end PersistencePlan

end Notebook
