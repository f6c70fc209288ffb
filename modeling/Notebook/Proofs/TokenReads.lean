import Notebook.Arity.Probe
import Notebook.Persistence
import Notebook.Resolution
import Notebook.Proofs.Checked
import Notebook.Proofs.Statements

/-!
# Tokens read by their numbers

Every stage of a turn reads tokens by their numbers, and a number past the last token is a
fault.  None of these readings fails: the numbers come from the statements, the brackets and
the entry point of the same source, and these stand in its tokens.  So each reading gives what
the function of the same name without `read` says, and each stage can be written down without
faults of this kind.

## Main statements

* `Source.readSegment_eq_mapM`: reading a range is reading its tokens one by one
* `Source.readKind_eq`, `Source.readBindings_eq`, `Source.readFunctionDecls_eq`,
  `Source.readClosureArity_eq`: what is read of a source
* `readRedeclarations_eq`, `DisplayPlan.ofProgram?_eq`, `PersistencePlan.findings_eq`,
  `ArityQuery.replays_eq_mapM`: the stages
-/

namespace Notebook

open List

variable {first stop : Nat} {s : Source} {st : Statement} {t : Token}

namespace Source

variable {i : Nat}

/-! ### Single tokens and ranges -/

theorem tokenAt_eq (h : s.tokens[i]? = some t) : s.tokenAt i = .ok t := by
  rw [tokenAt, h]

/-- What is not the end is a token. -/
theorem exists_token_of_kindAt {k : TokenKind} (h : s.kindAt i = k) (hk : k ≠ .eof) :
    ∃ t, s.tokens[i]? = some t := by
  cases ht : s.tokens[i]? with
  | none => exact absurd (h.symm.trans (by simp [kindAt, ht])) hk
  | some t => exact ⟨t, rfl⟩

theorem readSegment_eq {last : Nat} (h : last < s.tokens.length) :
    s.readSegment first last = .ok (s.segment first last) :=
  if_neg (by omega)

/-- Reading a range is reading its tokens one by one, up to the first that is not there. -/
theorem readSegment_eq_mapM (s : Source) (first last : Nat) :
    s.readSegment first last = (List.range' first (last + 1 - first)).mapM s.tokenAt := by
  generalize hn : last + 1 - first = n
  induction n generalizing first with
  | zero =>
    rw [readSegment, if_neg (by omega), segment, hn]
    rfl
  | succ n ih =>
    have hrest := ih (first + 1) (by omega)
    rw [range'_succ, mapM_cons, ← hrest, readSegment, readSegment, tokenAt]
    by_cases hfirst : first < s.tokens.length
    · rw [getElem?_eq_getElem hfirst]
      by_cases hlast : s.tokens.length ≤ last
      · rw [if_pos (by omega), if_pos (by omega)]
        simp only [bind, Except.bind]
        congr 2
        omega
      · rw [if_neg (by omega), if_neg (by omega), segment, segment, hn,
          drop_eq_getElem_cons hfirst, take_succ_cons,
          show last + 1 - (first + 1) = n by omega]
        rfl
    · rw [getElem?_eq_none (by omega), if_pos (by omega), Nat.max_eq_left (by omega)]
      rfl

theorem readBefore_eq (h : stop ≤ s.tokens.length) :
    s.readBefore stop = .ok (s.tokens.take stop) :=
  if_neg (by omega)

theorem readEntryPoint_eq (s : Source) : s.readEntryPoint = .ok s.entryPoint := by
  rw [readEntryPoint, entryPoint]
  cases hi : entryIndex 0 s.tokens with
  | none => rfl
  | some i =>
    simp only [Option.bind_eq_bind, Option.bind_some]
    cases hclose : s.matching (i + 4) with
    | none => rfl
    | some close =>
      obtain ⟨brace, hbrace, -⟩ := exists_brace_of_entryIndex hi
      have hc := getElem?_eq_getElem (matching_lt hclose).2
      simp only [tokenAt_eq hbrace, tokenAt_eq hc, hbrace, hc, Checked.ok_bind,
        Option.bind_some]
      rfl

/-! ### Statements -/

theorem statementsIn_eq (h : stop ≤ s.tokens.length) :
    s.statementsIn first stop = .ok (s.statementsBetween first stop) :=
  if_neg (by omega)

theorem readStatements_eq (s : Source) : s.readStatements = .ok s.statements :=
  statementsIn_eq (Nat.le_refl _)

theorem readBodyStatements_eq {e : EntryPoint} (he : s.entryPoint = some e) :
    s.readBodyStatements e = .ok (s.bodyStatements e) := by
  obtain ⟨-, -, c, -, hc, -, -⟩ := entryPoint_spec he
  exact statementsIn_eq (Nat.le_of_lt (List.getElem?_eq_some_iff.1 hc).1)

theorem exists_first_of_standsIn (h : st.StandsIn s.tokens) :
    ∃ t, s.tokens[st.first]? = some t := by
  obtain ⟨a, -, ha, -, -, -, -⟩ := h.extent
  exact ⟨a, ha⟩

theorem last_lt_of_standsIn (h : st.StandsIn s.tokens) : st.last < s.tokens.length := by
  obtain ⟨-, b, -, hb, -, -, -⟩ := h.extent
  exact (List.getElem?_eq_some_iff.1 hb).1

theorem readTokensOf_eq (h : st.StandsIn s.tokens) :
    s.readTokensOf st = .ok (s.tokensOf st) :=
  readSegment_eq (last_lt_of_standsIn h)

theorem drop_eq_cons (h : s.tokens[i]? = some t) :
    s.tokens.drop i = t :: s.tokens.drop (i + 1) := by
  obtain ⟨hi, rfl⟩ := List.getElem?_eq_some_iff.1 h
  exact drop_eq_getElem_cons hi

theorem drop_eq_nil (h : s.tokens[i]? = none) : s.tokens.drop i = [] :=
  drop_eq_nil_of_le (List.getElem?_eq_none_iff.1 h)

theorem readIsDisplay_eq (h : st.StandsIn s.tokens) :
    s.readIsDisplay st = .ok (s.isDisplay st) := by
  obtain ⟨a, ha⟩ := exists_first_of_standsIn h
  rw [readIsDisplay, isDisplay, tokenAt_eq ha, Checked.ok_bind, drop_eq_cons ha]
  -- The tokens behind the first are there one after the other, or none of them is.
  cases hd : s.tokens[st.first + 1]? with
  | none => simp [kindAt, hd, drop_eq_nil hd, startsDisplay, pure, Except.pure]
  | some d =>
    rw [drop_eq_cons hd]
    cases hf : s.tokens[st.first + 2]? with
    | none => simp [kindAt, hf, drop_eq_nil hf, startsDisplay, pure, Except.pure]
    | some f =>
      rw [drop_eq_cons hf, kindAt_eq hd, kindAt_eq hf, tokenAt_eq hf, Checked.ok_bind]
      cases hl : s.tokens[st.first + 3]? with
      | none => simp [kindAt, hl, drop_eq_nil hl, startsDisplay, pure, Except.pure]
      | some l =>
        rw [drop_eq_cons hl, kindAt_eq hl, startsDisplay]
        split
        next hfront => simp_all [pure, Except.pure]
        next hfront => simp_all [pure, Except.pure]

theorem readIsPersistence_eq (h : st.StandsIn s.tokens) :
    s.readIsPersistence st = .ok (s.isPersistence st) := by
  obtain ⟨a, ha⟩ := exists_first_of_standsIn h
  rw [readIsPersistence, isPersistence, tokenAt_eq ha, Checked.ok_bind, drop_eq_cons ha]
  cases hl : s.tokens[st.first + 1]? with
  | none => simp [kindAt, hl, drop_eq_nil hl, startsPersistence, pure, Except.pure]
  | some l =>
    rw [drop_eq_cons hl, kindAt_eq hl]
    rfl

theorem readKind_eq (h : st.StandsIn s.tokens) : s.readKind st = .ok (s.classify st) := by
  obtain ⟨a, ha⟩ := exists_first_of_standsIn h
  rw [readKind, classify, leadingKind?, tokenAt_eq ha, Checked.ok_bind, kindAt_eq ha]
  cases s.leadingKindFrom? st a.kind with
  | some k => rfl
  | none =>
    simp only [readIsDisplay_eq h, readTokensOf_eq h, Checked.ok_bind]
    cases s.isDisplay st with
    | true => rfl
    | false => rfl

/-! ### Bindings -/

/-- The specifications of a group are statements, so they can be read as any other. -/
theorem readSpecs_eq (h : stop ≤ s.tokens.length) :
    (do
      let specs ← s.statementsIn first stop
      let found ← specs.mapM fun spec => do return specBindings (← s.readTokensOf spec)
      return found.flatten) =
    (.ok ((s.statementsBetween first stop).flatMap fun spec =>
      specBindings (s.tokensOf spec)) :
      Checked (List Binding)) := by
  have hspecs : ((s.statementsBetween first stop).mapM fun spec =>
      (do return specBindings (← s.readTokensOf spec) : Checked (List Binding))) =
      .ok ((s.statementsBetween first stop).map fun spec => specBindings (s.tokensOf spec)) :=
    Checked.mapM_eq fun spec hspec => by
      rw [readTokensOf_eq (standsIn_of_mem hspec).1]
      rfl
  rw [statementsIn_eq h, Checked.ok_bind, hspecs, Checked.ok_bind, flatMap_def]
  rfl

theorem readBindings_eq (h : st.StandsIn s.tokens) :
    s.readBindings st = .ok (s.bindings st) := by
  obtain ⟨a, ha⟩ := exists_first_of_standsIn h
  have hlast := last_lt_of_standsIn h
  rw [readBindings, bindings, tokenAt_eq ha, Checked.ok_bind, kindAt_eq ha]
  split
  case h_3 =>
    rw [readTokensOf_eq h]
    rfl
  all_goals
    split
    · cases hclose : s.matching (st.first + 1) with
      | none => rfl
      | some close => exact readSpecs_eq (Nat.le_of_lt (matching_lt hclose).2)
    · rw [readSegment_eq hlast]
      rfl

/-! ### Functions -/

theorem readResultCount_eq (s : Source) (i : Nat) :
    s.readResultCount i = .ok (s.resultCount i) := by
  rw [readResultCount, resultCount]
  split
  case h_5 =>
    cases hclose : s.matching i with
    | none => rfl
    | some close =>
      have hlt := (matching_lt hclose).2
      simp only
      split
      · rfl
      · rw [readSegment_eq (by omega)]
        rfl
  all_goals rfl

/-- The name of a function is a name. -/
theorem kindAt_of_functionPlace? {place : FunctionPlace}
    (h : s.functionPlace? st = some place) :
    s.kindAt place.nameIndex = .ident := by
  obtain ⟨nameIndex, -, h⟩ := Option.bind_eq_some_iff.1 h
  split at h
  next hident =>
    obtain ⟨params, -, h⟩ := Option.bind_eq_some_iff.1 h
    split at h
    · obtain ⟨close, -, h⟩ := Option.bind_eq_some_iff.1 h
      cases h
      exact hident
    · cases h
  · cases h

theorem readFunctionDecl?_eq (s : Source) (st : Statement) :
    s.readFunctionDecl? st = .ok (s.functionDecl? st) := by
  rw [readFunctionDecl?, functionDecl?]
  cases hplace : s.functionPlace? st with
  | none => rfl
  | some place =>
    obtain ⟨name, hname⟩ :=
      exists_token_of_kindAt (kindAt_of_functionPlace? hplace) TokenKind.noConfusion
    simp only [tokenAt_eq hname, hname, readResultCount_eq, Checked.ok_bind,
      Option.bind_eq_bind, Option.bind_some]
    rfl

theorem readFunctionDecls_eq (s : Source) : s.readFunctionDecls = .ok s.functionDecls := by
  rw [readFunctionDecls, readStatements_eq, Checked.ok_bind]
  exact Checked.filterMapM_eq fun st _ => s.readFunctionDecl?_eq st

theorem readClosureArity_eq (h : st.StandsIn s.tokens) :
    s.readClosureArity st = .ok (s.closureArity st) := by
  rw [readClosureArity, closureArity, readTokensOf_eq h, Checked.ok_bind]
  cases s.closurePlace? st.first (s.tokensOf st) with
  | none => rfl
  | some p =>
    simp only [readResultCount_eq, Checked.ok_bind, Option.map_some]
    rfl

end Source

/-! ### Declarations and redeclarations -/

namespace Declaration

/-- What is read of a method, behind the `func` at a token. -/
theorem readMethod_eq {close : Nat} (hclose : s.matching (st.first + 1) = some close) :
    (if s.kindAt (close + 1) = .ident ∧ s.kindAt (close + 2) = .opening .paren then do
      let receiver ← s.readSegment (st.first + 2) close
      let name ← s.tokenAt (close + 1)
      return some (.function, (receiverName? receiver).getD [] ++ "." ++ name.lexeme)
    else .ok none : Checked (Option (DeclarationKind × Text))) =
    .ok (do
      let name ← s.tokens[close + 1]?
      if name.kind = .ident ∧ s.kindAt (close + 2) = .opening .paren then
        some (.function,
          (receiverName? (s.segment (st.first + 2) close)).getD [] ++ "." ++ name.lexeme)
      else none) := by
  rw [Source.readSegment_eq (Source.matching_lt hclose).2]
  cases hname : s.tokens[close + 1]? with
  | none => simp [Source.kindAt, hname]
  | some name =>
    rw [Source.kindAt_eq hname, Source.tokenAt_eq hname, Option.bind_eq_bind,
      Option.bind_some]
    split
    · rfl
    · rfl

theorem readIdentity?_eq (h : st.StandsIn s.tokens) (source : Text) :
    readIdentity? s st source = .ok (identify? s st source) := by
  obtain ⟨a, ha⟩ := Source.exists_first_of_standsIn h
  rw [readIdentity?, identify?, Source.drop_eq_cons ha, Source.kindAt_eq ha]
  simp only [head?_drop]
  -- The token behind the first is a name, and then it is there, or it is none.
  have hnext : (∃ n, s.kindAt (st.first + 1) = .ident ∧ s.tokenAt (st.first + 1) = .ok n ∧
        (s.tokens[st.first + 1]?.filter fun n => n.kind == .ident) = some n) ∨
      s.kindAt (st.first + 1) ≠ .ident ∧
        (s.tokens[st.first + 1]?.filter fun n => n.kind == .ident) = none := by
    cases hn : s.tokens[st.first + 1]? with
    | none => simp [Source.kindAt, hn]
    | some n =>
      rw [Source.kindAt_eq hn, Source.tokenAt_eq hn]
      by_cases hident : n.kind = .ident
      · exact .inl ⟨n, hident, rfl, by simp [hident]⟩
      · exact .inr ⟨hident, by simp [hident]⟩
  split
  · rfl
  · rcases hnext with ⟨n, hident, hn, hfilter⟩ | ⟨hident, hfilter⟩
    · rw [if_pos hident, hn, hfilter]
      rfl
    · rw [if_neg hident, hfilter]
      rfl
  · rcases hnext with ⟨n, hident, hn, hfilter⟩ | ⟨hident, hfilter⟩
    · rw [if_pos hident, hn, hfilter]
      rfl
    · rw [if_neg hident, hfilter]
      split
      · cases hclose : s.matching (st.first + 1) with
        | none => rfl
        | some close => exact readMethod_eq hclose
      · rfl
  · rfl

/-- The declaration of a statement, from what `Declaration.identify?` says of it. -/
theorem ofStatement?_eq (h : st.StandsIn s.tokens) :
    ofStatement? s st = (do
      let source ← s.statementText st
      return (identify? s st source).map fun i => ⟨i.1, i.2, source⟩) := by
  simp only [ofStatement?, readIdentity?_eq h, Checked.ok_bind]

end Declaration

theorem declarationsOf_eq_mapM (input : Text) :
    declarationsOf input = (do
      let found ← (Source.ofText input).statements.mapM fun st => do
        return (← Declaration.ofStatement? (.ofText input) st).map fun d =>
          (d, Edit.deletion st.span)
      return found.filterMap id) := by
  rw [declarationsOf, Source.readStatements_eq]
  rfl

theorem Redeclaration.readStatement?_eq (h : st.StandsIn s.tokens) (session : Session) :
    readStatement? s session st = .ok (ofStatement? s session st) := by
  have hfirst : st.first ≤ s.tokens.length :=
    Nat.le_trans h.first_le_last (Nat.le_of_lt (Source.last_lt_of_standsIn h))
  rw [readStatement?, Source.readBindings_eq h, Checked.ok_bind, Source.readBefore_eq hfirst,
    Checked.ok_bind, Source.readTokensOf_eq h]
  rfl

theorem readRedeclarations_eq (session : Session) (body : Text) :
    readRedeclarations session body = .ok (redeclarations session body) := by
  rw [readRedeclarations, Source.readStatements_eq]
  exact Checked.filterMapM_eq fun st hst =>
    Redeclaration.readStatement?_eq (Source.standsIn_of_mem hst).1 session

theorem assemble_eq (session : Session) (store : ValueStore) (files : FileTree)
    (input : Text) :
    assemble session store files input = (do
      let (declarations, body) ← splitDeclarations input
      let again := redeclarations session body
      let body ← Edit.applyAll body (demotions again)
      return {
        program := programText (Declaration.merge session.declarations declarations)
          (rehydrationLines session store files (skippedNames again))
          (body.trim ++ " " ++ inputMark)
        declarations := declarations }) := by
  simp only [assemble, readRedeclarations_eq, Checked.ok_bind]

/-! ### The last value -/

namespace DisplayPlan

theorem needOf_eq (h : st.StandsIn s.tokens) (entry : EntryPoint) :
    needOf s entry st =
      match s.classify st with
      | .expr => .ok .always
      | .call callee => do
        let callee ← s.slice callee
        return .ifResults ⟨callee, s.text, entry.bodyStart, st.span.start⟩
      | _ => .ok .never := by
  rw [needOf, Source.readKind_eq h, Checked.ok_bind]
  rfl

theorem ofProgram?_eq (program : Text) :
    ofProgram? program =
      let s := Source.ofText program
      match markOffsets? program, s.entryPoint with
      | some (mark, lineStart), some entry => do
        let statements := s.bodyStatements entry
        let marked := markedStatement statements mark lineStart
        let need ← match marked with
          | some st => needOf s entry st
          | none => pure .never
        return some ⟨s, statements, marked, need⟩
      | _, _ => .ok none := by
  simp only [ofProgram?, Source.readEntryPoint_eq, Checked.ok_bind]
  cases markOffsets? program with
  | none => rfl
  | some offsets =>
    cases he : (Source.ofText program).entryPoint with
    | none => rfl
    | some entry => exact congrArg (· >>= _) (Source.readBodyStatements_eq he)

theorem edits_eq {p : DisplayPlan} (h : ∀ st ∈ p.statements, st.StandsIn p.source.tokens)
    (answer : Option Nat) :
    p.edits answer = (do
      let wrapped ← p.wrapEdits answer
      let deletions ← (p.dropped wrapped).mapM fun st => do
        return Edit.deletion (← deletionSpan p.source st)
      return wrapped ++ deletions) := by
  rw [edits, Checked.filterM_eq fun st hst => Source.readIsDisplay_eq (h st hst)]
  rfl

end DisplayPlan

/-! ### Storing calls -/

namespace PersistencePlan

theorem existing_eq (h : st.last < s.tokens.length) :
    existing s st = (do
      let text ← s.statementText st
      let args := (s.tokens.drop (st.first + 2)).take (st.last - (st.first + 2))
      return ⟨st.span, text, persistedName? args⟩) := by
  have hargs : s.segment (st.first + 2) (st.last - 1) =
      (s.tokens.drop (st.first + 2)).take (st.last - (st.first + 2)) := by
    rw [Source.segment]
    congr 1
    omega
  simp only [existing, Source.readSegment_eq (show st.last - 1 < s.tokens.length by omega),
    hargs, Checked.ok_bind]

theorem captures_eq {statements : List Statement}
    (h : ∀ st ∈ statements, st.StandsIn s.tokens) :
    captures s statements = (do
      let found ← (statements.flatMap s.bindings).mapM (capture? s)
      return (firstOfEach [] (found.filterMap id)).mergeSort fun a b => a.pos ≤ b.pos) := by
  rw [captures, Checked.mapM_eq fun st hst => Source.readBindings_eq (h st hst),
    Checked.ok_bind, ← flatMap_def]

/-- The captures of some statements of the entry function. -/
theorem captures_body_eq (s : Source) (entry : EntryPoint) (p : Statement → Bool) :
    captures s ((s.bodyStatements entry).filter p) = (do
      let found ← (((s.bodyStatements entry).filter p).flatMap s.bindings).mapM (capture? s)
      return (firstOfEach [] (found.filterMap id)).mergeSort fun a b => a.pos ≤ b.pos) :=
  captures_eq fun _ hst => (Source.standsIn_of_mem (mem_filter.1 hst).1).1

theorem findings_eq {entry : EntryPoint} (he : s.entryPoint = some entry) :
    findings s entry = (do
      let calls ← ((s.bodyStatements entry).filter s.isPersistence).mapM (existing s)
      let captured ← captures s ((s.bodyStatements entry).filter fun st =>
        !s.isPersistence st)
      return ⟨calls, captured⟩) := by
  have hcall (st : Statement) (hst : st ∈ s.bodyStatements entry) :=
    Source.readIsPersistence_eq (Source.standsIn_of_mem hst).1
  have hother (st : Statement) (hst : st ∈ s.bodyStatements entry) :
      (do return !(← s.readIsPersistence st) : Checked Bool) = .ok (!s.isPersistence st) := by
    rw [hcall st hst]
    rfl
  rw [findings, Source.readBodyStatements_eq he, Checked.ok_bind, Checked.filterM_eq hcall,
    Checked.filterM_eq hother]
  rfl

end PersistencePlan

theorem planPersistence_eq (program : Text) :
    planPersistence program =
      let s := Source.ofText program
      match s.entryPoint with
      | none => .ok none
      | some entry => do
        let found ← PersistencePlan.findings s entry
        return some {
          program := ← Edit.applyAll program (found.edits entry)
          names := PersistencePlan.storedNames found.stored found.captures
          literals := found.literals } := by
  rw [planPersistence, Source.readEntryPoint_eq, Checked.ok_bind]
  rfl

/-! ### Unused names -/

theorem BindingLines.ofStatement_eq (h : st.StandsIn s.tokens) :
    ofStatement s st = (do
      let first ← s.tokenAt st.first
      let last ← s.tokenAt st.last
      return ⟨first.start.line, last.start.line, (s.bindings st).map (·.name)⟩) := by
  rw [ofStatement, Source.readBindings_eq h]
  rfl

theorem bindingLines_eq (program : Text) :
    bindingLines program =
      let s := Source.ofText program
      match s.entryPoint with
      | none => .ok []
      | some entry => do
        let found ← (s.bodyStatements entry).mapM (BindingLines.ofStatement s)
        return found.filter fun b => !b.names.isEmpty := by
  simp only [bindingLines, Source.readEntryPoint_eq, Checked.ok_bind]
  cases he : (Source.ofText program).entryPoint with
  | none => rfl
  | some entry => simp only [Source.readBodyStatements_eq he, Checked.ok_bind]

theorem resolve_eq {σ : Type} (tools : Toolchain σ) (ws : Workspace) (program : Text)
    (w : World σ) :
    resolve tools ws program w =
      match (Source.ofText program).entryPoint with
      | none => .ok (⟨program, [], some .noEntryPoint⟩, w)
      | some entry => do
        let (outcome, w) := trialBuild tools ws program w
        return (← resolutionOf program entry outcome, w) := by
  rw [resolve, Source.readEntryPoint_eq, Checked.ok_bind]
  rfl

/-! ### Questions about results -/

/-- Whether a text declares a type can be said. -/
theorem Source.declaresType_ok (s : Source) (name : Text) :
    ∃ b, s.declaresType name = .ok b := by
  rw [declaresType, readStatements_eq, Checked.ok_bind]
  refine Checked.anyM_ok fun st _ => ?_
  split
  next hkinds =>
    simp only [Bool.and_eq_true, beq_iff_eq] at hkinds
    obtain ⟨n, hn⟩ := exists_token_of_kindAt hkinds.2 TokenKind.noConfusion
    exact ⟨_, by rw [tokenAt_eq hn]; rfl⟩
  · exact ⟨false, rfl⟩

namespace ArityQuery

theorem leadingCount?_ok (callee : Source) : ∃ count, leadingCount? callee = .ok count := by
  rw [leadingCount?]
  split
  case h_4 hop =>
    obtain ⟨t, ht⟩ := Source.exists_token_of_kindAt hop TokenKind.noConfusion
    exact ⟨_, by rw [Source.tokenAt_eq ht]; rfl⟩
  case h_5 =>
    cases callee.matching 1 with
    | none => exact ⟨_, rfl⟩
    | some close => exact ⟨_, by simp only [Source.readResultCount_eq]; rfl⟩
  all_goals exact ⟨_, rfl⟩

theorem closureCount?_eq (before : Source) (name : Text) :
    closureCount? before name =
      .ok (((before.statements.filterMap before.closureArity).filter
        (·.1 == name)).getLast?.map Prod.snd) := by
  have hread : ∀ st ∈ before.statements,
      before.readClosureArity st = .ok (before.closureArity st) :=
    fun st hst => Source.readClosureArity_eq (Source.standsIn_of_mem hst).1
  rw [closureCount?, Source.readStatements_eq, Checked.ok_bind, Checked.mapM_eq hread,
    Checked.ok_bind, filterMap_map]
  rfl

end ArityQuery

theorem Replay.ofStatement?_eq (h : st.StandsIn s.tokens) :
    ofStatement? s st = (do
      if ← isReplay s (s.bindings st) then
        let text ← s.statementText st
        return some ⟨text, (s.bindings st).map (·.name), identifiers text⟩
      else return none) := by
  rw [ofStatement?, Source.readBindings_eq h]
  rfl

theorem ArityQuery.replays_eq_mapM (q : ArityQuery) :
    q.replays = (do
      let s := Source.ofText (← q.preceding)
      return (← s.statements.mapM (Replay.ofStatement? s)).filterMap id) := by
  simp only [replays, Source.readStatements_eq, Checked.ok_bind]

end Notebook
