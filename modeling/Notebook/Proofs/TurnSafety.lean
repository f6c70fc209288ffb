import Notebook.Kernel
import Notebook.Proofs.StageEdits
import Notebook.Proofs.Tiling
import Notebook.Proofs.UnusedReports

/-!
# A turn has no faults

Reading a place of a text (`Span.slice`) or a token by its number (`Source.tokenAt`,
`Source.readSegment`) can fail with a `Fault`, and each stage of a turn does so many times.
None of these readings fails, for any session, any input, any files and any behaviour of the
tools: the places and the numbers are taken from the text in which they are read.

## Main statements

* `Source.statementsIn_eq_walk`: the statements of a range are read in this way
* `Kernel.turn_faultless`: a turn has an outcome, and all its edits fit
-/

namespace Notebook

open List

/-! ### Statements -/

namespace Source

/-- The splitting of `n` tokens from number `i` on, each read when the walk comes to it.  The
end token ends the walk. -/
def walk (s : Source) : Nat → Nat → SplitState → Checked (List Statement)
  | 0, _, st => .ok (st.close none)
  | n + 1, i, st => do
    let t ← s.tokenAt i
    if t.kind = .eof then return st.close none
    else if st.splitsAt t.kind then
      return st.close (some i) ++ (← s.walk n (i + 1) ⟨st.depth, st.header, none⟩)
    else s.walk n (i + 1) (st.take i t)

/-- Behind a token that is not the end there is another. -/
theorem succ_lt_of_kind_ne {s : Source} {i : Nat} {t : Token} (ht : s.tokens[i]? = some t)
    (heof : t.kind ≠ .eof) : i + 1 < s.tokens.length := by
  obtain ⟨front, last, htokens, hlast, -⟩ := exists_eof_tokenize s.text
  rw [← s.tokens_eq] at htokens
  obtain ⟨hi, rfl⟩ := List.getElem?_eq_some_iff.1 ht
  rcases Nat.lt_or_eq_of_le (Nat.succ_le_of_lt hi) with hlt | heq
  · exact hlt
  · refine absurd ?_ heof
    have hend : s.tokens[i]? = some last := by
      rw [htokens, length_append, length_singleton] at heq
      rw [htokens, Nat.succ.inj heq, getElem?_concat_length]
    rw [Option.some.inj (ht.symm.trans hend), hlast]

/-- A walk that begins at a token reads tokens only. -/
theorem walk_eq_split {s : Source} {n i : Nat} {st : SplitState} (h : i < s.tokens.length) :
    s.walk n i st = .ok (split i st ((s.tokens.drop i).take n)) := by
  induction n generalizing i st with
  | zero => rfl
  | succ n ih =>
    have ht := getElem?_eq_getElem h
    rw [walk, tokenAt_eq ht, Checked.ok_bind, drop_eq_cons ht, take_succ_cons, split]
    split
    · rfl
    next heof =>
      have hnext := succ_lt_of_kind_ne ht heof
      split
      · rw [ih hnext]
        rfl
      · exact ih hnext

/-- **Statements are read token by token.**  What `statementsIn` gives for a range, a fault or
not, is what the walk gives that reads the tokens of the range one after the other. -/
theorem statementsIn_eq_walk (s : Source) (first stop : Nat) :
    s.statementsIn first stop = s.walk (stop - first) first .initial := by
  rw [statementsIn, statementsBetween]
  by_cases hfirst : first < s.tokens.length
  · rw [if_neg (by omega), walk_eq_split hfirst]
  · cases hn : stop - first with
    | zero =>
      rw [if_neg (by omega)]
      rfl
    | succ n =>
      rw [if_pos (by omega), walk, tokenAt, getElem?_eq_none (by omega)]
      rfl

end Source

/-! ### Questions about results -/

namespace Replay

theorem isReplay_ok {s : Source} {bindings : List Binding}
    (h : ∀ b ∈ bindings, b.FitsIn s.text) : ∃ r, isReplay s bindings = .ok r := by
  cases bindings with
  | nil => exact ⟨false, rfl⟩
  | cons b rest =>
    have hb := h b mem_cons_self
    rw [isReplay]
    split
    · exact ⟨false, rfl⟩
    · cases hvalue : b.value with
      | some value =>
        obtain ⟨text, htext⟩ := (hb.value value hvalue).slice
        simp only [Source.slice, htext]
        split
        · exact ⟨_, rfl⟩
        · exact ⟨_, rfl⟩
      | none =>
        cases hrhs : b.rhs with
        | some rhs =>
          obtain ⟨text, htext⟩ := (hb.rhs rhs hrhs).slice
          exact ⟨_, by simp only [Source.slice, htext]; rfl⟩
        | none => exact ⟨false, rfl⟩

theorem ofStatement?_ok {s : Source} {st : Statement} (h : st.StandsIn s.tokens) :
    ∃ r, ofStatement? s st = .ok r := by
  obtain ⟨replays, hreplays⟩ := isReplay_ok fun b (hb : b ∈ s.bindings st) =>
    Source.bindings_fit hb
  obtain ⟨text, htext⟩ := Source.statementText_ok h
  rw [ofStatement?_eq h, hreplays]
  simp only [bind, Except.bind, htext]
  split
  · exact ⟨_, rfl⟩
  · exact ⟨_, rfl⟩

end Replay

namespace ArityQuery

/-- A question about a place of its program. -/
def Placed (q : ArityQuery) : Prop :=
  Span.Fits ⟨q.bodyStart, q.statementStart⟩ q.program

variable {q : ArityQuery}

theorem preceding_ok (h : q.Placed) : ∃ t, q.preceding = .ok t :=
  Span.Fits.slice h

theorem staticCount_ok (h : q.Placed) : ∃ n, q.staticCount = .ok n := by
  obtain ⟨before, hbefore⟩ := preceding_ok h
  obtain ⟨leading, hleading⟩ := leadingCount?_ok (Source.ofText q.callee.trim)
  obtain ⟨declared, hdeclared⟩ := (Source.ofText q.program).declaresType_ok q.callee.trim
  simp only [staticCount, hleading, hdeclared, hbefore, Source.readFunctionDecls_eq,
    closureCount?_eq, Checked.ok_bind]
  repeat' split
  all_goals exact ⟨_, rfl⟩

theorem isPackageQualified_ok (h : q.Placed) : ∃ b, q.isPackageQualified = .ok b := by
  obtain ⟨before, hbefore⟩ := preceding_ok h
  simp only [isPackageQualified, hbefore, bind, Except.bind]
  repeat' split
  all_goals exact ⟨_, rfl⟩

theorem replays_ok (h : q.Placed) : ∃ r, q.replays = .ok r := by
  obtain ⟨before, hbefore⟩ := preceding_ok h
  let s := Source.ofText before
  obtain ⟨found, hfound⟩ : ∃ found, s.statements.mapM (Replay.ofStatement? s) = .ok found :=
    Checked.mapM_ok fun st hst => Replay.ofStatement?_ok (Source.standsIn_of_mem hst).1
  refine ⟨found.filterMap id, ?_⟩
  rw [replays_eq_mapM, hbefore]
  simp only [bind, Except.bind]
  rw [hfound]
  rfl

theorem probeProgram_ok (h : q.Placed) : ∃ t, q.probeProgram = .ok t := by
  obtain ⟨replays, hreplays⟩ := replays_ok h
  have hfront : Span.Fits ⟨0, q.bodyStart⟩ q.program :=
    ⟨Nat.zero_le _, Text.isBoundary_zero _, h.start⟩
  obtain ⟨front, hfront⟩ := hfront.slice
  exact ⟨_, by simp only [probeProgram, hreplays, hfront, bind, Except.bind]; rfl⟩

end ArityQuery

section Stages

variable {σ : Type} (tools : Toolchain σ) (ws : Workspace)

theorem arityAnswer_ok {q : ArityQuery} (h : q.Placed) (mayProbe : Bool) (cache : ArityCache)
    (w : World σ) : ∃ r, arityAnswer tools ws mayProbe q cache w = .ok r := by
  obtain ⟨known, hknown⟩ := ArityQuery.staticCount_ok h
  obtain ⟨lasting, hlasting⟩ := ArityQuery.isPackageQualified_ok h
  obtain ⟨program, hprogram⟩ := ArityQuery.probeProgram_ok h
  simp only [arityAnswer, probedAnswer, hknown, hlasting, hprogram, bind, Except.bind]
  repeat' split
  all_goals exact ⟨_, rfl⟩

/-! ### The stages of a turn -/

theorem splitDeclarations_ok (input : Text) : ∃ r, splitDeclarations input = .ok r := by
  obtain ⟨found, hfound, hfit⟩ := declarationsOf_fit input
  obtain ⟨rest, hrest⟩ := hfit.applyAll
  exact ⟨_, by simp only [splitDeclarations, hfound, hrest, bind, Except.bind]; rfl⟩

theorem assemble_ok (session : Session) (store : ValueStore) (files : FileTree)
    (input : Text) :
    ∃ made, assemble session store files input = .ok made := by
  obtain ⟨⟨declarations, body⟩, hsplit⟩ := splitDeclarations_ok input
  obtain ⟨demoted, hdemoted⟩ := (demotions_fit session body).applyAll
  exact ⟨_, by simp only [assemble_eq, hsplit, hdemoted, bind, Except.bind]; rfl⟩

theorem DisplayPlan.apply_ok {p : DisplayPlan} {program : Text} (h : p.Reads program)
    (answer : Option Nat) : ∃ shown, p.apply answer = .ok shown := by
  obtain ⟨edits, hedits, hfit⟩ := edits_fit h answer
  obtain ⟨shown, hshown⟩ := hfit.applyAll
  refine ⟨shown, ?_⟩
  rw [apply, hedits, h.text]
  exact hshown

theorem Kernel.display_ok (k : Kernel) (program : Text) (w : World σ) :
    ∃ r, display tools k program w = .ok r := by
  obtain ⟨found, hfound, hreads⟩ := DisplayPlan.ofProgram?_reads program
  rw [display, hfound]
  cases found with
  | none => exact ⟨_, rfl⟩
  | some p =>
    have hp := hreads p rfl
    cases hquery : p.query? with
    | none =>
      obtain ⟨shown, hshown⟩ := DisplayPlan.apply_ok hp none
      exact ⟨_, by simp only [bind, Except.bind, hquery, hshown]; rfl⟩
    | some q =>
      obtain ⟨⟨answer, cache, w'⟩, hanswer⟩ :=
        arityAnswer_ok tools k.workspace (hp.query q hquery) k.config.probeExternal k.cache w
      obtain ⟨shown, hshown⟩ := DisplayPlan.apply_ok hp answer
      exact ⟨_, by simp only [bind, Except.bind, hquery, hanswer, hshown]; rfl⟩

theorem resolutionOf_ok {program : Text} {entry : EntryPoint}
    (he : (Source.ofText program).entryPoint = some entry)
    (outcome : Except ResolutionError (Option (Text × Text))) :
    ∃ r, resolutionOf program entry outcome = .ok r := by
  unfold resolutionOf
  split
  · exact ⟨_, rfl⟩
  · exact ⟨_, rfl⟩
  next built report =>
    obtain ⟨unused, hunused⟩ :
      ∃ unused, unusedNames built (unusedReports report) = .ok unused :=
      ⟨_, unusedNames_eq built _⟩
    obtain ⟨resolved, hresolved⟩ := (discards_fit he unused).applyAll
    simp only [hunused, discardNames, hresolved, bind, Except.bind]
    split
    · exact ⟨_, rfl⟩
    · exact ⟨_, rfl⟩

theorem resolve_ok (program : Text) (w : World σ) :
    ∃ r, resolve tools ws program w = .ok r := by
  rw [resolve_eq]
  split
  · exact ⟨_, rfl⟩
  next entry he =>
    obtain ⟨outcome, w'⟩ := trialBuild tools ws program w
    obtain ⟨resolution, hresolution⟩ := resolutionOf_ok he outcome
    exact ⟨_, by simp only [hresolution, bind, Except.bind]; rfl⟩

theorem planPersistence_ok (program : Text) : ∃ plan, planPersistence program = .ok plan := by
  rw [planPersistence_eq]
  simp only
  split
  · exact ⟨none, rfl⟩
  next entry he =>
    obtain ⟨found, hfound, hfit⟩ := PersistencePlan.findings_fit he
    obtain ⟨text, htext⟩ := hfit.applyAll
    exact ⟨_, by simp only [hfound, htext, bind, Except.bind]; rfl⟩

end Stages

namespace Kernel

variable {σ : Type} (tools : Toolchain σ) (k : Kernel) (input : Text) (w : World σ)

theorem turnProgram_ok : ∃ r, k.turnProgram tools input w = .ok r := by
  obtain ⟨made, hmade⟩ := assemble_ok k.session k.workspace.store w.files input
  obtain ⟨⟨shown, cache, w₁⟩, hshown⟩ := display_ok tools k made.program w
  obtain ⟨⟨resolved, w₂⟩, hresolved⟩ := resolve_ok tools k.workspace (stripMark shown) w₁
  obtain ⟨plan, hplan⟩ := planPersistence_ok resolved.program
  simp only [turnProgram, hmade, hshown, hresolved, hplan, bind, Except.bind]
  exact ⟨_, rfl⟩

theorem turn_ok : ∃ r, k.turn tools input w = .ok r := by
  obtain ⟨⟨t, cache, w₁⟩, ht⟩ := turnProgram_ok tools k input w
  simp only [turn, ht, bind, Except.bind]
  split
  · exact ⟨_, rfl⟩
  · exact ⟨_, rfl⟩

/-- The texts that a turn edits, each with its edits.  What the display is told about results,
and which names a trial build reports, rests with the tools, so all of it is taken in. -/
inductive EditsMade : Text → List Edit → Prop
  | declarations {found : List (Declaration × Edit)} (h : declarationsOf input = .ok found) :
    EditsMade input (found.map Prod.snd)
  | demotions {found : List Declaration} {body : Text} {again : List Redeclaration}
    (h : splitDeclarations input = .ok (found, body))
    (hagain : readRedeclarations k.session body = .ok again) :
    EditsMade body (demotions again)
  | display {made : Assembled} {p : DisplayPlan} {answer : Option Nat} {edits : List Edit}
    (hmade : assemble k.session k.workspace.store w.files input = .ok made)
    (hp : DisplayPlan.ofProgram? made.program = .ok (some p))
    (hedits : p.edits answer = .ok edits) :
    EditsMade made.program edits
  | discards {made : Assembled} {shown : Text} {cache : ArityCache} {w₁ : World σ}
    {entry : EntryPoint} {names : List Text}
    (hmade : assemble k.session k.workspace.store w.files input = .ok made)
    (hshown : k.display tools made.program w = .ok (shown, cache, w₁))
    (he : (Source.ofText (stripMark shown)).readEntryPoint = .ok (some entry)) :
    EditsMade (stripMark shown) (discards entry names)
  | storing {made : Assembled} {shown : Text} {cache : ArityCache} {w₁ w₂ : World σ}
    {resolved : Resolution} {entry : EntryPoint} {found : PersistencePlan.Findings}
    (hmade : assemble k.session k.workspace.store w.files input = .ok made)
    (hshown : k.display tools made.program w = .ok (shown, cache, w₁))
    (hresolved : resolve tools k.workspace (stripMark shown) w₁ = .ok (resolved, w₂))
    (he : (Source.ofText resolved.program).readEntryPoint = .ok (some entry))
    (hfound : PersistencePlan.findings (Source.ofText resolved.program) entry = .ok found) :
    EditsMade resolved.program (found.edits entry)

theorem EditsMade.fit {t : Text} {edits : List Edit} (h : EditsMade tools k input w t edits) :
    Edit.Fit t edits := by
  cases h with
  | declarations h =>
    obtain ⟨found, hfound, hfit⟩ := declarationsOf_fit input
    cases h.symm.trans hfound
    exact hfit
  | demotions h hagain =>
    rw [readRedeclarations_eq] at hagain
    cases hagain
    exact demotions_fit k.session _
  | display hmade hp hedits =>
    obtain ⟨found, hfound, hreads⟩ := DisplayPlan.ofProgram?_reads _
    cases hp.symm.trans hfound
    -- The answer rests with the tools, so the edits have to fit whatever it is.
    obtain ⟨_, hok, hfit⟩ := DisplayPlan.edits_fit (hreads _ rfl) _
    cases hedits.symm.trans hok
    exact hfit
  | discards hmade hshown he =>
    rw [Source.readEntryPoint_eq] at he
    exact discards_fit (Except.ok.inj he) _
  | storing hmade hshown hresolved he hfound =>
    rw [Source.readEntryPoint_eq] at he
    obtain ⟨_, hok, hfit⟩ := PersistencePlan.findings_fit (Except.ok.inj he)
    cases hfound.symm.trans hok
    exact hfit

/-- **A turn has no faults.**  Whatever the session, the files, the input and the tools,
`turn` has an outcome: no token is read past the last one and no text is cut outside itself or
inside a character.  All edits that it makes (`EditsMade`) lie in their text between
characters and do not overlap. -/
theorem turn_faultless :
    (∃ outcome, k.turn tools input w = .ok outcome) ∧
      ∀ t edits, EditsMade tools k input w t edits → Edit.Fit t edits :=
  ⟨turn_ok tools k input w, fun _ _ h => h.fit⟩

end Kernel

end Notebook
