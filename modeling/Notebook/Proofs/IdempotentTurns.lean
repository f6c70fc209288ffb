import Notebook.Proofs.PlainTurns
import Notebook.Proofs.SessionInvariant

/-!
# Turns that bind nothing

The session is written into every program and found again there.  So a turn whose input binds
no name is the test of all stages at once: whatever is wrapped, deleted, stripped and added on
the way, the variables come out in their order, with their function literals as they were
written.

The mark that is taken out of the program again must not come about in another way.  It may
not stand in the session, neither in a function literal nor in a recorded type; and of the
input it is not enough to ask that it does not hold the mark, for when a display is deleted a
comment in front of it may meet what stood behind it.
-/

namespace Notebook

open Lexer List

variable {content input program t x : Text} {store : ValueStore}

/-- Blank names are not captured. -/
theorem inputCaptures_eq_nil {t : Text}
    (h : ∀ st ∈ (Source.ofText t).statements, ∀ b ∈ (Source.ofText t).bindings st,
      b.name = blankName) : inputCaptures t = [] := by
  rw [inputCaptures, filterMap_eq_nil_iff]
  intro b hb
  obtain ⟨st, hst, hb⟩ := mem_flatMap.1 hb
  have hnone : PersistencePlan.captured (.ofText t) b = none := by
    rw [PersistencePlan.captured, PersistencePlan.capture?, if_pos (h st hst b hb)]
  rw [hnone, Option.map_none]

/-- Blank names are not declared again. -/
theorem redeclarations_eq_nil {session : Session} {t : Text}
    (hblank : blankName ∉ session.names)
    (h : ∀ st ∈ (Source.ofText t).statements, ∀ b ∈ (Source.ofText t).bindings st,
      b.name = blankName) : redeclarations session t = [] := by
  rw [redeclarations, filterMap_eq_nil_iff]
  intro st hst
  have hnames : (((Source.ofText t).bindings st).map (·.name)).filter
      (fun n => decide (n ∈ session.names)) = [] := by
    rw [filter_eq_nil_iff]
    intro n hn
    obtain ⟨b, hb, rfl⟩ := mem_map.1 hn
    rw [h st hst b hb]
    simpa using hblank
  simp only [Redeclaration.ofStatement?, Redeclaration.ofBindings?, hnames, isEmpty_nil,
    Bool.true_or, if_true]

namespace Kernel

/-- **A turn that binds nothing leaves the session as it was.**  The session is `Replayable`
and `Declarable`, the input is `IsPlainInput` and binds at most `blankName`; then unless the
program fails, the names with their order, the source of every function literal and the
declarations are the same behind the `turn`. -/
theorem turn_replays_session {σ : Type} {tools : Toolchain σ} {k : Kernel} {input : Text}
    {w : World σ} (hsession : k.session.Replayable k.workspace.store w.files)
    (hdeclared : k.session.Declarable) (hinput : IsPlainInput input)
    (hblank : ∀ st ∈ (Source.ofText input).statements,
      ∀ b ∈ (Source.ofText input).bindings st,
      b.name = blankName) :
    ∃ result k' w', k.turn tools input w = .ok (result, k', w') ∧
      ((∀ stdout text benign, result ≠ .error (.run stdout text benign)) →
        k'.session = k.session) := by
  obtain ⟨⟨result, k', w'⟩, hturn⟩ := turn_ok tools k input w
  refine ⟨result, k', w', hturn, fun hran => ?_⟩
  have hagain : redeclarations k.session input = [] :=
    redeclarations_eq_nil (fun hmem => (hsession.names _ hmem).2 rfl) hblank
  match result with
  | .error (.run stdout text benign) => exact absurd rfl (hran stdout text benign)
  | .error (.kernel e) => exact session_of_kernel_error hturn
  | .ok out =>
    rw [(session_of_plain hsession hdeclared hinput hagain hturn).1,
      inputCaptures_eq_nil hblank]
    exact hsession.extended_nil

/-- An open session with a value in its store. -/
def valueWorld (x type : Text) : World Unit :=
  let w := (start sampleConfig sampleWorld).2
  let store := sampleKernel.workspace.store
  { w with
    files := ((w.files.writeText (store.blobPath (variableKey x)) "blob").bind fun files =>
      files.writeText (store.tagPath (variableKey x)) type).toOption.getD w.files }

theorem failure_of_storingTools {config : Config} {path : Path} {w w' : World Unit}
    {report : RunReport}
    (h : runProgram (storingTools store x content) config program path w = (.ok report, w')) :
    report.failure = none := by
  have hrun : ∀ others w₁, ((storingTools store x content).run path others w₁).1 =
      .ok ⟨[], [], true⟩ := by
    intro others w₁
    unfold storingTools
    dsimp only
    split <;> rfl
  unfold runProgram at h
  split at h
  · cases h
  · have hfix : ∀ w₁, (storingTools store x content).fixImports path w₁ =
        (.ok ⟨[], [], true⟩, w₁) := fun _ => rfl
    simp only [hfix, if_true] at h
    unfold runFile at h
    split at h
    · cases h
    · split at h
      · cases h
      next output w₂ hout =>
        split at h
        · cases h
        · cases h
          cases (congrArg Prod.fst hout).symm.trans (hrun _ _)
          rfl

/-- A turn with such tools does not fail. -/
theorem turn_storingTools {k k' : Kernel} {w w' : World Unit} {result : Except TurnError Text}
    (h : k.turn (storingTools store x content) input w = .ok (result, k', w'))
    (stdout text : Text) (benign : Bool) : result ≠ .error (.run stdout text benign) := by
  rintro rfl
  obtain ⟨⟨t, cache, w₁⟩, ht, h⟩ := Checked.bind_eq_ok.1 h
  cases hrun : runProgram (storingTools store x content) k.config t.program
      k.workspace.programPath w₁ with
  | mk outcome w₂ =>
    simp only [hrun] at h
    cases outcome with
    | error e => cases h
    | ok report =>
      simp only [finish, failure_of_storingTools hrun] at h
      cases h

/-- A function literal, a number and a type are kept by a turn that prints and discards. -/
theorem turn_replays_session_sample :
    let session : Session := ⟨["x", "f"], [("f", "func(a, b int) int \x7b return a \x7d")],
      [⟨.typeDecl, "T", "type T int"⟩]⟩
    let k := { sampleKernel with session := session }
    let tools := storingTools k.workspace.store "x" "blob"
    ∃ result k' w', k.turn tools "fmt.Println(f(1, x)); _ = x\nf(2, 3) // last"
        (valueWorld "x" "map[T][]int") = .ok (result, k', w') ∧ k'.session = session := by
  intro session k tools
  have hx : IsIdentifier "x" := ⟨⟨'x', [], rfl, by decide, by simp⟩, by decide⟩
  have hf : IsIdentifier "f" := ⟨⟨'f', [], rfl, by decide, by simp⟩, by decide⟩
  have hliteral : IsFunctionValue "func(a, b int) int \x7b return a \x7d" :=
    ⟨⟨⟨by decide +kernel, by decide +kernel, ⟨0, 11, ⟨0, 31⟩, some 12⟩, by decide +kernel⟩,
      by decide +kernel⟩, by decide +kernel⟩
  have hsession :
      session.Replayable k.workspace.store (valueWorld "x" "map[T][]int").files := by
    refine ⟨by decide, ?_, by decide, ?_, ?_⟩
    · exact forall_mem_cons.2 ⟨⟨hx, by decide⟩, forall_mem_singleton.2 ⟨hf, by decide⟩⟩
    · intro p hp
      rw [mem_singleton.1 hp]
      exact ⟨hliteral, by decide +kernel⟩
    · intro n hn hnone
      rcases mem_cons.1 hn with rfl | hn
      · exact ⟨"map[T][]int", by decide +kernel,
          ⟨by decide +kernel, by decide +kernel, by decide +kernel⟩, by decide +kernel,
          by decide +kernel⟩
      · rw [mem_singleton.1 hn] at hnone
        cases hnone
  have hdeclared : session.Declarable := by
    refine ⟨fun d hd => ?_, by decide +kernel⟩
    rw [mem_singleton.1 hd]
    exact ⟨by decide +kernel, by decide +kernel, by decide +kernel⟩
  have hinput : IsPlainInput "fmt.Println(f(1, x)); _ = x\nf(2, 3) // last" := by
    decide +kernel
  obtain ⟨result, k', w', hturn, hkept⟩ := @turn_replays_session Unit tools k _ _ hsession
    hdeclared hinput (by decide +kernel)
  exact ⟨result, k', w', hturn, hkept (turn_storingTools hturn)⟩

/-! ### Turns evaluated without sorting -/

/-- The plan of a program without storing calls whose bindings stand in order: its captures
need no sorting. -/
def orderedPlan? (program : Text) : Option PersistencePlan :=
  let s := Source.ofText program
  s.entryPoint.bind fun entry =>
    let bindings := (s.bodyStatements entry).flatMap s.bindings
    if (∀ st ∈ s.bodyStatements entry, s.isPersistence st = false) ∧
        bindings.Pairwise (fun a b => a.pos ≤ b.pos) then
      let kept :=
        PersistencePlan.firstOfEach [] (bindings.filterMap (PersistencePlan.captured s))
      (Edit.applyAll program
          [Edit.insertion entry.bodyStop (PersistencePlan.tail [] kept)]).toOption.map
            fun text =>
        ⟨text, kept.map (·.name), literalsOf (kept.map Capture.named)⟩
    else none

theorem planPersistence_of_orderedPlan? {plan : PersistencePlan}
    (h : orderedPlan? program = some plan) : planPersistence program = .ok (some plan) := by
  obtain ⟨entry, hentry, h⟩ := Option.bind_eq_some_iff.1 h
  dsimp only at h
  split at h
  next hordered =>
    obtain ⟨text, htext, rfl⟩ := Option.map_eq_some_iff.1 h
    obtain ⟨text', htext', hplan⟩ :=
      planPersistence_of_ordered hentry hordered.1 hordered.2 rfl
    rw [htext'] at htext
    cases htext
    exact hplan
  · cases h

/-- A turn whose program has such a plan. -/
def orderedTurn? {σ : Type} (tools : Toolchain σ) (k : Kernel) (input : Text) (w : World σ) :
    Option (Except TurnError Text × Kernel × World σ) := do
  let made ← (assemble k.session k.workspace.store w.files input).toOption
  let (shown, cache, w) ← (display tools k made.program w).toOption
  let (resolved, w) ← (resolve tools k.workspace (stripMark shown) w).toOption
  let plan ← orderedPlan? resolved.program
  let k := { k with cache := cache }
  let path := k.workspace.programPath
  match runProgram tools k.config plan.program path w with
  | (.error e, w) => return (.error (.kernel e), k, w)
  | (.ok report, w) =>
    let t : TurnProgram := ⟨plan.program, some plan, made.declarations⟩
    return finish { k with session := sessionAfterRun k.session t report } report path w

theorem turn_of_orderedTurn? {σ : Type} {tools : Toolchain σ} {k : Kernel} {w : World σ}
    {r : Except TurnError Text × Kernel × World σ}
    (h : orderedTurn? tools k input w = some r) : k.turn tools input w = .ok r := by
  have hok : ∀ {α : Type} {x : Checked α} {a : α}, x.toOption = some a → x = .ok a := by
    intro α x a hx
    cases x with
    | error e => cases hx
    | ok b =>
      cases hx
      rfl
  obtain ⟨made, hmade, h⟩ := Option.bind_eq_some_iff.1 h
  obtain ⟨⟨shown, cache, w₁⟩, hshown, h⟩ := Option.bind_eq_some_iff.1 h
  obtain ⟨⟨resolved, w₂⟩, hresolved, h⟩ := Option.bind_eq_some_iff.1 h
  obtain ⟨plan, hplan, h⟩ := Option.bind_eq_some_iff.1 h
  have ht : k.turnProgram tools input w =
      .ok (⟨plan.program, some plan, made.declarations⟩, cache, w₂) := by
    simp only [turnProgram, hok hmade, hok hshown, hok hresolved,
      planPersistence_of_orderedPlan? hplan, bind, Except.bind]
    rfl
  simp only [turn, ht, bind, Except.bind]
  cases hrun : runProgram tools k.config plan.program k.workspace.programPath w₂ with
  | mk outcome w₃ =>
    simp only [hrun] at h
    cases outcome with
    | error e =>
      cases h
      rfl
    | ok report =>
      cases h
      rfl

/-! ### Marks that come about by themselves -/

/-- An input without the mark.  When its first display is deleted, the end of the comment
meets what stood behind the display. -/
def meetingInput : Text := "/**/fmt.Print();/ :INPUT;\"*/;b:=1//\";fmt.Print()"

/-- A recorded type that holds the mark. -/
def markedType : Text := "\x7b\"\\ // :INPUT\"\x7d\"\x7d];b:=2;\""

theorem meetingInput_free : ¬inputMark <:+: meetingInput := by
  decide +kernel

theorem isTypeText_markedType : IsTypeText markedType := by
  decide +kernel

/-- A string of the input is read as a statement. -/
theorem turn_meetingInput :
    (sampleKernel.turn (storingTools sampleKernel.workspace.store "b" "blob") meetingInput
      (start sampleConfig sampleWorld).2).toOption.map
        (fun r => (r.1.toOption, r.2.1.session)) =
      some (some [], ⟨["b"], [], []⟩) := by
  decide +kernel

/-- A string of the recorded type is read as a statement. -/
theorem turn_markedType :
    let k : Kernel := { sampleKernel with session := ⟨["a"], [], []⟩ }
    (k.turn (storingTools k.workspace.store "b" "blob") ""
      (valueWorld "a" markedType)).toOption.map
        (fun r => (r.1.toOption, r.2.1.session)) = some (some [], ⟨["a", "b"], [], []⟩) := by
  intro k
  have heval : (orderedTurn? (storingTools k.workspace.store "b" "blob") k ""
      (valueWorld "a" markedType)).map (fun r => (r.1.toOption, r.2.1.session)) =
      some (some [], ⟨["a", "b"], [], []⟩) := by
    decide +kernel
  obtain ⟨r, hr, hsession⟩ := Option.map_eq_some_iff.1 heval
  rw [turn_of_orderedTurn? hr, ← hsession]
  rfl

/-- It is not enough that an input without bindings does not hold the mark, nor that the
recorded types are complete. -/
theorem not_turn_replays_session :
    let k : Kernel := { sampleKernel with session := ⟨["a"], [], []⟩ }
    let tools := storingTools sampleKernel.workspace.store "b" "blob"
    ((LexicallyClosed meetingInput ∧ Balanced meetingInput ∧ Terminated meetingInput ∧
      ¬inputMark <:+: meetingInput ∧
      ∀ st ∈ (Source.ofText meetingInput).statements,
        (Source.ofText meetingInput).bindings st = [] ∧
        (Source.ofText meetingInput).isPackageLevel st = false ∧
        (Source.ofText meetingInput).isPersistence st = false) ∧
      (sampleKernel.turn tools meetingInput (start sampleConfig sampleWorld).2).toOption.map
        (fun r => (r.1.toOption, r.2.1.session)) = some (some [], ⟨["b"], [], []⟩)) ∧
    (k.workspace.store.typeTag (valueWorld "a" markedType).files "a" =
      .ok (.value markedType) ∧
      IsTypeText markedType ∧
      (k.turn tools "" (valueWorld "a" markedType)).toOption.map (fun r =>
        (r.1.toOption, r.2.1.session)) = some (some [], ⟨["a", "b"], [], []⟩)) :=
  ⟨⟨⟨by decide +kernel, by decide +kernel, by decide +kernel, meetingInput_free,
    by decide +kernel⟩, turn_meetingInput⟩, by decide +kernel, isTypeText_markedType,
    turn_markedType⟩

end Kernel

end Notebook
