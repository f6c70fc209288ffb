import Notebook.Proofs.CapturedLiterals
import Notebook.Proofs.IdempotentTurns
import Notebook.Proofs.JoinedInputs

/-!
# Turns and one turn

Whether statements are given in many turns or in one should make no difference to the
variables that are kept.  Turn by turn the session is written into the next program and found
again in front of what the input captures; in one turn all captures are found in one program.
Both end with the first capture of every name, in the order of the whole text.

It takes that no live name is declared again, for then its old value may be left out, and that
a function literal is the same when it is found again.  A literal in a statement with an
`else` outside brackets need not be: such a statement goes on where its value seems to end.

## Main statements

* `Session.Replayable.extended`, `Kernel.session_of_runThrough`: what one turn and all turns
  keep
* `Kernel.session_of_turns`: many turns leave the variables of one turn
-/

namespace Notebook

open List

variable {k : Kernel} {inputs ts : List Text} {session : Session} {n t : Text}

/-- The bindings of the statements of an input. -/
def inputBindings (t : Text) : List Binding :=
  (Source.ofText t).statements.flatMap (Source.ofText t).bindings

/-- No name is declared when it was bound before, in the same input or in an earlier one. -/
def DeclaredOnce (inputs : List Text) : Prop :=
  (inputs.flatMap inputBindings).Pairwise fun a b =>
    b.define = true → b.name = blankName ∨ a.name ≠ b.name

instance (inputs : List Text) : Decidable (DeclaredOnce inputs) :=
  inferInstanceAs (Decidable (List.Pairwise _ _))

/-- A captured name is bound. -/
theorem exists_binding_of_mem_inputCaptures {p : NamedLiteral} (h : p ∈ inputCaptures t) :
    ∃ b ∈ inputBindings t, b.name = p.1 := by
  obtain ⟨b, hb, hp⟩ := mem_filterMap.1 h
  obtain ⟨c, hc, rfl⟩ := Option.map_eq_some_iff.1 hp
  exact ⟨b, hb,
    (PersistencePlan.capture?_name_pos (PersistencePlan.captured_eq_some_iff.1 hc)).1.symm⟩

/-- An input that declares no live name declares nothing again. -/
theorem redeclarations_eq_nil_of_define
    (h : ∀ b ∈ inputBindings t, b.define = true → b.name ∉ session.names) :
    redeclarations session t = [] := by
  rw [redeclarations, filterMap_eq_nil_iff]
  intro st hst
  rw [Redeclaration.ofStatement?, Redeclaration.ofBindings?]
  refine if_pos ?_
  by_cases hdeclares : ((Source.ofText t).kindAt st.first == .keyword .varKw ||
      ((Source.ofText t).bindings st).any (·.define)) = true
  · -- A statement declares all names that it binds, or none.
    have hdefine : ∀ b ∈ (Source.ofText t).bindings st, b.define = true := by
      intro b hb
      rcases Bool.or_eq_true_iff.1 hdeclares with hvar | hany
      · exact Source.define_of_isDeclaration
          (by rw [Source.isDeclaration, hvar, Bool.true_or]) hb
      · exact Source.define_of_any hany hb
    have hnames : (((Source.ofText t).bindings st).map (·.name)).filter
        (fun n => decide (n ∈ session.names)) = [] := by
      rw [filter_eq_nil_iff]
      intro n hn
      obtain ⟨b, hb, rfl⟩ := mem_map.1 hn
      simpa using h b (mem_flatMap.2 ⟨st, hst, hb⟩) (hdefine b hb)
    rw [hnames]
    rfl
  · rw [Bool.eq_false_of_not_eq_true hdeclares]
    simp

/-! ### The first entry under each name -/

theorem mem_map_fst_firstNamed {ps : List NamedLiteral} :
    n ∈ (firstNamed ps).map Prod.fst ↔ n ∈ ps.map Prod.fst := by
  induction ps with
  | nil => rfl
  | cons p ps ih =>
    rw [firstNamed, map_cons, map_cons, mem_cons, mem_cons, ← ih]
    refine or_congr_right' fun hn => ?_
    simp only [mem_map, mem_filter, decide_eq_true_eq]
    constructor
    · rintro ⟨q, ⟨hq, -⟩, rfl⟩
      exact ⟨q, hq, rfl⟩
    · rintro ⟨q, hq, rfl⟩
      exact ⟨q, ⟨hq, hn⟩, rfl⟩

/-- Entries whose later ones are left out have the same first ones. -/
theorem firstNamed_firstNamed_append (ps qs : List NamedLiteral) :
    firstNamed (firstNamed ps ++ qs) = firstNamed (ps ++ qs) := by
  rw [firstNamed_append, firstNamed_append, firstNamed_of_nodup (nodup_firstNamed ps)]
  simp only [mem_map_fst_firstNamed]

theorem mem_literalsOf {ps : List NamedLiteral} {l : Text} :
    (n, l) ∈ literalsOf ps ↔ (n, some l) ∈ ps := by
  rw [literalsOf, mem_filterMap]
  constructor
  · rintro ⟨⟨m, literal⟩, hp, hsome⟩
    obtain ⟨l', rfl, hpair⟩ := Option.map_eq_some_iff.1 hsome
    cases hpair
    exact hp
  · exact fun hp => ⟨_, hp, rfl⟩

theorem map_fst_literalsOf_sublist (ps : List NamedLiteral) :
    ((literalsOf ps).map Prod.fst).Sublist (ps.map Prod.fst) := by
  induction ps with
  | nil => exact Sublist.slnil
  | cons p ps ih =>
    obtain ⟨n, literal⟩ := p
    cases literal with
    | none => exact ih.cons n
    | some l => exact ih.cons_cons n

/-- Among entries under distinct names each is found under its name. -/
theorem find?_literalsOf {ps : List NamedLiteral} (h : (ps.map Prod.fst).Nodup)
    {p : NamedLiteral} (hp : p ∈ ps) : (literalsOf ps).find? p.1 = p.2 := by
  ext l
  rw [Literals.find?,
    PersistencePlan.lookup_eq_some_iff_mem (h.sublist (map_fst_literalsOf_sublist ps)),
    mem_literalsOf]
  constructor
  · exact fun hl => congrArg Prod.snd (inj_on_of_nodup_map h hp hl rfl)
  · intro hl
    rw [← hl]
    exact hp

/-- A type that can stand in brackets and holds no mark. -/
def IsReplayType (type : Text) : Prop :=
  IsTypeText type ∧ ¬inputMark <:+: type

instance : DecidablePred IsReplayType :=
  fun _ => inferInstanceAs (Decidable (_ ∧ _))

namespace Session

/-- Every variable without a function literal has a stored value and a type of the wanted
kind. -/
def ValuesStored (session : Session) (types : Text → Prop) (store : ValueStore)
    (files : FileTree) : Prop :=
  ∀ n ∈ session.names, session.literal? n = none →
    (∃ type, store.typeTag files n = .ok (.value type) ∧ types type) ∧
      files.pathExists (store.blobPath (variableKey n)) = true

instance (session : Session) (types : Text → Prop) [DecidablePred types] (store : ValueStore)
    (files : FileTree) : Decidable (session.ValuesStored types store files) :=
  have (tag : Except StoreError TypeTag) :
      Decidable (∃ type, tag = .ok (.value type) ∧ types type) :=
    match tag with
    | .ok (.value type) => decidable_of_iff (types type) (by simp)
    | .ok (.function type) => isFalse (by simp)
    | .error e => isFalse (by simp)
  inferInstanceAs (Decidable (∀ _ ∈ _, _ → _ ∧ _))

theorem entries_extended (session : Session) (more : List NamedLiteral) :
    (session.extended more).entries = firstNamed (session.entries ++ more) := by
  rw [entries, extended, map_map]
  refine (map_congr_left fun p hp => ?_).trans (map_id _)
  exact Prod.ext rfl (find?_literalsOf (nodup_firstNamed _) hp)

/-- Captures behind a session may be put there one part after the other. -/
theorem extended_extended (session : Session) (more others : List NamedLiteral) :
    (session.extended more).extended others = session.extended (more ++ others) := by
  have hfirst : firstNamed ((session.extended more).entries ++ others) =
      firstNamed (session.entries ++ (more ++ others)) := by
    rw [entries_extended, firstNamed_firstNamed_append, append_assoc]
  rw [extended, hfirst]
  rfl

/-- A session stays one whose variables come back if what is put behind it can come back. -/
theorem Replayable.extended {store store' : ValueStore} {files files' : FileTree}
    (h : session.Replayable store files) {more : List NamedLiteral}
    (hnames : ∀ p ∈ more, IsIdentifier p.1 ∧ p.1 ≠ blankName)
    (hliterals : ∀ n l, (n, some l) ∈ more → IsFunctionValue l ∧ ¬inputMark <:+: l)
    (hvalues : (session.extended more).ValuesStored IsReplayType store' files') :
    (session.extended more).Replayable store' files' where
  nodup := nodup_firstNamed _
  names := by
    intro n hn
    obtain ⟨p, hp, rfl⟩ := mem_map.1 hn
    rcases mem_append.1 (mem_of_mem_firstNamed hp) with hp | hp
    · obtain ⟨m, hm, rfl⟩ := mem_map.1 hp
      exact h.names m hm
    · exact hnames p hp
  keys := map_fst_literalsOf_sublist _
  literals := by
    rintro ⟨n, l⟩ hp
    rcases mem_append.1 (mem_of_mem_firstNamed (mem_literalsOf.1 hp)) with hp | hp
    · obtain ⟨m, -, hm⟩ := mem_map.1 hp
      obtain ⟨rfl, hl⟩ := Prod.mk.inj hm
      exact h.literals (m, l)
        ((PersistencePlan.lookup_eq_some_iff_mem (h.nodup.sublist h.keys)).1 hl)
    · exact hliterals n l hp
  values := by
    intro n hn hnone
    obtain ⟨⟨type, htag, htype⟩, hblob⟩ := hvalues n hn hnone
    exact ⟨type, htag, htype.1, htype.2, hblob⟩

theorem mem_names_extended {more : List NamedLiteral} :
    n ∈ (session.extended more).names ↔ n ∈ session.names ∨ n ∈ more.map Prod.fst := by
  rw [extended, mem_map_fst_firstNamed, map_append, map_fst_entries, mem_append]

theorem replayable_empty (store : ValueStore) (files : FileTree) :
    empty.Replayable store files :=
  ⟨nodup_nil, by simp [empty], Sublist.slnil, by simp [empty], by simp [empty]⟩

theorem declarable_empty : empty.Declarable :=
  ⟨by simp [empty], by decide +kernel⟩

end Session

namespace Kernel

variable {σ : Type}

/-- Runs turns one after the other, as long as they end well and leave the values of the
session in the store, with types of the wanted kind. -/
def runThrough (tools : Toolchain σ) (types : Text → Prop) [DecidablePred types] :
    List Text → Kernel → World σ → Option (Kernel × World σ)
  | [], k, w => some (k, w)
  | t :: ts, k, w =>
    match k.turn tools t w with
    | .ok (.ok _, k, w) =>
      if k.session.ValuesStored types k.workspace.store w.files then
        runThrough tools types ts k w
      else none
    | _ => none

theorem exists_of_runThrough_cons {tools : Toolchain σ} {types : Text → Prop}
    [DecidablePred types] {w : World σ} {r : Kernel × World σ}
    (h : runThrough tools types (t :: ts) k w = some r) :
    ∃ out k₁ w₁, k.turn tools t w = .ok (.ok out, k₁, w₁) ∧
      k₁.session.ValuesStored types k₁.workspace.store w₁.files ∧
      runThrough tools types ts k₁ w₁ = some r := by
  rw [runThrough] at h
  split at h
  next out k₁ w₁ hturn =>
    split at h
    next hstored => exact ⟨out, k₁, w₁, hturn, hstored, h⟩
    · cases h
  · cases h

/-- Turn after turn the captures are put behind the session. -/
theorem session_of_runThrough {tools : Toolchain σ} {k' : Kernel} {w w' : World σ}
    (h : runThrough tools IsReplayType inputs k w = some (k', w'))
    (hsession : k.session.Replayable k.workspace.store w.files)
    (hdeclared : k.session.Declarable)
    (hplain : ∀ t ∈ inputs, IsPlainInput t ∧ BindsPlainly t) (honce : DeclaredOnce inputs)
    (hnew : ∀ b ∈ inputs.flatMap inputBindings, b.define = true → b.name ∉ k.session.names) :
    k'.session = k.session.extended (inputs.flatMap inputCaptures) := by
  induction inputs generalizing k w with
  | nil =>
    cases h
    exact hsession.extended_nil.symm
  | cons input inputs ih =>
    obtain ⟨out, k₁, w₁, turn, stored, rest⟩ := exists_of_runThrough_cons h
    obtain ⟨hinput, hbinds⟩ := hplain input mem_cons_self
    rw [DeclaredOnce, flatMap_cons, pairwise_append] at honce
    obtain ⟨-, hlater, hacross⟩ := honce
    have hagain : redeclarations k.session input = [] :=
      redeclarations_eq_nil_of_define fun b hb => hnew b (mem_append_left _ hb)
    obtain ⟨hstep, hworkspace⟩ := session_of_plain hsession hdeclared hinput hagain turn
    have hkept : k₁.session.Replayable k₁.workspace.store w₁.files := by
      rw [hstep] at stored ⊢
      exact hsession.extended (fun p hp => isIdentifier_of_mem_inputCaptures hp)
        (fun n l hl => isFunctionValue_of_mem_inputCaptures hinput hbinds hl) stored
    have hdeclared₁ : k₁.session.Declarable := by
      rw [hstep]
      exact ⟨hdeclared.sources, hdeclared.noMain⟩
    rw [ih rest hkept hdeclared₁ (fun t ht => hplain t (mem_cons_of_mem input ht)) hlater
      ?_, hstep, Session.extended_extended, flatMap_cons]
    -- What a later input declares was bound neither before nor by this one.
    intro b hb hdefine hmem
    rw [hstep] at hmem
    rcases Session.mem_names_extended.1 hmem with hmem | hmem
    · exact hnew b (mem_append_right _ hb) hdefine hmem
    · obtain ⟨p, hp, hname⟩ := mem_map.1 hmem
      obtain ⟨a, ha, haname⟩ := exists_binding_of_mem_inputCaptures hp
      rcases hacross a ha b hb hdefine with hblank | hne
      · exact (isIdentifier_of_mem_inputCaptures hp).2 (hname.trans hblank)
      · exact hne (haname.trans hname)

/-- **Many turns leave the variables of one turn.**  Inputs that are `IsPlainInput` and
`BindsPlainly`, and `DeclaredOnce` together, are run by `runThrough` turn by turn from an
empty session.  Then the live names are `firstNamed` of the `inputCaptures` of `joinLines
inputs`, and a single `turn` with `joinLines inputs`, if it ends well, leaves the same names
and the same function literals. -/
theorem session_of_turns {tools : Toolchain σ} {k k' : Kernel} {w w' : World σ}
    {inputs : List Text} (hempty : k.session = .empty)
    (hplain : ∀ t ∈ inputs, IsPlainInput t ∧ BindsPlainly t) (honce : DeclaredOnce inputs)
    (h : runThrough tools IsReplayType inputs k w = some (k', w')) :
    k'.session.names = (firstNamed (inputCaptures (joinLines inputs))).map Prod.fst ∧
      ∀ {τ : Type} (tools₁ : Toolchain τ) {k₁ k₂ : Kernel} {w₁ w₂ : World τ} {out : Text},
        k₁.session = .empty →
        k₁.turn tools₁ (joinLines inputs) w₁ = .ok (.ok out, k₂, w₂) →
        k₂.session.names = k'.session.names ∧ k₂.session.literals = k'.session.literals := by
  have hjoined : IsPlainInput (joinLines inputs) := .joinLines fun t ht => (hplain t ht).1
  have hturns : k'.session = Session.empty.extended (inputCaptures (joinLines inputs)) := by
    rw [inputCaptures_joinLines fun t ht => (hplain t ht).1, ← hempty]
    refine session_of_runThrough h ?_ ?_ hplain honce ?_
    · rw [hempty]
      exact Session.replayable_empty _ _
    · rw [hempty]
      exact Session.declarable_empty
    · rw [hempty]
      exact fun _ _ _ => not_mem_nil
  refine ⟨by rw [hturns]; rfl, ?_⟩
  intro τ tools₁ k₁ k₂ w₁ w₂ out hempty₁ hturn
  have hone : k₂.session = Session.empty.extended (inputCaptures (joinLines inputs)) := by
    rw [← hempty₁]
    refine (session_of_plain ?_ ?_ hjoined ?_ hturn).1
    · rw [hempty₁]
      exact Session.replayable_empty _ _
    · rw [hempty₁]
      exact Session.declarable_empty
    · rw [hempty₁]
      exact redeclarations_eq_nil_of_define fun _ _ _ => not_mem_nil
  rw [hone, hturns]
  exact ⟨rfl, rfl⟩

/-! ### Turns with their values stored -/

/-- Tools that find nothing wrong with a program, print nothing, and leave values with these
types in a store. -/
def savingTools (store : ValueStore) (types : List (Text × Text)) : Toolchain Unit where
  fixImports _ w := (.ok ⟨[], [], true⟩, w)
  run _ _ w :=
    let save (files : FileTree) (v : Text × Text) : FileTree :=
      ((files.writeText (store.blobPath (variableKey v.1)) "blob").bind fun files =>
        files.writeText (store.tagPath (variableKey v.1)) v.2).toOption.getD files
    (.ok ⟨[], [], true⟩, { w with files := types.foldl save w.files })
  build _ w := (.ok ⟨[], [], true⟩, w)

theorem exists_turn_of_orderedTurn? {tools : Toolchain σ} {k : Kernel}
    {input : Text} {w : World σ} {session : Session} (h : (orderedTurn? tools k input w).map
      (fun r => (r.1.toOption.isSome, r.2.1.session)) = some (true, session)) :
    ∃ out k' w', k.turn tools input w = .ok (.ok out, k', w') ∧ k'.session = session := by
  obtain ⟨⟨result, k', w'⟩, hturn, hr⟩ := Option.map_eq_some_iff.1 h
  obtain ⟨hok, hsession⟩ := Prod.mk.inj hr
  cases result with
  | error e => cases hok
  | ok out => exact ⟨out, k', w', turn_of_orderedTurn? hturn, hsession⟩

/-- `runThrough` for turns that are evaluated without sorting. -/
def orderedThrough? (tools : Toolchain σ) (types : Text → Prop) [DecidablePred types] :
    List Text → Kernel → World σ → Option (Kernel × World σ)
  | [], k, w => some (k, w)
  | t :: ts, k, w =>
    match orderedTurn? tools k t w with
    | some (.ok _, k, w) =>
      if k.session.ValuesStored types k.workspace.store w.files then
        orderedThrough? tools types ts k w
      else none
    | _ => none

theorem runThrough_of_orderedThrough? {tools : Toolchain σ} {types : Text → Prop}
    [DecidablePred types] {w : World σ} {r : Kernel × World σ}
    (h : orderedThrough? tools types ts k w = some r) :
    runThrough tools types ts k w = some r := by
  induction ts generalizing k w with
  | nil => exact h
  | cons t ts ih =>
    rw [orderedThrough?] at h
    split at h
    next out k₁ w₁ hturn =>
      split at h
      next hstored =>
        simp only [runThrough, turn_of_orderedTurn? hturn, if_pos hstored]
        exact ih h
      · cases h
    · cases h

/-- A number and a function literal in two turns and in one. -/
theorem session_of_turns_sample :
    let inputs : List Text := ["x := 1", "f := func() int \x7b return 2 \x7d; x = f()"]
    let tools := savingTools sampleKernel.workspace.store [("x", "int")]
    let w := (start sampleConfig sampleWorld).2
    ∃ k' w' out k₂ w₂, runThrough tools IsReplayType inputs sampleKernel w = some (k', w') ∧
      sampleKernel.turn tools (joinLines inputs) w = .ok (.ok out, k₂, w₂) ∧
      k'.session.names = ["x", "f"] ∧
      k₂.session.names = k'.session.names ∧ k₂.session.literals = k'.session.literals := by
  intro inputs tools w
  have hinputs : (∀ t ∈ inputs, IsPlainInput t ∧ BindsPlainly t) ∧ DeclaredOnce inputs ∧
      (firstNamed (inputCaptures (joinLines inputs))).map Prod.fst = ["x", "f"] := by
    decide +kernel
  have heval : (orderedThrough? tools IsReplayType inputs sampleKernel w).isSome = true ∧
      (orderedTurn? tools sampleKernel (joinLines inputs) w).map
        (fun r => (r.1.toOption.isSome, r.2.1.session)) =
        some (true, ⟨["x", "f"], [("f", "func() int \x7b return 2 \x7d")], []⟩) := by
    decide +kernel
  obtain ⟨hplain, honce, hnames⟩ := hinputs
  obtain ⟨⟨k', w'⟩, hrun⟩ := Option.isSome_iff_exists.1 heval.1
  obtain ⟨out, k₂, w₂, hturn, -⟩ := exists_turn_of_orderedTurn? heval.2
  obtain ⟨hfirst, hsame⟩ :=
    session_of_turns rfl hplain honce (runThrough_of_orderedThrough? hrun)
  exact ⟨k', w', out, k₂, w₂, runThrough_of_orderedThrough? hrun, hturn, hfirst.trans hnames,
    hsame tools rfl hturn⟩

/-! ### Turns that do not leave the variables of one turn -/

/-- The value of `g` seems to end behind a semicolon, because the `else` in front makes the
statement go on. -/
def elseInput : Text := "_, g := 1 else, func() ; \x7b\x7d"

/-- What is left of turns that are evaluated without sorting. -/
theorem exists_of_orderedThrough? {tools : Toolchain σ} {types : Text → Prop}
    [DecidablePred types] {w : World σ}
    (h : (orderedThrough? tools types inputs k w).map (·.1.session) = some session) :
    ∃ k' w', runThrough tools types inputs k w = some (k', w') ∧ k'.session = session := by
  obtain ⟨⟨k', w'⟩, hrun, hsession⟩ := Option.map_eq_some_iff.1 h
  exact ⟨k', w', runThrough_of_orderedThrough? hrun, hsession⟩

/-- Turns need not leave the variables of one turn, nor those that their inputs capture: not
if an `else` stands outside brackets where a name is bound, not if an input holds a part of
the mark, and not if a recorded type holds the mark. -/
theorem not_session_of_turns :
    let store := sampleKernel.workspace.store
    let w := (start sampleConfig sampleWorld).2
    let inputs : List Text := ["a := 1", ""]
    (((∀ t ∈ [elseInput, ""], IsPlainInput t) ∧ DeclaredOnce [elseInput, ""]) ∧
      ∃ k' w' out k₂ w₂,
        runThrough (savingTools store [("g", "int")]) IsReplayType [elseInput, ""]
          sampleKernel w =
          some (k', w') ∧
        sampleKernel.turn (savingTools store [("g", "int")]) (joinLines [elseInput, ""]) w =
          .ok (.ok out, k₂, w₂) ∧
        k'.session = ⟨["g"], [], []⟩ ∧
        k₂.session = ⟨["g"], [("g", "func() ; \x7b\x7d")], []⟩) ∧
    ((LexicallyClosed meetingInput ∧ Balanced meetingInput ∧ Terminated meetingInput ∧
        ¬inputMark <:+: meetingInput ∧
        (∀ st ∈ (Source.ofText meetingInput).statements,
          (Source.ofText meetingInput).isPackageLevel st = false ∧
          (Source.ofText meetingInput).isPersistence st = false) ∧
        BindsPlainly meetingInput ∧ DeclaredOnce [meetingInput] ∧
        inputCaptures (joinLines [meetingInput]) = []) ∧
      ∃ k' w', runThrough (savingTools store [("b", "int")]) IsReplayType [meetingInput]
          sampleKernel w = some (k', w') ∧ k'.session = ⟨["b"], [], []⟩) ∧
    (((∀ t ∈ inputs, IsPlainInput t ∧ BindsPlainly t) ∧ DeclaredOnce inputs ∧
        (inputCaptures (joinLines inputs)).map Prod.fst = ["a"]) ∧
      ∃ k' w', runThrough (savingTools store [("a", markedType), ("b", "int")])
        IsTypeText inputs
          sampleKernel w = some (k', w') ∧ k'.session = ⟨["a", "b"], [], []⟩) := by
  intro store w inputs
  refine ⟨⟨by decide +kernel, ?_⟩, ⟨by decide +kernel, ?_⟩, by decide +kernel, ?_⟩
  · have heval :
      (orderedThrough? (savingTools store [("g", "int")]) IsReplayType [elseInput, ""]
          sampleKernel w).map (·.1.session) = some ⟨["g"], [], []⟩ ∧
        (orderedTurn? (savingTools store [("g", "int")]) sampleKernel
          (joinLines [elseInput, ""]) w).map (fun r => (r.1.toOption.isSome, r.2.1.session)) =
          some (true, ⟨["g"], [("g", "func() ; \x7b\x7d")], []⟩) := by
      decide +kernel
    obtain ⟨k', w', hrun, hsession⟩ := exists_of_orderedThrough? heval.1
    obtain ⟨out, k₂, w₂, hturn, hone⟩ := exists_turn_of_orderedTurn? heval.2
    exact ⟨k', w', out, k₂, w₂, hrun, hturn, hsession, hone⟩
  · have heval :
      (orderedThrough? (savingTools store [("b", "int")]) IsReplayType [meetingInput]
        sampleKernel w).map (·.1.session) = some ⟨["b"], [], []⟩ := by
      decide +kernel
    exact exists_of_orderedThrough? heval
  · have heval :
      (orderedThrough? (savingTools store [("a", markedType), ("b", "int")]) IsTypeText
        inputs sampleKernel w).map (·.1.session) = some ⟨["a", "b"], [], []⟩ := by
      decide +kernel
    exact exists_of_orderedThrough? heval

end Kernel

end Notebook
