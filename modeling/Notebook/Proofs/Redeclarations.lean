import Notebook.Proofs.TurnSafety

/-!
# Who declares a name

The entry function of a turn's program first brings live variables back and then does what the
input says.  Both may declare the same name.  A statement of the input that declares a live
name again either makes the old value unnecessary, and then the old value is not brought back,
or it is turned into an assignment.  Only a `var` or `const` declaration stays as it is in any
case, so a live name that such a declaration still reads is declared twice.

## Main statements

* `assemble_declares`: what every statement of the entry function declares, given what stands
  in front of it
* `not_declares_once`: a name that is declared twice
-/

namespace Notebook

open List

variable {b : Binding} {files : FileTree} {before behind : List Statement}
  {skipped : List Text} {session : Session} {s : Source} {st st' : Statement} {body x : Text}
  {store : ValueStore}

namespace Source

/-- The names that a statement declares, the blank one aside. -/
def declared (s : Source) (st : Statement) : List Text :=
  (((s.bindings st).filter (·.define)).map (·.name)).filter (· ≠ blankName)

/-- Whether a statement is a `var` or `const` declaration. -/
def isDeclaration (s : Source) (st : Statement) : Bool :=
  s.kindAt st.first == .keyword .varKw || s.kindAt st.first == .keyword .constKw

/-- Whether a statement declares plain names by `:=`. -/
def isDefinition (s : Source) (st : Statement) : Bool :=
  !s.isDeclaration st && (s.bindings st).any (·.define)

theorem mem_declared :
    x ∈ s.declared st ↔ x ≠ blankName ∧ ∃ b ∈ s.bindings st, b.define = true ∧
      b.name = x := by
  simp only [declared, mem_filter, mem_map, decide_eq_true_eq]
  constructor
  · rintro ⟨⟨b, ⟨hb, hdefine⟩, rfl⟩, hx⟩
    exact ⟨hx, b, hb, hdefine, rfl⟩
  · rintro ⟨hx, b, hb, hdefine, rfl⟩
    exact ⟨⟨b, ⟨hb, hdefine⟩, rfl⟩, hx⟩

theorem pairValues_define {names values : List Token} {define : Bool}
    (h : b ∈ pairValues names values define) : b.define = define := by
  unfold pairValues at h
  simp only at h
  split at h
  · rw [← map_uncurry_zip_eq_zipWith] at h
    obtain ⟨⟨n, p⟩, -, rfl⟩ := mem_map.1 h
    rfl
  · obtain ⟨n, -, rfl⟩ := mem_map.1 h
    rfl

/-- All names of a statement are declared, or none is. -/
theorem bindings_define (s : Source) (st : Statement) :
    ∃ define, ∀ b ∈ s.bindings st, b.define = define := by
  unfold bindings
  split
  case h_3 =>
    unfold assignmentBindings
    split
    · exact ⟨true, by simp⟩
    next left op right _ =>
      refine ⟨op.kind == .define, ?_⟩
      split
      · simp
      · split
        · simp
        · exact fun b hb => pairValues_define hb
  all_goals
    refine ⟨true, ?_⟩
    split
    · split
      · simp
      · intro b hb
        obtain ⟨spec, -, hb⟩ := mem_flatMap.1 hb
        exact pairValues_define hb
    · exact fun b hb => pairValues_define hb

/-- A name that a statement with a declared name binds is declared by it. -/
theorem define_of_any (h : (s.bindings st).any (·.define) = true) (hb : b ∈ s.bindings st) :
    b.define = true := by
  obtain ⟨define, hall⟩ := s.bindings_define st
  obtain ⟨c, hc, hdefine⟩ := any_eq_true.1 h
  rw [hall b hb, ← hall c hc, hdefine]

/-- A `var` or `const` declaration declares every name that it binds. -/
theorem define_of_isDeclaration (h : s.isDeclaration st = true) (hb : b ∈ s.bindings st) :
    b.define = true := by
  unfold bindings at hb
  split at hb
  case h_3 hvar hconst =>
    simp only [isDeclaration, Bool.or_eq_true, beq_iff_eq] at h
    exact absurd h (not_or.2 ⟨hvar, hconst⟩)
  all_goals
    split at hb
    · split at hb
      · simp at hb
      · obtain ⟨spec, -, hb⟩ := mem_flatMap.1 hb
        exact pairValues_define hb
    · exact pairValues_define hb

theorem mem_of_cutAssignment {depth : Nat} {ts left right : List Token} {op : Token}
    (h : cutAssignment depth ts = some (left, op, right)) : op ∈ ts := by
  rw [eq_of_cutAssignment h]
  exact mem_append_right _ mem_cons_self

/-- A statement that declares plain names has them in front of a `:=`. -/
theorem exists_cut_of_isDefinition (h : s.isDefinition st = true) :
    ∃ left op right names, cutAssignment 0 (s.tokensOf st) = some (left, op, right) ∧
      op.kind = .define ∧ plainNames left = some names := by
  simp only [isDefinition, Bool.and_eq_true, Bool.not_eq_true', isDeclaration,
    Bool.or_eq_false_iff, beq_eq_false_iff_ne] at h
  obtain ⟨⟨hvar, hconst⟩, hany⟩ := h
  obtain ⟨b, hb, hdefine⟩ := any_eq_true.1 hany
  unfold bindings at hb
  split at hb
  next heq => exact absurd heq hvar
  next heq => exact absurd heq hconst
  unfold assignmentBindings at hb
  split at hb
  · cases hb
  next left op right hcut =>
    split at hb
    · cases hb
    · split at hb
      · cases hb
      next names hnames =>
        refine ⟨left, op, right, names, hcut, ?_, hnames⟩
        rw [pairValues_define hb] at hdefine
        simpa using hdefine

end Source

open Source

/-! ### The statements of the entry function -/

/-- A statement that assembly puts into the entry function: one that brings a variable back,
or one of the input, as it was or with a `:=` that became `=`. -/
inductive BodyStatement where
  | rehydrated (name text : Text)
  | given (st : Statement) (demotion : Option Edit)
deriving DecidableEq, Repr

/-- The edit that turns a `:=` of a statement of the input into `=`, if there is one. -/
def demotion? (s : Source) (session : Session) (st : Statement) : Option Edit :=
  (Redeclaration.ofStatement? s session st).bind fun r => if r.needed then
    r.demotion else none

namespace BodyStatement

/-- The names that a statement declares in the entry function, the blank one aside.  With
`=` in the place of `:=` a definition declares nothing; a `var` or `const` declaration stays
one. -/
def declares (s : Source) : BodyStatement → List Text
  | rehydrated name _ => [name]
  | given st demotion => if demotion.isSome && !s.isDeclaration st then [] else s.declared st

/-- The edit that a statement of the input is put in with. -/
def edit? : BodyStatement → Option Edit
  | rehydrated _ _ => none
  | given _ demotion => demotion

/-- The line that brings a variable back. -/
def line : BodyStatement → Text
  | rehydrated _ text => bodyLine text
  | given _ _ => []

end BodyStatement

/-- The statements of the entry function of a turn, for an input without package-level
declarations. -/
def bodyOf (session : Session) (store : ValueStore) (files : FileTree) (body : Text) :
    List BodyStatement :=
  (rehydrations session store files (skippedNames (redeclarations session body))).map
      (fun r => .rehydrated r.1 r.2) ++
    (Source.ofText body).statements.map fun st =>
      .given st (demotion? (.ofText body) session st)

/-- The edits of the statements are those that assembly makes. -/
theorem filterMap_edit?_bodyOf (session : Session) (store : ValueStore) (files : FileTree)
    (body : Text) :
    (bodyOf session store files body).filterMap BodyStatement.edit? =
      demotions (redeclarations session body) := by
  have hback : ∀ rs : List (Text × Text),
      (rs.map fun r => BodyStatement.rehydrated r.1 r.2).filterMap
        BodyStatement.edit? = [] := by
    intro rs
    rw [filterMap_map]
    exact filterMap_eq_nil_iff.2 fun _ _ => rfl
  rw [bodyOf, filterMap_append, hback, nil_append, filterMap_map, demotions,
    redeclarations]
  generalize (Source.ofText body).statements = statements
  induction statements with
  | nil => rfl
  | cons st statements ih =>
    rw [filterMap_cons, filterMap_cons, ih]
    simp only [Function.comp_apply, BodyStatement.edit?, demotion?]
    cases Redeclaration.ofStatement? (.ofText body) session st with
    | none => rfl
    | some r =>
      cases hneeded : r.needed with
      | false => simp [hneeded]
      | true => cases hd : r.demotion <;> simp [hneeded, hd]

/-- The lines of the statements are those that bring live variables back. -/
theorem flatMap_line_bodyOf (session : Session) (store : ValueStore) (files : FileTree)
    (body : Text) :
    (bodyOf session store files body).flatMap BodyStatement.line =
      rehydrationLines session store files (skippedNames (redeclarations session body)) := by
  have hinput : ((Source.ofText body).statements.map fun st => BodyStatement.given st
      (demotion? (.ofText body) session st)).flatMap BodyStatement.line = [] := by
    rw [flatMap_map]
    exact flatMap_eq_nil_iff.2 fun _ _ => rfl
  rw [bodyOf, flatMap_append, hinput, append_nil, flatMap_map]
  rfl

/-- What stands in front of a statement of the input: all that is brought back, and the
statements of the input before it. -/
def frontOf (session : Session) (store : ValueStore) (files : FileTree) (body : Text)
    (before : List Statement) : List BodyStatement :=
  (rehydrations session store files (skippedNames (redeclarations session body))).map
      (fun r => .rehydrated r.1 r.2) ++
    before.map fun st => .given st (demotion? (.ofText body) session st)

/-- Each statement of the entry function brings a variable back, or stands in the input behind
all that are brought back. -/
theorem bodyOf_cases {front rest : List BodyStatement} {x : BodyStatement}
    (h : bodyOf session store files body = front ++ x :: rest) :
    (∃ before r behind, rehydrations session store files
        (skippedNames (redeclarations session body)) = before ++ r :: behind ∧
      x = .rehydrated r.1 r.2 ∧ front = before.map fun r => .rehydrated r.1 r.2) ∨
    ∃ before st behind, (Source.ofText body).statements = before ++ st :: behind ∧
      x = .given st (demotion? (.ofText body) session st) ∧
      front = frontOf session store files body before := by
  rw [bodyOf] at h
  rcases append_eq_append_iff.1 h with ⟨more, rfl, hinput⟩ | ⟨more, hback, hx⟩
  · obtain ⟨before, after, hstatements, rfl, hafter⟩ := map_eq_append_iff.1 hinput
    obtain ⟨st, behind, rfl, rfl, -⟩ := map_eq_cons_iff.1 hafter
    exact .inr ⟨before, st, behind, hstatements, rfl, rfl⟩
  · cases more with
    | nil =>
      rw [append_nil] at hback
      obtain ⟨st, behind, hstatements, rfl, -⟩ := map_eq_cons_iff.1 hx.symm
      exact .inr ⟨[], st, behind, hstatements, rfl, by simp [frontOf, hback]⟩
    | cons y more =>
      obtain ⟨rfl, -⟩ := List.cons.inj hx
      obtain ⟨before, after, hrs, rfl, hafter⟩ := map_eq_append_iff.1 hback
      obtain ⟨r, behind, rfl, rfl, -⟩ := map_eq_cons_iff.1 hafter
      exact .inl ⟨before, r, behind, hrs, rfl, rfl⟩

/-! ### Redeclarations -/

namespace Redeclaration

variable {r : Redeclaration}

/-- A statement that declares a live name is a redeclaration of it. -/
theorem exists_of_mem_declared (hx : x ∈ s.declared st) (hlive : x ∈ session.names) :
    ∃ r, ofStatement? s session st = some r ∧ x ∈ r.names := by
  obtain ⟨-, b, hb, hdefine, rfl⟩ := mem_declared.1 hx
  have hmem : b.name ∈ ((s.bindings st).map (·.name)).filter fun n =>
      decide (n ∈ session.names) :=
    mem_filter.2 ⟨mem_map.2 ⟨b, hb, rfl⟩, by simpa using hlive⟩
  have hany : (s.bindings st).any (·.define) = true := any_eq_true.2 ⟨b, hb, hdefine⟩
  have hne : (((s.bindings st).map (·.name)).filter
      fun n => decide (n ∈ session.names)).isEmpty = false := by
    rw [isEmpty_eq_false_iff]
    exact ne_nil_of_mem hmem
  unfold ofStatement? ofBindings?
  simp only [hne, hany, Bool.or_true, Bool.not_true, Bool.or_false,
    Bool.false_eq_true, if_false]
  exact ⟨_, rfl, hmem⟩

/-- What a redeclaration names is live, and declared by its statement. -/
theorem of_mem_names (h : ofStatement? s session st = some r) (hx : x ∈ r.names) :
    x ∈ session.names ∧ ∃ b ∈ s.bindings st, b.define = true ∧ b.name = x := by
  unfold ofStatement? ofBindings? at h
  simp only at h
  split at h
  · cases h
  next hguard =>
    cases h
    obtain ⟨hmem, hlive⟩ := mem_filter.1 hx
    obtain ⟨b, hb, rfl⟩ := mem_map.1 hmem
    refine ⟨by simpa using hlive, b, hb, ?_, rfl⟩
    simp only [Bool.or_eq_true, Bool.not_eq_true', Bool.or_eq_false_iff, not_or, not_and,
      Bool.not_eq_false] at hguard
    cases hany : (s.bindings st).any (·.define) with
    | true => exact define_of_any hany hb
    | false =>
      have hvar : (s.kindAt st.first == .keyword .varKw) = true := by
        by_contra hvar
        exact absurd (hguard.2 (by simpa using hvar)) (by simp [hany])
      exact define_of_isDeclaration (by simp [isDeclaration, hvar]) hb

/-- Only a statement whose names are all live is turned into an assignment. -/
theorem of_demotion {e : Edit} (h : ofStatement? s session st = some r)
    (he : r.demotion = some e) :
    ∀ b ∈ s.bindings st, b.name = blankName ∨ b.name ∈ session.names := by
  unfold ofStatement? ofBindings? at h
  simp only at h
  split at h
  · cases h
  · cases h
    dsimp only at he
    split at he
    next hall =>
      intro b hb
      have := all_eq_true.1 (Bool.and_eq_true_iff.1 hall).2 b hb
      simpa using this
    · cases he

/-- A statement that declares plain names by `:=` can be turned into an assignment, unless one
of its names is new. -/
theorem exists_new_of_demotion_eq_none (h : ofStatement? s session st = some r)
    (hdefinition : s.isDefinition st = true) (hnone : r.demotion = none) :
    ∃ b ∈ s.bindings st, b.name ≠ blankName ∧ b.name ∉ session.names := by
  have hvar : (s.kindAt st.first == .keyword .varKw) = false := by
    simp only [isDefinition, isDeclaration, Bool.and_eq_true, Bool.not_eq_true',
      Bool.or_eq_false_iff] at hdefinition
    exact hdefinition.1.1
  obtain ⟨left, t, right, -, hcut, hkind, -⟩ := exists_cut_of_isDefinition hdefinition
  have ht := mem_of_cutAssignment hcut
  have hdemotion : demotionOf s st ≠ none := by
    simp only [demotionOf, demotionIn, ne_eq, Option.map_eq_none_iff, find?_eq_none]
    exact fun hnone => hnone t ht (by simp [hkind])
  unfold ofStatement? ofBindings? at h
  simp only at h
  split at h
  · cases h
  · cases h
    dsimp only at hnone
    split at hnone
    · exact absurd hnone hdemotion
    next hall =>
      simp only [hvar, Bool.not_false, Bool.true_and, all_eq_true, Bool.or_eq_true,
        beq_iff_eq, decide_eq_true_eq, not_forall, not_or] at hall
      obtain ⟨b, hb, hblank, hlive⟩ := hall
      exact ⟨b, hb, hblank, hlive⟩

/-- A redeclaration needs the old value of a name that it declares again. -/
theorem exists_isNeeded (h : ofStatement? s session st = some r) (hneeded : r.needed = true) :
    ∃ b ∈ s.bindings st, b.name ∈ session.names ∧
      isNeeded s session st (s.bindings st) b.name = true := by
  have hany : r.names.any (isNeeded s session st (s.bindings st)) = true := by
    unfold ofStatement? ofBindings? at h
    simp only at h
    split at h
    · cases h
    · cases h
      exact hneeded
  obtain ⟨x, hx, hread⟩ := any_eq_true.1 hany
  obtain ⟨hlive, b, hb, -, rfl⟩ := of_mem_names h hx
  exact ⟨b, hb, hlive, hread⟩

end Redeclaration

theorem mem_skippedNames :
    x ∈ skippedNames (redeclarations session body) ↔
      ∃ st ∈ (Source.ofText body).statements, ∃ r,
        Redeclaration.ofStatement? (.ofText body) session st = some r ∧ r.needed = false ∧
          x ∈ r.names := by
  simp only [skippedNames, redeclarations, mem_flatMap, mem_filter,
    mem_filterMap, Bool.not_eq_true']
  constructor
  · rintro ⟨r, ⟨⟨st, hst, hr⟩, hneeded⟩, hx⟩
    exact ⟨st, hst, r, hr, hneeded, hx⟩
  · rintro ⟨st, hst, r, hr, hneeded, hx⟩
    exact ⟨r, ⟨⟨st, hst, hr⟩, hneeded⟩, hx⟩

/-- What is brought back is live and wanted. -/
theorem of_mem_rehydrations {r : Text × Text}
    (h : r ∈ rehydrations session store files skipped) :
    r.1 ∈ session.names ∧ r.1 ∉ skipped := by
  obtain ⟨name, hname, hr⟩ := mem_filterMap.1 h
  obtain ⟨st, -, rfl⟩ := Option.map_eq_some_iff.1 hr
  simpa using mem_filter.1 hname

/-- What is live, wanted and can be brought back is brought back. -/
theorem exists_mem_rehydrations {text : Text} (hx : x ∈ session.names) (hskip : x ∉ skipped)
    (hback : store.rehydration files x (session.literal? x) = .ok text) :
    (x, text) ∈ rehydrations session store files skipped :=
  mem_filterMap.2 ⟨x, mem_filter.2 ⟨hx, by simpa using hskip⟩, by rw [hback]; rfl⟩

theorem map_fst_rehydrations_sublist (session : Session) (store : ValueStore)
    (files : FileTree) (skipped : List Text) :
    ((rehydrations session store files skipped).map Prod.fst).Sublist session.names := by
  have hfilter : (session.names.filter (· ∉ skipped)).Sublist session.names :=
    filter_sublist
  refine Sublist.trans ?_ hfilter
  unfold rehydrations
  induction session.names.filter (· ∉ skipped) with
  | nil => exact Sublist.refl _
  | cons n ns ih =>
    rw [filterMap_cons]
    cases store.rehydration files n (session.literal? n) with
    | error e => exact ih.cons n
    | ok text => exact ih.cons_cons n

/-! ### What is declared in front -/

section Front

/-- The names declared by what is brought back and by statements of the input. -/
theorem mem_declares_front :
    x ∈ (frontOf session store files body before).flatMap
        (BodyStatement.declares (.ofText body)) ↔
      (∃ text, (x, text) ∈
        rehydrations session store files (skippedNames (redeclarations session body))) ∨
      ∃ st ∈ before,
        x ∈ (BodyStatement.given st (demotion? (.ofText body) session st)).declares
          (.ofText body) := by
  rw [frontOf, flatMap_append, mem_append, flatMap_map, flatMap_map,
    mem_flatMap, mem_flatMap]
  simp [BodyStatement.declares]

/-- A statement of the input declares in the entry function nothing but its own names. -/
theorem mem_declared_of_mem_declares {demotion : Option Edit}
    (h : x ∈ (BodyStatement.given st demotion).declares s) : x ∈ s.declared st := by
  rw [BodyStatement.declares] at h
  split at h
  · cases h
  · exact h

variable (honce : ((Source.ofText body).statements.flatMap
    (Source.ofText body).declared).Nodup)

include honce

/-- A name that is declared once is declared by one statement. -/
theorem eq_of_mem_declared (hst : st ∈ (Source.ofText body).statements)
    (hst' : st' ∈ (Source.ofText body).statements) (hx : x ∈ (Source.ofText body).declared st)
    (hx' : x ∈ (Source.ofText body).declared st') : st = st' := by
  have hpairwise := (nodup_flatMap.1 honce).2
  have : Std.Symm (Function.onFun List.Disjoint (Source.ofText body).declared) :=
    ⟨fun _ _ h _ hy hx => h hx hy⟩
  by_contra hne
  exact hpairwise.forall hst hst' hne hx hx'

/-- No statement of the input declares what an earlier one declares. -/
theorem notMem_declares_before
    (hstatements : (Source.ofText body).statements = before ++ st :: behind)
    (hx : x ∈ (Source.ofText body).declared st) (hst' : st' ∈ before) :
    x ∉ (BodyStatement.given st' (demotion? (.ofText body) session st')).declares
      (.ofText body) := by
  intro hx'
  rw [hstatements, flatMap_append, flatMap_cons] at honce
  have hdisjoint := (nodup_append.1 honce).2.2
  exact hdisjoint x (mem_flatMap.2 ⟨st', hst', mem_declared_of_mem_declares hx'⟩) x
    (mem_append_left _ hx) rfl

/-- A live name that a needed redeclaration declares again is wanted. -/
theorem notMem_skippedNames {r : Redeclaration} (hst : st ∈ (Source.ofText body).statements)
    (hr : Redeclaration.ofStatement? (.ofText body) session st = some r)
    (hneeded : r.needed = true) (hx : x ∈ (Source.ofText body).declared st) :
    x ∉ skippedNames (redeclarations session body) := by
  intro hskip
  obtain ⟨st', hst', r', hr', hneeded', hx'⟩ := mem_skippedNames.1 hskip
  obtain ⟨-, b, hb, hdefine, rfl⟩ := Redeclaration.of_mem_names hr' hx'
  have hx'' : b.name ∈ (Source.ofText body).declared st' :=
    mem_declared.2 ⟨(mem_declared.1 hx).1, b, hb, hdefine, rfl⟩
  obtain rfl := eq_of_mem_declared honce hst hst' hx hx''
  cases hr.symm.trans hr'
  rw [hneeded] at hneeded'
  cases hneeded'

/-- A statement that declares what is declared in front of it declares a live name again whose
old value is still read. -/
theorem exists_isNeeded_of_declared_twice {before behind : List Statement} {st : Statement}
    (hstatements : (Source.ofText body).statements = before ++ st :: behind) {x : Text}
    (hx : x ∈ (Source.ofText body).declared st)
    (hfront : x ∈ (frontOf session store files body before).flatMap
      (BodyStatement.declares (.ofText body))) :
    ∃ b ∈ (Source.ofText body).bindings st, b.name ∈ session.names ∧
      Redeclaration.isNeeded (.ofText body) session st
        ((Source.ofText body).bindings st) b.name =
        true := by
  rcases mem_declares_front.1 hfront with ⟨text, hback⟩ | ⟨st', hst', hx'⟩
  · obtain ⟨hlive, hskip⟩ := of_mem_rehydrations hback
    obtain ⟨r, hr, hxr⟩ := Redeclaration.exists_of_mem_declared hx hlive
    -- Were the old value not read, it would not be brought back.
    have hneeded : r.needed = true := by
      by_contra hneeded
      exact hskip (mem_skippedNames.2
        ⟨st, by simp [hstatements], r, hr, by simpa using hneeded, hxr⟩)
    exact Redeclaration.exists_isNeeded hr hneeded
  · exact absurd hx' (notMem_declares_before honce hstatements hx hst')

/-- A kept `:=` introduces a name. -/
theorem exists_new_of_kept
    (hstatements : (Source.ofText body).statements = before ++ st :: behind)
    (hdefinition : (Source.ofText body).isDefinition st = true)
    (hsome : (Source.ofText body).declared st ≠ [])
    (hkept : demotion? (.ofText body) session st = none) :
    ∃ x ∈ (Source.ofText body).declared st,
      x ∉ (frontOf session store files body before).flatMap
      (BodyStatement.declares (.ofText body)) := by
  have hany : ((Source.ofText body).bindings st).any (·.define) = true :=
    (Bool.and_eq_true_iff.1 hdefinition).2
  -- It is enough to find a name that is not brought back.
  suffices hback : ∃ x ∈ (Source.ofText body).declared st, ∀ text, (x, text) ∉
      rehydrations session store files (skippedNames (redeclarations session body)) by
    obtain ⟨x, hx, hback⟩ := hback
    refine ⟨x, hx, fun hfront => ?_⟩
    rcases mem_declares_front.1 hfront with ⟨text, hmem⟩ | ⟨st', hst', hx'⟩
    · exact hback text hmem
    · exact notMem_declares_before honce hstatements hx hst' hx'
  obtain ⟨x, hx⟩ := exists_mem_of_ne_nil _ hsome
  by_cases hlive : x ∈ session.names
  · obtain ⟨r, hr, hxr⟩ := Redeclaration.exists_of_mem_declared hx hlive
    cases hneeded : r.needed with
    | false =>
      -- Nobody reads the old value, so it is not brought back.
      have hskip : x ∈ skippedNames (redeclarations session body) :=
        mem_skippedNames.2 ⟨st, by simp [hstatements], r, hr, hneeded, hxr⟩
      exact ⟨x, hx, fun text hmem => (of_mem_rehydrations hmem).2 hskip⟩
    | true =>
      -- The old value is read, but another name of the statement is new.
      have hnone : r.demotion = none := by simpa [demotion?, hr, hneeded] using hkept
      obtain ⟨b, hb, hblank, hnew⟩ :=
        Redeclaration.exists_new_of_demotion_eq_none hr hdefinition hnone
      exact ⟨b.name, mem_declared.2 ⟨hblank, b, hb, define_of_any hany hb, rfl⟩,
        fun text hmem => hnew (of_mem_rehydrations hmem).1⟩
  · exact ⟨x, hx, fun text hmem => hlive (of_mem_rehydrations hmem).1⟩

/-- What a demoted statement declares is brought back. -/
theorem mem_rehydrations_of_demoted
    (hback : ∀ x ∈ session.names, ∃ text,
      store.rehydration files x (session.literal? x) = .ok text)
    {e : Edit} (hst : st ∈ (Source.ofText body).statements)
    (hdemoted : demotion? (.ofText body) session st = some e)
    (hx : x ∈ (Source.ofText body).declared st) :
    ∃ text, (x, text) ∈
      rehydrations session store files (skippedNames (redeclarations session body)) := by
  obtain ⟨r, hr, hif⟩ := Option.bind_eq_some_iff.1 hdemoted
  split at hif
  next hneeded =>
    obtain ⟨hblank, b, hb, -, rfl⟩ := mem_declared.1 hx
    have hlive : b.name ∈ session.names :=
      (Redeclaration.of_demotion hr hif b hb).resolve_left hblank
    obtain ⟨text, htext⟩ := hback _ hlive
    exact ⟨text, exists_mem_rehydrations hlive
      (notMem_skippedNames honce hst hr hneeded hx) htext⟩
  · cases hif

end Front

/-- **Nothing is declared twice in the entry function of a turn.**  The input declares no name
twice, and every `isDefinition` statement of it (a `:=`) has a name to declare.  Then the
program of `assemble` is made of the statements of `bodyOf`.  Each `.rehydrated` variable is
new where it comes back.  A `.given` statement that `isDeclaration` (a `var` or `const`)
declares nothing that is declared in front of it, unless it binds a live name whose old value
is still needed (`Redeclaration.isNeeded`); a `:=` without a demotion declares a name that is
new; and all names of a `:=` with one are declared in front of it. -/
theorem assemble_declares {session : Session} {store : ValueStore} {files : FileTree}
    {input body : Text} {declarations : List Declaration}
    (hsplit : splitDeclarations input = .ok (declarations, body))
    (hnames : session.names.Nodup)
    (hback : ∀ x ∈ session.names, ∃ text,
      store.rehydration files x (session.literal? x) = .ok text)
    (honce : ((Source.ofText body).statements.flatMap (Source.ofText body).declared).Nodup)
    (hsome : ∀ st ∈ (Source.ofText body).statements,
      (Source.ofText body).isDefinition st = true →
      (Source.ofText body).declared st ≠ []) :
    ∃ edited, Edit.applyAll body
        ((bodyOf session store files body).filterMap BodyStatement.edit?) = .ok edited ∧
      assemble session store files input = .ok ⟨programText
        (Declaration.merge session.declarations declarations)
        ((bodyOf session store files body).flatMap BodyStatement.line)
        (edited.trim ++ " " ++ inputMark), declarations⟩ ∧
      ∀ front x rest, bodyOf session store files body = front ++ x :: rest →
        match x with
        | .rehydrated name _ => name ∉ front.flatMap (BodyStatement.declares (.ofText body))
        | .given st demotion =>
          ((Source.ofText body).isDeclaration st = true →
            ∀ x ∈ (Source.ofText body).declared st,
            x ∈ front.flatMap (BodyStatement.declares (.ofText body)) →
              ∃ b ∈ (Source.ofText body).bindings st, b.name ∈ session.names ∧
                Redeclaration.isNeeded (.ofText body) session st
                  ((Source.ofText body).bindings st) b.name = true) ∧
          ((Source.ofText body).isDefinition st = true → demotion = none →
            ∃ x ∈ (Source.ofText body).declared st,
              x ∉ front.flatMap (BodyStatement.declares (.ofText body))) ∧
          ((Source.ofText body).isDefinition st = true → demotion ≠ none →
            ∀ x ∈ (Source.ofText body).declared st,
              x ∈ front.flatMap (BodyStatement.declares (.ofText body))) := by
  have hfits := demotions_fit session body
  obtain ⟨edited, hedited⟩ := hfits.applyAll
  rw [filterMap_edit?_bodyOf, flatMap_line_bodyOf]
  refine ⟨edited, hedited, ?_, ?_⟩
  · simp only [assemble_eq, hsplit, hedited, bind, Except.bind]
    rfl
  · intro front x rest hbody
    rcases bodyOf_cases hbody with ⟨before, r, behind, hrs, rfl, rfl⟩ | ⟨before, st, behind,
      hst, rfl, rfl⟩
    · have hnodup := hnames.sublist (map_fst_rehydrations_sublist session store files
        (skippedNames (redeclarations session body)))
      rw [hrs, map_append, map_cons] at hnodup
      show r.1 ∉ _
      rw [flatMap_map]
      intro hmem
      obtain ⟨r', hr', hname⟩ := mem_flatMap.1 hmem
      have hname' : r.1 = r'.1 := by simpa [BodyStatement.declares] using hname
      exact (nodup_append.1 hnodup).2.2 r'.1 (mem_map.2 ⟨r', hr', rfl⟩) r.1
        mem_cons_self hname'.symm
    · refine ⟨fun _ x hx hfront => exists_isNeeded_of_declared_twice honce hst hx hfront,
        fun hdefinition hnone => ?_, fun _ hsome' x hx => ?_⟩
      · exact exists_new_of_kept honce hst hdefinition
          (hsome st (by simp [hst]) hdefinition) hnone
      · obtain ⟨e, he⟩ := Option.ne_none_iff_exists'.1 hsome'
        exact mem_declares_front.2
          (.inl (mem_rehydrations_of_demoted honce hback (by simp [hst]) he hx))

/-- Two live functions are declared again: one is not brought back, and the other one is
assigned to. -/
theorem assemble_declares_sample :
    let session : Session := ⟨["f", "g"], [("f", "func() int \x7b return 1 \x7d"),
      ("g", "func() int \x7b return 2 \x7d")], []⟩
    let input : Text := "g := 3; f := f"
    bodyOf session ⟨"/"⟩ .empty input =
        [.rehydrated "f" "f := func() int \x7b return 1 \x7d",
          .given ⟨0, 2, ⟨0, 6⟩, some 3⟩ none,
          .given ⟨4, 6, ⟨8, 14⟩, some 7⟩ (some ⟨⟨10, 12⟩, "="⟩)] ∧
      (∃ program, assemble session ⟨"/"⟩ .empty input = .ok ⟨program, []⟩) ∧
      "f".toList ∈ [BodyStatement.rehydrated "f" "f := func() int \x7b return 1 \x7d",
        .given ⟨0, 2, ⟨0, 6⟩, some 3⟩ none].flatMap
          (BodyStatement.declares (.ofText input)) := by
  intro session input
  have hbody : bodyOf session ⟨"/"⟩ .empty input =
      [.rehydrated "f" "f := func() int \x7b return 1 \x7d",
        .given ⟨0, 2, ⟨0, 6⟩, some 3⟩ none,
        .given ⟨4, 6, ⟨8, 14⟩, some 7⟩ (some ⟨⟨10, 12⟩, "="⟩)] := by
    decide +kernel
  have hback : ∀ x ∈ session.names, ∃ text,
      ValueStore.rehydration ⟨"/"⟩ .empty x (session.literal? x) = .ok text := by
    exact forall_mem_cons.2 ⟨⟨_, rfl⟩, forall_mem_singleton.2 ⟨_, rfl⟩⟩
  obtain ⟨edited, -, hprogram, hdeclares⟩ :=
    @assemble_declares session ⟨"/"⟩ .empty input input []
      (by decide +kernel) (by decide) hback (by decide +kernel) (by decide +kernel)
  refine ⟨hbody, ⟨_, hprogram⟩, ?_⟩
  exact (hdeclares _ (.given ⟨4, 6, ⟨8, 14⟩, some 7⟩ (some ⟨⟨10, 12⟩, "="⟩)) [] hbody).2.2
    (by decide +kernel) (by simp) "f" (by decide +kernel)

/-- A live function that is declared again by `var` and still read is declared twice; and the
`:=` inside a `const` declaration becomes an assignment to a name that nobody declares. -/
theorem not_declares_once :
    let session : Session := ⟨["f"], [("f", "func() int \x7b return 1 \x7d")], []⟩
    assemble session ⟨"/"⟩ .empty "var f = f" =
        .ok ⟨"package main\n\nfunc main() \x7b\n\tf := func() int \x7b return 1 \x7d\n" ++
          "\tvar f = f // :INPUT\n\x7d\n", []⟩ ∧
      bodyOf session ⟨"/"⟩ .empty "var f = f" =
        [.rehydrated "f" "f := func() int \x7b return 1 \x7d",
          .given ⟨0, 3, ⟨0, 9⟩, some 4⟩ none] ∧
      "f".toList ∈ (Source.ofText "var f = f").declared ⟨0, 3, ⟨0, 9⟩, some 4⟩ ∧
      assemble session ⟨"/"⟩ .empty "const f = func() \x7b x := f \x7d" =
        .ok ⟨"package main\n\nfunc main() \x7b\n\tf := func() int \x7b return 1 \x7d\n" ++
          "\tconst f = func() \x7b x = f \x7d // :INPUT\n\x7d\n", []⟩ := by
  decide +kernel

end Notebook
