import Notebook.Proofs.MethodKeys

/-!
# Two ways to tell a function declaration

A statement that begins with `func` is looked at twice.  When an input comes in, declarations
are taken out of it: a function with a name, or a method, which has a receiver, a name and
parameters in parentheses.  When the program is shown, declarations are told from values;
there the name of a method may also be followed by a square bracket.  Everything that is taken
out counts as a declaration.  The other way round this fails for `func ( … ) name [` alone: a
method with type parameters of its own, or the call of a function literal whose result is a
type with arguments.
-/

namespace Notebook

namespace Source

/-- A statement that begins with `func ( … ) name [`. -/
def IsIndexedFunction (s : Source) (st : Statement) : Prop :=
  s.kindAt (st.first + 1) = .opening .paren ∧
    ∃ close, s.matching (st.first + 1) = some close ∧ s.kindAt (close + 1) = .ident ∧
      s.kindAt (close + 2) = .opening .square

variable {s : Source} {st : Statement}

/-- Only the first tokens of a statement make it a declaration. -/
theorem classify_eq_decl_iff : s.classify st = .decl ↔ s.leadingKind? st = some .decl := by
  unfold classify innerKind
  cases s.leadingKind? st with
  | some k => simp
  | none =>
    simp only [reduceCtorEq, iff_false]
    repeat' split
    all_goals exact StatementKind.noConfusion

theorem isMethodAt_iff {i : Nat} : s.isMethodAt i = true ↔
    ∃ close, s.matching (i + 1) = some close ∧ s.kindAt (close + 1) = .ident ∧
      (s.kindAt (close + 2) = .opening .paren ∨ s.kindAt (close + 2) = .opening .square) := by
  unfold isMethodAt
  cases s.matching (i + 1) <;> simp

/-- A function counts as a declaration if a name follows, or a receiver, a name and one of two
brackets. -/
theorem leadingKind?_function (hfunc : s.kindAt st.first = .keyword .funcKw) :
    s.leadingKind? st = some .decl ↔ s.kindAt (st.first + 1) = .ident ∨
      s.kindAt (st.first + 1) = .opening .paren ∧ s.isMethodAt st.first = true := by
  rw [leadingKind?, hfunc, leadingKindFrom?]
  by_cases hident : s.kindAt (st.first + 1) = .ident
  · simp [hident]
  · simp [hident]

/-- A function is taken out if a name follows, or a receiver, a name and a parenthesis. -/
theorem isPackageLevel_function (hfunc : s.kindAt st.first = .keyword .funcKw) :
    s.isPackageLevel st = true ↔ s.kindAt (st.first + 1) = .ident ∨
      s.kindAt (st.first + 1) = .opening .paren ∧ ∃ close,
        s.matching (st.first + 1) = some close ∧
        s.kindAt (close + 1) = .ident ∧ s.kindAt (close + 2) = .opening .paren := by
  obtain ⟨t, ht, hkind⟩ : ∃ t, s.tokens[st.first]? = some t ∧ t.kind = .keyword .funcKw := by
    unfold kindAt at hfunc
    cases ht : s.tokens[st.first]? with
    | none =>
      rw [ht] at hfunc
      cases hfunc
    | some t =>
      rw [ht] at hfunc
      exact ⟨t, rfl, hfunc⟩
  have hdrop : s.tokens.drop st.first = t :: s.tokens.drop (st.first + 1) := by
    obtain ⟨hlt, rfl⟩ := List.getElem?_eq_some_iff.1 ht
    exact List.drop_eq_getElem_cons hlt
  rw [isPackageLevel_eq, hdrop]
  simp only [startsDeclaration, hkind]
  rw [Bool.or_eq_true, any_drop_iff (by decide), Nat.zero_add, startsMethod_drop]

/-- What makes a statement a package-level declaration takes it out of the input. -/
theorem exists_isTakenFrom_iff {input : Text} (hst : st ∈ (ofText input).statements) :
    (∃ d : Declaration, d.IsTakenFrom input st) ↔
    (ofText input).isPackageLevel st = true := by
  have hmakes : Declaration.ofStatement? (ofText input) st =
      .ok ((ofText input).declared? st) := by
    rw [Declaration.ofStatement?_eq (standsIn_of_mem hst).1, statementText_eq hst]
    rfl
  rw [← isSome_declared?, Option.isSome_iff_exists]
  constructor
  · rintro ⟨d, hd, -⟩
    exact ⟨d, Except.ok.inj (hmakes.symm.trans hd)⟩
  · rintro ⟨d, hd⟩
    obtain ⟨body, -, hsplit⟩ := splitDeclarations_eq input
    exact ⟨d, hmakes.trans (congrArg Except.ok hd), _, body, hsplit,
      List.mem_filterMap.2 ⟨st, hst, hd⟩⟩

/-- **Which functions count as declarations.**  Of the statements that begin with `func`,
`classify` counts as declarations those that are taken out of an input
(`Declaration.IsTakenFrom`), and besides them exactly those that go on with parentheses, a
name and a square bracket (`IsIndexedFunction`); these stay in the input. -/
theorem classify_function_iff {input : Text} (hst : st ∈ (ofText input).statements)
    (hfunc : (ofText input).kindAt st.first = .keyword .funcKw) :
    ((ofText input).classify st = .decl ↔
      (∃ d : Declaration, d.IsTakenFrom input st) ∨ (ofText input).IsIndexedFunction st) ∧
    ¬((∃ d : Declaration, d.IsTakenFrom input st) ∧ (ofText input).IsIndexedFunction st) := by
  rw [exists_isTakenFrom_iff hst, isPackageLevel_function hfunc, classify_eq_decl_iff,
    leadingKind?_function hfunc, isMethodAt_iff, IsIndexedFunction]
  constructor
  · rw [or_assoc, ← and_or_left]
    refine or_congr_right (and_congr_right fun _ => ?_)
    rw [← exists_or]
    refine exists_congr fun close => ?_
    rw [← and_or_left, ← and_or_left]
  · rintro ⟨hident | ⟨-, close, hclose, -, hparen⟩, hopen, close', hclose', -, hsquare⟩
    · rw [hident] at hopen
      cases hopen
    · rw [hclose] at hclose'
      cases hclose'
      rw [hparen] at hsquare
      cases hsquare

/-- A method, and behind it the call of a function literal: the method is taken out and counts
as a declaration, the call does neither. -/
theorem classify_function_method :
    let input : Text := "func (a A) F(x T) \x7b\x7d\nfunc(x T) U \x7b return x \x7d(y)"
    ∃ st st', (ofText input).statements = [st, st'] ∧ (ofText input).classify st = .decl ∧
      (∃ d : Declaration, d.IsTakenFrom input st) ∧ (ofText input).classify st' ≠ .decl ∧
      ¬∃ d : Declaration, d.IsTakenFrom input st' := by
  intro input
  let st : Statement := ⟨0, 11, ⟨0, 20⟩, some 12⟩
  let st' : Statement := ⟨13, 25, ⟨21, 48⟩, some 26⟩
  have hstatements : (ofText input).statements = [st, st'] := by decide +kernel
  have hmethod := @classify_function_iff st input (by rw [hstatements]; simp)
    (by decide +kernel)
  have hcall := @classify_function_iff st' input (by rw [hstatements]; simp)
    (by decide +kernel)
  have hdecl : (ofText input).classify st = .decl := by decide +kernel
  have hvalue : (ofText input).classify st' ≠ .decl := by decide +kernel
  refine ⟨st, st', hstatements, hdecl, ?_, hvalue, fun htaken =>
    hvalue (hcall.1.2 (.inl htaken))⟩
  refine (hmethod.1.1 hdecl).resolve_right ?_
  rintro ⟨-, close, hclose, -, hsquare⟩
  have hparen :
    ((ofText input).matching (st.first + 1)).map (fun i => (ofText input).kindAt (i + 2)) =
      some (.opening .paren) := by
    decide +kernel
  rw [hclose, Option.map_some, hsquare] at hparen
  cases hparen

/-- The call of a function literal counts as a declaration if its result is a type with
arguments, and is not taken out. -/
theorem not_classify_iff_taken :
    let input : Text := "func() Pair[int] \x7b return p \x7d()"
    ∃ st, (ofText input).statements = [st] ∧
      (ofText input).kindAt st.first = .keyword .funcKw ∧ (ofText input).classify st = .decl ∧
      splitDeclarations input = .ok ([], input) := by
  exact ⟨⟨0, 12, ⟨0, 31⟩, some 13⟩, by decide +kernel⟩

end Source

end Notebook
