import Notebook.Proofs.Signatures

/-!
# Calls of what a call returns

A function literal that returns a function may be called, and then what it returned may be
called in turn.  The last call is the one whose results are asked for, and what it calls is
the literal together with the arguments of the first call.  The count is read from the first
tokens of this callee, and these are the signature of the literal: it has one result, the
function that it returns.  How many results that function has, which is what was asked, stands
further inside and is not looked at.  So the answer is right if that function has one result,
and wrong otherwise; and the call is shown in any case, also if it has no value.

## Main statements

* `ArityQuery.staticCount_literal`: what is answered for a callee that begins with a literal
* `ArityQuery.staticCount_called`: what is answered for what a literal returned
-/

namespace Notebook

/-- A function literal that returns a function: `func(params) func(inner) results {body}`. -/
structure ReturningLiteral where
  params : Enclosed
  inner : Enclosed
  results : ResultPart
  body : Enclosed

namespace ReturningLiteral

/-- The type of the function that is returned. -/
def returned (l : ReturningLiteral) : SingleType where
  tokens := funcToken :: (l.inner.within .paren ++ l.results.tokens)
  balanced := by
    have hfunc : nestStep 0 funcToken.1 = some 0 := rfl
    rw [List.map_cons, nest_cons, hfunc, Option.bind_some, List.map_append, nest_append,
      l.inner.nest_within]
    exact l.results.nest_tokens
  begins := rfl
  single := by
    rw [Source.outsideKinds_function]
    simpa using l.results.single_tokens.1
  unended := by
    rw [Source.outsideKinds_function]
    simpa using l.results.single_tokens.2

/-- The literal from its parameters on.  It has one result. -/
def signature (l : ReturningLiteral) : Signature :=
  ⟨l.params, .single l.returned, l.body⟩

/-- The tokens of a call of the literal, which yields the function that is returned. -/
def callTokens (l : ReturningLiteral) (args : Enclosed) : Wording :=
  funcToken :: (l.signature.tokens ++ args.within .paren)

end ReturningLiteral

namespace ArityQuery

/-- The callee of a question has the given tokens.  Behind them the end of the text implies a
semicolon. -/
def Asks (q : ArityQuery) (w : Wording) : Prop :=
  (tokenize q.callee.trim).map Token.content = w ++ [(.semi, []), (.eof, [])]

instance (q : ArityQuery) (w : Wording) : Decidable (q.Asks w) :=
  inferInstanceAs (Decidable (_ = _))

theorem leadingCount?_literal {callee : Source} {f : Signature}
    (h : callee.ReadsAt 0 (funcToken :: f.tokens)) :
    leadingCount? callee = .ok (some (some f.results.count)) := by
  have hfunc : callee.kindAt 0 = .keyword .funcKw := h.kindAt
  obtain ⟨-, close, hclose, hcount⟩ := h.tail.signature
  rw [leadingCount?, hfunc]
  simp only [hclose, Source.readResultCount_eq, hcount]
  rfl

/-- If a callee begins with a function literal, the answer is the number of results of the
literal, whatever stands behind it. -/
theorem staticCount_literal {q : ArityQuery} {f : Signature} {w : Wording}
    (h : q.Asks (funcToken :: (f.tokens ++ w))) :
    q.staticCount = .ok (some f.results.count) := by
  have hread : (Source.ofText q.callee.trim).ReadsAt 0 (funcToken :: f.tokens) := by
    refine List.IsPrefix.trans ?_ (h ▸ List.prefix_append _ _)
    exact List.prefix_append (funcToken :: f.tokens) w
  rw [staticCount, leadingCount?_literal hread]
  rfl

/-- **What is answered for what a literal returned.**  If the callee is a `ReturningLiteral`
that is called, `staticCount` is one, whatever results the returned function has; so nothing
wrong is said exactly if it has one result.  `wrapEdits` puts a marked statement that calls it
into a printing call in any case. -/
theorem staticCount_called {q : ArityQuery} {l : ReturningLiteral} {args : Enclosed}
    (h : q.Asks (l.callTokens args)) :
    q.staticCount = .ok (some 1) ∧
      (q.staticCount = .ok none ∨ q.staticCount = .ok (some l.results.count) ↔
        l.results.count = 1) ∧
      ∀ (p : DisplayPlan) (st : Statement) (text : Text) (answer : Option Nat),
        p.need = .ifResults q → p.marked = some st → p.source.statementText st = .ok text →
        q.staticCount = .ok answer →
        p.wrapEdits answer = .ok [⟨st.span, "fmt.Println(" ++ text ++ ")"⟩] := by
  have hone : q.staticCount = .ok (some 1) := staticCount_literal h
  refine ⟨hone, ?_, ?_⟩
  · rw [hone]
    simp [eq_comm]
  · intro p st text answer hneed hmarked htext hanswer
    obtain rfl : some 1 = answer := Except.ok.inj (hone.symm.trans hanswer)
    have hshows : p.shows (some 1) = true := by
      rw [DisplayPlan.shows, hneed]
      rfl
    rw [DisplayPlan.wrapEdits, hmarked]
    simp only [if_pos hshows, htext]
    rfl

/-- A returned function with one result, which is called behind the literal with one
argument. -/
theorem staticCount_called_once :
    let callee : Text := "func(n int) func() int \x7b return f \x7d(1)"
    let q : ArityQuery := ⟨callee, callee ++ "()", 0, 0⟩
    let st : Statement := ⟨0, 17, ⟨0, 40⟩, some 18⟩
    let p : DisplayPlan := ⟨.ofText q.program, [st], some st, .ifResults q⟩
    q.staticCount = .ok (some 1) ∧
      p.wrapEdits (some 1) = .ok [⟨⟨0, 40⟩, "fmt.Println(" ++ (callee ++ "()") ++ ")"⟩] := by
  intro callee q st p
  have hasks : q.Asks (ReturningLiteral.callTokens
      ⟨⟨[(.ident, "n"), (.ident, "int")], by decide⟩, ⟨[], by decide⟩,
        .single ⟨⟨[(.ident, "int")], by decide⟩, by decide, by decide, by decide⟩,
        ⟨[(.keyword .returnKw, "return"), (.ident, "f")], by decide⟩⟩
      ⟨[(.int, "1")], by decide⟩) := by
    decide +kernel
  obtain ⟨hone, -, hwrap⟩ := staticCount_called hasks
  exact ⟨hone, hwrap p st _ _ rfl rfl (by decide +kernel) hone⟩

/-- A call of a returned function without results is answered as if it had one. -/
theorem not_staticCount_sound :
    ¬ ∀ (q : ArityQuery) (l : ReturningLiteral) (args : Enclosed),
      q.Asks (l.callTokens args) →
      q.staticCount = .ok none ∨ q.staticCount = .ok (some l.results.count) := by
  intro h
  let q : ArityQuery :=
    ⟨"func() func() \x7b return f \x7d()", "package main\n\nfunc main() \x7b\n\x7d\n", 27, 27⟩
  let l : ReturningLiteral := ⟨⟨[], by decide⟩, ⟨[], by decide⟩, .none,
    ⟨[(.keyword .returnKw, "return"), (.ident, "f")], by decide⟩⟩
  have hasks : q.Asks (l.callTokens ⟨[], by decide⟩) := by decide +kernel
  have hone : q.staticCount = .ok (some 1) := staticCount_literal hasks
  have hzero := h q l _ hasks
  rw [hone] at hzero
  rcases hzero with hnone | hsome
  · cases hnone
  · cases hsome

end ArityQuery

end Notebook
