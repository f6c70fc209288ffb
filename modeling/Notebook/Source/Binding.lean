import Notebook.Source.Shape

/-!
# Bindings

The names that a statement gives a value to: the specifications of a `var` or `const`
declaration, one or a parenthesised group, and the plain names on the left of `:=` or `=`.  A
target such as `a.b` or `m[k]` changes a value and binds no name, so a statement with one
binds nothing.
-/

namespace Notebook

/-- The name that binds nothing. -/
def blankName : Text := "_"

/-- A line that uses a name and does nothing with it. -/
def discardLine (name : Text) : Text :=
  bodyLine ("_ = " ++ name)

/-- Puts names behind others, but none that is there already. -/
def addNames (names more : List Text) : List Text :=
  more.foldl (fun ns n => if n ∈ ns then ns else ns ++ [n]) names

theorem mem_addNames {names more : List Text} {x : Text} :
    x ∈ addNames names more ↔ x ∈ names ∨ x ∈ more := by
  induction more generalizing names with
  | nil => simp [addNames]
  | cons m more ih =>
    simp only [addNames, List.foldl_cons] at ih ⊢
    rw [ih]
    split <;> grind

theorem prefix_addNames (names more : List Text) : names <+: addNames names more := by
  induction more generalizing names with
  | nil => exact List.prefix_rfl
  | cons m more ih =>
    simp only [addNames, List.foldl_cons] at ih ⊢
    split
    · exact ih names
    · exact (List.prefix_append names [m]).trans (ih _)

/-- Names that stand once stand once when others are put behind them. -/
theorem nodup_addNames {names : List Text} (h : names.Nodup) (more : List Text) :
    (addNames names more).Nodup := by
  induction more generalizing names with
  | nil => exact h
  | cons m more ih =>
    simp only [addNames, List.foldl_cons] at ih ⊢
    split
    · exact ih h
    next hm =>
      refine ih (List.nodup_append.2 ⟨h, by simp, ?_⟩)
      intro n hn m' hm' heq
      rw [heq, List.mem_singleton.1 hm'] at hn
      exact hm hn

/-- One bound name: its offset, the extent of its own value if names and values pair up, the
extent of all values, and whether the statement declares it. -/
structure Binding where
  name : Text
  pos : Nat
  value : Option Span
  rhs : Option Span
  define : Bool
deriving DecidableEq, Repr

namespace Source

/-- Tokens cut at the commas outside brackets. -/
def cutCommas (depth : Nat) : List Token → List (List Token)
  | [] => [[]]
  | t :: ts =>
    if t.kind = .comma ∧ depth = 0 then [] :: cutCommas depth ts
    else
      match cutCommas (depthAfter depth t.kind) ts with
      | [] => [[t]]
      | p :: ps => (t :: p) :: ps

/-- The nonempty parts between the commas outside brackets. -/
def commaParts (ts : List Token) : List (List Token) :=
  (cutCommas 0 ts).filter fun p => !p.isEmpty

/-- Gives names their values: one each if there are as many values as names, else only the
extent of all values together. -/
def pairValues (names values : List Token) (define : Bool) : List Binding :=
  let parts := commaParts values
  let bind (name : Token) (value : Option Span) : Binding :=
    ⟨name.lexeme, name.pos, value, extent values, define⟩
  if parts.length = names.length then names.zipWith (fun n p => bind n (extent p)) parts
  else names.map fun n => bind n none

/-- The names at the front of a specification. -/
def specNames : List Token → List Token
  | a :: c :: ts =>
    if a.kind = .ident then if c.kind = .comma then a :: specNames ts else [a] else []
  | [a] => if a.kind = .ident then [a] else []
  | [] => []

/-- The tokens behind the first `=` outside brackets. -/
def behindAssign (depth : Nat) : List Token → List Token
  | [] => []
  | t :: ts =>
    if t.kind = .assign ∧ depth = 0 then ts else behindAssign (depthAfter depth t.kind) ts

/-- The bindings of one specification of a declaration. -/
def specBindings (ts : List Token) : List Binding :=
  pairValues (specNames ts) (behindAssign 0 ts) true

/-- Names with commas between them, if there is nothing else. -/
def plainNames : List Token → Option (List Token)
  | [] => some []
  | [a] => if a.kind = .ident then some [a] else none
  | a :: c :: ts => if a.kind = .ident ∧ c.kind = .comma then
    (plainNames ts).map (a :: ·) else none

/-- Tokens cut at the first assigning token outside brackets. -/
def cutAssignment (depth : Nat) : List Token → Option (List Token × Token × List Token)
  | [] => none
  | t :: ts =>
    let before := if t.kind.closes then depth - 1 else depth
    let behind := if t.kind.opens then before + 1 else before
    if before = 0 ∧ assigns t.kind then some ([], t, ts)
    else (cutAssignment behind ts).map fun p => (t :: p.1, p.2)

/-- The bindings of an assignment to plain names. -/
def assignmentBindings (ts : List Token) : List Binding :=
  match cutAssignment 0 ts with
  | none => []
  | some (left, op, right) =>
    if op.kind = .opAssign then []
    else
      match plainNames left with
      | none => []
      | some names => pairValues names right (op.kind == .define)

/-- The bindings of a statement. -/
def bindings (s : Source) (st : Statement) : List Binding :=
  match s.kindAt st.first with
  | .keyword .varKw | .keyword .constKw =>
    if s.kindAt (st.first + 1) = .opening .paren then
      match s.matching (st.first + 1) with
      | none => []
      | some close =>
        (s.statementsBetween (st.first + 2) close).flatMap fun spec =>
          specBindings (s.tokensOf spec)
    else specBindings (s.segment (st.first + 1) st.last)
  | _ => assignmentBindings (s.tokensOf st)

@[inherit_doc bindings]
def readBindings (s : Source) (st : Statement) : Checked (List Binding) := do
  match (← s.tokenAt st.first).kind with
  | .keyword .varKw | .keyword .constKw =>
    if s.kindAt (st.first + 1) = .opening .paren then
      match s.matching (st.first + 1) with
      | none => return []
      | some close =>
        let specs ← s.statementsIn (st.first + 2) close
        let found ← specs.mapM fun spec => do return specBindings (← s.readTokensOf spec)
        return found.flatten
    else return specBindings (← s.readSegment (st.first + 1) st.last)
  | _ => return assignmentBindings (← s.readTokensOf st)

/-- Whether an identifier of this name lies in a span. -/
def mentionsIn (s : Source) (span : Span) (name : Text) : Bool :=
  s.tokens.any fun t => span.start ≤ t.pos && t.stop ≤ span.stop && t.isIdent name

/-- Whether an identifier of this name stands anywhere. -/
def mentions (s : Source) (name : Text) : Bool :=
  s.tokens.any fun t => t.isIdent name

end Source

/-- The identifiers of a text, in order and with repetitions. -/
def identifiers (t : Text) : List Text :=
  ((tokenize t).filter fun k => k.kind == .ident).map Token.lexeme

/-- Whether a text counts as a function literal: it begins with `func (` and ends with a
closing brace, implied semicolons aside.  What stands between is not looked at. -/
def isFunctionLiteral (t : Text) : Bool :=
  let spelled := (tokenize t).filter fun k => k.kind != .eof && !k.isImpliedSemi
  match spelled with
  | f :: l :: _ =>
    f.kind == .keyword .funcKw && l.kind == .opening .paren &&
      spelled.getLast?.any fun k => k.kind == .closing .brace
  | _ => false

end Notebook
