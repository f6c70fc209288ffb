import Notebook.Arity
import Notebook.Text.Decimal

/-!
# Asking a running program

What the text does not show can be asked of a small program that prints the number of results
by reflection.  It holds the declarations, and of the entry function only those statements
that bring a stored value back and that the callee depends on.

## Main definitions

* `Replay`: a statement that only brings a value back
* `Replay.closure`: the replays that a name depends on
* `ArityQuery.probeProgram`: the program to ask
* `probedCount?`: the answer in its output
-/

namespace Notebook

/-- The word in front of the answer. -/
def probeMarker : Text := "__gocell_arity__"

/-- The answer in the output of a probe: the number on the last line that begins with the
marker. -/
def probedCount? (output : Text) : Option Nat := do
  let line ← output.lines.reverse.find? fun l => probeMarker.isPrefixOf (Text.trim l)
  Text.toWord64? (Text.trim ((Text.trim line).drop probeMarker.length))

/-- A statement that only brings a stored value back: its text, the names it binds, and the
identifiers in it. -/
structure Replay where
  text : Text
  names : List Text
  mentions : List Text
deriving DecidableEq, Repr

namespace Replay

/-- Whether bindings bring a value back: a declaration of one name with a function literal, or
of names with a decoding call. -/
def isReplay (s : Source) (bindings : List Binding) : Checked Bool :=
  match bindings with
  | [] => .ok false
  | b :: rest =>
    if !b.define then .ok false
    else
      match b.value, b.rhs with
      | some value, _ =>
        if rest.isEmpty then (s.slice value).map isFunctionLiteral else .ok false
      | none, some rhs =>
        (s.slice rhs).map fun t => "_Deserialize[".toList.isPrefixOf (Text.trimStart t)
      | none, none => .ok false

/-- The replay that a statement is, if it is one. -/
def ofStatement? (s : Source) (st : Statement) : Checked (Option Replay) := do
  let bindings ← s.readBindings st
  if ← isReplay s bindings then
    let text ← s.statementText st
    return some ⟨text, bindings.map (·.name), identifiers text⟩
  else return none

/-- The place of the last replay that binds a name. -/
def lastBinding? (replays : List Replay) (name : Text) : Option Nat :=
  (List.range replays.length).reverse.find? fun i => replays[i]?.any fun r => name ∈ r.names

/-- The names that are not there yet, each once and without the blank name. -/
def fresh (wanted : List Text) : List Text → List Text
  | [] => []
  | n :: ns =>
    if n = blankName ∨ n ∈ wanted then fresh wanted ns else n :: fresh (wanted ++ [n]) ns

/-- The places that are not taken in yet. -/
def remaining (replays : List Replay) (included : List Nat) : List Nat :=
  (List.range replays.length).filter (· ∉ included)

theorem lastBinding?_lt {replays : List Replay} {name : Text} {i : Nat}
    (h : lastBinding? replays name = some i) : i < replays.length := by
  have := List.mem_of_find?_eq_some h
  simpa using this

theorem length_remaining_lt {replays : List Replay} {included : List Nat} {i : Nat}
    (hi : i < replays.length) (hn : i ∉ included) :
    (remaining replays (i :: included)).length < (remaining replays included).length := by
  have hsub : remaining replays (i :: included) =
      (remaining replays included).filter (· ≠ i) := by
    simp only [remaining, List.filter_filter]
    congr 1
    ext k
    simp
  rw [hsub]
  have hmem : i ∈ remaining replays included := by simp [remaining, hi, hn]
  exact List.length_filter_lt_length_iff_exists.2 ⟨i, hmem, by simp⟩

/-- Takes in the last replay of every name in the queue, and queues what it mentions.
`wanted` are all names that were ever queued. -/
def closureFrom (replays : List Replay) (queue wanted : List Text) (included : List Nat) :
    List Nat :=
  match queue with
  | [] => included
  | name :: queue =>
    match _h : lastBinding? replays name with
    | none => closureFrom replays queue wanted included
    | some i =>
      if _hi : i ∈ included then closureFrom replays queue wanted included
      else
        let new := fresh wanted ((replays[i]?.map (·.mentions)).getD [])
        closureFrom replays (queue ++ new) (wanted ++ new) (i :: included)
termination_by ((remaining replays included).length, queue.length)
decreasing_by
  · exact Prod.Lex.right _ (by simp)
  · exact Prod.Lex.right _ (by simp)
  · exact Prod.Lex.left _ _
      (length_remaining_lt (lastBinding?_lt (by assumption)) (by assumption))

/-- The replays that a name depends on, in source order. -/
def closure (replays : List Replay) (name? : Option Text) : List Replay :=
  let included := closureFrom replays name?.toList name?.toList []
  ((List.range replays.length).filter (· ∈ included)).filterMap (replays[·]?)

end Replay

namespace ArityQuery

/-- The identifier with which the callee begins. -/
def head? (q : ArityQuery) : Option Text :=
  ((tokenize q.callee.trim).head?.filter fun t => t.kind == .ident).map Token.lexeme

/-- The replays among the statements before the call. -/
def replays (q : ArityQuery) : Checked (List Replay) := do
  let s := Source.ofText (← q.preceding)
  return (← (← s.readStatements).mapM (Replay.ofStatement? s)).filterMap id

/-- The program that prints the number of results of the callee. -/
def probeProgram (q : ArityQuery) : Checked Text := do
  let needed := Replay.closure (← q.replays) q.head?
  let declarations ← Span.slice ⟨0, q.bodyStart⟩ q.program
  let body : Text := needed.flatMap fun r => bodyLine (Text.trim r.text)
  let discards : Text :=
    ((needed.flatMap (·.names)).filter (· != blankName)).flatMap discardLine
  return declarations ++ "\n" ++ body ++ discards ++ "\tfmt.Println(\"" ++ probeMarker ++
    "\", reflect.TypeOf(" ++ q.callee.trim ++ ").NumOut())\n\x7d\n"

/-- Whether the callee is a function of a package: two plain names, the first of which is
no name of the entry function before the call.  Only then does its answer hold for later
turns. -/
def isPackageQualified (q : ArityQuery) : Checked Bool :=
  match Text.cutFirst? "." q.callee.trim with
  | none => .ok false
  | some (package, member) =>
    let simple (t : Text) : Bool := !t.isEmpty && t.all isIdentifierChar
    if simple package && simple member then do
      return !(Source.ofText (← q.preceding)).mentions package
    else .ok false

end ArityQuery

end Notebook
