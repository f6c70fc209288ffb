import Notebook.Display
import Notebook.Source.Signature

/-!
# How many results a function has

Much can be read from the program itself: function literals and types in front of a call,
functions and methods that it declares, closures bound earlier in the entry function, and what
the language predeclares.  A method is known only if all methods of its name agree.
-/

namespace Notebook

/-- The predeclared functions with one result. -/
def builtinsWithResult : List String :=
  ["len", "cap", "append", "make", "new", "complex", "real", "imag", "min", "max", "copy",
   "recover"]

/-- The predeclared functions without results. -/
def builtinsWithoutResult : List String :=
  ["print", "println", "panic", "close", "delete", "clear"]

/-- The predeclared types; naming one as a function converts. -/
def predeclaredTypes : List String :=
  ["bool", "byte", "rune", "string", "error", "any", "int", "int8", "int16", "int32", "int64",
   "uint", "uint8", "uint16", "uint32", "uint64", "uintptr", "float32",
   "float64", "complex64",
   "complex128", "comparable"]

/-- Whether a name is one of the given words. -/
def isOneOf (words : List String) (name : Text) : Bool :=
  words.any fun w => w.toList == name

/-- Whether a text declares a type of this name. -/
def Source.declaresType (s : Source) (name : Text) : Checked Bool := do
  (← s.readStatements).anyM fun st => do
    if s.kindAt st.first == .keyword .typeKw && s.kindAt (st.first + 1) == .ident then
      return (← s.tokenAt (st.first + 1)).lexeme == name
    else return false

namespace ArityQuery

/-- The statements of the entry function before the call, as text. -/
def preceding (q : ArityQuery) : Checked Text :=
  Span.slice ⟨q.bodyStart, q.statementStart⟩ q.program

/-- The count that the first token of the callee decides; `none` when it decides nothing. -/
def leadingCount? (callee : Source) : Checked (Option (Option Nat)) :=
  match callee.kindAt 0 with
  | .opening .square | .keyword .mapKw | .keyword .chanKw => .ok (some (some 1))
  | .op => do return if (← callee.tokenAt 0).lexeme == "*" then some (some 1) else none
  | .keyword .funcKw =>
    match callee.matching 1 with
    | none => .ok (some none)
    | some close => do return some (some (← callee.readResultCount (close + 1)))
  | _ => .ok none

/-- The common number of results of all methods with a name. -/
def methodCount? (decls : List FunctionDecl) (name : Text) : Option Nat :=
  match (decls.filter fun d => d.receiver && d.name == name).map (·.results) with
  | [] => none
  | n :: ns => if ns.all (· == n) then some n else none

/-- The number of results of the closure that was last bound to a name. -/
def closureCount? (before : Source) (name : Text) : Checked (Option Nat) := do
  let found ← (← before.readStatements).mapM before.readClosureArity
  return ((found.filterMap id).filter (·.1 == name)).getLast?.map Prod.snd

/-- The number of results as far as the program shows it. -/
def staticCount (q : ArityQuery) : Checked (Option Nat) := do
  let callee := q.callee.trim
  match ← leadingCount? (Source.ofText callee) with
  | some answer => return answer
  | none =>
    let program := Source.ofText q.program
    let decls ← program.readFunctionDecls
    match Text.cutLast? "." callee with
    | some (_, method) => return methodCount? decls method
    | none =>
      match ← closureCount? (Source.ofText (← q.preceding)) callee with
      | some n => return some n
      | none =>
        match decls.find? fun d => !d.receiver && d.name == callee with
        | some d => return some d.results
        | none =>
          if isOneOf builtinsWithResult callee ||
            isOneOf predeclaredTypes callee then return some 1
          else if isOneOf builtinsWithoutResult callee then return some 0
          else if ← program.declaresType callee then return some 1
          else return none

end ArityQuery

end Notebook
