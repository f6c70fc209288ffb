import Notebook.Text.Decimal
import Notebook.Text.Word

/-!
# Diagnostics of the toolchain

A diagnostic is one line of a report: a location, a line number, perhaps a column, and a
message, with colons between them.  The location is as short as possible, so it ends at the
first colon behind which the numbers follow.

## Main definitions

* `Diagnostic`, `Diagnostic.render`: a diagnostic and how it is written
* `Diagnostic.ofLine?`, `diagnostics`: reading one line and a whole report
* `UnusedReport`, `unusedReports`: the diagnostics on names that are declared and not used
-/

namespace Notebook

/-- A complaint of the toolchain about a line of a file. -/
structure Diagnostic where
  location : Text
  line : Nat
  column : Option Nat
  message : Text
deriving DecidableEq, Repr

namespace Diagnostic

/-- How a diagnostic is written. -/
def render (d : Diagnostic) : Text :=
  let column := d.column.elim [] fun c => ':' :: Text.ofNat c
  d.location ++ ":" ++ Text.ofNat d.line ++ column ++ ": " ++ d.message

/-- The parts of a line behind the location: the digits of the line, those of the column, and
the message. -/
def numbersAndMessage? : Text → Option (Text × Option Text × Text)
  | ':' :: t =>
    let line := t.takeWhile isWordDigit
    match line, t.dropWhile isWordDigit with
    | [], _ => none
    | _, ':' :: t =>
      let column := t.takeWhile isWordDigit
      match column, t.dropWhile isWordDigit with
      | _ :: _, ':' :: t => some (line, some column, Text.trimStart t)
      | _, _ => some (line, none, Text.trimStart t)
    | _, _ => none
  | _ => none

/-- A line cut at the first colon behind which the numbers follow. -/
def cutLocation? : Text → Option (Text × Text × Option Text × Text)
  | [] => none
  | c :: t =>
    match numbersAndMessage? t with
    | some parts => some ([c], parts)
    | none => (cutLocation? t).map fun p => (c :: p.1, p.2)

/-- Reads a line of a report.  A line number that is no 64-bit number makes it no diagnostic;
such a column is left out. -/
def ofLine? (line : Text) : Option Diagnostic := do
  let (location, number, column, message) ← cutLocation? line.trimEnd
  let number ← Text.toWord64? number
  return ⟨location.trim, number, column.bind Text.toWord64?, message⟩

end Diagnostic

/-- The diagnostics of a report, in order. -/
def diagnostics (report : Text) : List Diagnostic :=
  report.lines.filterMap Diagnostic.ofLine?

/-- The report that a name is declared and not used, with the line it points at. -/
structure UnusedReport where
  name : Text
  line : Option Nat
deriving DecidableEq, Repr

namespace UnusedReport

/-- The name at the end of a text that says `declared and not used: NAME`. -/
def trailingName? (t : Text) : Option Text :=
  let phrase : Text := "declared and not used: "
  if phrase.isPrefixOf t then
    let name := t.drop phrase.length
    if !name.isEmpty && name.all isWordChar then some name else none
  else none

/-- The name at the front of a text that says `NAME declared and not used`. -/
def leadingName? (t : Text) : Option Text :=
  let name := t.takeWhile isWordChar
  let behind := t.dropWhile isWordChar
  if !name.isEmpty && (" declared and not used".toList.isPrefixOf behind ||
      " declared but not used".toList.isPrefixOf behind) then some name
  else none

/-- The first place in a text that reports a name; a name in front of the phrase begins where
a word begins.  `inWord` says whether the character before the text belongs to a word. -/
def nameIn? (inWord : Bool) : Text → Option Text
  | [] => none
  | c :: t =>
    match trailingName? (c :: t) with
    | some name => some name
    | none =>
      match if inWord then none else leadingName? (c :: t) with
      | some name => some name
      | none => nameIn? (isWordChar c) t

/-- Reads a line of a report. -/
def ofLine? (line : Text) : Option UnusedReport :=
  (nameIn? false line.trimEnd).map fun name => ⟨name, (Diagnostic.ofLine? line).map (·.line)⟩

end UnusedReport

/-- The reports on unused names, in order. -/
def unusedReports (report : Text) : List UnusedReport :=
  report.lines.filterMap UnusedReport.ofLine?

end Notebook
