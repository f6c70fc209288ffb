import Notebook.Text.Decimal

/-!
# The command line

Four commands and four options that may stand before or behind the command.  An option with a
value takes it behind an equals sign or from the next word, which must not look like an
option.  No option is given twice at one place; of two places, the one behind the command
counts.

A value in a word of its own is judged only when the next option or the end is reached.  If a
command comes first, the words behind the command are read before that, and help that is asked
for there is given even if the value is refused.

## Main definitions

* `Invocation`, `Request`: what a command line asks for
* `Request.ofArguments`: reading it
* `Topic.help`: what is printed when help is asked for
-/

namespace Notebook

namespace CommandLine

/-- What is to be done. -/
inductive Command where
  | repl
  | run (code : Text)
  | log (count : Nat)
  | clean
deriving DecidableEq, Repr

/-- The commands by name. -/
inductive CommandName where
  | repl
  | run
  | log
  | clean
deriving DecidableEq, Repr

/-- The options that every command knows. -/
structure Options where
  config : Option Text
  workspace : Option Text
  session : Option Text
  verbose : Bool
deriving DecidableEq, Repr

/-- A command with its options. -/
structure Invocation where
  options : Options
  command : Command
deriving DecidableEq, Repr

/-- What help is asked about. -/
inductive Topic where
  | program
  | command (name : CommandName)
  | helpCommand
deriving DecidableEq, Repr

/-- What a command line asks for. -/
inductive Request where
  | invoke (invocation : Invocation)
  | help (topic : Topic)
  | version
deriving DecidableEq, Repr

namespace CommandName

/-- All commands, in the order of the help. -/
def all : List CommandName := [repl, run, log, clean]

/-- How a command is called. -/
def spelling : CommandName → String
  | repl => "repl"
  | run => "run"
  | log => "log"
  | clean => "clean"

/-- The command with a name. -/
def ofText? (t : Text) : Option CommandName :=
  all.find? fun c => c.spelling.toList == t

/-- What a command does. -/
def about : CommandName → String
  | repl => "Interactive Go session"
  | run => "Run a Go file, or a snippet as one turn"
  | log => "Show the last lines of the log file"
  | clean => "Delete the session workspace"

end CommandName

/-! ### Reading -/

/-- Where words are being read: before the command, or behind it. -/
inductive Level where
  | program
  | command (name : CommandName)
deriving DecidableEq, Repr

/-- What was read at a level. -/
structure Words where
  options : Options
  /-- The code of the command `run`. -/
  code : Option Text
  /-- The number of the command `log`. -/
  count : Option Nat
deriving DecidableEq, Repr

/-- Nothing read. -/
def Words.none : Words :=
    ⟨⟨Option.none, Option.none, Option.none, false⟩, Option.none, Option.none⟩

/-- What reading a level comes to: words up to the end, a command with the words that follow
it, or a request that is answered at once. -/
inductive Reading where
  | done (words : Words)
  /-- There are no words before the command if the value in front of it is refused. -/
  | command (before : Option Words) (name : CommandName) (rest : List Text)
  | request (request : Request)
deriving DecidableEq, Repr

/-- Whether a word looks like an option. -/
def looksLikeOption : Text → Bool
  | '-' :: _ :: _ => true
  | _ => false

/-- Sets an option that takes a value; none is given twice, and a path is not empty. -/
def Options.set? (o : Options) (name value : Text) : Option Options :=
  if name = "config".toList then
    if o.config.isSome || value.isEmpty then none else some { o with config := some value }
  else if name = "workspace".toList then
    if o.workspace.isSome || value.isEmpty then none else
      some { o with workspace := some value }
  else if name = "session".toList then
    if o.session.isSome then none else some { o with session := some value }
  else none

/-- Whether an option takes a value. -/
def takesValue (name : Text) : Bool :=
  name == "config" || name == "workspace" || name == "session"

/-- Notes the flag for more logging. -/
def Words.setVerbose? (w : Words) : Option Words :=
  if w.options.verbose then Option.none
  else some { w with options := { w.options with verbose := true } }

/-- Notes the number of lines. -/
def Words.setCount? (w : Words) (value : Text) : Option Words :=
  if w.count.isSome then Option.none
  else (Text.toWord64? value).map fun n => { w with count := some n }

/-- Notes a word that is no option. -/
def Words.setCode? (w : Words) (level : Level) (word : Text) : Option Words :=
  match level, w.code with
  | .command .run, Option.none => some { w with code := some word }
  | _, _ => Option.none

/-- The topic of a level. -/
def Level.topic : Level → Topic
  | .program => .program
  | .command name => .command name

/-- What comes of a group of short options: words, a missing value of the number option, or a
request. -/
inductive Cluster where
  | words (words : Words)
  | wantsCount (words : Words)
  | request (request : Request)

/-- Reads the letters of a word with short options. -/
def readCluster (level : Level) (w : Words) : Text → Option Cluster
  | [] => some (.words w)
  | c :: cs =>
    if c = 'v' then do readCluster level (← w.setVerbose?) cs
    else if c = 'h' then some (.request (.help level.topic))
    else if c = 'V' ∧ level = .program then some (.request .version)
    else if c = 'n' ∧ level = .command .log then
      match cs with
      | [] => some (.wantsCount w)
      | '=' :: value | value => (w.setCount? value).map .words
    else none

/-- The topic that the words behind `help` name. -/
def helpTopic? : List Text → Option Topic
  | [] => some .program
  | [word] =>
    if word = "help".toList then some .helpCommand else
      (CommandName.ofText? word).map .command
  | _ => none

/-- Reads a command, or the word that asks for help. -/
def readCommand? (before : Option Words) : List Text → Option Reading
  | [] => none
  | word :: rest =>
    if word = "help".toList then (helpTopic? rest).map fun t => .request (.help t)
    else (CommandName.ofText? word).map fun name => .command before name rest

/-- Reads the words of a level; `none` is an error of usage.  Behind a double dash nothing is
an option. -/
def read (level : Level) (w : Words) : (literal : Bool) → List Text → Option Reading
  | _, [] => some (.done w)
  | true, word :: rest => do read level (← w.setCode? level word) true rest
  | false, word :: rest =>
    if word = "--".toList then read level w true rest
    else if "--".toList.isPrefixOf word then
      let (name, value?) := match Text.cutFirst? "=" (word.drop 2) with
        | some (name, value) => (name, some value)
        | none => (word.drop 2, none)
      if takesValue name then
        match value? with
        | some value => do
          read level { w with options := ← w.options.set? name value } false rest
        | none =>
          match rest with
          | [] => none
          | value :: rest =>
            if looksLikeOption value then none
            else
              match w.options.set? name value with
              | some options => read level { w with options := options } false rest
              | none => if level = .program then readCommand? none rest else none
      else if value?.isSome then none
      else if name = "verbose".toList then do read level (← w.setVerbose?) false rest
      else if name = "help".toList then some (.request (.help level.topic))
      else if name = "version".toList ∧ level = .program then some (.request .version)
      else none
    else if looksLikeOption word then
      match readCluster level w word.tail with
      | none => none
      | some (.request r) => some (.request r)
      | some (.words w) => read level w false rest
      | some (.wantsCount w) =>
        match rest with
        | [] => none
        | value :: rest =>
          if looksLikeOption value then none else
            do read level (← w.setCount? value) false rest
    else
      match level with
      | .command _ => do read level (← w.setCode? level word) false rest
      | .program => readCommand? (some w) (word :: rest)

/-- The options of both places together. -/
def Options.merge (before behind : Options) : Options where
  config := behind.config.or before.config
  workspace := behind.workspace.or before.workspace
  session := behind.session.or before.session
  verbose := before.verbose || behind.verbose

/-- The command that a name and the words behind it make. -/
def commandOf? (name : CommandName) (w : Words) : Option Command :=
  match name with
  | .repl => some .repl
  | .clean => some .clean
  | .log => some (.log (w.count.getD 20))
  | .run => w.code.map .run

/-- Reads a command line; `none` is an error of usage. -/
def Request.ofArguments (arguments : List Text) : Option Request :=
  match read .program .none false arguments with
  | none => none
  | some (.request r) => some r
  | some (.done w) => some (.invoke ⟨w.options, .repl⟩)
  | some (.command before name rest) =>
    match read (.command name) .none false rest with
    | some (.request r) => some r
    | some (.done w) => do
      let before ← before
      let command ← commandOf? name w
      return .invoke ⟨before.options.merge w.options, command⟩
    | _ => none

/-! ### Help -/

/-- What is printed when the version is asked for. -/
def version : Text := "gocell 0.1.0\n"

/-- What is said of a command line that asks for nothing known. -/
def usage : Text := "Usage: gocell [OPTIONS] [COMMAND]\n\nFor more information, try '--help'."

/-- The lines on options: those that every command knows, and behind the first the command's
own. -/
def optionLines (own : List String) : List String :=
  ["      --config <CONFIG>        JSON config file"] ++ own ++
  ["      --workspace <WORKSPACE>  Directory that holds the `.gocell` workspace",
   "      --session <SESSION>      Resume (or create) the session with this id",
   "  -v, --verbose                Debug logging",
   "  -h, --help                   Print help"]

/-- The lines of the help on a topic. -/
def Topic.helpLines : Topic → List String
  | .program =>
    ["IPython-style interactive runner for Go", "", "Usage: gocell [OPTIONS] [COMMAND]", "",
     "Commands:",
     "  repl   Interactive Go session",
     "  run    Run a Go file, or a snippet as one turn",
     "  log    Show the last lines of the log file",
     "  clean  Delete the session workspace",
     "  help   Print this message or the help of the given subcommand(s)", "", "Options:"] ++
    optionLines [] ++ ["  -V, --version                Print version"]
  | .command .run =>
    [CommandName.run.about, "", "Usage: gocell run [OPTIONS] <CODE>", "", "Arguments:",
     "  <CODE>  ", "", "Options:"] ++ optionLines []
  | .command .log =>
    [CommandName.log.about, "", "Usage: gocell log [OPTIONS]", "", "Options:"] ++
    optionLines ["  -n <N>                       [default: 20]"]
  | .command .repl =>
    [CommandName.repl.about, "", "Usage: gocell repl [OPTIONS]", "", "Options:"] ++
      optionLines []
  | .command .clean =>
    [CommandName.clean.about, "", "Usage: gocell clean [OPTIONS]", "", "Options:"] ++
      optionLines []
  | .helpCommand =>
    ["Print this message or the help of the given subcommand(s)", "",
     "Usage: gocell help [COMMAND]...", "", "Arguments:",
     "  [COMMAND]...  Print help for the subcommand(s)"]

/-- What is printed when help is asked for. -/
def Topic.help (t : Topic) : Text :=
  t.helpLines.flatMap fun line => line.toList ++ ['\n']

end CommandLine

end Notebook
