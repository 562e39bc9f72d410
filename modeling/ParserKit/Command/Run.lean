import ParserKit.Arith.Evaluate
import ParserKit.Command.Options
import ParserKit.Config.FileTree
import ParserKit.Config.Load
import ParserKit.Definition
import ParserKit.Diagnostic.Render
import ParserKit.Outline
import ParserKit.Pattern.Compile
import ParserKit.Text.Ansi

/-!
# The commands

`eval` evaluates an expression, `match` matches a pattern against the start of
texts, and `tree` shows the tree of an expression or a pattern.  A command is a
function of the command line and the files around it, and answers with an exit
code and what it prints.
-/

namespace ParserKit.Command

/-- Where a command runs: the files, the working directory, and whether the
terminal shows colors. -/
structure World where
  tree : FileTree
  directory : Path
  color : Bool

structure Result where
  exit : Nat
  out : String
  err : String
  deriving DecidableEq, Repr

/-- What ends a command without a result. -/
inductive Crash
  | aborted (reason : Arith.Abort)
  | faulted (fault : Fault)
  /-- An integer to be printed has too many digits. -/
  | tooManyDigits
  | outlineTooDeep
  | badSettings (path : String) (problem : Settings.Problem)
  | configIsDirectory (path : String)

def Crash.message : Crash → String
  | aborted reason => reason.message
  | faulted fault => fault.message
  | tooManyDigits => Decimal.Excess.writing.message
  | outlineTooDeep => ""
  | badSettings path problem => problem.message path
  | configIsDirectory path => "[Errno 21] Is a directory: " ++ Quoted.text path

abbrev Answer := Except Crash Result

def programName : String := "combinator"

def version : String := "0.1.0"

def helpOption : OptionSpec := ⟨.help, ["--help"], false⟩

def colorOption : OptionSpec := ⟨.noColor, ["--no-color"], false⟩

def groupSpec : CommandSpec where
  title := programName
  usage := "[OPTIONS] COMMAND [ARGS]..."
  options := [⟨.version, ["--version"], false⟩, helpOption]
  mixed := false
  help :=
    "  Parser-combinator toolkit: evaluate arithmetic and match regular expressions.\n\n"
      ++ "Options:\n"
      ++ "  --version  Show the version and exit.\n"
      ++ "  --help     Show this message and exit.\n\n"
      ++ "Commands:\n"
      ++ "  eval   Evaluate an arithmetic expression.\n"
      ++ "  match  Match a regular expression against the start of each TEXT.\n"
      ++ "  tree   View the parse tree of an expression or regular expression.\n"

def evalSpec : CommandSpec where
  title := programName ++ " eval"
  usage := "[OPTIONS] EXPRESSION"
  options :=
    [⟨.define, ["-D", "--define"], true⟩, ⟨.config, ["--config"], true⟩, colorOption,
      helpOption]
  arguments := [⟨"EXPRESSION", false⟩]
  help :=
    "  Evaluate an arithmetic expression.\n\n"
      ++ "Options:\n"
      ++ "  -D, --define NAME=VALUE  Bind an identifier to an integer.\n"
      ++ "  --config FILE            Path to a combinator.toml file.\n"
      ++ "  --no-color               Disable colored diagnostics.\n"
      ++ "  --help                   Show this message and exit.\n"

def matchSpec : CommandSpec where
  title := programName ++ " match"
  usage := "[OPTIONS] PATTERN TEXTS..."
  options := [colorOption, helpOption]
  arguments := [⟨"PATTERN", false⟩, ⟨"TEXTS...", true⟩]
  help :=
    "  Match a regular expression against the start of each TEXT.\n\n"
      ++ "Options:\n"
      ++ "  --no-color  Disable colored diagnostics.\n"
      ++ "  --help      Show this message and exit.\n"

def treeSpec : CommandSpec where
  title := programName ++ " tree"
  usage := "[OPTIONS] SOURCE"
  options := [⟨.regex, ["--regex"], false⟩, helpOption]
  arguments := [⟨"SOURCE", false⟩]
  help :=
    "  View the parse tree of an expression or regular expression.\n\n"
      ++ "Options:\n"
      ++ "  --regex  Parse SOURCE as a regular expression.\n"
      ++ "  --help   Show this message and exit.\n"

def CommandSpec.helpText (spec : CommandSpec) : String :=
  "Usage: " ++ spec.title ++ " " ++ spec.usage ++ "\n\n" ++ spec.help

def printed (s : String) : Result := ⟨0, s, ""⟩

def failed (exit : Nat) (s : String) : Result := ⟨exit, "", s⟩

def usageFailure (spec : CommandSpec) (e : UsageError) : Result := failed 2 (spec.complaint e)

/-- The file that `--config` names has to exist. -/
def checkConfig (w : World) (given : Option String) :
    Except UsageError (Option (String × String)) :=
  match given with
  | none => .ok none
  | some written =>
      match w.tree.stat w.directory written with
      | none =>
          .error (.badValue "--config" ("File " ++ Quoted.text written ++ " does not exist."))
      | some .directory =>
          .error (.badValue "--config" ("File " ++ Quoted.text written ++ " is a directory."))
      | some (.file content) => .ok (some (Path.tidy written, content))

/-- The configuration to load, with the path under which it is announced: the
given one, or the nearest one. -/
def configOf (w : World) (given : Option (String × String)) :
    Except Crash (Option (String × String)) :=
  match given with
  | some config => .ok (some config)
  | none =>
      match w.tree.findConfig w.directory none with
      | none => .ok none
      | some path =>
          match w.tree.entry? path with
          | some (.file content) => .ok (some (Path.text path, content))
          | _ => .error (.configIsDirectory (Path.text path))

/-- Problems with settings that are reported end the command with a message. -/
def settingsFailure (path : String) (problem : Settings.Problem) : Answer :=
  if problem.isReported then
    .ok (failed 1 ("error: " ++ problem.message path ++ "\n"))
  else
    .error (.badSettings path problem)

/-- Evaluate an expression under settings and definitions. -/
def evalWith (settings : Settings) (color : Bool) (definitions : List String)
    (expression : String) : Answer :=
  match Definition.storeOf definitions with
  | .error (.malformed text) =>
      .ok (usageFailure evalSpec (.badValue "-D" (Definition.complaint text)))
  | .error (.unreadable fault) => .error (.faulted fault)
  | .ok store =>
      let e : Arith.Evaluator := ⟨settings.evaluation, store⟩
      match e.evaluateText expression with
      | .error reason => .error (.aborted reason)
      | .ok (.failed problem) =>
          let shown := problem.render (settings.output.color && color) expression
          .ok (failed 1 (shown ++ "\n"))
      | .ok (.value v) =>
          match Decimal.write v with
          | .ok numeral => .ok (printed (numeral ++ "\n"))
          | .error _ => .error .tooManyDigits

def runEval (w : World) (i : Invocation) : Answer :=
  match checkConfig w (i.last? .config) with
  | .error e => .ok (usageFailure evalSpec e)
  | .ok given =>
      match CommandSpec.checkArguments evalSpec.arguments i.arguments with
      | .error e => .ok (usageFailure evalSpec e)
      | .ok () =>
          let expression := i.arguments.headD ""
          let color := !i.has .noColor
          let definitions := i.values .define
          match configOf w given with
          | .error crash => .error crash
          | .ok none => evalWith {} color definitions expression
          | .ok (some (path, content)) =>
              match Settings.load content with
              | .error problem => settingsFailure path problem
              | .ok settings => evalWith settings color definitions expression

/-- One line for each text: what matched and what remains. -/
def matchLines (p : Parser NoRule String) : List String → Except Crash (List String)
  | [] => .ok []
  | text :: more =>
      match p.runOnStack (Cursor.start text), matchLines p more with
      | .error fault, _ => .error (.faulted fault)
      | _, .error crash => .error crash
      | .ok none, .ok lines => .ok ((Quoted.text text ++ ": no match\n") :: lines)
      | .ok (some (found, stop)), .ok lines =>
          let line := Quoted.text text ++ ": matched " ++ Quoted.text found
            ++ ", remainder " ++ Quoted.text stop.rest ++ "\n"
          .ok (line :: lines)

def runMatch (i : Invocation) : Answer :=
  match CommandSpec.checkArguments matchSpec.arguments i.arguments with
  | .error e => .ok (usageFailure matchSpec e)
  | .ok () =>
      let pattern := i.arguments.headD ""
      match Pattern.compileText pattern with
      | .error problem =>
          .ok (failed 1 (problem.render (!i.has .noColor) pattern ++ "\n"))
      | .ok p =>
          match matchLines p (i.arguments.drop 1) with
          | .error crash => .error crash
          | .ok lines => .ok (printed (String.join lines))

/-- Print an outline, or say that a source has none. -/
def showOutline (kind source : String) : Except Fault (Option (Option (List String))) → Answer
  | .error .tooDeep => .ok (failed 1 ("error: " ++ kind ++ " is nested too deeply\n"))
  | .error fault => .error (.faulted fault)
  | .ok none =>
      .ok (failed 1 ("error: not a valid " ++ kind ++ ": " ++ Quoted.text source ++ "\n"))
  | .ok (some none) => .error .outlineTooDeep
  | .ok (some (some lines)) => .ok (printed (String.join (lines.map (· ++ "\n"))))

def runTree (i : Invocation) : Answer :=
  match CommandSpec.checkArguments treeSpec.arguments i.arguments with
  | .error e => .ok (usageFailure treeSpec e)
  | .ok () =>
      let source := i.arguments.headD ""
      if i.has .regex then
        showOutline "regular expression" source
          ((Pattern.read source).map fun tree => tree.map (·.outline))
      else
        showOutline "arithmetic expression" source
          ((Arith.read source).map fun tree => tree.map (·.outline))

/-- Run a command on its words; help comes before everything else. -/
def runCommand (spec : CommandSpec) (run : Invocation → Answer) (words : List String) :
    Answer :=
  match spec.gather words with
  | .error e => .ok (usageFailure spec e)
  | .ok i => if i.has .help then .ok (printed spec.helpText) else run i

/-- What is done about a command that does not exist: a name that starts with
neither a letter nor a digit is answered with the help text. -/
def unknownCommand (name : String) : Result :=
  match name.toList with
  | c :: _ =>
      if c.isAlphanum || 128 ≤ c.toNat then usageFailure groupSpec (.noSuchCommand name)
      else printed groupSpec.helpText
  | [] => usageFailure groupSpec (.noSuchCommand name)

def runNamed (w : World) (name : String) (words : List String) : Answer :=
  if name = "eval" then runCommand evalSpec (runEval w) words
  else if name = "match" then runCommand matchSpec runMatch words
  else if name = "tree" then runCommand treeSpec runTree words
  else .ok (unknownCommand name)

def runGroup (w : World) (words : List String) : Answer :=
  if words = [] then
    .ok (printed groupSpec.helpText)
  else
    match groupSpec.gather words with
    | .error e => .ok (usageFailure groupSpec e)
    | .ok i =>
        match i.options with
        | ⟨.version, _⟩ :: _ =>
            .ok (printed (programName ++ ", version " ++ version ++ "\n"))
        | _ :: _ => .ok (printed groupSpec.helpText)
        | [] =>
            match i.arguments with
            | [] => .ok (usageFailure groupSpec .missingCommand)
            | name :: words => runNamed w name words

/-- Run the program; without colors all terminal sequences are taken out of what
it prints. -/
def run (w : World) (words : List String) : Answer :=
  match runGroup w words with
  | .error crash => .error crash
  | .ok r => .ok (if w.color then r else ⟨r.exit, Ansi.strip r.out, Ansi.strip r.err⟩)

end ParserKit.Command
