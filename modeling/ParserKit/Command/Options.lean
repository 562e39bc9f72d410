import ParserKit.Text.Quoted
import ParserKit.Text.Similar

/-!
# Reading a command line

A command line is a list of words.  A word that starts with a dash and goes on
is an option: a long one by its name, perhaps with its value behind an equals
sign, or several short ones in one word, the value of the last behind it.  The
value of an option may also be the next word, whatever that is.  Two dashes end
the options.  All other words are arguments.
-/

namespace ParserKit.Command

/-- The options of all commands. -/
inductive OptionName
  | define
  | config
  | noColor
  | regex
  | version
  | help
  deriving DecidableEq, Repr

/-- The names of an option, short or long, and whether it has a value. -/
structure OptionSpec where
  option : OptionName
  names : List String
  takesValue : Bool

structure ArgumentSpec where
  metavar : String
  /-- Takes all words that are left, and at least one. -/
  repeated : Bool := false

structure CommandSpec where
  /-- The words by which the command is called. -/
  title : String
  /-- What the usage line says behind the title. -/
  usage : String
  options : List OptionSpec
  arguments : List ArgumentSpec := []
  /-- Whether options may stand behind arguments. -/
  mixed : Bool := true
  help : String

/-- What is wrong with a command line. -/
inductive UsageError
  | noSuchOption (name : String) (suggestions : List String)
  | requiresArgument (name : String)
  | takesNoValue (name : String)
  | missingArgument (metavar : String)
  | extraArguments (words : List String)
  | badValue (option message : String)
  | missingCommand
  | noSuchCommand (name : String)
  deriving DecidableEq, Repr

namespace UsageError

def suggestionText : List String → String
  | [] => ""
  | [word] => " Did you mean " ++ word ++ "?"
  | words => " (Possible options: " ++ ", ".intercalate words ++ ")"

def message : UsageError → String
  | noSuchOption name suggestions => "No such option: " ++ name ++ suggestionText suggestions
  | requiresArgument name => "Option " ++ Quoted.text name ++ " requires an argument."
  | takesNoValue name => "Option " ++ Quoted.text name ++ " does not take a value."
  | missingArgument metavar => "Missing argument '" ++ metavar ++ "'."
  | extraArguments words =>
      "Got unexpected extra argument" ++ (if words.length = 1 then "" else "s")
        ++ " (" ++ " ".intercalate words ++ ")"
  | badValue option text => "Invalid value for '" ++ option ++ "': " ++ text
  | missingCommand => "Missing command."
  | noSuchCommand name => "No such command " ++ Quoted.text name ++ "."

/-- Whether the usage of the command is shown with the message. -/
def showsUsage : UsageError → Bool
  | requiresArgument _ => false
  | takesNoValue _ => false
  | _ => true

end UsageError

/-- An option with the value that it was given, which is empty for a flag. -/
structure Given where
  option : OptionName
  value : String
  deriving DecidableEq, Repr

/-- A command line: its options in their order, and its arguments. -/
structure Invocation where
  options : List Given
  arguments : List String
  deriving DecidableEq, Repr

namespace Invocation

def has (i : Invocation) (option : OptionName) : Bool :=
  i.options.any (·.option == option)

/-- All values of an option, in their order. -/
def values (i : Invocation) (option : OptionName) : List String :=
  (i.options.filter (·.option == option)).map (·.value)

/-- The value that counts if an option was given several times. -/
def last? (i : Invocation) (option : OptionName) : Option String :=
  (i.values option).getLast?

end Invocation

/-- What one word of options comes to: all it says, or all but the value of its
last option, which is the next word. -/
inductive OptionWord
  | complete (given : List Given)
  | awaits (given : List Given) (option : OptionName) (name : String)

namespace CommandSpec

/-- The option of a name. -/
def option? (spec : CommandSpec) (name : String) : Option OptionSpec :=
  spec.options.find? (·.names.contains name)

def longNames (spec : CommandSpec) : List String :=
  spec.options.flatMap fun o => o.names.filter (·.startsWith "--")

/-- A long option with or without a value behind an equals sign. -/
def readLong (o : OptionSpec) (name : String) (value : Option String) :
    Except UsageError OptionWord :=
  match o.takesValue, value with
  | true, some v => .ok (.complete [⟨o.option, v⟩])
  | true, none => .ok (.awaits [] o.option name)
  | false, none => .ok (.complete [⟨o.option, ""⟩])
  | false, some _ => .error (.takesNoValue name)

/-- Short options one by one; `found` holds those so far. -/
def readShort (spec : CommandSpec) (found : List Given) :
    List Char → Except UsageError OptionWord
  | [] => .ok (.complete found)
  | c :: cs =>
      let name := String.ofList ['-', c]
      match spec.option? name with
      | none => .error (.noSuchOption name [])
      | some o =>
          if o.takesValue then
            match cs with
            | [] => .ok (.awaits found o.option name)
            | _ => .ok (.complete (found ++ [⟨o.option, String.ofList cs⟩]))
          else
            readShort spec (found ++ [⟨o.option, ""⟩]) cs

/-- The part of a word before its first equals sign, and the part behind it. -/
def splitValue (word : List Char) : List Char × Option (List Char) :=
  match word.span (· != '=') with
  | (name, _ :: value) => (name, some value)
  | (name, []) => (name, none)

def readWord (spec : CommandSpec) (word : List Char) : Except UsageError OptionWord :=
  match word with
  | '-' :: '-' :: _ =>
      let (chars, value) := splitValue word
      let name := String.ofList chars
      match spec.option? name with
      | some o => readLong o name (value.map String.ofList)
      | none => .error (.noSuchOption name (Similar.close name spec.longNames))
  | _ => readShort spec [] (word.drop 1)

/-- Whether a word is made of options. -/
def isOptionWord (word : String) : Bool :=
  match word.toList with
  | '-' :: _ :: _ => true
  | _ => false

def addOptions (given : List Given) (i : Invocation) : Invocation :=
  { i with options := given ++ i.options }

/-- Sort the words of a command line into options and arguments. -/
def gather (spec : CommandSpec) : List String → Except UsageError Invocation
  | [] => .ok ⟨[], []⟩
  | word :: words =>
      if word = "--" then
        .ok ⟨[], words⟩
      else if isOptionWord word then
        match spec.readWord word.toList with
        | .error e => .error e
        | .ok (.complete given) => (gather spec words).map (addOptions given)
        | .ok (.awaits given option name) =>
            match words with
            | [] => .error (.requiresArgument name)
            | value :: words =>
                (gather spec words).map (addOptions (given ++ [⟨option, value⟩]))
      else if spec.mixed then
        (gather spec words).map fun i => { i with arguments := word :: i.arguments }
      else
        .ok ⟨[], word :: words⟩

/-- Whether the arguments are those that a command asks for. -/
def checkArguments : List ArgumentSpec → List String → Except UsageError Unit
  | [], [] => .ok ()
  | [], words => .error (.extraArguments words)
  | a :: _, [] => .error (.missingArgument a.metavar)
  | a :: more, _ :: words =>
      if a.repeated then .ok () else checkArguments more words

/-- What is printed for a command line that is wrong. -/
def complaint (spec : CommandSpec) (e : UsageError) : String :=
  let usage :=
    if e.showsUsage then
      "Usage: " ++ spec.title ++ " " ++ spec.usage ++ "\n"
        ++ "Try '" ++ spec.title ++ " --help' for help.\n\n"
    else
      ""
  usage ++ "Error: " ++ e.message ++ "\n"

end CommandSpec

end ParserKit.Command
