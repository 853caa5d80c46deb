import StoryFlow.Text.Quoted

/-! The arguments of the program. Options can stand anywhere; the first other argument names a
subcommand, and what follows it is its input. Two dashes alone end the options and
are never an argument themselves. -/

namespace StoryFlow.Command

inductive Subcommand where
  | check
  | graph
  | dump
  deriving DecidableEq, Repr

namespace Subcommand

def name : Subcommand → String
  | .check => "check"
  | .graph => "graph"
  | .dump => "dump"

def all : List Subcommand := [.check, .graph, .dump]

def ofName? (name : String) : Option Subcommand := all.find? (·.name == name)

end Subcommand

structure Arguments where
  license : Bool := false
  debug : Bool := false
  subcommand : Option Subcommand := none
  input : String := ""
  quiet : Bool := false
  visible : Bool := false
  output : String := ""
  stage : String := "tree"
  deriving DecidableEq, Repr

inductive UsageError where
  | unknownArgument (arg : String)
  | invalidSubcommand (arg : String)
  | inputRequired
  | tooMany (arg : String)
  | missingValue (arg : String)
  | badFlag (arg value : String)
  | badEnvironment (value : String)
  deriving DecidableEq, Repr

def notTruth (value : String) : String :=
  "strconv.ParseBool: parsing " ++ Text.quoted value ++ ": invalid syntax"

def debugVariable : String := "FABULA_DEBUG"

def UsageError.message : UsageError → String
  | .unknownArgument arg => "unknown argument " ++ arg
  | .invalidSubcommand arg => "invalid subcommand: " ++ arg
  | .inputRequired => "input is required"
  | .tooMany arg => "too many positional arguments at '" ++ arg ++ "'"
  | .missingValue arg => "missing value for " ++ arg
  | .badFlag arg value => "error processing " ++ arg ++ ": " ++ notTruth value
  | .badEnvironment value =>
    "error processing environment variable " ++ debugVariable ++ ": " ++ notTruth value

inductive Stop where
  | help
  | version
  | usage (error : UsageError)
  deriving DecidableEq, Repr

inductive Switch where
  | license
  | debug
  | quiet
  | visible
  deriving DecidableEq, Repr

inductive Setting where
  | output
  | stage
  deriving DecidableEq, Repr

inductive Choice where
  | switch (s : Switch)
  | setting (s : Setting)

def truth? (value : String) : Option Bool :=
  if ["1", "t", "T", "TRUE", "true", "True"].contains value then some true
  else if ["0", "f", "F", "FALSE", "false", "False"].contains value then some false
  else none

namespace Arguments

def turn (a : Arguments) (on : Bool) : Switch → Arguments
  | .license => { a with license := on }
  | .debug => { a with debug := on }
  | .quiet => { a with quiet := on }
  | .visible => { a with visible := on }

def assign (a : Arguments) (value : String) : Setting → Arguments
  | .output => { a with output := value }
  | .stage => { a with stage := value }

end Arguments

def ownOptions : Option Subcommand → List (String × Choice)
  | none => []
  | some .check => [("quiet", .switch .quiet)]
  | some .graph =>
    [("visible", .switch .visible), ("output", .setting .output), ("o", .setting .output)]
  | some .dump => [("stage", .setting .stage)]

def options (subcommand : Option Subcommand) : List (String × Choice) :=
  [("license", .switch .license), ("debug", .switch .debug)] ++ ownOptions subcommand

structure Progress where
  arguments : Arguments := {}
  positionals : List String := []
  optionsEnded : Bool := false

def dropDashes (arg : String) : String := String.ofList (arg.toList.dropWhile (· == '-'))

def isOption (arg : String) : Bool :=
  arg.toList.head? == some '-' && dropDashes arg != ""

def splitValue (word : String) : String × String :=
  (String.ofList (word.toList.takeWhile (· != '=')),
    String.ofList ((word.toList.dropWhile (· != '=')).drop 1))

inductive Step where
  | next (p : Progress)
  | needsValue (s : Setting)
  | stop (s : Stop)

def readPositional (p : Progress) (arg : String) : Step :=
  match p.arguments.subcommand with
  | some _ => .next { p with positionals := p.positionals ++ [arg] }
  | none =>
    match Subcommand.ofName? arg with
    | some s => .next { p with arguments := { p.arguments with subcommand := some s } }
    | none => .stop (.usage (.invalidSubcommand arg))

/-- An option with an empty value counts as one without. -/
def readOption (p : Progress) (arg : String) : Step :=
  let (word, value) := splitValue (dropDashes arg)
  match (options p.arguments.subcommand).lookup word with
  | none => .stop (.usage (.unknownArgument arg))
  | some (.switch s) =>
    match truth? (if value.isEmpty then "true" else value) with
    | some on => .next { p with arguments := p.arguments.turn on s }
    | none => .stop (.usage (.badFlag arg value))
  | some (.setting s) =>
    if value.isEmpty then .needsValue s
    else .next { p with arguments := p.arguments.assign value s }

def readArgument (p : Progress) (arg : String) : Step :=
  if arg == "--" then .next { p with optionsEnded := true }
  else if p.optionsEnded || !isOption arg then readPositional p arg
  else if arg == "-h" || arg == "--help" then .stop .help
  else if arg == "--version" then .stop .version
  else readOption p arg

def complete (p : Progress) : Except Stop Arguments :=
  match p.arguments.subcommand, p.positionals with
  | some _, [] => .error (.usage .inputRequired)
  | _, [] => .ok p.arguments
  | _, [input] => .ok { p.arguments with input }
  | _, _ :: more :: _ => .error (.usage (.tooMany more))

def readAll (p : Progress) : List String → Option Subcommand × Except Stop Arguments
  | [] => (p.arguments.subcommand, complete p)
  | arg :: rest =>
    match readArgument p arg with
    | .next p => readAll p rest
    | .stop s => (p.arguments.subcommand, .error s)
    | .needsValue s =>
      match rest with
      | [] => (p.arguments.subcommand, .error (.usage (.missingValue arg)))
      | value :: rest =>
        if isOption value then (p.arguments.subcommand, .error (.usage (.missingValue arg)))
        else readAll { p with arguments := p.arguments.assign value s } rest

def asksForHelp (args : List String) : Bool :=
  (args.takeWhile (· != "--")).any fun arg => arg == "-h" || arg == "--help"

/-- Reads the environment and the arguments. Asking for help wins over every error. -/
def readArguments (environment : Option String) (args : List String) :
    Option Subcommand × Except Stop Arguments :=
  let (seen, result) :=
    match environment with
    | none => readAll {} args
    | some value =>
      match truth? value with
      | some debug => readAll { arguments := { debug } } args
      | none => (none, .error (.usage (.badEnvironment value)))
  match result with
  | .ok arguments => (seen, .ok arguments)
  | .error s => (seen, .error (if asksForHelp args then .help else s))

end StoryFlow.Command
