import StoryFlow.Command.Arguments

/-! The help text: a short one for the program, and one for a subcommand once it was seen. -/

namespace StoryFlow.Command

/-- The first column is 25 characters wide. What does not fit stands on a line of its own. -/
def helpLine (left right : String) : String :=
  let start := "  " ++ left
  if start.length < 25 then start ++ String.ofList (List.replicate (25 - start.length) ' ') ++ right ++ "\n"
  else start ++ "\n" ++ String.ofList (List.replicate 25 ' ') ++ right ++ "\n"

def globalOptions : String :=
  helpLine "--license" "display the license and exit" ++
  helpLine "--debug" ("add additional log messages [env: " ++ debugVariable ++ "]") ++
  helpLine "--help, -h" "display this help and exit" ++
  helpLine "--version" "display version and exit"

namespace Subcommand

def summary : Subcommand → String
  | .check => "check a story and print every error"
  | .graph => "print the program graph of a story as graphviz"
  | .dump => "dump the internal structures of a story"

def usage : Subcommand → String
  | .check => "[--quiet] INPUT"
  | .graph => "[--visible] [--output OUTPUT] INPUT"
  | .dump => "[--stage STAGE] INPUT"

def optionLines : Subcommand → String
  | .check => helpLine "--quiet" "don't print the errors, only set the exit status"
  | .graph =>
    helpLine "--visible" "only show the visible vertices" ++
    helpLine "--output OUTPUT, -o OUTPUT" "write the graphviz to this file instead of stdout"
  | .dump => helpLine "--stage STAGE" "what to dump: tree, symbols, or graph [default: tree]"

end Subcommand

def programHelp (program : String) : String :=
  "Usage: " ++ program ++ " [--license] [--debug] <command> [<args>]\n" ++
  "\nOptions:\n" ++ globalOptions ++
  "\nCommands:\n" ++ String.join (Subcommand.all.map fun s => helpLine s.name s.summary)

def subcommandHelp (program : String) (s : Subcommand) : String :=
  "Usage: " ++ program ++ " " ++ s.name ++ " " ++ s.usage ++ "\n" ++
  "\nPositional arguments:\n" ++ helpLine "INPUT" "path to the story file" ++
  "\nOptions:\n" ++ s.optionLines ++
  "\nGlobal options:\n" ++ globalOptions

def help (program version tagline : String) (seen : Option Subcommand) : String :=
  (if tagline.isEmpty then "" else tagline ++ "\n") ++ version ++ "\n" ++
    match seen with
    | none => programHelp program
    | some s => subcommandHelp program s

end StoryFlow.Command
