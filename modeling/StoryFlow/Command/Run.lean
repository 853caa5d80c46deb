import StoryFlow.Analysis
import StoryFlow.Command.Arguments
import StoryFlow.Command.Dump
import StoryFlow.Command.Help
import StoryFlow.Loading

/-! The program. What is done with a story is worked out first, as text to print, notes and a file to
write; only the shell around it reads, prints and writes. -/

namespace StoryFlow.Command

open Files StoryFlow.Flow

structure Identity where
  program : String
  version : String
  copying : String
  tagline : String := ""

inductive CommandError where
  | notRunCorrectly
  | notCompiledCorrectly
  | copyrightsRemoved
  | usage (error : UsageError)
  | load (error : LoadError)
  | cancelled
  | prepare (error : PrepareError)
  | defect (defect : Defect)
  | problemsFound (input : String) (count : Nat)
  | noGraph (reason : Option Failure)
  | unknownStage (stage : String)
  | unwritten (error : FileError)

/-- The text of an error. Defects of the program itself may have none. -/
def CommandError.message? : CommandError → Option String
  | .notRunCorrectly => some "this CLI was not run correctly"
  | .notCompiledCorrectly => some "program was not compiled correctly"
  | .copyrightsRemoved => some "program copyrights were removed, can't run"
  | .usage e => some ("cli parse error: " ++ e.message)
  | .load e => e.message?
  | .cancelled => some "cancelled: context canceled"
  | .prepare e => some ("could not init the lang: " ++ e.message)
  | .defect d => d.message?
  | .problemsFound input count => some (input ++ ": " ++ Nat.repr count ++ " error(s) found")
  | .noGraph none => some "no program graph"
  | .noGraph (some reason) => some ("no program graph: " ++ reason.text)
  | .unknownStage stage => some ("unknown stage: " ++ stage)
  | .unwritten e => some ("could not write graph: " ++ e.message)

structure Session where
  story : Story
  table : SymbolTable
  result : Result

structure Response where
  output : String := ""
  notes : List String := []
  file : Option (String × String) := none
  error : Option CommandError := none

def check (workingDir : String) (a : Arguments) (s : Session) : Response :=
  let problems := s.result.problems.map fun d => d.text workingDir ++ "\n"
  let ending := a.input ++ ": ok\n"
  let shown (text : String) : String := if a.quiet then "" else text
  if s.result.valid then { output := shown (String.join problems ++ ending) }
  else
    { output := shown (String.join problems)
      error := some (.problemsFound a.input problems.length) }

def showGraph (workingDir : String) (a : Arguments) (s : Session) : Response :=
  let chosen := if a.visible then s.result.visible else .ok s.result.graph
  match chosen with
  | .error fault => { error := some (.defect (.flow fault)) }
  | .ok none => { error := some (.noGraph (s.result.failure? workingDir)) }
  | .ok (some g) =>
    let notes := s.result.problems.map fun d => "main: warning: " ++ d.text workingDir
    let name := (s.story.entryScene?.map Scene.name).getD ""
    if a.output.isEmpty then { output := g.dot name, notes }
    else { notes, file := some (a.output, g.dot name) }

def dump (a : Arguments) (s : Session) : Response :=
  if a.stage == "tree" then { output := dumpStory s.story }
  else if a.stage == "symbols" then { output := dumpTable s.table }
  else if a.stage == "graph" then
    match s.result.graph with
    | none => { error := some (.noGraph none) }
    | some g => { output := g.listing }
  else { error := some (.unknownStage a.stage) }

def respond (workingDir : String) (a : Arguments) (command : Subcommand) (s : Session) : Response :=
  match command with
  | .check => check workingDir a s
  | .graph => showGraph workingDir a s
  | .dump => dump a s

structure Host (m : Type → Type) where
  files : FileSystem m
  print : String → m Unit
  log : String → m Unit
  workingDir : String
  environment : Option String
  cancelled : Bool

variable {m : Type → Type} [Monad m]

def logAll (host : Host m) (lines : List String) : m Unit := lines.forM host.log

def logNotes (host : Host m) (stage : String) (debug : Bool) (notes : List Note) : m Unit :=
  logAll host (Note.shown debug (notes.map (.ofStage stage)))

def analyzed (story : Story) (table : SymbolTable) : Except CommandError Result :=
  match Analysis.prepare story table [] with
  | .error e => .error (.prepare e)
  | .ok a =>
    match a.run with
    | .error d => .error (.defect d)
    | .ok (result, _) => .ok result

def openSession (host : Host m) (a : Arguments) : ExceptT CommandError m Session := do
  let loading ← ExceptT.lift (Story.load host.files a.debug a.input)
  ExceptT.lift (logNotes host "load" a.debug loading.notes)
  match loading.result with
  | .error e => throw (.load e)
  | .ok (story, table) =>
    if host.cancelled then throw .cancelled
    match analyzed story table with
    | .error e => throw e
    | .ok result =>
      ExceptT.lift (logNotes host "lang" a.debug result.notes)
      ExceptT.lift
        (host.log ("main: found " ++ Nat.repr result.problems.length ++ " error(s)"))
      return ⟨story, table, result⟩

def perform (host : Host m) (r : Response) : ExceptT CommandError m Unit := do
  ExceptT.lift (logAll host r.notes)
  ExceptT.lift (host.print r.output)
  match r.error with
  | some e => throw e
  | none =>
    match r.file with
    | none => return ()
    | some (name, data) =>
      match ← ExceptT.lift (host.files.writeFile name data).run with
      | .error e => throw (.unwritten e)
      | .ok () => ExceptT.lift (host.log ("main: wrote " ++ name))

def runSubcommand (host : Host m) (a : Arguments) (command : Subcommand) :
    ExceptT CommandError m Unit := do
  let s ← openSession host a
  perform host (respond host.workingDir a command s)

def checkIdentity (identity : Option Identity) : Except CommandError Identity :=
  match identity with
  | none => .error .notRunCorrectly
  | some i =>
    if i.program.isEmpty || i.version.isEmpty then .error .notCompiledCorrectly
    else if i.copying.isEmpty then .error .copyrightsRemoved
    else .ok i

def run (host : Host m) (identity : Option Identity) (args : List String) :
    ExceptT CommandError m Unit := do
  match checkIdentity identity with
  | .error e => throw e
  | .ok i =>
    let (seen, result) := readArguments host.environment args
    match result with
    | .error .help => host.print (help i.program i.version i.tagline seen)
    | .error .version => host.print (i.version ++ "\n")
    | .error (.usage e) => throw (.usage e)
    | .ok a =>
      if a.license then host.print i.copying
      else
        match a.subcommand with
        | none => host.print (help i.program i.version i.tagline seen)
        | some command => runSubcommand host a command

end StoryFlow.Command
