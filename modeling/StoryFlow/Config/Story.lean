import StoryFlow.Story.Stmt

/-! A story as it is written down, before it is bound: declarations, scenes, and statements of one kind
each. Elements that were left empty are kept as `none`; a story with one of those cannot be bound. -/

namespace StoryFlow.Config

structure OutcomeConfig where
  name : String := ""
  options : Option (List String) := none
  fallback : String := ""

structure BandConfig where
  name : String := ""
  threshold : Float := 0.0

structure SpectrumConfig where
  name : String := ""
  bands : List (Option BandConfig) := []
  fallback : String := ""

inductive TextKind where
  | output
  | call
  | outcome
  | spectrum
  | strengthen
  | weaken
  | checkpoint
  deriving DecidableEq, Repr

def TextKind.name : TextKind → String
  | .output => "output"
  | .call => "call"
  | .outcome => "outcome"
  | .spectrum => "spectrum"
  | .strengthen => "strengthen"
  | .weaken => "weaken"
  | .checkpoint => "checkpoint"

inductive StmtKind where
  | text (kind : TextKind)
  | line
  | run
  | assign
  | menu (kind : MenuKind)
  | branchOn
  | ifElse
  deriving DecidableEq, Repr

namespace StmtKind

def name : StmtKind → String
  | .text kind => kind.name
  | .line => "line"
  | .run => "run"
  | .assign => "assign"
  | .menu kind => kind.name
  | .branchOn => "branchon"
  | .ifElse => "if"

def all : List StmtKind := [
  .text .output, .text .call, .text .outcome, .text .spectrum, .text .strengthen, .text .weaken,
  .text .checkpoint, .line, .run, .assign, .menu .switch, .menu .choose, .menu .loopSwitch,
  .branchOn, .ifElse]

def ofName? (name : String) : Option StmtKind := all.find? (·.name == name)

end StmtKind

structure LineConfig where
  speaker : String := ""
  text : String := ""

structure RunConfig where
  method : String := ""
  args : Option (List String) := none

structure AssignConfig where
  name : String := ""
  option : String := ""

mutual

/-- A statement whose kind is not known can be written down, but not bound. -/
inductive StmtConfig where
  | text (place : String) (kind : TextKind) (value : Option String)
  | line (place : String) (value : Option LineConfig)
  | run (place : String) (value : RunConfig)
  | assign (place : String) (value : Option AssignConfig)
  | menu (place : String) (kind : MenuKind) (prompt : String)
    (options : List (Option OptionConfig))
  | branchOn (place : String) (name : String) (cases : List (Option CaseConfig))
  | ifElse (place : String) (branches : List (Option WhenConfig))
    (elseBody : Option (List (Option StmtConfig)))
  | unknown (place : String) (kind : String)

structure OptionConfig where
  label : String
  loop : Bool
  place : String
  body : List (Option StmtConfig)

structure CaseConfig where
  options : Option (List String)
  other : Bool
  place : String
  body : List (Option StmtConfig)

structure WhenConfig where
  condition : String
  body : List (Option StmtConfig)

end

structure SceneConfig where
  name : String := ""
  chapter : Bool := false
  place : String := ""
  body : List (Option StmtConfig) := []

structure StoryConfig where
  entry : String := ""
  outcomes : List (Option OutcomeConfig) := []
  spectrums : List (Option SpectrumConfig) := []
  scenes : List (Option SceneConfig) := []

end StoryFlow.Config
