import StoryFlow.Config.Story
import StoryFlow.Names
import StoryFlow.Symbols
import StoryFlow.TextArea.Reader

/-! Binding a written story: the tree of its scenes and the table of its declarations. The first error
ends the binding; it is told with the scene, the statements and the parts of them that it is in. -/

namespace StoryFlow.Config

inductive BindProblem where
  | emptyElement
  | outcomeUnnamed
  | outcomeWithoutOptions (name : String)
  | outcomeRepeatsOptions (name : String)
  | outcomeFallback (fallback name : String)
  | spectrumUnnamed
  | spectrumWithoutOptions (name : String)
  | spectrumRepeatsOption (name option : String)
  | spectrumThreshold (name option : String) (threshold : Float)
  | spectrumFallback (fallback name : String)
  | symbol (error : SymbolError)
  | sceneUnnamed (index : Nat)
  | invalidPosition (place : String)
  | needsValue (kind : TextKind)
  | lineEmpty
  | runWithoutMethod
  | assignEmpty
  | branchUnnamed
  | otherWithOptions (index : Nat)
  | caseWithoutOptions (index : Nat)
  | ifWithoutBranches
  | unknownKind (kind : String)
  | entryMissing (entry : String)
  deriving Repr

/-- The text of a problem. An element that is not there has none. -/
def BindProblem.text? : BindProblem → Option String
  | .emptyElement => none
  | .outcomeUnnamed => some "outcome has no name"
  | .outcomeWithoutOptions name => some ("outcome " ++ name ++ " has no options")
  | .outcomeRepeatsOptions name => some ("outcome " ++ name ++ " has duplicate options")
  | .outcomeFallback fallback name =>
    some ("default " ++ fallback ++ " is not an option of outcome " ++ name)
  | .spectrumUnnamed => some "spectrum has no name"
  | .spectrumWithoutOptions name => some ("spectrum " ++ name ++ " has no options")
  | .spectrumRepeatsOption name option =>
    some ("spectrum " ++ name ++ " has duplicate option " ++ option)
  | .spectrumThreshold name option threshold =>
    some ("spectrum " ++ name ++ " has an invalid threshold for " ++ option ++ ": " ++
      Text.Decimal.general threshold)
  | .spectrumFallback fallback name =>
    some ("default " ++ fallback ++ " is not an option of spectrum " ++ name)
  | .symbol error => some error.message
  | .sceneUnnamed index => some ("scene #" ++ Nat.repr index ++ " has no name")
  | .invalidPosition place => some ("invalid position: " ++ place)
  | .needsValue kind => some (kind.name ++ " needs a value")
  | .lineEmpty => some "line needs a speaker and text"
  | .runWithoutMethod => some "run needs a method"
  | .assignEmpty => some "assign needs a name and an option"
  | .branchUnnamed => some "branchon needs a name"
  | .otherWithOptions index => some ("case #" ++ Nat.repr index ++ " is other and names options")
  | .caseWithoutOptions index => some ("case #" ++ Nat.repr index ++ " names no options")
  | .ifWithoutBranches => some "if needs at least one branch"
  | .unknownKind kind => some ("unknown statement kind: " ++ kind)
  | .entryMissing entry => some ("entry scene " ++ entry ++ " does not exist")

structure BindError where
  context : List String := []
  problem : BindProblem

def BindError.message? (e : BindError) : Option String :=
  e.problem.text?.map fun text => String.intercalate ": " (e.context ++ [text])

abbrev Binding := Except BindError

def refuse {α : Type} (problem : BindProblem) : Binding α := .error { problem }

def inside {α : Type} (context : String) : Binding α → Binding α
  | .ok a => .ok a
  | .error e => .error { e with context := context :: e.context }

def inItem {α : Type} (noun : String) (index : Nat) (result : Binding α) : Binding α :=
  inside (noun ++ " #" ++ Nat.repr index) result

def element {α : Type} : Option α → Binding α
  | some a => .ok a
  | none => refuse .emptyElement

/-- The place of something in its source. An empty position is none at all. -/
def locate (path place : String) : Binding TextArea :=
  if place.isEmpty then .ok { path }
  else
    match Span.read? place with
    | some span => .ok { path, span := some span }
    | none => refuse (.invalidPosition place)

def bindOutcome (o : OutcomeConfig) : Binding Outcome :=
  let options := o.options.getD []
  if o.name.isEmpty then refuse .outcomeUnnamed
  else if options.isEmpty then refuse (.outcomeWithoutOptions o.name)
  else if (Names.distinct options).length != options.length then
    refuse (.outcomeRepeatsOptions o.name)
  else if !o.fallback.isEmpty && !options.contains o.fallback then
    refuse (.outcomeFallback o.fallback o.name)
  else .ok ⟨o.name, options, o.fallback⟩

/-- Binds the bands from below. Every threshold but the last is above the one before and at most one;
a threshold that is not a number is not compared. -/
def bindBands (spectrum : String) :
    Float → List String → List (Option BandConfig) → Binding (List Band)
  | _, _, [] => .ok []
  | below, names, b :: rest => do
    let band ← element b
    if names.contains band.name then refuse (.spectrumRepeatsOption spectrum band.name)
    else if !rest.isEmpty && (band.threshold ≤ below || band.threshold > 1.0) then
      refuse (.spectrumThreshold spectrum band.name band.threshold)
    else
      let others ← bindBands spectrum band.threshold (names ++ [band.name]) rest
      return ⟨band.name, band.threshold⟩ :: others

def bindSpectrum (s : SpectrumConfig) : Binding Spectrum :=
  if s.name.isEmpty then refuse .spectrumUnnamed
  else if s.bands.isEmpty then refuse (.spectrumWithoutOptions s.name)
  else do
    let bands ← bindBands s.name 0.0 [] s.bands
    if !s.fallback.isEmpty && !(bands.map Band.name).contains s.fallback then
      refuse (.spectrumFallback s.fallback s.name)
    else return ⟨s.name, bands, s.fallback⟩

def textAction (kind : TextKind) (value : Option String) : Binding Action :=
  match kind, value with
  | .checkpoint, value => .ok (.checkpoint (value.getD "") false)
  | kind, none => inside kind.name (refuse (.needsValue kind))
  | .output, some text => .ok (.output text)
  | .call, some scene => .ok (.call scene)
  | .outcome, some name => .ok (.declareOutcome name)
  | .spectrum, some name => .ok (.declareSpectrum name)
  | .strengthen, some name => .ok (.adjust name true)
  | .weaken, some name => .ok (.adjust name false)

def bindPlain (path place kind : String) (action : Action) : Binding Stmt := do
  let area ← inside kind (locate path place)
  return .plain area action

def checkCase (index : Nat) (options : List String) (other : Bool) : Binding Unit :=
  if other && !options.isEmpty then refuse (.otherWithOptions index)
  else if !other && options.isEmpty then refuse (.caseWithoutOptions index)
  else .ok ()

mutual

def bindStmt (path : String) : StmtConfig → Binding Stmt
  | .text place kind value => do
    let action ← textAction kind value
    bindPlain path place kind.name action
  | .line place value =>
    match value with
    | none => refuse .lineEmpty
    | some line => bindPlain path place "line" (.line line.speaker line.text)
  | .run place value =>
    if value.method.isEmpty then refuse .runWithoutMethod
    else bindPlain path place "run" (.run value.method value.args)
  | .assign place value =>
    match value with
    | none => refuse .assignEmpty
    | some a => bindPlain path place "assign" (.assign a.name a.option)
  | .menu place kind prompt options => do
    let bound ← inside kind.name (bindOptions path 0 options)
    let area ← inside kind.name (locate path place)
    return .menu area kind prompt bound
  | .branchOn place name cases =>
    if name.isEmpty then inside "branchon" (refuse .branchUnnamed)
    else do
      let bound ← inside "branchon" (bindCases path 0 cases)
      let area ← inside "branchon" (locate path place)
      return .branchOn area name bound
  | .ifElse place branches elseBody =>
    if branches.isEmpty then inside "if" (refuse .ifWithoutBranches)
    else do
      let bound ← inside "if" (bindBranches path 0 branches)
      let last ← inside "if" (bindElse path elseBody)
      let area ← inside "if" (locate path place)
      return .ifElse area bound elseBody.isSome last
  | .unknown _ kind => refuse (.unknownKind kind)

def bindBody (path : String) (index : Nat) : List (Option StmtConfig) → Binding (List Stmt)
  | [] => .ok []
  | none :: _ => refuse .emptyElement
  | some s :: rest => do
    let bound ← inItem "statement" index (bindStmt path s)
    let others ← bindBody path (index + 1) rest
    return bound :: others

def bindElse (path : String) : Option (List (Option StmtConfig)) → Binding (List Stmt)
  | none => .ok []
  | some body => inside "else" (bindBody path 0 body)

def bindOptions (path : String) (index : Nat) :
    List (Option OptionConfig) → Binding (List MenuOption)
  | [] => .ok []
  | none :: _ => refuse .emptyElement
  | some ⟨label, loop, place, body⟩ :: rest => do
    let bound ← inItem "option" index (bindBody path 0 body)
    let area ← locate path place
    let others ← bindOptions path (index + 1) rest
    return ⟨area, label, loop, bound⟩ :: others

def bindCases (path : String) (index : Nat) :
    List (Option CaseConfig) → Binding (List BranchCase)
  | [] => .ok []
  | none :: _ => refuse .emptyElement
  | some ⟨options, other, place, body⟩ :: rest => do
    checkCase index (options.getD []) other
    let bound ← inItem "case" index (bindBody path 0 body)
    let area ← locate path place
    let others ← bindCases path (index + 1) rest
    return ⟨area, options, other, bound⟩ :: others

def bindBranches (path : String) (index : Nat) :
    List (Option WhenConfig) → Binding (List IfBranch)
  | [] => .ok []
  | none :: _ => refuse .emptyElement
  | some ⟨condition, body⟩ :: rest => do
    let bound ← inItem "branch" index (bindBody path 0 body)
    let others ← bindBranches path (index + 1) rest
    return ⟨condition, bound⟩ :: others

end

def ofSymbols {α : Type} : Except SymbolError α → Binding α
  | .ok a => .ok a
  | .error e => refuse (.symbol e)

def bindOutcomes (table : SymbolTable) : List (Option OutcomeConfig) → Binding SymbolTable
  | [] => .ok table
  | o :: rest => do
    let outcome ← bindOutcome (← element o)
    bindOutcomes (← ofSymbols (table.addOutcome outcome)) rest

def bindSpectrums (table : SymbolTable) : List (Option SpectrumConfig) → Binding SymbolTable
  | [] => .ok table
  | s :: rest => do
    let spectrum ← bindSpectrum (← element s)
    bindSpectrums (← ofSymbols (table.addSpectrum spectrum)) rest

def bindScenes (path : String) (index : Nat) (table : SymbolTable) :
    List (Option SceneConfig) → Binding (List Scene × SymbolTable)
  | [] => .ok ([], table)
  | s :: rest => do
    let scene ← element s
    if scene.name.isEmpty then refuse (.sceneUnnamed index)
    else
      let table ← ofSymbols (table.addScene ⟨scene.name, scene.chapter⟩)
      let context := "scene " ++ scene.name
      let area ← inside context (locate path scene.place)
      let body ← inside context (bindBody path 0 scene.body)
      let (others, table) ← bindScenes path (index + 1) table rest
      return (⟨area, scene.name, scene.chapter, body⟩ :: others, table)

def bindSymbols (outcomes : List (Option OutcomeConfig)) (spectrums : List (Option SpectrumConfig)) :
    Binding SymbolTable := do
  bindSpectrums (← bindOutcomes .empty outcomes) spectrums

def StoryConfig.bind (config : StoryConfig) (path : String) : Binding (Story × SymbolTable) := do
  let table ← bindSymbols config.outcomes config.spectrums
  let (scenes, table) ← bindScenes path 0 table config.scenes
  let story : Story := { scenes, entry := config.entry }
  if !config.entry.isEmpty && (story.scene? config.entry).isNone then
    refuse (.entryMissing config.entry)
  else return (story, table)

end StoryFlow.Config
