import StoryFlow.Config.Story
import StoryFlow.Config.TreeDecoder

/-! Reading a story from a document. What the fields of a story are is said here for every decoder. A
statement that is not of exactly one kind ends the reading at once. -/

namespace StoryFlow.Config

section Fields

variable (D : Decoder)

def outcomeFields : List (Field D.Node OutcomeConfig) := [
  ⟨"name", fun n r => do return { r with name := ← D.readText n }⟩,
  ⟨"options", fun n r => do return { r with options := ← D.readTexts n }⟩,
  ⟨"default", fun n r => do return { r with fallback := ← D.readText n }⟩]

def bandFields : List (Field D.Node BandConfig) := [
  ⟨"name", fun n r => do return { r with name := ← D.readText n }⟩,
  ⟨"threshold", fun n r => do return { r with threshold := ← D.readNumber n }⟩]

def spectrumFields : List (Field D.Node SpectrumConfig) := [
  ⟨"name", fun n r => do return { r with name := ← D.readText n }⟩,
  ⟨"options", fun n r => do
    return { r with bands := ← D.readRecords "storyyaml.BandConfig" (bandFields D) {} n }⟩,
  ⟨"default", fun n r => do return { r with fallback := ← D.readText n }⟩]

def lineFields : List (Field D.Node LineConfig) := [
  ⟨"speaker", fun n r => do return { r with speaker := ← D.readText n }⟩,
  ⟨"text", fun n r => do return { r with text := ← D.readText n }⟩]

def runFields : List (Field D.Node RunConfig) := [
  ⟨"method", fun n r => do return { r with method := ← D.readText n }⟩,
  ⟨"args", fun n r => do return { r with args := ← D.readTexts n }⟩]

def assignFields : List (Field D.Node AssignConfig) := [
  ⟨"name", fun n r => do return { r with name := ← D.readText n }⟩,
  ⟨"option", fun n r => do return { r with option := ← D.readText n }⟩]

abbrev StmtReader := D.Node → Reading (Option StmtConfig)

def readBody? (stmt : StmtReader D) : D.Node → Reading (Option (List (Option StmtConfig))) :=
  D.readList "[]*storyyaml.StmtConfig" stmt

def readBody (stmt : StmtReader D) (n : D.Node) : Reading (List (Option StmtConfig)) := do
  return (← readBody? D stmt n).getD []

def optionFields (stmt : StmtReader D) : List (Field D.Node OptionConfig) := [
  ⟨"label", fun n r => do return { r with label := ← D.readText n }⟩,
  ⟨"loop", fun n r => do return { r with loop := ← D.readFlag n }⟩,
  ⟨"at", fun n r => do return { r with place := ← D.readText n }⟩,
  ⟨"body", fun n r => do return { r with body := ← readBody D stmt n }⟩]

structure MenuFields where
  prompt : String := ""
  options : List (Option OptionConfig) := []

def menuFields (stmt : StmtReader D) : List (Field D.Node MenuFields) := [
  ⟨"prompt", fun n r => do return { r with prompt := ← D.readText n }⟩,
  ⟨"options", fun n r => do
    return { r with
      options := ← D.readRecords "storyyaml.OptionConfig" (optionFields D stmt) ⟨"", false, "", []⟩ n }⟩]

def caseFields (stmt : StmtReader D) : List (Field D.Node CaseConfig) := [
  ⟨"options", fun n r => do return { r with options := ← D.readTexts n }⟩,
  ⟨"other", fun n r => do return { r with other := ← D.readFlag n }⟩,
  ⟨"at", fun n r => do return { r with place := ← D.readText n }⟩,
  ⟨"body", fun n r => do return { r with body := ← readBody D stmt n }⟩]

structure BranchOnFields where
  name : String := ""
  cases : List (Option CaseConfig) := []

def branchOnFields (stmt : StmtReader D) : List (Field D.Node BranchOnFields) := [
  ⟨"name", fun n r => do return { r with name := ← D.readText n }⟩,
  ⟨"cases", fun n r => do
    return { r with
      cases := ← D.readRecords "storyyaml.CaseConfig" (caseFields D stmt) ⟨none, false, "", []⟩ n }⟩]

def whenFields (stmt : StmtReader D) : List (Field D.Node WhenConfig) := [
  ⟨"when", fun n r => do return { r with condition := ← D.readText n }⟩,
  ⟨"body", fun n r => do return { r with body := ← readBody D stmt n }⟩]

structure IfFields where
  branches : List (Option WhenConfig) := []
  elseBody : Option (List (Option StmtConfig)) := none

def ifFields (stmt : StmtReader D) : List (Field D.Node IfFields) := [
  ⟨"branches", fun n r => do
    return { r with
      branches := ← D.readRecords "storyyaml.WhenConfig" (whenFields D stmt) ⟨"", []⟩ n }⟩,
  ⟨"else", fun n r => do return { r with elseBody := ← readBody? D stmt n }⟩]

/-- A statement as a record: its position, and room for what can be given for each kind. -/
structure StmtFields where
  place : String := ""
  texts : TextKind → Option String := fun _ => none
  line : Option LineConfig := none
  run : Option RunConfig := none
  assign : Option AssignConfig := none
  menus : MenuKind → Option MenuFields := fun _ => none
  branchOn : Option BranchOnFields := none
  ifElse : Option IfFields := none

namespace StmtFields

def holds (r : StmtFields) : StmtKind → Bool
  | .text kind => (r.texts kind).isSome
  | .line => r.line.isSome
  | .run => r.run.isSome
  | .assign => r.assign.isSome
  | .menu kind => (r.menus kind).isSome
  | .branchOn => r.branchOn.isSome
  | .ifElse => r.ifElse.isSome

/-- The statement of a kind that the record stands for, whatever is given for other kinds. -/
def ofKind (r : StmtFields) : StmtKind → StmtConfig
  | .text kind => .text r.place kind (r.texts kind)
  | .line => .line r.place r.line
  | .run => .run r.place (r.run.getD {})
  | .assign => .assign r.place r.assign
  | .menu kind =>
    let menu := (r.menus kind).getD {}
    .menu r.place kind menu.prompt menu.options
  | .branchOn =>
    let branch := r.branchOn.getD {}
    .branchOn r.place branch.name branch.cases
  | .ifElse =>
    let choice := r.ifElse.getD {}
    .ifElse r.place choice.branches choice.elseBody

def stmt (r : StmtFields) (kind : String) : StmtConfig :=
  match StmtKind.ofName? kind with
  | some kind => r.ofKind kind
  | none => .unknown r.place kind

end StmtFields

def textField (kind : TextKind) : Field D.Node StmtFields :=
  ⟨kind.name, fun n r => do
    let value ← D.readOptionalText n
    return { r with texts := fun other => if other = kind then value else r.texts other }⟩

def lineField : Field D.Node StmtFields :=
  ⟨"line", fun n r => do
    return { r with line := ← D.readPart "storyyaml.LineConfig" (lineFields D) {} r.line n }⟩

def runField : Field D.Node StmtFields :=
  ⟨"run", fun n r => do
    return { r with run := ← D.readPart "storyyaml.RunConfig" (runFields D) {} r.run n }⟩

def assignField : Field D.Node StmtFields :=
  ⟨"assign", fun n r => do
    return { r with assign := ← D.readPart "storyyaml.AssignConfig" (assignFields D) {} r.assign n }⟩

def menuField (stmt : StmtReader D) (kind : MenuKind) : Field D.Node StmtFields :=
  ⟨kind.name, fun n r => do
    let value ← D.readPart "storyyaml.MenuConfig" (menuFields D stmt) {} (r.menus kind) n
    return { r with menus := fun other => if other = kind then value else r.menus other }⟩

def branchOnField (stmt : StmtReader D) : Field D.Node StmtFields :=
  ⟨"branchon", fun n r => do
    return { r with
      branchOn := ← D.readPart "storyyaml.BranchOnConfig" (branchOnFields D stmt) {} r.branchOn n }⟩

def ifField (stmt : StmtReader D) : Field D.Node StmtFields :=
  ⟨"if", fun n r => do
    return { r with ifElse := ← D.readPart "storyyaml.IfConfig" (ifFields D stmt) {} r.ifElse n }⟩

def stmtField (stmt : StmtReader D) : StmtKind → Field D.Node StmtFields
  | .text kind => textField D kind
  | .line => lineField D
  | .run => runField D
  | .assign => assignField D
  | .menu kind => menuField D stmt kind
  | .branchOn => branchOnField D stmt
  | .ifElse => ifField D stmt

def stmtFields (stmt : StmtReader D) : List (Field D.Node StmtFields) :=
  ⟨"at", fun n r => do return { r with place := ← D.readText n }⟩ ::
    StmtKind.all.map (stmtField D stmt)

def keyText : StmtKey → Except Abort String
  | .text s => .ok s
  | .other shown => .error (.keyNotText shown)

def checkKind (keys : List StmtKey) : Except Abort String := do
  let names ← keys.mapM keyText
  match names.filter (· != "at") with
  | [kind] => return kind
  | kinds => .error (.kindCount kinds)

/-- Reads a statement. The number bounds how deep statements are nested. -/
def readStmt : Nat → StmtReader D
  | 0, _ => return none
  | depth + 1, n =>
    let known (n : D.Node) : Reading (Option StmtConfig) := do
      let (keys, clean) ← (D.readKeys n).checked
      if clean then
        let kind ← checkKind keys
        let r ← D.readRecord "storyyaml.plain" (stmtFields D (readStmt depth)) {} {} n
        return some (r.stmt kind)
      else return none
    return (← D.readOptional "storyyaml.StmtConfig" known n).join

def sceneFields (stmt : StmtReader D) : List (Field D.Node SceneConfig) := [
  ⟨"name", fun n r => do return { r with name := ← D.readText n }⟩,
  ⟨"chapter", fun n r => do return { r with chapter := ← D.readFlag n }⟩,
  ⟨"at", fun n r => do return { r with place := ← D.readText n }⟩,
  ⟨"body", fun n r => do return { r with body := ← readBody D stmt n }⟩]

def storyFields (stmt : StmtReader D) : List (Field D.Node StoryConfig) := [
  ⟨"entry", fun n r => do return { r with entry := ← D.readText n }⟩,
  ⟨"outcomes", fun n r => do
    return { r with outcomes := ← D.readRecords "storyyaml.OutcomeConfig" (outcomeFields D) {} n }⟩,
  ⟨"spectrums", fun n r => do
    return { r with spectrums := ← D.readRecords "storyyaml.SpectrumConfig" (spectrumFields D) {} n }⟩,
  ⟨"scenes", fun n r => do
    return { r with scenes := ← D.readRecords "storyyaml.SceneConfig" (sceneFields D stmt) {} n }⟩,
  ⟨"comment", fun n r => do
    let _ ← D.readText n
    return r⟩]

end Fields

inductive ParseError where
  | malformed (error : Document.SyntaxError)
  | issues (found : List Issue)
  | aborted (reason : Abort)
  | noScenes
  deriving DecidableEq

def ParseError.message : ParseError → String
  | .malformed e => e.message
  | .issues found =>
    "yaml: unmarshal errors:\n  " ++ String.intercalate "\n  " (found.map Issue.message)
  | .aborted reason => reason.message
  | .noScenes => "story config: no scenes"

namespace StoryConfig

section Decoding

variable (D : Decoder)

def decode (root : Option D.Node) : Except ParseError StoryConfig :=
  match root with
  | none => .ok {}
  | some n =>
    match D.readRecord "storyyaml.StoryConfig" (storyFields D (readStmt D (D.depth n))) {} {} n with
    | .ended (.malformed e) => .error (.malformed e)
    | .ended reason => .error (.aborted reason)
    | .read story [] => .ok story
    | .read _ found => .error (.issues found)

/-- A story has at least one scene. -/
def ofRoot (root : Option D.Node) : Except ParseError StoryConfig := do
  let story ← decode D root
  if story.scenes.isEmpty then .error .noScenes else return story

def parse (text : String) : Except ParseError StoryConfig :=
  match D.parse text with
  | .error e => .error (.malformed e)
  | .ok root => ofRoot D root

end Decoding

def ofNode (root : Option Document.Node) : Except ParseError StoryConfig := ofRoot treeDecoder root

def ofText (text : String) : Except ParseError StoryConfig := parse treeDecoder text

end StoryConfig

end StoryFlow.Config
