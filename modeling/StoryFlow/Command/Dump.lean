import StoryFlow.Story.Stmt
import StoryFlow.Symbols

/-! Dumps: values written out as literals, two blanks to a level, every part on a line of its own. -/

namespace StoryFlow.Command

inductive Literal where
  | atom (text : String)
  | braced (head : String) (parts : List (String × Literal))

namespace Literal

def indentation (depth : Nat) : String := String.ofList (List.replicate (2 * depth) ' ')

mutual

def render (depth : Nat) : Literal → String
  | .atom text => text
  | .braced head [] => head ++ "\x7b\x7d"
  | .braced head parts =>
    head ++ "\x7b\n" ++ renderParts (depth + 1) parts ++ indentation depth ++ "\x7d"

def renderParts (depth : Nat) : List (String × Literal) → String
  | [] => ""
  | (name, part) :: rest =>
    indentation depth ++ name ++ part.render depth ++ ",\n" ++ renderParts depth rest

end

def text (s : String) : Literal := .atom (Text.quoted s)

def flag (b : Bool) : Literal := .atom (if b then "true" else "false")

def number (n : Nat) : Literal := .atom (Nat.repr n)

def record (type : String) (fields : List (String × Literal)) : Literal :=
  .braced ("&" ++ type) (fields.map fun f => (f.1 ++ ": ", f.2))

def list (type : String) (items : List Literal) : Literal :=
  .braced ("[]" ++ type) (items.map fun item => ("", item))

/-- A table. Its entries are in the order of their written keys. -/
def table (type : String) (entries : List (String × Literal)) : Literal :=
  let quoted := entries.map fun e => (Text.quoted e.1, e.2)
  let sorted := quoted.mergeSort fun a b => !(b.1 < a.1 : Bool)
  .braced ("map[string]*" ++ type) (sorted.map fun e => (e.1 ++ ": ", e.2))

def texts : Option (List String) → Literal
  | none => .atom "nil"
  | some names => list "string" (names.map text)

def area : String × Literal := ("Textarea", .braced "Textarea" [])

end Literal

open Literal

def actionLiteral : Action → Literal
  | .output t => record "StmtOutput" [area, ("Text", text t)]
  | .line speaker t => record "StmtLine" [area, ("Speaker", text speaker), ("Text", text t)]
  | .run method args => record "StmtRunMethod" [area, ("Method", text method), ("Args", texts args)]
  | .call scene => record "StmtCall" [area, ("Scene", text scene)]
  | .declareOutcome name => record "StmtOutcomeDecl" [area, ("Name", text name)]
  | .declareSpectrum name => record "StmtSpectrumDecl" [area, ("Name", text name)]
  | .assign name option => record "StmtAssign" [area, ("Name", text name), ("Option", text option)]
  | .adjust name positive =>
    record "StmtAdjust" [area, ("Name", text name), ("Positive", flag positive)]
  | .checkpoint name implicit =>
    record "StmtCheckpoint" [area, ("Name", text name), ("Implicit", flag implicit)]

mutual

def stmtLiteral : Stmt → Literal
  | .plain _ action => actionLiteral action
  | .menu _ kind prompt options =>
    record "StmtMenu" [area, ("Kind", number kind.code), ("Prompt", text prompt),
      ("Options", list "*MenuOption" (optionLiterals options))]
  | .branchOn _ name cases =>
    record "StmtBranchOn" [area, ("Name", text name),
      ("Cases", list "*BranchCase" (caseLiterals cases))]
  | .ifElse _ branches hasElse elseBody =>
    record "StmtIf" [area, ("Branches", list "*IfBranch" (branchLiterals branches)),
      ("Else", if hasElse then list "Stmt" (bodyLiterals elseBody) else .atom "nil")]

def bodyLiterals : List Stmt → List Literal
  | [] => []
  | s :: rest => stmtLiteral s :: bodyLiterals rest

def optionLiterals : List MenuOption → List Literal
  | [] => []
  | ⟨_, label, loop, body⟩ :: rest =>
    record "MenuOption" [area, ("Label", text label), ("Loop", flag loop),
      ("Body", list "Stmt" (bodyLiterals body))] :: optionLiterals rest

def caseLiterals : List BranchCase → List Literal
  | [] => []
  | ⟨_, options, other, body⟩ :: rest =>
    record "BranchCase" [area, ("Options", texts options), ("Other", flag other),
      ("Body", list "Stmt" (bodyLiterals body))] :: caseLiterals rest

def branchLiterals : List IfBranch → List Literal
  | [] => []
  | ⟨condition, body⟩ :: rest =>
    record "IfBranch" [area, ("Cond", text condition),
      ("Body", list "Stmt" (bodyLiterals body))] :: branchLiterals rest

end

def sceneLiteral (s : Scene) : Literal :=
  record "Scene" [area, ("Name", text s.name), ("Chapter", flag s.chapter),
    ("Body", list "Stmt" (bodyLiterals s.body))]

def storyLiteral (s : Story) : Literal :=
  record "Story" [("Scenes", list "*Scene" (s.scenes.map sceneLiteral)), ("Entry", text s.entry)]

def outcomeLiteral (o : Outcome) : Literal :=
  record "Outcome" [("Name", text o.name), ("Options", texts (some o.options)),
    ("Default", text o.fallback)]

def bandLiteral (b : Band) : Literal :=
  record "SpectrumOption" [("Name", text b.name),
    ("Threshold", .atom (Text.Decimal.withPoint b.threshold))]

def spectrumLiteral (s : Spectrum) : Literal :=
  record "Spectrum" [("Name", text s.name),
    ("Options", list "*SpectrumOption" (s.bands.map bandLiteral)), ("Default", text s.fallback)]

def sceneSymbolLiteral (s : SceneSymbol) : Literal :=
  record "SceneSym" [("Name", text s.name), ("Chapter", flag s.chapter)]

def tableLiteral (t : SymbolTable) : Literal :=
  record "SymbolTable" [
    ("Outcomes", table "Outcome" (t.outcomes.map fun o => (o.name, outcomeLiteral o))),
    ("Spectrums", table "Spectrum" (t.spectrums.map fun s => (s.name, spectrumLiteral s))),
    ("Scenes", table "SceneSym" (t.scenes.map fun s => (s.name, sceneSymbolLiteral s)))]

def dumpStory (s : Story) : String := (storyLiteral s).render 0 ++ "\n"

def dumpTable (t : SymbolTable) : String := (tableLiteral t).render 0 ++ "\n"

end StoryFlow.Command
