import StoryFlow.Assignment.Rules
import StoryFlow.Calls.Program
import StoryFlow.Flow.Visible
import StoryFlow.Part

/-! The whole analysis: scene graphs, program graph, assignment rules. Every problem on the way is
collected. Where the program graph is withheld, the scenes that can be reached are looked at on their
own, and only the problems that hold in every context are kept. -/

namespace StoryFlow

open StoryFlow.Flow

inductive PrepareError where
  | missing (part : Part)
  | declaredTwice (scene : String)
  | chapterDisagrees (scene : String)
  deriving DecidableEq, Repr

def PrepareError.message : PrepareError → String
  | .missing part => part.missingText
  | .declaredTwice scene => "scene `" ++ scene ++ "` is declared more than once"
  | .chapterDisagrees scene =>
    "scene `" ++ scene ++ "` disagrees with its symbol on being a chapter"

/-- An analysis that can be run. The running numbers are kept from one run to the next. -/
structure Analysis where
  story : Story
  table : SymbolTable
  supply : Supply := {}

structure Result where
  graph : Option Graph
  problems : List Diagnostic
  notes : List Note

namespace Result

def valid (r : Result) : Bool := r.graph.isSome && r.problems.isEmpty

def failure? (r : Result) (workingDir : String) : Option Failure :=
  Failure.join (r.problems.map fun d => some (.plain (d.text workingDir)))

def visible (r : Result) : Except Fault (Option Graph) :=
  match r.graph with
  | none => .ok none
  | some g => do return some (← g.removeInvisible 0)

end Result

namespace Analysis

def declareScenes (seen : List String) (table : SymbolTable) :
    List Scene → Except PrepareError SymbolTable
  | [] => .ok table
  | s :: rest =>
    if seen.contains s.name then .error (.declaredTwice s.name)
    else
      match table.scene? s.name with
      | none =>
        declareScenes (s.name :: seen)
          { table with scenes := table.scenes ++ [⟨s.name, s.chapter⟩] } rest
      | some symbol =>
        if symbol.chapter = s.chapter then declareScenes (s.name :: seen) table rest
        else .error (.chapterDisagrees s.name)

/-- The table that was passed in is left as it is; the analysis has a copy of its own. -/
def prepare (story : Story) (table : SymbolTable) (absent : List Part) :
    Except PrepareError Analysis :=
  match Part.firstMissing Part.ofAnalysis absent with
  | some part => .error (.missing part)
  | none => do
    let table ← declareScenes [] table.copy story.scenes
    return { story, table }

/-- The problems of a scene on its own that hold in every context. Whether a variable is definitely
assigned depends on what comes before the scene. -/
def standalone (problems : List Diagnostic) : List Diagnostic :=
  problems.filter fun d => d.kind != .notDefinitelyAssigned

def assignmentOf (a : Analysis) (g : Graph) : Except Defect (List Diagnostic × List Note) := do
  let report ← Assignment.analyze g a.table
  return (report.problems, report.notes.map (.ofStage "assign"))

def analyzeScenes (a : Analysis) (graphs : SceneGraphs) :
    List String → Except Defect (List Diagnostic × List Note)
  | [] => .ok ([], [])
  | name :: rest =>
    match graphs.graph? name with
    | none => analyzeScenes a graphs rest
    | some g => do
      let (problems, notes) ← a.assignmentOf g
      let (others, otherNotes) ← analyzeScenes a graphs rest
      return (standalone problems ++ others, notes ++ otherNotes)

def run (a : Analysis) : Except Defect (Result × Analysis) := do
  let scenes ← a.story.build a.table a.supply
  let program ← Program.assemble a.story scenes scenes.supply
  let problems := scenes.problems ++ program.problems
  let notes := .always "building scene graphs..." :: scenes.notes.map (.ofStage "flowbuild") ++
    .always "assembling call graph..." :: program.notes.map (.ofStage "callgraph")
  let next := { a with supply := program.supply }
  match program.graph with
  | none =>
    let (found, more) ← a.analyzeScenes scenes a.story.reachableScenes
    let withheld : Note :=
      .always "program graph withheld, analyzing the intact scenes on their own..."
    return (⟨none, problems ++ found, notes ++ withheld :: more⟩, next)
  | some g =>
    let (found, more) ← a.assignmentOf g
    let total : Note := .detail ("result: " ++ g.summary ++ ", " ++
      Nat.repr (problems ++ found).length ++ " error(s)")
    return (⟨some g, problems ++ found,
      notes ++ .always "analyzing assignments..." :: more ++ [total]⟩, next)

end Analysis

end StoryFlow
