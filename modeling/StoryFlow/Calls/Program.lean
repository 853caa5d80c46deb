import StoryFlow.Calls.CallGraph
import StoryFlow.Scene.Graph

/-! The program graph: the graph of the entry scene with every call replaced by the graph of its callee.
It is withheld when the entry scene leads to a cycle of calls, to an undeclared scene, or to a scene
whose own graph was withheld. -/

namespace StoryFlow

open StoryFlow.Flow

structure Program where
  graph : Option Graph
  problems : List Diagnostic
  notes : List Note
  supply : Supply

namespace Program

def undeclaredProblems (story : Story) (s : Scene) : List Diagnostic :=
  (s.calls.filter fun call => (story.scene? call.scene).isNone).map fun call => {
    kind := .undeclaredScene
    message := "scene " ++ s.name ++ " calls undeclared scene " ++ call.scene
    area := some call.area
    names := [call.scene]
    chain := [s.name] }

def cycleProblem (c : CallCycle) : Diagnostic where
  kind := .cyclicCall
  message := "cyclic scene call: " ++ String.intercalate " -> " c.names
  area := some c.site.area
  names := c.names
  chain := [c.site.caller]

/-- How often each scene occurs. The numbers are machine words of 64 bits and wrap. -/
abbrev Counts := List (String × Int64)

def countOf (counts : Counts) (name : String) : Int64 :=
  ((counts.find? (·.1 == name)).map Prod.snd).getD 0

def addCount (counts : Counts) (name : String) (n : Int64) : Counts :=
  match counts with
  | [] => [(name, n)]
  | (key, m) :: rest => if key == name then (key, m + n) :: rest else (key, m) :: addCount rest name n

def spread (calls : CallGraph) (counts : Counts) (name : String) : Counts :=
  (calls.callees name).foldl (fun counts callee => addCount counts callee (countOf counts name)) counts

def occurrences (calls : CallGraph) (finished : List String) (entry : String) : Counts :=
  finished.reverse.foldl (spread calls) [(entry, 1)]

/-- Without an order of callers before callees only the written calls can be counted. -/
def writtenCalls (calls : CallGraph) (entry : String) : Counts :=
  (calls.names.flatMap calls.callees).foldl (fun counts callee => addCount counts callee 1)
    [(entry, 1)]

def chapterProblems (story : Story) (counts : Counts) : List Diagnostic :=
  (story.scenes.filter fun s => s.chapter && countOf counts s.name != 1).map fun s => {
    kind := .chapterCallCount
    message := "chapter " ++ s.name ++ " must be called exactly once, but is called " ++
      toString (countOf counts s.name).toInt ++ " times"
    area := some s.area
    names := [s.name]
    chain := [s.name] }

def spreadBroken (calls : CallGraph) (broken : List String) (name : String) : List String :=
  if (calls.callees name).any broken.contains then name :: broken else broken

def brokenScenes (story : Story) (graphs : SceneGraphs) (calls : CallGraph)
    (walked : CallGraph.Progress) : List String :=
  let own := (story.scenes.filter fun s =>
    !(undeclaredProblems story s).isEmpty || (graphs.graph? s.name).isNone).map Scene.name
  let cyclic := walked.cycles.flatMap CallCycle.names
  walked.finished.foldl (spreadBroken calls) (own ++ cyclic)

/-- The expanded graphs of the scenes so far, and which of them were put in once already. -/
structure Expansion where
  graphs : List (String × Graph) := []
  used : List String := []
  notes : List Note := []
  supply : Supply

def Expansion.graph? (x : Expansion) (name : String) : Option Graph :=
  (x.graphs.find? (·.1 == name)).map Prod.snd

/-- Replaces one call. The first call of a scene takes over the identities of its graph, every further
one gets a copy under fresh identities. -/
def expandCall (caller callee : String) (id : VertexId) (g : Graph) (x : Expansion) :
    Except Defect (Graph × Expansion) :=
  match x.graph? callee with
  | none => .error (.notExpanded callee caller)
  | some h => Defect.ofFault do
    let nest : Vertex → Option Vertex := fun v => some (v.nested caller)
    let (h, supply) ←
      if x.used.contains callee then x.supply.relabel nest h
      else x.supply.perform fun operation => h.map operation nest
    let (g, supply) ← supply.perform fun operation => g.replace operation id h
    let note : Note := .detail ("inline: " ++ callee ++ " into " ++ caller ++ " at " ++ id.text)
    return (g, { x with used := callee :: x.used, notes := x.notes ++ [note], supply })

def expandCalls (caller : String) : List VertexId → Graph → Expansion →
    Except Defect (Graph × Expansion)
  | [], g, x => .ok (g, x)
  | id :: rest, g, x =>
    match (g.vertex? id).bind Vertex.callee? with
    | none => expandCalls caller rest g x
    | some callee => do
      let (g, x) ← expandCall caller callee id g x
      expandCalls caller rest g x

def expandScenes (graphs : SceneGraphs) : List String → Expansion → Except Defect Expansion
  | [], x => .ok x
  | name :: rest, x =>
    match graphs.graph? name with
    | none => .error (.flow .noVertex)
    | some g => do
      let (g, x) ← expandCalls name g.ids g x
      expandScenes graphs rest { x with graphs := (name, g) :: x.graphs }

def expand (graphs : SceneGraphs) (calls : CallGraph) (finished : List String) (entry : String)
    (supply : Supply) : Except Defect (Graph × Expansion) := do
  let reached := calls.reachable entry
  let x ← expandScenes graphs (finished.filter reached.contains) { supply }
  match x.graph? entry with
  | none => .error (.flow .noVertex)
  | some g =>
    match g.invalidity? with
    | some failure => .error (.invalidProgram failure)
    | none => return (g, x)

def assemble (story : Story) (graphs : SceneGraphs) (supply : Supply) : Except Defect Program :=
  match story.entryScene? with
  | none =>
    .ok {
      graph := none
      problems := [{
        kind := .undeclaredScene
        message := "entry scene " ++ Text.quoted story.entry ++ " does not exist"
        names := [story.entry] }]
      notes := []
      supply }
  | some entry => do
    let calls := story.callGraph
    let walked := calls.walk
    let counts :=
      if walked.cycles.isEmpty then occurrences calls walked.finished entry.name
      else writtenCalls calls entry.name
    let problems := story.scenes.flatMap (undeclaredProblems story) ++
      walked.cycles.map cycleProblem ++ chapterProblems story counts
    if (brokenScenes story graphs calls walked).contains entry.name then
      let note : Note := .detail ("entry scene " ++ entry.name ++ " is broken, graph withheld")
      return ⟨none, problems, [note], supply⟩
    else
      let (g, x) ← expand graphs calls walked.finished entry.name supply
      return ⟨some g, problems, x.notes ++ [.detail ("program graph: " ++ g.summary)], x.supply⟩

end Program

end StoryFlow
