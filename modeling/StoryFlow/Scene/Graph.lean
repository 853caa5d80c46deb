import StoryFlow.Defect
import StoryFlow.Flow.Listing
import StoryFlow.Flow.Supply
import StoryFlow.Note
import StoryFlow.Scene.Rules

/-! The flow graph of a scene. A plain statement is one vertex, calls included; a menu is its prompt
with an edge into every option; a branch has one edge for every declared option, in the order of the
declaration; an if has no vertex of its own. -/

namespace StoryFlow

open StoryFlow.Flow

namespace Scene

def attachAll (id : VertexId) (g : Graph) (supply : Supply) :
    List Graph → Except Fault (Graph × Supply)
  | [] => .ok (g, supply)
  | h :: rest => do
    let (g, supply) ← supply.perform fun operation => g.attach operation id h
    attachAll id g supply rest

/-- What the case that owns an option is paired with: the first case that names it, else the catch-all. -/
def owner? {α : Type} (bodies : List (BranchCase × α)) (option : String) : Option α :=
  let named := bodies.find? fun p => !p.1.other && p.1.optionNames.contains option
  (named.orElse fun _ => bodies.find? fun p => p.1.other).map Prod.snd

/-- The graphs that the edges of a branch lead into. Without a declaration these are all of them. -/
def branchTargets (table : SymbolTable) (name : String) (cases : List BranchCase)
    (bodies : List Graph) : List Graph :=
  match table.declared? name with
  | none => bodies
  | some declaration => declaration.optionNames.filterMap (owner? (cases.zip bodies))

end Scene

mutual

def Stmt.graph (table : SymbolTable) (scene : String) :
    Stmt → Supply → Except Fault (Graph × Supply)
  | .plain area action, supply =>
    let (v, supply) := supply.vertex (some (.plain area action)) scene
    supply.perform fun operation => Graph.single operation v [Edge.toSink]
  | .menu area kind prompt options, supply => do
    let (v, supply) := supply.vertex (some (.menu area kind prompt options)) scene
    let edges := if options.isEmpty then [Edge.toSink] else []
    let (g, supply) ← supply.perform fun operation => Graph.single operation v edges
    optionGraphs table scene kind v.id g supply options
  | .branchOn area name cases, supply => do
    let (v, supply) := supply.vertex (some (.branchOn area name cases)) scene
    let (g, supply) ← supply.perform fun operation => Graph.single operation v []
    let (bodies, supply) ← caseGraphs table scene supply cases
    Scene.attachAll v.id g supply (Scene.branchTargets table name cases bodies)
  | .ifElse _ branches _ elseBody, supply => do
    let (bodies, supply) ← branchGraphs table scene supply branches
    let (last, supply) ← bodyGraph table scene .empty supply elseBody
    supply.perform fun _ => Graph.fork (bodies ++ [last])

def bodyGraph (table : SymbolTable) (scene : String) (g : Graph) (supply : Supply) :
    List Stmt → Except Fault (Graph × Supply)
  | [] => .ok (g, supply)
  | s :: rest => do
    let (h, supply) ← s.graph table scene supply
    let (g, supply) ← supply.perform fun operation => g.append operation h
    bodyGraph table scene g supply rest

def optionGraphs (table : SymbolTable) (scene : String) (kind : MenuKind) (prompt : VertexId)
    (g : Graph) (supply : Supply) : List MenuOption → Except Fault (Graph × Supply)
  | [] => .ok (g, supply)
  | ⟨_, _, loop, body⟩ :: rest => do
    let (h, supply) ← bodyGraph table scene .empty supply body
    let (h, supply) ← supply.perform fun operation =>
      .ok (if loop && kind == .loopSwitch then h.loopTo operation prompt else h)
    let (g, supply) ← supply.perform fun operation => g.attach operation prompt h
    optionGraphs table scene kind prompt g supply rest

def caseGraphs (table : SymbolTable) (scene : String) (supply : Supply) :
    List BranchCase → Except Fault (List Graph × Supply)
  | [] => .ok ([], supply)
  | ⟨_, _, _, body⟩ :: rest => do
    let (h, supply) ← bodyGraph table scene .empty supply body
    let (others, supply) ← caseGraphs table scene supply rest
    return (h :: others, supply)

def branchGraphs (table : SymbolTable) (scene : String) (supply : Supply) :
    List IfBranch → Except Fault (List Graph × Supply)
  | [] => .ok ([], supply)
  | ⟨_, body⟩ :: rest => do
    let (h, supply) ← bodyGraph table scene .empty supply body
    let (others, supply) ← branchGraphs table scene supply rest
    return (h :: others, supply)

end

namespace Scene

def opening (s : Scene) : Stmt := .plain s.area (.checkpoint s.name true)

def draft (table : SymbolTable) (s : Scene) (supply : Supply) : Except Fault (Graph × Supply) := do
  let (g, supply) ← bodyGraph table s.name .empty supply s.body
  if s.chapter then
    let (first, supply) ← s.opening.graph table s.name supply
    supply.perform fun operation => first.append operation g
  else return (g, supply)

/-- The graph of a scene is withheld when the scene has problems. -/
structure Built where
  graph : Option Graph
  problems : List Diagnostic
  notes : List Note
  supply : Supply

def build (table : SymbolTable) (supply : Supply) (s : Scene) : Except Defect Built := do
  let (g, supply) ← Defect.ofFault (s.draft table supply)
  let problems := s.problems table
  let note (text : String) : Note := .detail ("scene(" ++ s.name ++ "): " ++ text)
  if problems.isEmpty then
    match g.invalidity? with
    | some failure => .error (.invalidScene s.name failure)
    | none => return ⟨some g, [], [note g.summary], supply⟩
  else
    let withheld := note ("withheld with " ++ Nat.repr problems.length ++ " error(s)")
    return ⟨none, problems, [withheld], supply⟩

end Scene

/-- The graphs of the scenes by name. Of two scenes of one name the later one counts. -/
structure SceneGraphs where
  graphs : List (String × Option Graph) := []
  problems : List Diagnostic := []
  notes : List Note := []
  supply : Supply := {}

namespace SceneGraphs

def graph? (s : SceneGraphs) (name : String) : Option Graph :=
  ((s.graphs.reverse.find? (·.1 == name)).map Prod.snd).join

def withhold (s : SceneGraphs) (names : List String) : SceneGraphs :=
  { s with graphs := s.graphs.map fun p => if names.contains p.1 then (p.1, none) else p }

def buildFrom (table : SymbolTable) (done : SceneGraphs) :
    List Scene → Except Defect SceneGraphs
  | [] => .ok done
  | s :: rest => do
    let built ← s.build table done.supply
    buildFrom table {
      graphs := done.graphs ++ [(s.name, built.graph)]
      problems := done.problems ++ built.problems
      notes := done.notes ++ built.notes
      supply := built.supply } rest

end SceneGraphs

def Story.build (table : SymbolTable) (supply : Supply) (s : Story) :
    Except Defect SceneGraphs :=
  SceneGraphs.buildFrom table { supply } s.scenes

end StoryFlow
