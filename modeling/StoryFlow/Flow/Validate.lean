import StoryFlow.Failure
import StoryFlow.Flow.Graph

/-! The structural invariants of a graph: every edge leads to a vertex or out of the graph, every vertex
is stored under its own identity, and the exits are the vertices with an edge to the sink. -/

namespace StoryFlow.Flow

def sourceText : Option VertexId → String
  | none => "start"
  | some id => id.text

inductive Problem where
  | unresolvedEdge (source : Option VertexId)
  | danglingEdge (source : Option VertexId) (target : VertexId)
  | wrongIdentity (id : VertexId)
  | staleExit (id : VertexId)
  | missingExit (id : VertexId)
  deriving DecidableEq, Repr

def Problem.message : Problem → String
  | .unresolvedEdge source => sourceText source ++ " has an unresolved edge"
  | .danglingEdge source target => sourceText source ++ " has a dangling edge to " ++ target.text
  | .wrongIdentity id => "vertex " ++ id.text ++ " is stored under the wrong identity"
  | .staleExit id => "vertex " ++ id.text ++ " has a stale exit index"
  | .missingExit id => "exit index has missing vertex " ++ id.text

namespace Graph

def edgeProblem? (g : Graph) (source : Option VertexId) (e : Edge) : Option Problem :=
  if e.target = unresolved then some (.unresolvedEdge source)
  else if e.target.isReal && !g.has e.target then some (.danglingEdge source e.target)
  else none

def entryProblems (g : Graph) (id : VertexId) (e : Entry) : List Problem :=
  if e.vertex.id = id then
    e.edges.filterMap (g.edgeProblem? (some id)) ++
      (if Edge.anyTo e.edges sink = g.exits.contains id then [] else [.staleExit id])
  else [.wrongIdentity id]

def problems (g : Graph) : List Problem :=
  g.start.filterMap (g.edgeProblem? none) ++
    g.nodes.entries.flatMap (fun p => g.entryProblems p.1 p.2) ++
    (g.exitIds.filter fun id => !g.has id).map .missingExit

def invalidity? (g : Graph) : Option Failure :=
  Failure.join (g.problems.map fun p => some (.plain p.message))

end Graph

end StoryFlow.Flow
