import StoryFlow.Flow.IdMap

/-! Flow graphs. A graph is a value: every operation makes a new graph that shares the entries it did
not touch. Two graphs may be put together only if every vertex they share has the same entry in both,
so each entry carries the mark of the operation that made it. -/

namespace StoryFlow.Flow

/-- The operation that made an entry, and which of its two operands the entry came from. -/
structure Mark where
  operation : Nat
  second : Bool := false
  deriving DecidableEq, Repr

structure Entry where
  vertex : Vertex
  edges : List Edge
  mark : Mark

/-- The exits index the vertices with an edge to the sink. The start is the ordered list of the edges
by which control enters. -/
structure Graph where
  nodes : IdMap Entry
  exits : IdSet
  start : List Edge

inductive Fault where
  | notReal
  | missing (id : VertexId)
  | inBoth (id : VertexId)
  | attachedToItself (id : VertexId)
  | edgeToItself (id : VertexId)
  | replacementContains (id : VertexId)
  | identityChanged (id : VertexId)
  | dangling (id : VertexId)
  | noVertex
  | unsettled
  deriving DecidableEq, Repr

def Fault.message? : Fault → Option String
  | .notReal => some "flow: single vertex graph needs a real vertex"
  | .missing id => some ("flow: vertex " ++ id.text ++ " does not exist")
  | .inBoth id => some ("flow: vertex " ++ id.text ++ " is in both graphs")
  | .attachedToItself id =>
    some ("flow: cannot attach a graph containing " ++ id.text ++ " to itself")
  | .edgeToItself id =>
    some ("flow: cannot replace " ++ id.text ++ " which has an edge to itself")
  | .replacementContains id => some ("flow: replacement graph already contains " ++ id.text)
  | .identityChanged id => some ("flow: map changed the identity of " ++ id.text)
  | .dangling id => some ("flow: dangling edge to " ++ id.text)
  | .noVertex | .unsettled => none

namespace Graph

def empty : Graph := ⟨∅, ∅, [Edge.toSink]⟩

def isEmpty (g : Graph) : Bool := g.nodes.size == 0 && g.start == [Edge.toSink]

def size (g : Graph) : Nat := g.nodes.size

/-- The number of edges between vertices and out of the graph. Start edges do not count. -/
def edgeCount (g : Graph) : Nat := (g.nodes.entries.flatMap fun p => p.2.edges).length

def has (g : Graph) (id : VertexId) : Bool := g.nodes.contains id

def vertex? (g : Graph) (id : VertexId) : Option Vertex := (g.nodes.get? id).map Entry.vertex

def edges? (g : Graph) (id : VertexId) : Option (List Edge) := (g.nodes.get? id).map Entry.edges

def edgesOf (g : Graph) (id : VertexId) : List Edge := (g.edges? id).getD []

def ids (g : Graph) : List VertexId := g.nodes.keys

def exitIds (g : Graph) : List VertexId := g.exits.keys

def vertices (g : Graph) : List Vertex := g.nodes.entries.map fun p => p.2.vertex

def entry (g : Graph) (id : VertexId) : Except Fault Entry :=
  match g.nodes.get? id with
  | some e => .ok e
  | none => .error (.missing id)

end Graph

end StoryFlow.Flow
