import StoryFlow.Flow.Graph
import StoryFlow.Text.Quoted
import StoryFlow.Text.Identifier

/-! Graphs as text: a one-line summary, a full listing with a line for every start edge, vertex and
edge, and a description for graph drawing tools. -/

namespace StoryFlow.Flow.Graph

def summary (g : Graph) : String :=
  "Vertices(" ++ Nat.repr g.size ++ "), Edges(" ++ Nat.repr g.edgeCount ++ ")"

def entryLines (e : Entry) : String :=
  "* v: " ++ e.vertex.text ++ "\n" ++
    String.join (e.edges.map fun edge => "* e: " ++ e.vertex.id.text ++ " " ++ edge.text ++ "\n")

def listing (g : Graph) : String :=
  String.join (g.start.map fun e => "* start " ++ e.text ++ "\n") ++
    String.join (g.nodes.entries.map fun p => entryLines p.2)

def listingOf : Option Graph → String
  | none => "<nil>"
  | some g => g.listing

namespace Dot

def edgeLine (source : String) (e : Edge) : String :=
  "\t" ++ source ++ " -> " ++ e.target.text ++
    (if e.loop then " [style=dashed,label=\"loop\"]" else "") ++ ";\n"

def vertexLine (id : VertexId) (v : Vertex) : String :=
  let label := match v.stmt with
    | some stmt => stmt.label
    | none => id.text
  let shape := if v.visible then "shape=box" else "shape=ellipse,style=dashed"
  "\t" ++ id.text ++ " [" ++ shape ++ ",label=" ++ Text.quoted label ++ "];\n"

end Dot

/-- Visible vertices are boxes, invisible ones dashed ellipses, and loop edges are dashed. -/
def dot (g : Graph) (name : String) : String :=
  "digraph " ++ Text.graphIdentifier name ++ " \x7b\n" ++
    "\tlabel=" ++ Text.quoted name ++ ";\n" ++
    "\tstart [shape=point];\n" ++
    "\tsink [shape=doublecircle,label=\"sink\"];\n" ++
    String.join (g.nodes.entries.map fun p => Dot.vertexLine p.1 p.2.vertex) ++
    String.join (g.start.map (Dot.edgeLine "start")) ++
    String.join (g.nodes.entries.flatMap fun p => p.2.edges.map (Dot.edgeLine p.1.text)) ++
    "\x7d\n"

end StoryFlow.Flow.Graph
