import StoryFlow.Story.Stmt

/-! Vertices and edges of flow graphs. An edge runs in the direction of control, and the order of
the edges of a vertex is significant. -/

namespace StoryFlow.Flow

/-- The identity of a vertex. Identities of actual vertices are never negative. -/
abbrev VertexId := Int

def sink : VertexId := -1

def unresolved : VertexId := -2

namespace VertexId

def isReal (id : VertexId) : Bool := 0 ≤ id

def text (id : VertexId) : String :=
  if id = sink then "sink"
  else if id = unresolved then "unresolved"
  else "v" ++ toString id

end VertexId

/-- A loop edge leads from the body of a loop option back to its prompt. -/
structure Edge where
  target : VertexId
  loop : Bool := false
  deriving DecidableEq, Repr

namespace Edge

def toSink : Edge := ⟨sink, false⟩

def text (e : Edge) : String :=
  "-> " ++ e.target.text ++ (if e.loop then " (loop)" else "")

def anyTo (edges : List Edge) (target : VertexId) : Bool :=
  edges.any (·.target == target)

/-- Puts the replacement in the place of every edge to the target. A replaced loop edge makes its
replacements loop edges. -/
def redirect (edges : List Edge) (target : VertexId) (replacement : List Edge) : List Edge :=
  edges.flatMap fun e =>
    if e.target = target then replacement.map fun r => ⟨r.target, e.loop || r.loop⟩ else [e]

end Edge

/-- One statement in a graph. The chain names the scenes it was inlined through, from the innermost
to the outermost. -/
structure Vertex where
  id : VertexId
  stmt : Option Stmt
  visible : Bool
  chain : List String

namespace Vertex

def ofStmt (id : VertexId) (stmt : Option Stmt) (scene : String) : Vertex :=
  ⟨id, stmt, stmt.any Stmt.visible, [scene]⟩

def scene (v : Vertex) : String := v.chain.headD ""

def nested (v : Vertex) (caller : String) : Vertex := { v with chain := v.chain ++ [caller] }

def text (v : Vertex) : String :=
  match v.stmt with
  | none => v.id.text
  | some stmt => v.id.text ++ ": " ++ stmt.label

def callee? (v : Vertex) : Option String := v.stmt.bind Stmt.callee?

end Vertex

end StoryFlow.Flow
