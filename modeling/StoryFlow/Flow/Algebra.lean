import StoryFlow.Flow.Graph

/-! Operations that make graphs. Each takes the number of the operation, which has to be fresh, to mark
the entries it makes. -/

namespace StoryFlow.Flow

def clash? (a b : IdMap Entry) : Option VertexId :=
  (b.entries.find? fun p => (a.get? p.1).any fun e => e.mark != p.2.mark).map Prod.fst

/-- Puts two maps together. An identity may be in both only with the same entry. -/
def mergeEntries (a b : IdMap Entry) : Except Fault (IdMap Entry) :=
  match clash? a b with
  | some id => .error (.inBoth id)
  | none => .ok (a.union b)

namespace Graph

def single (operation : Nat) (v : Vertex) (edges : List Edge) : Except Fault Graph :=
  if v.id.isReal then
    .ok {
      nodes := .singleton v.id ⟨v, edges, ⟨operation, false⟩⟩
      exits := if Edge.anyTo edges sink then .singleton v.id () else ∅
      start := [⟨v.id, false⟩] }
  else .error .notReal

/-- Redirects every edge to the sink, start edges included. Every exit gets a new entry. -/
def rewire (mark : Mark) (g : Graph) (replacement : List Edge) : Graph where
  nodes := g.nodes.map fun id e =>
    if g.exits.contains id then ⟨e.vertex, Edge.redirect e.edges sink replacement, mark⟩ else e
  exits := if Edge.anyTo replacement sink then g.exits else ∅
  start := Edge.redirect g.start sink replacement

def append (operation : Nat) (a b : Graph) : Except Fault Graph :=
  if a.isEmpty then .ok b
  else if b.isEmpty then .ok a
  else do
    let r := rewire ⟨operation, false⟩ a b.start
    let nodes ← mergeEntries r.nodes b.nodes
    return ⟨nodes, r.exits.union b.exits, r.start⟩

/-- Adds a start edge, unless it is a further one straight to the sink. -/
def addStart (start : List Edge) (e : Edge) : List Edge :=
  if e = Edge.toSink ∧ Edge.anyTo start sink then start else start ++ [e]

def forkOnto (g : Graph) : List Graph → Except Fault Graph
  | [] => .ok g
  | h :: rest => do
    let nodes ← mergeEntries g.nodes h.nodes
    forkOnto ⟨nodes, g.exits.union h.exits, h.start.foldl addStart g.start⟩ rest

/-- Choice: control enters one of the graphs. At most one start edge leads straight to the sink. -/
def fork : List Graph → Except Fault Graph
  | [] => .ok empty
  | branches => forkOnto ⟨∅, ∅, []⟩ branches

def attach (operation : Nat) (g : Graph) (id : VertexId) (h : Graph) : Except Fault Graph := do
  let e ← g.entry id
  if h.has id then .error (.attachedToItself id)
  else
    let nodes ← mergeEntries g.nodes h.nodes
    let exits := g.exits.union h.exits
    return {
      nodes := nodes.insert id ⟨e.vertex, e.edges ++ h.start, ⟨operation, false⟩⟩
      exits := if Edge.anyTo h.start sink then exits.insert id () else exits
      start := g.start }

def redirectEntry (mark : Mark) (id : VertexId) (target : List Edge) (e : Entry) : Entry :=
  if Edge.anyTo e.edges id then ⟨e.vertex, Edge.redirect e.edges id target, mark⟩ else e

/-- Puts `h` in the place of a vertex of `g`: edges to the vertex lead to the start of `h`, and control
that leaves `h` goes on along the edges of the vertex. -/
def replace (operation : Nat) (g : Graph) (id : VertexId) (h : Graph) : Except Fault Graph := do
  let e ← g.entry id
  if Edge.anyTo e.edges id then .error (.edgeToItself id)
  else if h.has id then .error (.replacementContains id)
  else
    let r := rewire ⟨operation, true⟩ h e.edges
    let kept := g.nodes.erase id
    let leavers := kept.filter fun _ m =>
      Edge.anyTo m.edges id && Edge.anyTo (Edge.redirect m.edges id r.start) sink
    let redirected := kept.map fun _ m => redirectEntry ⟨operation, false⟩ id r.start m
    let exits := (g.exits.erase id).union (leavers.map fun _ _ => ())
    let nodes ← mergeEntries redirected r.nodes
    return ⟨nodes, exits.union r.exits, Edge.redirect g.start id r.start⟩

def loopTo (operation : Nat) (h : Graph) (target : VertexId) : Graph :=
  rewire ⟨operation, false⟩ h [⟨target, true⟩]

def mapEntries (operation : Nat) (f : Vertex → Option Vertex) :
    List (VertexId × Entry) → IdMap Entry → Except Fault (IdMap Entry)
  | [], made => .ok made
  | (id, e) :: rest, made =>
    match f e.vertex with
    | some v =>
      if v.id = id then mapEntries operation f rest (made.insert id ⟨v, e.edges, ⟨operation, false⟩⟩)
      else .error (.identityChanged id)
    | none => .error (.identityChanged id)

def map (operation : Nat) (f : Vertex → Option Vertex) (g : Graph) : Except Fault Graph := do
  let nodes ← mapEntries operation f g.nodes.entries ∅
  return { g with nodes }

def freshNames (g : Graph) (first : Nat) : IdMap VertexId :=
  .ofList (g.ids.zipIdx.map fun p => (p.1, ((first + p.2 : Nat) : VertexId)))

def renameEdge (names : IdMap VertexId) (e : Edge) : Except Fault Edge :=
  if e.target.isReal then
    match names.get? e.target with
    | some target => .ok ⟨target, e.loop⟩
    | none => .error (.dangling e.target)
  else .ok e

def relabelEntries (operation : Nat) (f : Vertex → Option Vertex) (names : IdMap VertexId) :
    List (VertexId × Entry) → IdMap Entry → Except Fault (IdMap Entry)
  | [], made => .ok made
  | (id, e) :: rest, made =>
    match f e.vertex, names.get? id with
    | some v, some new => do
      let edges ← e.edges.mapM (renameEdge names)
      relabelEntries operation f names rest
        (made.insert new ⟨{ v with id := new }, edges, ⟨operation, false⟩⟩)
    | _, _ => .error .noVertex

/-- A copy under the identities from `first` on. Each vertex is changed by `f` before it gets its new
identity. -/
def relabel (operation first : Nat) (f : Vertex → Option Vertex) (g : Graph) :
    Except Fault Graph := do
  let names := g.freshNames first
  let nodes ← relabelEntries operation f names g.nodes.entries ∅
  let start ← g.start.mapM (renameEdge names)
  return ⟨nodes, .ofIds ((g.ids.filter g.exits.contains).filterMap names.get?), start⟩

end Graph

end StoryFlow.Flow
