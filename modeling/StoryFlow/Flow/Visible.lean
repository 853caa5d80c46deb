import StoryFlow.Flow.Graph

/-! The visible view of a graph: only the visible vertices, with an edge that passed through invisible
ones led to the nearest visible targets behind them. What was found behind an invisible vertex is
remembered; a search that comes back to a vertex it is still in finds nothing there. -/

namespace StoryFlow.Flow

def orLoop (target : VertexId) (loop : Bool) : List Edge → List Edge
  | [] => []
  | e :: rest =>
    if e.target = target then ⟨e.target, e.loop || loop⟩ :: rest else e :: orLoop target loop rest

def joinEdge (edges : List Edge) (e : Edge) : List Edge :=
  if Edge.anyTo edges e.target then orLoop e.target e.loop edges else edges ++ [e]

def through (first : Edge) (second : Edge) : Edge := ⟨second.target, first.loop || second.loop⟩

namespace Graph

abbrev Found := IdMap (List Edge)

/-- Targets outside of the graph stay. -/
def shows (g : Graph) (id : VertexId) : Except Fault Bool :=
  if id.isReal then do
    let e ← g.entry id
    return e.vertex.visible
  else .ok true

/-- The nearest visible targets behind an invisible vertex. The vertices that the search is still in
are `active`, so it is never deeper than there are vertices. -/
def behind (g : Graph) : Nat → List VertexId → VertexId → Found → Except Fault (List Edge × Found)
  | 0, _, _, found => .ok ([], found)
  | depth + 1, active, id, found =>
    match found.get? id with
    | some edges => .ok (edges, found)
    | none =>
      if active.contains id then .ok ([], found)
      else do
        let entry ← g.entry id
        let step := fun (state : List Edge × Found) (e : Edge) => do
          if ← g.shows e.target then return (joinEdge state.1 e, state.2)
          else
            let (targets, found) ← behind g depth (id :: active) e.target state.2
            return (targets.foldl (fun edges t => joinEdge edges (through e t)) state.1, found)
        let (edges, found) ← entry.edges.foldlM step ([], found)
        return (edges, found.insert id edges)

/-- The edges of the view so far, and the targets that were reached past invisible vertices. -/
structure Collapsing where
  edges : List Edge := []
  expanded : List VertexId := []

/-- A direct edge is kept, also beside another one to the same target, unless that one was reached past
invisible vertices. -/
def Collapsing.direct (c : Collapsing) (e : Edge) : Collapsing :=
  if c.expanded.contains e.target then { c with edges := orLoop e.target e.loop c.edges }
  else { c with edges := c.edges ++ [e] }

def Collapsing.indirect (c : Collapsing) (e : Edge) : Collapsing :=
  ⟨joinEdge c.edges e, e.target :: c.expanded⟩

def collapse (g : Graph) (edges : List Edge) (found : Found) :
    Except Fault (List Edge × Found) := do
  let step := fun (state : Collapsing × Found) (e : Edge) => do
    if ← g.shows e.target then return (state.1.direct e, state.2)
    else
      let (targets, found) ← behind g (g.size + 1) [] e.target state.2
      return (targets.foldl (fun c t => c.indirect (through e t)) state.1, found)
  let (c, found) ← edges.foldlM step ({}, found)
  return (c.edges, found)

def collapseEntries (g : Graph) (operation : Nat) :
    List (VertexId × Entry) → IdMap Entry → Found → Except Fault (IdMap Entry × Found)
  | [], made, found => .ok (made, found)
  | (id, e) :: rest, made, found =>
    if e.vertex.visible then do
      let (edges, found) ← g.collapse e.edges found
      collapseEntries g operation rest (made.insert id ⟨e.vertex, edges, ⟨operation, false⟩⟩) found
    else collapseEntries g operation rest made found

def removeInvisible (operation : Nat) (g : Graph) : Except Fault Graph := do
  let (nodes, found) ← collapseEntries g operation g.nodes.entries ∅ ∅
  let (start, _) ← g.collapse g.start found
  return {
    nodes
    exits := (nodes.filter fun _ e => Edge.anyTo e.edges sink).map fun _ _ => ()
    start }

end Graph

end StoryFlow.Flow
