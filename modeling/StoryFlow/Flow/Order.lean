import StoryFlow.Flow.Walk

/-! Topological order. Loop edges do not count; a well formed graph has no other back edges. Vertices
without unreleased incoming edges wait in a queue, and a vertex that leaves the queue releases its
edges one by one. -/

namespace StoryFlow.Flow

inductive OrderError where
  | cyclic (stuck total : Nat)
  | fault (f : Fault)
  deriving DecidableEq, Repr

def OrderError.message? : OrderError → Option String
  | .cyclic stuck total =>
    some ("not a dag, " ++ Nat.repr stuck ++ " of " ++ Nat.repr total ++
      " vertices are in a cycle")
  | .fault f => f.message?

namespace Graph

def forwardTargets (edges : List Edge) : List VertexId :=
  realTargets (edges.filter fun e => !e.loop)

def incoming (g : Graph) : IdMap Nat :=
  (g.nodes.entries.flatMap fun p => forwardTargets p.2.edges).foldl
    (fun counts id => counts.insert id ((counts.get? id).getD 0 + 1)) ∅

structure Releasing where
  waiting : IdMap Nat
  queue : List VertexId

def release (r : Releasing) (id : VertexId) : Releasing :=
  let left := (r.waiting.get? id).getD 0 - 1
  ⟨r.waiting.insert id left, if left = 0 then r.queue ++ [id] else r.queue⟩

def orderFrom (g : Graph) : Nat → Releasing → List VertexId → Except Fault (List VertexId)
  | 0, _, done => .ok done
  | rounds + 1, r, done =>
    match r.queue with
    | [] => .ok done
    | id :: queue => do
      let e ← g.entry id
      orderFrom g rounds ((forwardTargets e.edges).foldl release { r with queue }) (done ++ [id])

/-- The vertices in an order that respects every edge but the loop edges. -/
def topologicalOrder (g : Graph) : Except OrderError (List VertexId) :=
  let waiting := g.incoming
  let queue := g.ids.filter fun id => !waiting.contains id
  match orderFrom g (g.size + g.edgeCount + 1) ⟨waiting, queue⟩ [] with
  | .error f => .error (.fault f)
  | .ok done =>
    if done.length = g.size then .ok done
    else .error (.cyclic (g.size - done.length) g.size)

end Graph

end StoryFlow.Flow
