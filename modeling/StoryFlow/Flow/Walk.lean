import StoryFlow.Closure
import StoryFlow.Flow.Graph

/-! The edge relation of a graph, read forwards and backwards, and what the start reaches. -/

namespace StoryFlow.Flow.Graph

def realTargets (edges : List Edge) : List VertexId :=
  (edges.map Edge.target).filter VertexId.isReal

def successors? (g : Graph) (id : VertexId) : Option (List VertexId) :=
  (g.edges? id).map fun edges => fresh [] (realTargets edges)

def successors (g : Graph) (id : VertexId) : List VertexId := (g.successors? id).getD []

/-- Adds a source at the end of the sources of a target. The edges of one source come together, so
only the last one has to be looked at. -/
def addSource (source : VertexId) (sources : IdMap (List VertexId)) (target : VertexId) :
    IdMap (List VertexId) :=
  let known := (sources.get? target).getD []
  if known.getLast? = some source then sources else sources.insert target (known ++ [source])

def predecessors (g : Graph) : IdMap (List VertexId) :=
  g.nodes.entries.foldl (fun sources p => (realTargets p.2.edges).foldl (addSource p.1) sources) ∅

section Search

variable {g : Graph} {id : VertexId} {found : List VertexId}

theorem successors_of_not_mem_ids (h : id ∉ g.ids) : g.successors id = [] := by
  have absent : g.nodes.get? id = none := by
    cases hg : g.nodes.get? id with
    | none => rfl
    | some e => exact absurd (List.mem_map_of_mem (IdMap.mem_of_lookup hg)) h
  rw [successors, successors?, edges?, absent]
  rfl

def unfound (g : Graph) (found : List VertexId) : Nat :=
  g.ids.countP fun id => !found.contains id

theorem unfound_cons_of_not_mem_ids (h : id ∉ g.ids) : g.unfound (id :: found) = g.unfound found := by
  refine List.countP_congr fun a ha => ?_
  have apart : a ≠ id := fun heq => h (heq ▸ ha)
  simp [apart]

theorem unfound_cons_lt (h : id ∈ g.ids) (hnew : id ∉ found) :
    g.unfound (id :: found) < g.unfound found :=
  countP_lt (fun a _ => by simp) h (by simpa using hnew) (by simp)

/-- Takes what lies on top of the stack until the stack is empty. What is found for the first time puts
its successors on the stack, the last one on top. -/
def search (g : Graph) (found : List VertexId) : List VertexId → List VertexId
  | [] => found
  | id :: rest =>
    if id ∈ found then g.search found rest
    else g.search (id :: found) ((g.successors id).reverse ++ rest)
termination_by stack => (g.unfound found, stack.length)
decreasing_by
  · exact Prod.Lex.right _ (Nat.lt_succ_self _)
  · rename_i hnew
    by_cases h : id ∈ g.ids
    · exact Prod.Lex.left _ _ (unfound_cons_lt h hnew)
    · -- a target outside of the graph has no successors
      rw [unfound_cons_of_not_mem_ids h, successors_of_not_mem_ids h]
      exact Prod.Lex.right _ (Nat.lt_succ_self _)

def reachable (g : Graph) : List VertexId := g.search [] (realTargets g.start).reverse

end Search

end StoryFlow.Flow.Graph
