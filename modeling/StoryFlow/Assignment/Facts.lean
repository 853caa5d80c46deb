import StoryFlow.Flow.Order
import StoryFlow.Names
import StoryFlow.Symbols

/-! What is known about the variables just before each vertex: assigned on every path from the start,
assigned on some path, possibly assigned before a checkpoint that was crossed, and assigned or read on
every path since the last checkpoint. The facts are computed by a forward worklist, seeded in
topological order, that visits the successors of a vertex again when what holds after it has changed. -/

namespace StoryFlow

open StoryFlow.Flow

/-- A set of variables, by name. Only membership counts. -/
abbrev VarSet := List String

namespace VarSet

def add (s : VarSet) (name : String) : VarSet := Names.addNew s name

def union (a b : VarSet) : VarSet := b.foldl Names.addNew a

def inter (a b : VarSet) : VarSet := a.filter b.contains

def same (a b : VarSet) : Bool := a.all b.contains && b.all a.contains

/-- What several sets have in common. Nothing is common to no sets at all. -/
def common : List VarSet → VarSet
  | [] => []
  | s :: rest => rest.foldl inter s

end VarSet

structure Facts where
  definite : VarSet := []
  possible : VarSet := []
  locked : VarSet := []
  segment : VarSet := []
  deriving Repr, DecidableEq

namespace Facts

def same (a b : Facts) : Bool :=
  VarSet.same a.definite b.definite && VarSet.same a.possible b.possible &&
    VarSet.same a.locked b.locked && VarSet.same a.segment b.segment

def assigned (f : Facts) (name : String) : Facts :=
  { f with
    definite := VarSet.add f.definite name
    possible := VarSet.add f.possible name
    segment := VarSet.add f.segment name }

def readOf (f : Facts) (name : String) : Facts :=
  { f with segment := VarSet.add f.segment name }

def checkpoint (f : Facts) : Facts :=
  { f with locked := VarSet.union f.locked f.possible, segment := [] }

def afterStmt (table : SymbolTable) (f : Facts) : Option Stmt → Facts
  | some (.plain _ (.assign name _)) =>
    if (table.outcome? name).isSome then f.assigned name else f
  | some (.plain _ (.adjust name _)) =>
    if (table.spectrum? name).isSome then f.assigned name else f
  | some (.plain _ (.checkpoint _ _)) => f.checkpoint
  | some (.branchOn _ name _) =>
    if (table.declared? name).isSome then f.readOf name else f
  | _ => f

/-- What holds where paths come together. Nothing is assigned yet on the path from the start. -/
def joined (fromStart : Bool) (sources : List Facts) : Facts where
  definite := VarSet.common ((if fromStart then [[]] else []) ++ sources.map Facts.definite)
  possible := (sources.map Facts.possible).foldl VarSet.union []
  locked := (sources.map Facts.locked).foldl VarSet.union []
  segment := VarSet.common ((if fromStart then [[]] else []) ++ sources.map Facts.segment)

end Facts

/-- The state of the worklist. A vertex is in the queue at most once. -/
structure Worklist where
  queue : List VertexId
  before : IdMap Facts := ∅
  after : IdMap Facts := ∅
  visits : Nat := 0

namespace Worklist

def enqueue (queue : List VertexId) (id : VertexId) : List VertexId :=
  if queue.contains id then queue else queue ++ [id]

def factsBefore (g : Graph) (preds : IdMap (List VertexId)) (w : Worklist) (id : VertexId) :
    Facts :=
  .joined (Edge.anyTo g.start id) (((preds.get? id).getD []).filterMap w.after.get?)

def step (g : Graph) (table : SymbolTable) (preds : IdMap (List VertexId)) (w : Worklist) :
    Except Fault Worklist :=
  match w.queue with
  | [] => .ok w
  | id :: queue =>
    match g.vertex? id with
    | none => .error .noVertex
    | some v =>
      let before := w.factsBefore g preds id
      let after := before.afterStmt table v.stmt
      let visited : Worklist :=
        { w with queue, before := w.before.insert id before, visits := w.visits + 1 }
      if (w.after.get? id).any (Facts.same after) then .ok visited
      else
        .ok { visited with
          queue := (g.successors id).foldl enqueue queue
          after := w.after.insert id after }

/-- Visits vertices until the queue is empty. A queue that outlasts the bound gives no facts. -/
def run (g : Graph) (table : SymbolTable) (preds : IdMap (List VertexId)) :
    Nat → Worklist → Except Fault Worklist
  | 0, w => if w.queue.isEmpty then .ok w else .error .unsettled
  | bound + 1, w =>
    if w.queue.isEmpty then .ok w
    else do
      let w ← w.step g table preds
      run g table preds bound w

/-- The number of states of the worklist that differ in the queue or in what holds after a vertex: each
place of the queue has a vertex or none, and each vertex four sets of variables or none. A worklist that
takes more visits has come back to a state and goes on for ever. -/
def bound (g : Graph) (table : SymbolTable) : Nat :=
  Nat.pow ((g.size + 1) * (Nat.pow 16 table.variableNames.length + 1)) g.size

def solve (g : Graph) (table : SymbolTable) (order : List VertexId) : Except Fault Worklist :=
  run g table g.predecessors (bound g table) { queue := order }

end Worklist

end StoryFlow
