import StoryFlow.Assignment.Facts
import StoryFlow.Defect
import StoryFlow.Diagnostic
import StoryFlow.Note

/-! The rules for variables. A variable without a fallback is definitely assigned before it is read, an
outcome is assigned at most once and not across a checkpoint, and every name is used as what it was
declared to be. -/

namespace StoryFlow

open StoryFlow.Flow

namespace Assignment

def inTicks (name : String) : String := "`" ++ name ++ "`"

def problem (v : Vertex) (kind : DiagnosticKind) (name message : String) : Diagnostic :=
  { kind, message, area := v.stmt.map Stmt.area, names := [name], chain := v.chain }

def misuse (table : SymbolTable) (v : Vertex) (name : String) (want : VarKind) : Diagnostic :=
  match table.declared? name with
  | none => problem v .undeclared name (inTicks name ++ " is not declared")
  | some x =>
    problem v .wrongKind name
      (inTicks name ++ " is a " ++ x.kind.name ++ ", not a " ++ want.name)

def readProblems (table : SymbolTable) (before : Facts) (v : Vertex) (name : String) :
    List Diagnostic :=
  match table.declared? name with
  | none => [problem v .undeclared name (inTicks name ++ " is not declared")]
  | some x =>
    if x.hasFallback then []
    else if !before.definite.contains name then
      [problem v .notDefinitelyAssigned name (inTicks name ++ " is not definitely assigned")]
    else if x.kind == .outcome && !before.segment.contains name then
      [problem v .outcomeLocked name (inTicks name ++ " is only assigned before a checkpoint")]
    else []

def assignProblems (table : SymbolTable) (before : Facts) (v : Vertex) (name option : String) :
    List Diagnostic :=
  match table.outcome? name with
  | none => [misuse table v name .outcome]
  | some x =>
    (if x.options.contains option then []
      else [problem v .unknownOption name (option ++ " is not an option of " ++ inTicks name)]) ++
    (if before.locked.contains name then
      [problem v .outcomeLocked name (inTicks name ++ " is locked by a checkpoint")]
    else if before.possible.contains name then
      [problem v .maybeAssignedTwice name (inTicks name ++ " might be assigned more than once")]
    else [])

def problemsAt (table : SymbolTable) (before : Facts) (v : Vertex) : List Diagnostic :=
  match v.stmt with
  | some (.branchOn _ name _) => readProblems table before v name
  | some (.plain _ (.assign name option)) => assignProblems table before v name option
  | some (.plain _ (.adjust name _)) | some (.plain _ (.declareSpectrum name)) =>
    if (table.spectrum? name).isSome then [] else [misuse table v name .spectrum]
  | some (.plain _ (.declareOutcome name)) =>
    if (table.outcome? name).isSome then [] else [misuse table v name .outcome]
  | _ => []

structure Report where
  before : IdMap Facts
  problems : List Diagnostic
  notes : List Note

/-- The order in which the vertices are visited. Where there is no topological order it is that of
the identities. -/
def visitOrder (g : Graph) : Except Fault (List VertexId × List Note) :=
  match g.topologicalOrder with
  | .ok order => .ok (order, [])
  | .error (.fault f) => .error f
  | .error (.cyclic stuck total) =>
    let text := ((OrderError.cyclic stuck total).message?).getD ""
    .ok (g.ids, [.always ("analyze: " ++ text)])

def analyze (g : Graph) (table : SymbolTable) : Except Defect Report := Defect.ofFault do
  let (order, notes) ← visitOrder g
  let solved ← Worklist.solve g table order
  let problems := order.flatMap fun id =>
    match g.vertex? id with
    | none => []
    | some v => problemsAt table ((solved.before.get? id).getD {}) v
  let visits := "fixpoint: " ++ Nat.repr solved.visits ++ " visits for " ++
    Nat.repr order.length ++ " vertices"
  let total := "analyze: " ++ Nat.repr order.length ++ " vertices, " ++
    Nat.repr table.variableNames.length ++ " variables, " ++
    Nat.repr problems.length ++ " error(s)"
  return ⟨solved.before, problems, notes ++ [.detail visits, .detail total]⟩

def shownNames (table : SymbolTable) (s : VarSet) : List String :=
  table.variableNames.filter s.contains

end Assignment

end StoryFlow
