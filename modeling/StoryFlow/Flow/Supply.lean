import StoryFlow.Flow.Algebra

/-! The running numbers of one compilation. Every vertex takes a fresh identity and every operation a
fresh number, so vertices of different scenes never share an identity. -/

namespace StoryFlow.Flow

structure Supply where
  identities : Nat := 0
  operations : Nat := 0
  deriving DecidableEq, Repr

namespace Supply

def takeIdentities (s : Supply) (count : Nat) : Supply :=
  { s with identities := s.identities + count }

def nextOperation (s : Supply) : Supply := { s with operations := s.operations + 1 }

def vertex (s : Supply) (stmt : Option Stmt) (scene : String) : Vertex × Supply :=
  (.ofStmt s.identities stmt scene, s.takeIdentities 1)

def perform (s : Supply) (operation : Nat → Except Fault Graph) : Except Fault (Graph × Supply) := do
  let g ← operation s.operations
  return (g, s.nextOperation)

def relabel (s : Supply) (f : Vertex → Option Vertex) (g : Graph) :
    Except Fault (Graph × Supply) :=
  (s.takeIdentities g.size).perform fun operation => g.relabel operation s.identities f

end Supply

end StoryFlow.Flow
