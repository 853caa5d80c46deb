import StoryFlow.Closure
import StoryFlow.Story.Walk

/-! Which scene calls which. The walk goes through the scenes in the order of the story and through
their calls in source order; it finishes callees before their callers and finds a cycle for every call
back to a scene that is still open. -/

namespace StoryFlow

structure CallSite where
  caller : String
  callee : String
  area : TextArea
  deriving DecidableEq

/-- The scenes in story order, each with its calls to declared scenes. -/
structure CallGraph where
  scenes : List (String × List CallSite)

/-- The scenes from a repeated one back to itself, and the call that closes the cycle. -/
structure CallCycle where
  names : List String
  site : CallSite
  deriving DecidableEq

namespace CallGraph

def names (c : CallGraph) : List String := c.scenes.map Prod.fst

def sites (c : CallGraph) (name : String) : List CallSite :=
  ((c.scenes.find? (·.1 == name)).map Prod.snd).getD []

def callees (c : CallGraph) (name : String) : List String := (c.sites name).map CallSite.callee

structure Progress where
  finished : List String := []
  cycles : List CallCycle := []

/-- Two cycles count as one when their names read the same with a NUL character between them. -/
def cycleKey (c : CallCycle) : String := String.intercalate "\x00" c.names

def addCycle (p : Progress) (c : CallCycle) : Progress :=
  if p.cycles.any fun known => cycleKey known == cycleKey c then p
  else { p with cycles := p.cycles ++ [c] }

def closed (path : List String) (name : String) : List String :=
  name :: (path.takeWhile (· != name)).reverse ++ [name]

/-- Visits a scene that is neither open nor finished. The open scenes are on the path, so the visits
are never deeper than there are scenes. -/
def visit (c : CallGraph) : Nat → List String → String → Progress → Progress
  | 0, _, _, p => p
  | depth + 1, outer, name, p =>
    let path := name :: outer
    let p := (c.sites name).foldl (fun p site =>
      if p.finished.contains site.callee then p
      else if path.contains site.callee then addCycle p ⟨closed path site.callee, site⟩
      else visit c depth path site.callee p) p
    { p with finished := p.finished ++ [name] }

def walk (c : CallGraph) : Progress :=
  c.names.foldl (fun p name =>
    if p.finished.contains name then p else c.visit c.scenes.length [] name p) {}

def reachable (c : CallGraph) (name : String) : List String :=
  reachableFrom c.callees (c.scenes.length + 1) [name]

end CallGraph

def Story.callSites (story : Story) (s : Scene) : List CallSite :=
  (s.calls.filter fun call => (story.scene? call.scene).isSome).map fun call =>
    ⟨s.name, call.scene, call.area⟩

def Story.callGraph (story : Story) : CallGraph :=
  ⟨story.scenes.map fun s => (s.name, story.callSites s)⟩

def Story.reachableScenes (story : Story) : List String :=
  match story.entryScene? with
  | none => []
  | some entry =>
    let reached := story.callGraph.reachable entry.name
    (story.scenes.map Scene.name).filter reached.contains

end StoryFlow
