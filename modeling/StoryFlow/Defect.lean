import StoryFlow.Flow.Validate

/-! Broken promises of the compilation itself. No story is to blame for one. -/

namespace StoryFlow

inductive Defect where
  | flow (fault : Flow.Fault)
  | invalidScene (scene : String) (problems : Failure)
  | invalidProgram (problems : Failure)
  | notExpanded (scene caller : String)

namespace Defect

def message? : Defect → Option String
  | .flow fault => fault.message?
  | .invalidScene scene problems =>
    some ("scene(" ++ scene ++ "): built an invalid graph: " ++ problems.text)
  | .invalidProgram problems => some ("inlining built an invalid graph: " ++ problems.text)
  | .notExpanded scene caller =>
    some ("scene " ++ scene ++ " was not expanded before " ++ caller)

def ofFault {α : Type} : Except Flow.Fault α → Except Defect α
  | .ok a => .ok a
  | .error fault => .error (.flow fault)

end Defect

end StoryFlow
