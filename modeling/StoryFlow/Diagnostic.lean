import StoryFlow.TextArea

/-! Problems found in a story. Every problem has a kind, a message, the place it was found at, the
names it is about, and the scenes it was reached through from the innermost to the outermost. -/

namespace StoryFlow

inductive DiagnosticKind where
  | nestedMenu
  | nestedCall
  | invisibleEnd
  | emptyMenu
  | loopOutsideLoopSwitch
  | noLoopExit
  | otherNotLast
  | duplicateOther
  | notExhaustive
  | redundantOther
  | duplicateOption
  | unknownOption
  | cyclicCall
  | chapterCallCount
  | undeclaredScene
  | notDefinitelyAssigned
  | maybeAssignedTwice
  | outcomeLocked
  | undeclared
  | wrongKind
  | custom (text : String)
  deriving DecidableEq, Repr

namespace DiagnosticKind

def text : DiagnosticKind → String
  | .nestedMenu => "option body must not open with a nested switch"
  | .nestedCall => "option body must not open with a call"
  | .invisibleEnd => "branch body must not end on an invisible statement"
  | .emptyMenu => "menu has no options"
  | .loopOutsideLoopSwitch => "loop option outside of a loopswitch"
  | .noLoopExit => "loopswitch has no exit option"
  | .otherNotLast => "other branch must be last"
  | .duplicateOther => "other branch must be the sole catch-all"
  | .notExhaustive => "branchon is not exhaustive"
  | .redundantOther => "branchon is exhaustive and has an other branch"
  | .duplicateOption => "option is named more than once"
  | .unknownOption => "option is not declared"
  | .cyclicCall => "cyclic scene call"
  | .chapterCallCount => "chapter must be called exactly once"
  | .undeclaredScene => "call to undeclared scene"
  | .notDefinitelyAssigned => "not definitely assigned"
  | .maybeAssignedTwice => "might be assigned more than once"
  | .outcomeLocked => "outcome is locked"
  | .undeclared => "undeclared name"
  | .wrongKind => "wrong kind of variable"
  | .custom text => text

end DiagnosticKind

structure Diagnostic where
  kind : DiagnosticKind
  message : String
  area : Option TextArea := none
  names : List String := []
  chain : List String := []
  deriving DecidableEq

namespace Diagnostic

def text (d : Diagnostic) (workingDir : String) : String :=
  let body := if d.message.isEmpty then d.kind.text else d.message
  let body := match d.chain with
    | _ :: _ :: _ => body ++ " (in " ++ String.intercalate " < " d.chain ++ ")"
    | _ => body
  match d.area with
  | none => body
  | some area => area.byline workingDir ++ ": " ++ body

/-- Two kinds are the same kind of problem when their texts agree. -/
def isOf (d : Diagnostic) (kind : DiagnosticKind) : Bool := d.kind.text == kind.text

def ofKind (ds : List Diagnostic) (kind : DiagnosticKind) : List Diagnostic :=
  ds.filter (·.isOf kind)

def countOf (ds : List Diagnostic) (kind : DiagnosticKind) : Nat := (ofKind ds kind).length

end Diagnostic

end StoryFlow
