/-! Failures that carry their context, and several failures reported as one. -/

namespace StoryFlow

inductive Failure where
  | plain (text : String)
  | within (context : String) (cause : Failure)
  | several (failures : List Failure)
  deriving Repr

namespace Failure

def joined (points : List String) : String :=
  let head := match points with
    | [_] => "1 error occurred:\n\t"
    | _ => Nat.repr points.length ++ " errors occurred:\n\t"
  head ++ String.intercalate "\n\t" points ++ "\n\n"

mutual

def text : Failure → String
  | .plain text => text
  | .within context cause => context ++ ": " ++ cause.text
  | .several failures => joined (points failures)

def points : List Failure → List String
  | [] => []
  | failure :: rest => ("* " ++ failure.text) :: points rest

end

/-- The failures that one failure stands for. Those inside a context are not looked at. -/
def parts : Failure → List Failure
  | .several failures => failures
  | failure => [failure]

/-- Nothing is neutral; two failures become the list of the failures they stand for. -/
def append : Option Failure → Option Failure → Option Failure
  | none, second => second
  | first, none => first
  | some first, some second => some (.several (first.parts ++ second.parts))

def join (failures : List (Option Failure)) : Option Failure :=
  failures.foldl append none

def partsOf : Option Failure → List Failure
  | none => []
  | some failure => failure.parts

def textOf : Option Failure → String
  | none => ""
  | some failure => failure.text

def wrap (context : String) (failure : Option Failure) : Option Failure :=
  failure.map (.within context)

theorem append_none (failure : Option Failure) : append failure none = failure := by
  cases failure <;> rfl

theorem none_append (failure : Option Failure) : append none failure = failure := by
  cases failure <;> rfl

theorem partsOf_append (first second : Option Failure) :
    partsOf (append first second) = partsOf first ++ partsOf second := by
  cases first <;> cases second <;> simp [append, partsOf, parts]

end Failure

end StoryFlow
