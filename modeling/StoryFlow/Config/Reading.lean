import StoryFlow.Document.Cursor

/-! Reading values from a document. Errors of single values are collected as issues; what cannot be read
at all ends the reading at once. -/

namespace StoryFlow.Config

open Document

inductive Issue where
  | mismatch (line : Nat) (found target : String)
  | unknownField (line : Nat) (name type : String)
  | repeatedField (line : Nat) (name type : String)
  | repeatedKey (line : Nat) (key : String)
  deriving DecidableEq, Repr

def Issue.message : Issue → String
  | .mismatch line found target =>
    "line " ++ Nat.repr line ++ ": cannot unmarshal " ++ found ++ " into " ++ target
  | .unknownField line name type =>
    "line " ++ Nat.repr line ++ ": field " ++ name ++ " not found in type " ++ type
  | .repeatedField line name type =>
    "line " ++ Nat.repr line ++ ": field " ++ name ++ " already set in type " ++ type
  | .repeatedKey line key => "line " ++ Nat.repr line ++ ": key " ++ key ++ " already set in map"

inductive Abort where
  | malformed (error : SyntaxError)
  | keyNotText (key : String)
  | keyNotScalar (key : String)
  | kindCount (kinds : List String)
  deriving DecidableEq, Repr

def Abort.message : Abort → String
  | .malformed e => e.message
  | .keyNotText key => "statement key `" ++ key ++ "` is not a string"
  | .keyNotScalar key => "yaml: invalid map key: " ++ key
  | .kindCount kinds =>
    "statement must have exactly one kind, got: [" ++ String.intercalate " " kinds ++ "]"

/-- Reading gives a value and the issues on the way to it, unless it is given up. -/
inductive Reading (α : Type) where
  | ended (reason : Abort)
  | read (value : α) (found : List Issue)

namespace Reading

def bind {α β : Type} (m : Reading α) (next : α → Reading β) : Reading β :=
  match m with
  | .ended reason => .ended reason
  | .read a found =>
    match next a with
    | .ended reason => .ended reason
    | .read b more => .read b (found ++ more)

instance : Monad Reading where
  pure a := .read a []
  bind := Reading.bind

instance : MonadLift (Except Abort) Reading where
  monadLift
    | .error reason => .ended reason
    | .ok a => .read a []

/-- The value together with whether there were no issues on the way to it. -/
def checked {α : Type} (m : Reading α) : Reading (α × Bool) :=
  match m with
  | .ended reason => .ended reason
  | .read a found => .read (a, found.isEmpty) found

end Reading

def report (issue : Issue) : Reading Unit := .read () [issue]

end StoryFlow.Config
