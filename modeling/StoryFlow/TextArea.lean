import StoryFlow.Files.Path

/-! Where a statement stands in its source. Lines and columns are stored from zero and shown from
one; both are machine words of 64 bits, so the step between the two wraps. -/

namespace StoryFlow

structure Span where
  line : Int64
  column : Int64
  endLine : Int64
  endColumn : Int64
  deriving DecidableEq

structure TextArea where
  path : String := ""
  span : Option Span := none
  deriving DecidableEq

def Span.text (s : Span) : String :=
  let show1 (n : Int64) : String := toString (n + 1).toInt
  show1 s.line ++ ":" ++ show1 s.column ++ "-" ++ show1 s.endLine ++ ":" ++ show1 s.endColumn

namespace TextArea

/-- The path as shown: relative to the working directory where that is possible. -/
def filename (area : TextArea) (workingDir : String) : String :=
  if area.path.isEmpty then "<unknown>"
  else
    match Files.Path.relativeTo area.path (workingDir ++ "/") with
    | .ok relative => relative
    | .error _ => area.path

def byline (area : TextArea) (workingDir : String) : String :=
  match area.span with
  | none => area.filename workingDir
  | some s => area.filename workingDir ++ " @ " ++ s.text

end TextArea

end StoryFlow
