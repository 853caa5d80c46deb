/-! Progress notes. Verbose notes are shown on request only. -/

namespace StoryFlow

structure Note where
  verbose : Bool
  text : String
  deriving DecidableEq, Repr

namespace Note

def always (text : String) : Note := ⟨false, text⟩

def detail (text : String) : Note := ⟨true, text⟩

def ofStage (stage : String) (n : Note) : Note := { n with text := stage ++ ": " ++ n.text }

def shown (debug : Bool) (notes : List Note) : List String :=
  (notes.filter fun n => debug || !n.verbose).map Note.text

end Note

end StoryFlow
