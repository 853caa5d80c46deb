import StoryFlow.Config.Binding
import StoryFlow.Config.Reader
import StoryFlow.Files.FileSystem
import StoryFlow.Note

/-! Loading a story from a file: reading, parsing, binding. -/

namespace StoryFlow

open Files

inductive LoadError where
  | unreadable (error : FileError)
  | unparsed (name : String) (error : Config.ParseError)
  | unbound (name : String) (error : Config.BindError)

/-- The text of an error, unless an element of the story is not there. -/
def LoadError.message? : LoadError → Option String
  | .unreadable e => some ("can't read story: " ++ e.message)
  | .unparsed name e => some ("can't parse story " ++ name ++ ": " ++ e.message)
  | .unbound name e => e.message?.map fun text => "can't build story " ++ name ++ ": " ++ text

def Story.ofText (name text : String) : Except LoadError (Story × SymbolTable) :=
  match Config.StoryConfig.ofText text with
  | .error e => .error (.unparsed name e)
  | .ok config =>
    match config.bind name with
    | .error e => .error (.unbound name e)
    | .ok bound => .ok bound

structure Loading where
  result : Except LoadError (Story × SymbolTable)
  notes : List Note

variable {m : Type → Type} [Monad m]

def treeNotes (fs : FileSystem m) (name : String) : m (List Note) := do
  match ← (fs.tree (Path.parent name)).run with
  | .ok tree => return [.detail ("tree:\n" ++ tree)]
  | .error _ => return []

def Story.load (fs : FileSystem m) (debug : Bool) (name : String) : m Loading := do
  let notes ← if debug then treeNotes fs name else pure []
  match ← (fs.read name).run with
  | .error e => return ⟨.error (.unreadable e), notes⟩
  | .ok text =>
    match Story.ofText name text with
    | .error e => return ⟨.error e, notes⟩
    | .ok (story, table) =>
      let loaded : Note := .always
        ("loaded " ++ Nat.repr story.scenes.length ++ " scene(s) from " ++ name)
      return ⟨.ok (story, table), notes ++ [loaded]⟩

end StoryFlow
