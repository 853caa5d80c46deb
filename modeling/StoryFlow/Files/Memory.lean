import StoryFlow.Files.FileSystem
import StoryFlow.Names

/-! Files that are kept in memory. Names are taken as they are spelled, cleaned up, and a directory lists
what it holds in the order of these names. The root is always there. Something that gets an entry
becomes a directory, whatever it was. -/

namespace StoryFlow.Files

structure Stored where
  name : String
  isDir : Bool
  data : String := ""
  deriving DecidableEq, Repr

structure Memory where
  entries : List Stored := [⟨"/", true, ""⟩]

namespace Memory

def stored (name : String) : String :=
  let clean := Path.clean name
  if clean == "." || clean == ".." then "/" else clean

def find? (m : Memory) (name : String) : Option Stored := m.entries.find? (·.name == name)

def put (m : Memory) (e : Stored) : Memory :=
  ⟨m.entries.filter (·.name != e.name) ++ [e]⟩

def asDir (m : Memory) (name : String) : Memory :=
  match m.find? name with
  | some e => m.put { e with isDir := true }
  | none => m.put ⟨name, true, ""⟩

/-- What holds the thing of a name. A name without a directory is held by the root. -/
def holder (name : String) : String := stored (Path.parent name)

def withParents : Nat → Memory → String → Memory
  | 0, m, _ => m
  | depth + 1, m, name =>
    let parent := holder name
    if name == "/" then m
    else
      match m.find? parent with
      | some _ => m.asDir parent
      | none => withParents depth (m.asDir parent) parent

def create (m : Memory) (e : Stored) : Memory := withParents e.name.length (m.put e) e.name

def missing (name : String) : FileError := ⟨"open", name, "file does not exist"⟩

def read (m : Memory) (name : String) : Except FileError String :=
  match m.find? (stored name) with
  | some e => .ok e.data
  | none => .error (missing (stored name))

def list (m : Memory) (name : String) : Except FileError (List Listed) :=
  match m.find? (stored name) with
  | none => .error (missing (stored name))
  | some dir =>
    if dir.isDir then
      let inside := m.entries.filter fun e => e.name != "/" && holder e.name == dir.name
      let sorted := inside.mergeSort fun a b => !(b.name < a.name : Bool)
      .ok (sorted.map fun e => ⟨Path.leaf e.name, e.isDir⟩)
    else .error ⟨"readdir", dir.name, "not a dir"⟩

/-- Making a directory over something that is there does nothing. -/
def makeDirs (m : Memory) (name : String) : Memory :=
  match m.find? (stored name) with
  | some _ => m
  | none => m.create ⟨stored name, true, ""⟩

def write (m : Memory) (name data : String) : Memory :=
  match m.find? (stored name) with
  | some e => m.put { e with data }
  | none => m.create ⟨stored name, false, data⟩

def fileSystem : FileSystem (StateM Memory) where
  read name := do ExceptT.mk (return (← get).read name)
  list name := do ExceptT.mk (return (← get).list name)
  makeDirs name := modify (·.makeDirs name)
  write name data := modify (·.write name data)

end Memory

end StoryFlow.Files
