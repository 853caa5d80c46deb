import StoryFlow.Files.FileSystem

/-! A model of a disk. Names are followed part by part from the working directory or from the root;
every part but the last has to be a directory. -/

namespace StoryFlow.Files

abbrev Location := List (List Char)

inductive Entry where
  | file (data : String)
  | dir (entries : List (List Char × Entry))

namespace Entry

def isDir : Entry → Bool
  | .dir _ => true
  | .file _ => false

def entries : Entry → List (List Char × Entry)
  | .dir entries => entries
  | .file _ => []

def find? : Entry → Location → Option Entry
  | e, [] => some e
  | e, part :: rest => (e.entries.lookup part).bind fun inner => inner.find? rest
termination_by structural _ place => place

def put (new : Entry) : Location → Entry → Entry
  | [], _ => new
  | part :: rest, e =>
    let inner := put new rest ((e.entries.lookup part).getD (.dir []))
    .dir ((part, inner) :: e.entries.filter (·.1 != part))

theorem find?_put (new : Entry) (place : Location) (e : Entry) :
    (put new place e).find? place = some new := by
  induction place generalizing e with
  | nil => rfl
  | cons part rest ih => simp [put, find?, entries, ih]

end Entry

structure Disk where
  workingDir : Location
  root : Entry

inductive DiskProblem where
  | missing
  | notADirectory
  | isADirectory
  | exists
  | nameTooLong
  | badName
  deriving DecidableEq, Repr

def DiskProblem.text : DiskProblem → String
  | .missing => "no such file or directory"
  | .notADirectory => "not a directory"
  | .isADirectory => "is a directory"
  | .exists => "file exists"
  | .nameTooLong => "file name too long"
  | .badName => "invalid argument"

namespace Disk

def ofFiles (workingDir : Location) (files : List (Location × String)) : Disk :=
  let empty := Entry.put (.dir []) workingDir (.dir [])
  ⟨workingDir, files.foldl (fun root f => Entry.put (.file f.2) f.1 root) empty⟩

def partLimit : Nat := 255

def nameLimit : Nat := 4096

/-- A place that may be free: the parts of its name from the inside out, and what is there. -/
structure Spot where
  reversed : Location
  entry : Option Entry

def Spot.place (s : Spot) : Location := s.reversed.reverse

def follow (d : Disk) (s : Spot) : List (List Char) → Except DiskProblem Spot
  | [] => .ok s
  | part :: rest =>
    match s.entry with
    | none => .error .missing
    | some (.file _) => .error .notADirectory
    | some (.dir entries) =>
      if part = [] || part = ['.'] then follow d s rest
      else if part = ['.', '.'] then
        let outer := s.reversed.drop 1
        follow d ⟨outer, d.root.find? outer.reverse⟩ rest
      else if partLimit < (String.ofList part).utf8ByteSize then .error .nameTooLong
      else follow d ⟨part :: s.reversed, entries.lookup part⟩ rest

/-- Where a name of the given parts leads. The empty name leads nowhere. -/
def locate (d : Disk) (name : String) (parts : List (List Char)) : Except DiskProblem Spot :=
  if name.toList.contains '\x00' then .error .badName
  else if nameLimit ≤ name.utf8ByteSize then .error .nameTooLong
  else if name.isEmpty then .error .missing
  else if Path.isRooted name then d.follow ⟨[], some d.root⟩ parts
  else d.follow ⟨d.workingDir.reverse, d.root.find? d.workingDir⟩ parts

def failure (operation name : String) (problem : DiskProblem) : FileError :=
  ⟨operation, name, problem.text⟩

def openAt (d : Disk) (name : String) : Except FileError Spot :=
  (d.locate name (Path.splitSlash name.toList)).mapError (failure "open" name)

def read (d : Disk) (name : String) : Except FileError String := do
  match (← d.openAt name).entry with
  | some (.file data) => return data
  | some (.dir _) => .error (failure "read" name .isADirectory)
  | none => .error (failure "open" name .missing)

def list (d : Disk) (name : String) : Except FileError (List Listed) := do
  match (← d.openAt name).entry with
  | some (.dir entries) =>
    let listed := entries.map fun (part, e) => (⟨String.ofList part, e.isDir⟩ : Listed)
    return listed.mergeSort fun a b => !(b.name < a.name : Bool)
  | some (.file _) => .error (failure "readdirent" name .notADirectory)
  | none => .error (failure "open" name .missing)

/-- The beginnings of a name from the outside in, all but the last with a slash behind them. -/
def beginnings (rooted : Bool) (done : Location) : Location → List String
  | [] => []
  | [part] => [Path.ofParts rooted (done ++ [part])]
  | part :: rest =>
    (Path.ofParts rooted (done ++ [part]) ++ "/") :: beginnings rooted (done ++ [part]) rest

def makeDir (d : Disk) (name : String) : Except FileError Disk := do
  let spot ← (d.locate name (Path.parts name)).mapError (failure "mkdir" name)
  match spot.entry with
  | some (.dir _) => return d
  | some (.file _) =>
    let inside := name.toList.getLast? == some '/'
    .error (failure "mkdir" name (if inside then .exists else .notADirectory))
  | none => return { d with root := Entry.put (.dir []) spot.place d.root }

def makeDirs (d : Disk) (name : String) : Except FileError Disk :=
  (beginnings (Path.isRooted name) [] (Path.parts name)).foldlM makeDir d

def write (d : Disk) (name data : String) : Except FileError Disk := do
  let spot ← d.openAt name
  match spot.entry with
  | some (.dir _) => .error (failure "open" name .isADirectory)
  | _ => return { d with root := Entry.put (.file data) spot.place d.root }

def fileSystem : FileSystem (StateM Disk) where
  read name := do ExceptT.mk (return (← get).read name)
  list name := do ExceptT.mk (return (← get).list name)
  makeDirs name := do set (← ExceptT.mk (return (← get).makeDirs name))
  write name data := do set (← ExceptT.mk (return (← get).write name data))

end Disk

end StoryFlow.Files
