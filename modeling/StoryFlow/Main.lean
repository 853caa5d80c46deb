import StoryFlow.Command.Run

/-! The program on a real disk. Everything it decides is decided elsewhere; here it only reads, lists,
writes and prints. -/

namespace StoryFlow.Command

open Files

/-- Says in the words of the file system why an operation failed. A directory that cannot be made
because its name is taken has a file in its way. -/
def causeOf : IO.Error → String
  | .noFileOrDirectory .. => "no such file or directory"
  | .inappropriateType .. => "not a directory"
  | .alreadyExists .. => "not a directory"
  | .permissionDenied .. => "permission denied"
  | e => toString e

def attempt {α : Type} (operation name : String) (action : IO α) : ExceptT FileError IO α :=
  ExceptT.mk do
    match ← action.toBaseIO with
    | .ok a => return .ok a
    | .error e => return .error ⟨operation, name, causeOf e⟩

def readDisk (name : String) : ExceptT FileError IO String := do
  let path := (← IO.currentDir) / name
  if ← path.isDir then throw ⟨"read", name, "is a directory"⟩
  attempt "open" name (IO.FS.readFile path)

def listDisk (name : String) : ExceptT FileError IO (List Listed) := do
  let path := (← IO.currentDir) / name
  let entries ← attempt "open" name path.readDir
  let sorted := entries.toList.mergeSort fun a b => !(b.fileName < a.fileName : Bool)
  sorted.mapM fun e => do return ⟨e.fileName, ← attempt "stat" e.fileName e.path.isDir⟩

def realDisk : FileSystem IO where
  read := readDisk
  list := listDisk
  makeDirs name := do attempt "mkdir" name (IO.FS.createDirAll ((← IO.currentDir) / name))
  write name data := do attempt "open" name (IO.FS.writeFile ((← IO.currentDir) / name) data)

/-- The conditions of use stand in a file beside the program. Without them it does not run. -/
def readCopying : IO String := do
  let path := (← IO.appDir) / "COPYING"
  if ← path.pathExists then IO.FS.readFile path else return ""

def identity : IO Identity := do
  return {
    program := (← IO.appPath).fileName.getD ""
    version := "(devel)"
    copying := ← readCopying
    tagline := "flow analysis for branching stories" }

def realHost : IO (Host IO) := do
  return {
    files := realDisk
    print := IO.print
    log := IO.eprintln
    workingDir := (← IO.currentDir).toString
    environment := ← IO.getEnv debugVariable
    cancelled := false }

def runProgram (args : List String) : IO UInt32 := do
  match ← (run (← realHost) (some (← identity)) args).run with
  | .ok () => return 0
  | .error e =>
    match e.message? with
    | some text => IO.println text; return 1
    | none => IO.eprintln "a part of the story is not there"; return 2

end StoryFlow.Command

def main (args : List String) : IO UInt32 := StoryFlow.Command.runProgram args
