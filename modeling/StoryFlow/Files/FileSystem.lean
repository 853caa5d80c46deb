import StoryFlow.Files.Path

/-! What the program needs of a file system, whatever it is kept in. -/

namespace StoryFlow.Files

structure FileError where
  operation : String
  name : String
  cause : String
  deriving DecidableEq, Repr

def FileError.message (e : FileError) : String :=
  e.operation ++ " " ++ e.name ++ ": " ++ e.cause

structure Listed where
  name : String
  isDir : Bool
  deriving DecidableEq, Repr

/-- Directories are listed in the order of their names; making a directory makes those around it. -/
structure FileSystem (m : Type → Type) where
  read : String → ExceptT FileError m String
  list : String → ExceptT FileError m (List Listed)
  makeDirs : String → ExceptT FileError m Unit
  write : String → String → ExceptT FileError m Unit

namespace FileSystem

variable {m : Type → Type} [Monad m]

def treeLine (indent : String) (last : Bool) (e : Listed) : String :=
  indent ++ (if last then "└── " else "├── ") ++ e.name ++ (if e.isDir then "/" else "") ++ "\n"

def treeLines (fs : FileSystem m) : Nat → String → String → ExceptT FileError m String
  | 0, _, _ => return ""
  | depth + 1, dir, indent => do
    let entries ← fs.list dir
    let lines ← entries.zipIdx.mapM fun (e, index) => do
      let last := index + 1 == entries.length
      let line := treeLine indent last e
      if e.isDir then
        let inner ← treeLines fs depth (Path.join dir e.name)
          (indent ++ if last then "    " else "│   ")
        return line ++ inner
      else return line
    return String.join lines

def tree (fs : FileSystem m) (name : String) : ExceptT FileError m String := do
  return ".\n" ++ (← fs.treeLines 1000 (Path.clean name) "")

def writeFile (fs : FileSystem m) (name data : String) : ExceptT FileError m Unit := do
  let dir := Path.parent name
  if dir != "." && dir != "/" then fs.makeDirs dir
  fs.write name data

end FileSystem

end StoryFlow.Files
