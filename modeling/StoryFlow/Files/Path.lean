import StoryFlow.Text.Separated

/-! Slash-separated paths as text. -/

namespace StoryFlow.Files.Path

inductive BaseError where
  | notADirectory
  | notBelow
  deriving DecidableEq, Repr

def BaseError.message : BaseError → String
  | .notADirectory => "base is not a directory"
  | .notBelow => "path does not have base prefix"

def relativeTo (path base : String) : Except BaseError String :=
  if base.toList.getLast? != some '/' then .error .notADirectory
  else
    match base.toList.isPrefixOf? path.toList with
    | some rest => .ok (String.ofList rest)
    | none => .error .notBelow

def splitSlash (cs : List Char) : List (List Char) := Text.separated '/' cs

def isRooted (path : String) : Bool := path.toList.head? == some '/'

/-- Takes one part of a path: nothing and a dot stay, two dots go up where they can. -/
def stepInto (rooted : Bool) (stack : List (List Char)) (part : List Char) : List (List Char) :=
  if part = [] || part = ['.'] then stack
  else if part = ['.', '.'] then
    match stack with
    | [] => if rooted then [] else [part]
    | top :: below => if top = ['.', '.'] then part :: stack else below
  else part :: stack

def parts (path : String) : List (List Char) :=
  ((splitSlash path.toList).foldl (stepInto (isRooted path)) []).reverse

def ofParts (rooted : Bool) (parts : List (List Char)) : String :=
  let body := String.intercalate "/" (parts.map String.ofList)
  if rooted then "/" ++ body
  else if parts.isEmpty then "." else body

def clean (path : String) : String := ofParts (isRooted path) (parts path)

def upToLastSlash (path : String) : String :=
  String.ofList (path.toList.reverse.dropWhile (· != '/')).reverse

def parent (path : String) : String := clean (upToLastSlash path)

def leaf (path : String) : String :=
  match (parts path).getLast? with
  | some part => String.ofList part
  | none => if isRooted path then "/" else "."

def join (dir name : String) : String :=
  if dir.isEmpty then clean name
  else if name.isEmpty then clean dir
  else clean (dir ++ "/" ++ name)

end StoryFlow.Files.Path
