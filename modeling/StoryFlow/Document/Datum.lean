import StoryFlow.Document.Value
import StoryFlow.Text.Quoted

/-! What a tree stands for where nothing else is known about it. Its mappings are maps: every key is a
scalar and is given once, and the order in which the entries are written does not matter. -/

namespace StoryFlow.Document

inductive Datum where
  | null
  | bool (b : Bool)
  | int (n : Int)
  | float (x : Float)
  | text (s : String)
  | list (items : List Datum)
  | map (entries : List (Datum × Datum))

namespace Datum

def isScalar : Datum → Bool
  | .list _ | .map _ => false
  | _ => true

/-- Whether two keys are the same. A number with a fraction is never the same as an integer. -/
def sameKey : Datum → Datum → Bool
  | .null, .null => true
  | .bool a, .bool b => a == b
  | .int a, .int b => a == b
  | .float a, .float b => a == b
  | .text a, .text b => a == b
  | _, _ => false

def isLarge (n : Int) : Bool := (UInt64.size / 2 : Nat) ≤ n

def kindRank : Datum → Nat
  | .null => 0
  | .bool _ => 1
  | .float _ => 2
  | .int n => if isLarge n then 5 else 3
  | .text _ => 4
  | .list _ | .map _ => 6

def before (a b : Datum) : Bool :=
  if a.kindRank == b.kindRank then
    match a, b with
    | .bool a, .bool b => !a && b
    | .int a, .int b => a < b
    | .float a, .float b => a < b || (a.isNaN && !b.isNaN)
    | .text a, .text b => a < b
    | _, _ => false
  else a.kindRank < b.kindRank

def inOrder (shown : List (Datum × String)) : List String :=
  (shown.mergeSort fun a b => !b.1.before a.1).map Prod.snd

mutual

def display : Datum → String
  | .null => "<nil>"
  | .bool b => if b then "true" else "false"
  | .int n => toString n
  | .float x => Text.Decimal.general x
  | .text s => s
  | .list items => "[" ++ String.intercalate " " (displayAll items) ++ "]"
  | .map entries => "map[" ++ String.intercalate " " (inOrder (displayEntries entries)) ++ "]"

def displayAll : List Datum → List String
  | [] => []
  | d :: rest => d.display :: displayAll rest

def displayEntries : List (Datum × Datum) → List (Datum × String)
  | [] => []
  | (key, value) :: rest => (key, key.display ++ ":" ++ value.display) :: displayEntries rest

end

def hexadecimal (n : Nat) : String :=
  "0x" ++ String.ofList (Nat.toDigits 16 n)

mutual

/-- The value spelled out, so that values of different kinds look different. -/
def spelled : Datum → String
  | .null => "interface \x7b\x7d(nil)"
  | .bool b => if b then "true" else "false"
  | .int n => if isLarge n then hexadecimal n.toNat else toString n
  | .float x => Text.Decimal.general x
  | .text s => Text.quoted s
  | .list items =>
    "[]interface \x7b\x7d\x7b" ++ String.intercalate ", " (spelledAll items) ++ "\x7d"
  | .map entries =>
    "map[interface \x7b\x7d]interface \x7b\x7d\x7b" ++
      String.intercalate ", " (inOrder (spelledEntries entries)) ++ "\x7d"

def spelledAll : List Datum → List String
  | [] => []
  | d :: rest => d.spelled :: spelledAll rest

def spelledEntries : List (Datum × Datum) → List (Datum × String)
  | [] => []
  | (key, value) :: rest => (key, key.spelled ++ ":" ++ value.spelled) :: spelledEntries rest

end

def spelledKey : Datum → String
  | .null => "<nil>"
  | d => d.spelled

structure RepeatedKey where
  line : Nat
  key : Datum

inductive Failure where
  | keyNotScalar (key : Datum)
  | noMergedMapping

/-- Reading a tree collects repeated keys, and ends at a key that is not a scalar and at a merge key that
has nothing to merge. -/
abbrev Reading := StateT (List RepeatedKey) (Except Failure)

def addEntry (entries : List (Datum × Datum)) (line : Nat) (key value : Datum) :
    Reading (List (Datum × Datum)) := do
  if entries.any (·.1.sameKey key) then
    modify (· ++ [⟨line, key⟩])
    return entries
  else return entries ++ [(key, value)]

/-- What a scalar stands for. A point in time stands for its text. -/
def ofScalar (written : String) (plain : Bool) : Datum :=
  match Node.valueOf written plain with
  | .null => .null
  | .bool b => .bool b
  | .int n => .int n
  | .float x => .float x
  | .timestamp | .text => .text written

mutual

def ofNode : Node → Reading Datum
  | .scalar _ written plain => return ofScalar written plain
  | .sequence _ items => return .list (← ofItems items)
  | .mapping _ entries => return .map (← ofEntries [] entries)

def ofItems : List Node → Reading (List Datum)
  | [] => return []
  | n :: rest => return (← ofNode n) :: (← ofItems rest)

def ofEntries (read : List (Datum × Datum)) :
    List (Node × Node) → Reading (List (Datum × Datum))
  | [] => return read
  | (key, value) :: rest => do
    if key.isMerge then ofEntries (← ofMerged read value) rest
    else
      let k ← ofNode key
      if k.isScalar then
        let v ← ofNode value
        ofEntries (← addEntry read value.line k v) rest
      else throw (.keyNotScalar k)

def ofMerged (read : List (Datum × Datum)) : Node → Reading (List (Datum × Datum))
  | .mapping _ entries => ofEntries read entries
  | .sequence _ items => ofMergedItems read items
  | .scalar _ _ _ => throw .noMergedMapping

/-- The last item comes first. -/
def ofMergedItems (read : List (Datum × Datum)) : List Node → Reading (List (Datum × Datum))
  | [] => return read
  | .mapping _ entries :: rest => do ofEntries (← ofMergedItems read rest) entries
  | _ :: rest => do
    let _ ← ofMergedItems read rest
    throw .noMergedMapping

end

end Datum

end StoryFlow.Document
